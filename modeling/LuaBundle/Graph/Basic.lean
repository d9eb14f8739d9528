import LuaBundle.Graph.Search
import LuaBundle.Manifest
import LuaBundle.Source.RequireSite

/-! The modules of a program and which of them require which. -/

namespace LuaBundle

/-- A script with its text and the places where it requires modules. -/
structure SourceFile where
  path : Text
  text : Text
  requires : List RequireSite
  deriving DecidableEq

structure ModuleGraph where
  entry : Text
  /-- The scripts in the order of their discovery, the entry first. -/
  files : List SourceFile
  /-- For each script those it requires, in the order of the places. -/
  edges : Edges Text
  /-- For each script the names it is required by. -/
  names : OrderedMap Text (List Text)
  deriving DecidableEq

namespace ModuleGraph

def withoutEntry (entry : Text) (paths : List Text) : List Text := paths.filter (· != entry)

def dependencies (g : ModuleGraph) : List Text :=
  withoutEntry g.entry (g.files.map (·.path))

/-- The manifest of a program: every dependency under each of its names, then the entry. -/
def manifest (g : ModuleGraph) : Manifest :=
  (g.dependencies.flatMap fun file =>
    ((g.names.get? file).getD []).map fun name => ⟨name, file⟩) ++
  [⟨ModuleKey.ofEntry g.entry, g.entry⟩]

def edgeCount (g : ModuleGraph) : Nat := g.edges.count

end ModuleGraph

end LuaBundle
