import LuaBundle.Module.Key

/-! What goes into a bundle: files with the keys they are required by, dependencies first and the
entry of the program last. A file may have several keys. -/

namespace LuaBundle

structure ManifestEntry where
  key : Text
  path : Text
  deriving DecidableEq, Repr

abbrev Manifest := List ManifestEntry

namespace Manifest

def entryPoint? (m : Manifest) : Option ManifestEntry := m.getLast?

/-- A list with only the first of equal members. -/
def distinct : List Text → List Text
  | [] => []
  | x :: rest => x :: (distinct rest).filter (· != x)

def files (m : Manifest) : List Text := distinct (m.map (·.path))

/-- The key of a file beside an entry: by its path from the directory of the entry. -/
def keyBeside (base entryPath file : Text) : Text :=
  ModuleKey.ofPath (Path.relative base (Path.parent entryPath) file)

def ofFiles (base : Text) (files : List Text) : Manifest :=
  let absolute := files.map fun file => Path.resolve base [file]
  match absolute.getLast? with
  | none => []
  | some entry => absolute.map fun file => ⟨keyBeside base entry file, file⟩

end Manifest

end LuaBundle
