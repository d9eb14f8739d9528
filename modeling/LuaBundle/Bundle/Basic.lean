import LuaBundle.Bundle.Embedding
import LuaBundle.Bundle.Header
import LuaBundle.Bundle.Prelude
import LuaBundle.Workspace.Read

/-! A bundle: one source that holds the scripts of a program and runs the last of them. After the
header and the prelude come statements that register the modules, and one that runs the entry. -/

namespace LuaBundle.Bundle

open Text

/-- A statement that follows the prelude. -/
inductive Statement where
  /-- Registers the function that runs a module. -/
  | loader (key body : Text)
  /-- Registers another name of a module. -/
  | synonym (name key : Text)
  /-- Runs a module with the arguments of the program. -/
  | run (key : Text)
  deriving DecidableEq, Repr

def Statement.text : Statement → Text
  | loader key body =>
    element moduleTable (Quoted.encode key) ++ " = function(...) local require = " ++
      requireFunction ++ lineFeed :: body ++ "\nend\n"
  | synonym name key =>
    element aliasTable (Quoted.encode name) ++ " = " ++ Quoted.encode key ++ [lineFeed]
  | run key => ofString "return " ++ element moduleTable (Quoted.encode key) ++ "(...)\n"

/-- The text of a script as the body of a function. A first line that names an interpreter is left
empty, so that the other lines keep their numbers. -/
def moduleBody (source : Text) : Text :=
  if source.head? = some hash then source.dropWhile (· != lineFeed) else source

def register (m : EmbeddedModule) (source : Text) : List Statement :=
  .loader m.key (moduleBody source) :: m.aliases.map fun name => .synonym name m.key

def readSource (w : Workspace) (m : EmbeddedModule) : Except BundleError Text :=
  (w.readText m.path).mapError fun error => .sourceUnreadable m.path error.message

def runEntry (modules : List EmbeddedModule) (entry : ManifestEntry) : Statement :=
  match modules.find? fun m => m.path = entry.path with
  | some m => .run m.key
  | none => .run entry.key

def statements (w : Workspace) (manifest : Manifest) : Except BundleError (List Statement) :=
  match manifest.entryPoint? with
  | none => .error .emptyManifest
  | some entry => do
    let modules ← EmbeddedModule.ofManifest manifest
    let registered ← modules.mapM fun m => return register m (← readSource w m)
    return registered.flatten ++ [runEntry modules entry]

/-- The parts of a bundle with a line feed between them. -/
def render (version : Text) (manifest : Manifest) (statements : List Statement) : Text :=
  joinWith [lineFeed] (header version manifest :: prelude :: statements.map Statement.text)

def ofManifest (w : Workspace) (version : Text) (manifest : Manifest) : Except BundleError Text :=
  (statements w manifest).map (render version manifest)

end LuaBundle.Bundle
