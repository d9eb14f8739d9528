import LuaBundle.Analysis.Error
import LuaBundle.Failure
import LuaBundle.Module.Name
import LuaBundle.Workspace.Read

/-! Which file a required name stands for. The first readable script counts, whatever native
libraries there are; a native library is an error, since a bundle holds scripts alone. -/

namespace LuaBundle

inductive ResolvedModule where
  | script (name path : Text)
  | builtin (name : Text)
  deriving DecidableEq, Repr

namespace ResolvedModule

/-- The directories that a name is looked for in: for a name that is a path from the file that
requires it, the directory of that file alone. -/
def rootsFor (roots : List Text) (requiredBy name : Text) : List Text :=
  if ModuleName.isRelative name then [Path.parent requiredBy] else roots

def find (w : Workspace) (roots : List Text) (requiredBy name : Text) :
    Except (Failure AnalysisError) ResolvedModule :=
  if ModuleName.isBuiltin name then .ok (.builtin name)
  else
    let roots := rootsFor roots requiredBy name
    let scripts := ModuleName.scriptCandidates w.base name roots
    match scripts.find? w.isReadable with
    | some found =>
      match w.canonical found with
      | .ok path => .ok (.script name path)
      | .error error => .error (.interrupted error)
    | none =>
      match (ModuleName.nativeCandidates w.base name roots).find? w.isReadable with
      | some found => .error (.reported (.nativeModule name requiredBy found))
      | none => .error (.reported (.moduleNotFound name requiredBy scripts))

end ResolvedModule

end LuaBundle
