import LuaBundle.Engine.Job

/-! Compiling the scripts of a program into an executable. The compiler is given the entry and then
the other files, by their paths from the directory of the entry, where it is started; it leaves
there a file with the name of the entry without `.lua`. -/

namespace LuaBundle.Engine

/-- The arguments for the files of a manifest. -/
def luastaticArguments (base : Text) (manifest : Manifest) (extra : List Text) : List Text :=
  match manifest.entryPoint? with
  | none => extra
  | some entry =>
    let shown := Path.relative base (Path.parent entry.path)
    shown entry.path :: (manifest.files.filter (· != entry.path)).map shown ++ extra

/-- The file that the compiler leaves for an entry. -/
def producedPath (entryPath : Text) : Text :=
  Path.join [Path.parent entryPath, Path.baseName ".lua" entryPath]

/-- Moves the file that the compiler left to where it should be. -/
def moveOutput (produced target : Text) : Task BuildError Unit := do
  if produced = target then return ()
  else
    prepareDirectory target
    Task.tryChange (unwritable target) fun w => w.copyFile produced target
    Task.change (unwritable target) fun w => w.removeFile produced

def invokeLuastatic (e : Engine) (t : Toolchain) (job : Job) : Task BuildError Text := do
  let program ← e.locate t "luastatic"
  match job.manifest.entryPoint? with
  | none => Task.fail (.bundle .emptyManifest)
  | some entry =>
    let w ← Task.workspace
    let arguments := luastaticArguments w.base job.manifest job.extraArguments
    e.execute t ⟨program, arguments, Path.parent entry.path⟩
    let produced := producedPath entry.path
    e.expect produced
    let target := w.absolute job.outputPath
    moveOutput produced target
    makeExecutable t target
    return target

end LuaBundle.Engine
