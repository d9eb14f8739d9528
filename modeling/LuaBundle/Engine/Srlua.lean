import LuaBundle.Engine.Job

/-! Gluing a bundle onto an interpreter. The bundle is written to a temporary directory, which is
removed at the end however it ends. -/

namespace LuaBundle.Engine

open Text

/-- The directory for the bundle while it is needed. -/
def buildDirectory (t : Toolchain) : Text := ofString "/tmp/luastitch-srlua-" ++ t.drawn.letters

/-- The interpreter of an engine that does not name one. -/
def defaultStub : Text := "srlua"

/-- Writes the bundle and glues it onto the interpreter. -/
def glue (e : Engine) (t : Toolchain) (program stub : Text) (job : Job) : Task BuildError Text := do
  let bundled ← (Bundle.write Bundle.version job.manifest
    (Path.join [buildDirectory t, "bundle.lua"])).mapError .bundle
  let target := (← Task.workspace).absolute job.outputPath
  prepareDirectory target
  e.execute t ⟨program, [stub, bundled, target], Path.parent target⟩
  e.expect target
  makeExecutable t target
  return target

def invokeSrlua (e : Engine) (t : Toolchain) (stub : Option Text) (job : Job) :
    Task BuildError Text := do
  let program ← e.locate t "srglue"
  let stub ← e.locate t (stub.getD defaultStub)
  Task.change .interrupted fun w => w.makeTemporary (buildDirectory t)
  (e.glue t program stub job).afterwards fun w => w.removeAll (buildDirectory t)

end LuaBundle.Engine
