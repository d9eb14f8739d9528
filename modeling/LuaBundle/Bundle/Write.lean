import LuaBundle.Bundle.Basic
import LuaBundle.Session

/-! Storing a bundle. The bundle is made before anything is written; directories that are missing
above the file are made. -/

namespace LuaBundle.Bundle

/-- An output that cannot be written, as an error that is reported. -/
def unwritable (path : Text) (error : FileError) : Failure BundleError :=
  .reported (.outputUnwritable path error.message)

def write (version : Text) (manifest : Manifest) (outputPath : Text) : Task BundleError Text := do
  let w ← Task.workspace
  let text ← Task.ofExcept (ofManifest w version manifest)
  let target := w.absolute outputPath
  Task.tryChange (unwritable target) fun w => w.makeDirectories (Path.parent target)
  Task.change (unwritable target) fun w => w.writeText target text
  Task.report (.bundleWritten target)
  return target

/-- Writes the bundle of files of which the last is the entry. -/
def writeFiles (version : Text) (files : List Text) (outputPath : Text) :
    Task BundleError Text := do
  let w ← Task.workspace
  write version (Manifest.ofFiles w.base files) outputPath

end LuaBundle.Bundle
