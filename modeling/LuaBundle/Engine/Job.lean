import LuaBundle.Bundle.Write
import LuaBundle.Build.Error
import LuaBundle.Engine.Toolchain

/-! What every engine does in the same way: it looks up programs, runs them, and makes the result
executable. -/

namespace LuaBundle

open Text

/-- What to make an executable from, and where to put it. -/
structure Job where
  manifest : Manifest
  outputPath : Text
  extraArguments : List Text
  deriving DecidableEq, Repr

namespace Engine

def refuse {α : Type} (error : PackagingError) : Task BuildError α := Task.fail (.packaging error)

/-- An output that cannot be written, as an error that is reported. -/
def unwritable (path : Text) (error : FileError) : Failure BuildError :=
  (Bundle.unwritable path error).map .bundle

def locate (e : Engine) (t : Toolchain) (name : Text) : Task BuildError Text := do
  match t.find (← Task.workspace) name with
  | some path => return path
  | none => refuse (.toolchainNotFound e.name [name] e.installHint)

/-- Runs a command, which must end well. -/
def execute (e : Engine) (t : Toolchain) (c : Command) : Task BuildError Unit := do
  Task.report (.engineInvoked e.name (c.program :: c.arguments))
  match ← Task.call t.run c with
  | .succeeded _ => return ()
  | .failed error exitCode stderr =>
    refuse (.processFailed e.name (Path.baseName [] c.program :: c.arguments) exitCode
      (stderr.getD error))

/-- A file that a command should have left. -/
def expect (e : Engine) (path : Text) : Task BuildError Unit := do
  if (← Task.workspace).pathExists path then return ()
  else refuse (.artifactMissing e.name path)

def prepareDirectory (path : Text) : Task BuildError Unit :=
  Task.tryChange (unwritable path) fun w => w.makeDirectories (Path.parent path)

/-- Gives an output the mode of a program, where files have modes. -/
def makeExecutable (t : Toolchain) (path : Text) : Task BuildError Unit := do
  if t.platform = windows then return ()
  else Task.change .interrupted fun w => w.changeMode path Workspace.executableMode

end Engine

end LuaBundle
