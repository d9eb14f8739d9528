import LuaBundle.Engine.Basic
import LuaBundle.Session

/-! The programs of the host: where they are found and what they do. -/

namespace LuaBundle

open Text

/-- A platform on which files need no mode to be executable, and names may leave out an ending. -/
def windows : Text := "win32"

/-- What a host puts after a name to tell a new directory from others. -/
structure Suffix where
  letters : Text
  plain : letters.all isWordUnit = true

instance : Inhabited Suffix := ⟨⟨"XXXXXX", by decide⟩⟩

/-- The host of a run. What its programs do to the workspace is theirs to decide. -/
structure Toolchain where
  platform : Text
  find : Workspace → Text → Option Text
  run : Command → Workspace → CommandResult × Workspace
  /-- The suffix that is drawn for a temporary directory. -/
  drawn : Suffix

/-- Variables of the environment that say where programs are. -/
structure SearchPath where
  /-- The directories, between colons. -/
  directories : Option Text
  /-- The directories, if the first variable is not set. -/
  otherDirectories : Option Text
  /-- The endings that names of programs may leave out, between semicolons. -/
  endings : Option Text
  deriving DecidableEq, Repr

namespace SearchPath

def directoryList (p : SearchPath) : List Text :=
  (splitOn (· == colon) ((p.directories <|> p.otherDirectories).getD [])).filter (!·.isEmpty)

def endingList (p : SearchPath) (platform : Text) : List Text :=
  if platform = windows then
    [] :: splitOn (· == unit ';') (p.endings.getD ".EXE;.CMD;.BAT;.COM")
  else [[]]

/-- The first file that a program's name stands for and that can be executed. -/
def find (p : SearchPath) (platform : Text) (w : Workspace) (name : Text) : Option Text :=
  let candidates := p.directoryList.flatMap fun dir =>
    (p.endingList platform).map fun ending => Path.join [dir, name ++ ending]
  candidates.find? fun path =>
    if platform = windows then w.isFile path else w.isExecutable path

end SearchPath

namespace Toolchain

def missing (t : Toolchain) (w : Workspace) (e : Engine) : List Text :=
  e.executables.filter fun name => (t.find w name).isNone

def probe (t : Toolchain) (w : Workspace) (e : Engine) : Bool :=
  e.supports t.platform && (t.missing w e).isEmpty

inductive Status where
  | available
  | missing
  | unsupported
  deriving DecidableEq, Repr

def status (t : Toolchain) (w : Workspace) (e : Engine) : Status :=
  if !e.supports t.platform then .unsupported
  else if t.probe w e then .available
  else .missing

end Toolchain

end LuaBundle
