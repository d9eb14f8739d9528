import LuaBundle.CommandLine.Run

/-! The program. The files around the working directory and around the script are read into a
workspace, the command line runs on it, and then its output is shown and its changes are made. No
program of the host is started from here: every engine counts as missing. -/

namespace LuaBundle.Program

def place (w : Workspace) (path : String) (n : Node) : Workspace := w.put (Path.walk [] path) n

mutual

/-- Reads an entry and what is below it. A link stands for the file that it leads to, and a file
that cannot be read has no content here. -/
partial def readEntry (w : Workspace) (path : String) : IO Workspace := do
  let here := (← IO.currentDir) / path
  try
    match (← here.symlinkMetadata).type with
    | .dir => readTree (place w path .directory) path
    | .file =>
      try return place w path (.file (← IO.FS.readBinFile here).toList Workspace.newFileMode)
      catch _ => return place w path (.file [] { Workspace.newFileMode with readable := false })
    | .symlink =>
      return place w path (.link (Text.ofString (← IO.FS.realPath here).toString))
    | .other => return w
  catch _ => return w

partial def readTree (w : Workspace) (path : String) : IO Workspace := do
  let here := (← IO.currentDir) / path
  (← here.readDir).foldlM (fun w e => readEntry w e.path.toString) w

end

def readSettings (w : Workspace) (names : List Text) : IO Workspace :=
  readEntry (w.put names .directory) (Path.join [Path.render names, Config.fileName]).toString

/-- Reads a directory, and the files of settings in it and above it. -/
def readAround (w : Workspace) (dir : Text) : IO Workspace := do
  let names := Path.walk [] (w.absolute dir)
  let w ← (List.range names.length).foldlM (fun w n => readSettings w (names.take n)) w
  readEntry w (Path.render names).toString

def directories (a : Arguments) : List Text :=
  [Text.dot] :: a.options.paths ++
    (a.entryFile.toList ++ a.options.config.toList ++ a.options.requires.getD []).map Path.parent

/-- A digit of a mode as rights. -/
def rights (digit : Nat) : IO.AccessRight :=
  { read := digit.testBit 2, write := digit.testBit 1, execution := digit.testBit 0 }

def content? : Node → Option Bytes
  | .file content _ => some content
  | _ => none

/-- Makes an entry of the host what it is in a workspace. A file is written only if its content has
changed. -/
def store (before : Option Node) (l : Location) (n : Node) : IO Unit := do
  let path := (← IO.currentDir) / (Path.render l).toString
  match n with
  | .directory => IO.FS.createDirAll path
  | .file content mode =>
    if before.bind content? ≠ some content then IO.FS.writeBinFile path ⟨content.toArray⟩
    IO.setAccessRights path
      { user := rights (mode.bits / 64 % 8), group := rights (mode.bits / 8 % 8)
        other := rights (mode.bits % 8) }
  | .link _ => return ()

def apply (before after : Workspace) : IO Unit := do
  for (l, n) in after.entries do
    let old := before.entries.get? l
    if old ≠ some n then store old l n
  for (l, n) in before.entries do
    if after.entries.get? l = none ∧ n ≠ .directory then
      IO.FS.removeFile ((← IO.currentDir) / (Path.render l).toString)

/-- A host without programs. -/
def toolchain : Toolchain :=
  { platform := Settings.homePlatform
    find := fun _ _ => none
    drawn := default
    run := fun c w => (.failed (c.program ++ " could not be started") none none, w) }

def printLine : OutputLine → IO Unit
  | .out t => IO.println t.toString
  | .err t => IO.eprintln t.toString

end LuaBundle.Program

open LuaBundle Program in
def main (arguments : List String) : IO UInt32 := do
  let arguments := arguments.map Text.ofString
  let base := Text.ofString (← IO.currentDir).toString
  let w ← (directories (Arguments.parse arguments)).foldlM readAround ⟨base, []⟩
  let o := CommandLine.run toolchain w arguments
  o.log.forM Program.printLine
  apply w o.session.workspace
  match o.result with
  | .ok code => return code.toUInt32
  | .error (.interrupted error) =>
    IO.eprintln error.message.toString
    return 1
  | .error _ => return 1
