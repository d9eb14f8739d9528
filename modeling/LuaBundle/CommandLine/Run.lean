import LuaBundle.CommandLine.Commands
import LuaBundle.CommandLine.Help

/-! Running a command line. The exit code is 0 when all went well, 1 after an error, and 2 for a
command that does not exist. -/

namespace LuaBundle

open Text

namespace CommandLine

/-- The end of a run: an exit code, unless the run was cut short. -/
abbrev Exit := Except (Failure Empty) Nat

def finish (code : Nat) (log : List OutputLine) (w : Workspace) : Outcome Exit :=
  ⟨.ok code, log, .start w⟩

def errorLine (message : Text) : OutputLine := .err (ofString "Error: " ++ message)

def conclude (o : Outcome (Except (Failure Text) Unit)) : Outcome Exit :=
  match o.result with
  | .ok () => o.map fun _ => .ok 0
  | .error (.reported message) => (o.map fun _ => .ok 1).append [errorLine message]
  | .error (.interrupted error) => o.map fun _ => .error (.interrupted error)
  | .error .exhausted => o.map fun _ => .error .exhausted

def runScript (w : Workspace) (a : Arguments)
    (command : Settings → Outcome (Except (Failure Text) Unit)) : Outcome Exit :=
  match Settings.given a.entryFile with
  | none =>
    finish 1
      [errorLine (a.command ++ " command requires an entry script"),
        .err (ofString "  Usage: luastitch " ++ a.command ++ " <entry.lua> [options]")] w
  | some entryFile =>
    if !Arguments.isScript entryFile then
      finish 1 [errorLine (ofString "Entry script must be a .lua file: " ++ entryFile)] w
    else
      match Settings.load w entryFile a.options with
      | .error error => finish 1 [errorLine error.message] w
      | .ok settings => conclude (command settings)

def run (t : Toolchain) (w : Workspace) (arguments : List Text) : Outcome Exit :=
  if arguments = [] then finish 0 [.out versionLine] w
  else
    let a := Arguments.parse arguments
    match a.error with
    | some error => finish 1 [errorLine error.message] w
    | none =>
      if a.command = "version" then finish 0 [.out versionLine] w
      else if a.command = "help" then finish 0 [.out help] w
      else if a.command = "engines" then finish 0 ((engineLines t w).map .out) w
      else if a.command = "analyze" then runScript w a fun s => analyze s w
      else if a.command = "build" then runScript w a fun s => build s t w
      else
        finish 2
          [errorLine (ofString "Unknown command " ++ inSingleQuotes a.command),
            .err "Run 'luastitch help' for usage information"] w

end CommandLine

end LuaBundle
