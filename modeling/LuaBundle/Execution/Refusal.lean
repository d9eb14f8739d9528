import LuaBundle.Session
import LuaBundle.Text.Shown

/-! Commands that nothing is started for: those without a program, and those with a text that holds
a zero unit, which ends texts where programs are given them. -/

namespace LuaBundle

open Text

inductive CommandRefusal where
  | noProgram
  | zeroInProgram (program : Text)
  /-- The argument at an index. -/
  | zeroInArgument (index : Nat) (argument : Text)
  | zeroInDirectory (directory : Text)
  deriving DecidableEq, Repr

namespace CommandRefusal

def code (_ : CommandRefusal) : Text := "ERR_INVALID_ARG_VALUE"

def message : CommandRefusal → Text
  | noProgram => "The argument 'file' cannot be empty. Received ''"
  | zeroInProgram program =>
    ofString "The argument 'file' must be a string without null bytes. Received " ++ shown program
  | zeroInArgument index argument =>
    ofString "The argument 'args[" ++ decimal index ++
      "]' must be a string without null bytes. Received " ++ shown argument
  | zeroInDirectory directory =>
    ofString "The property 'options.cwd' must be a string, Uint8Array, or URL without null bytes. " ++
      "Received " ++ shown directory

end CommandRefusal

/-- Why a command is refused. The program is looked at first, then the arguments in order, then the
directory. -/
def Command.refusal? (c : Command) : Option CommandRefusal :=
  if c.program.contains 0 then some (.zeroInProgram c.program)
  else if c.program = [] then some .noProgram
  else
    match c.arguments.zipIdx.find? fun e => e.1.contains 0 with
    | some (argument, index) => some (.zeroInArgument index argument)
    | none => if c.directory.contains 0 then some (.zeroInDirectory c.directory) else none

end LuaBundle
