import LuaBundle.Session

/-! Started programs by what they leave behind: how they ended and what they wrote. The result of a
command is read off it; the bytes that were written count as text. -/

namespace LuaBundle

open Text

inductive Ending where
  | notStarted (fault : Fault)
  | exited (code : Nat)
  /-- Ended by a signal. -/
  | killed
  deriving DecidableEq, Repr

structure Execution where
  ending : Ending
  stdout : Bytes
  stderr : Bytes
  deriving DecidableEq, Repr

namespace Execution

def notStarted (fault : Fault) : Execution := ⟨.notStarted fault, [], []⟩

/-- The greatest number of bytes that a program may write. -/
def mostOutput : Nat := 1024 * 1024

def refused (program code : Text) : CommandResult :=
  .failed (program ++ " could not be started: spawnSync " ++ program ++ space :: code) none none

def result (program : Text) (e : Execution) : CommandResult :=
  if mostOutput < e.stdout.length + e.stderr.length then refused program "ENOBUFS"
  else
  match e.ending with
  | .notStarted fault => refused program fault.code
  | .exited 0 => .succeeded (Utf8.decode e.stdout)
  | .exited code =>
    .failed (program ++ " failed") (some (.ofNat code)) (some (Utf8.decode e.stderr))
  | .killed => .failed (program ++ " failed") none (some (Utf8.decode e.stderr))

end Execution

end LuaBundle
