import LuaBundle.Workspace.Fault

/-! How an operation on a workspace ends when it does not succeed: with an error that it reports,
or cut short by a file system that let a check pass and then refused the access it was for. -/

namespace LuaBundle

inductive Failure (ε : Type) where
  | reported (error : ε)
  | interrupted (error : FileError)
  /-- More steps were needed than can be counted with the numbers that limits are given in. -/
  | exhausted
  deriving DecidableEq, Repr

namespace Failure

variable {ε φ : Type}

def map (f : ε → φ) : Failure ε → Failure φ
  | reported error => reported (f error)
  | interrupted error => interrupted error
  | exhausted => exhausted

end Failure

end LuaBundle
