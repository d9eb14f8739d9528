import LuaBundle.Text.Basic

/-! Numbers as JSON files and command lines give them: exact values, and the two infinities for
decimals too large for the 64-bit format that readers round to. -/

namespace LuaBundle

inductive Number where
  | finite (value : Rat)
  | infinite (negative : Bool)
  deriving DecidableEq, Repr

namespace Number

def ofNat (n : Nat) : Number := .finite n

instance : Coe Nat Number := ⟨ofNat⟩

def isBelow (limit : Number) (count : Nat) : Bool :=
  match limit with
  | .finite value => decide (value < count)
  | .infinite negative => negative

def isPositiveInteger : Number → Bool
  | .finite value => decide (value.den = 1 ∧ 0 < value.num)
  | .infinite _ => false

/-- A number of things that a limit allows at most; for a limit that is not finite, a number above
every finite 64-bit one. -/
def cap : Number → Nat
  | .finite value => value.floor.toNat
  | .infinite true => 0
  | .infinite false => Nat.pow 2 1024

end Number

end LuaBundle
