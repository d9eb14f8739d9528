import LuaBundle.Number.Basic

/-! Rounding to the 64-bit binary format: of all `m * 2 ^ e` with `m < 2 ^ 53` and
`-1074 ≤ e ≤ 971` the nearest, of two equally near the one with the even `m`. -/

namespace LuaBundle.Number

/-- The value `significand * 2 ^ exponent`. -/
structure Binary where
  significand : Nat
  exponent : Int
  deriving DecidableEq

def power (base : Nat) (e : Int) : Rat :=
  if 0 ≤ e then base.pow e.toNat else 1 / base.pow (-e).toNat

namespace Binary

def value (b : Binary) : Rat := b.significand * power 2 b.exponent

/-- The integer nearest to a nonnegative value, of two equally near the even one. -/
def nearest (v : Rat) : Nat :=
  let n := v.floor.toNat
  let rest := v - n
  if rest < 1 / 2 then n else if 1 / 2 < rest then n + 1 else n + n % 2

/-- The exponent that gives a positive value 53 significant bits, or the least there is. -/
def exponentFor (v : Rat) : Int :=
  let e := (v.num.toNat.log2 : Int) - v.den.log2 - 52
  let e := if v < power 2 (e + 52) then e - 1 else e
  max e (-1074)

/-- The nearest of the format to a nonnegative value; none where that is infinite. -/
def round? (v : Rat) : Option Binary :=
  let e := exponentFor v
  let m := nearest (v / power 2 e)
  let b : Binary := if m = Nat.pow 2 53 then ⟨Nat.pow 2 52, e + 1⟩ else ⟨m, e⟩
  if 971 < b.exponent then none else some b

end Binary

def round (v : Rat) : Number :=
  match Binary.round? (if v < 0 then -v else v) with
  | none => .infinite (v < 0)
  | some b => .finite (if v < 0 then -b.value else b.value)

/-- The number that a decimal `digits * 10 ^ exponent` is read as. Far outside the format the
exponent alone decides. -/
def ofDecimal (negative : Bool) (digits : Nat) (exponent : Int) : Number :=
  let size := exponent + (Nat.toDigits 10 digits).length
  if digits = 0 ∨ size < -400 then .finite 0
  else if 400 < size then .infinite negative
  else round ((if negative then -1 else 1) * digits * power 10 exponent)

def plus : Number → Number → Number
  | .finite a, .finite b => round (a + b)
  | .infinite n, _ => .infinite n
  | _, .infinite n => .infinite n

end LuaBundle.Number
