import LuaBundle.Number.Binary

/-! The shortest decimal that reads back as the same 64-bit number, the nearest to it among those,
and the text of a number in messages: positional below `10 ^ 21` and down to `10 ^ -6`, with an
exponent beyond. -/

namespace LuaBundle.Number

/-- The decimal `0.d₁d₂… * 10 ^ point`, with digits `d₁d₂…` as one number. -/
structure Decimal where
  digits : Nat
  point : Int

/-- The least `k` with `v < 10 ^ k`, for a positive value of the format. -/
def decimalPoint (v : Rat) : Int :=
  let guess := ((Nat.toDigits 10 v.num.toNat).length : Int) - (Nat.toDigits 10 v.den).length
  if v < power 10 guess then guess else if v < power 10 (guess + 1) then guess + 1 else guess + 2

/-- Whether a decimal is read back as `b`: it is nearer to `b` than to either neighbour, or halfway
and `b` is even. -/
def Binary.readsBack (b : Binary) (v : Rat) : Bool :=
  let unit := power 2 b.exponent
  let below := if b.significand = Nat.pow 2 52 ∧ -1074 < b.exponent then unit / 4 else unit / 2
  let low := b.value - below
  let high := b.value + unit / 2
  if b.significand % 2 = 0 then decide (low ≤ v ∧ v ≤ high) else decide (low < v ∧ v < high)

/-- The decimal of `count` digits that reads back, the nearer of two. -/
def Binary.withDigits? (b : Binary) (count : Nat) : Option Decimal :=
  let point := decimalPoint b.value
  let step := power 10 (point - count)
  let down := (b.value / step).floor.toNat
  let error := b.value / step - down
  let up := down + 1
  let preferred : List Nat :=
    if error < 1 / 2 ∨ (error = 1 / 2 ∧ down % 2 = 0) then [down, up] else [up, down]
  (preferred.find? fun d => b.readsBack ((d : Nat) * step)).map fun d =>
    if d = Nat.pow 10 count then ⟨Nat.pow 10 (count - 1), point + 1⟩ else ⟨d, point⟩

/-- The fewest digits that read back; seventeen always do. -/
def Binary.shortest (b : Binary) : Decimal :=
  ((List.range 17).findSome? fun n => b.withDigits? (n + 1)).getD ⟨0, 0⟩

open Text in
/-- The digits of a decimal, without trailing zeros, laid out. -/
def Decimal.text (d : Decimal) : Text :=
  let digits := ((decimal d.digits).reverse.dropWhile (· == unit '0')).reverse
  let k : Int := digits.length
  let n := d.point
  if k ≤ n ∧ n ≤ 21 then digits ++ List.replicate (n - k).toNat (unit '0')
  else if 0 < n ∧ n ≤ 21 then digits.take n.toNat ++ dot :: digits.drop n.toNat
  else if -6 < n ∧ n ≤ 0 then unit '0' :: dot :: List.replicate (-n).toNat (unit '0') ++ digits
  else
    let fraction := if digits.length = 1 then [] else dot :: digits.drop 1
    let sign : UInt16 := if 0 < n then '+' else '-'
    digits.take 1 ++ fraction ++ unit 'e' :: sign :: decimal (n - 1).natAbs

def text : Number → Text
  | .infinite true => "-Infinity"
  | .infinite false => "Infinity"
  | .finite v =>
    if v = 0 then "0"
    else
      let size := if v < 0 then -v else v
      let sign : Text := if v < 0 then [Text.dash] else []
      match Binary.round? size with
      | none => sign ++ "Infinity"
      | some b => if b.significand = 0 then sign ++ "0" else sign ++ b.shortest.text

end LuaBundle.Number
