import LuaBundle.Number.Binary
import Mathlib.Algebra.Order.Field.Rat
import Mathlib.Tactic.FieldSimp
import Mathlib.Tactic.NormNum
import Mathlib.Tactic.Positivity

/-! Natural numbers in the 64-bit binary format: below `2 ^ 53` each is a number of the format, so
that its digits are read as the number that they spell. -/

namespace LuaBundle.Number

theorem power_natCast (base k : Nat) : power base k = (base ^ k : Nat) := by
  rw [power, if_pos (Int.natCast_nonneg k), Int.toNat_natCast]
  rfl

theorem power_neg_natCast (base k : Nat) : power base (-(k : Int)) = 1 / (base ^ k : Nat) := by
  by_cases hk : k = 0
  · subst hk
    simpa using power_natCast base 0
  · rw [power, if_neg (by omega), neg_neg, Int.toNat_natCast]
    rfl

namespace Binary

theorem nearest_natCast (n : Nat) : nearest n = n := by
  have hfloor : (n : Rat).floor.toNat = n := congrArg Int.toNat (Rat.floor_intCast n)
  simp only [nearest, hfloor, sub_self]
  norm_num

variable {n : Nat}

theorem exponentFor_natCast (hpos : n ≠ 0) (h : n < 2 ^ 53) :
    exponentFor n = -(52 - n.log2 : Nat) := by
  have hlog : n.log2 < 53 := (Nat.log2_lt hpos).mpr h
  have hbelow : ¬(n : Rat) < power 2 n.log2 := by
    rw [power_natCast, not_lt]
    exact_mod_cast Nat.log2_self_le hpos
  have hguess : ((n.log2 : Nat) : Int) - (Nat.log2 1 : Nat) - 52 = -(52 - n.log2 : Nat) := by
    rw [show Nat.log2 1 = 0 by decide]
    omega
  have hsum : -((52 - n.log2 : Nat) : Int) + 52 = n.log2 := by omega
  simp only [exponentFor, Rat.num_natCast, Rat.den_natCast, Int.toNat_natCast, hguess, hsum,
    if_neg hbelow]
  omega

/-- The significand of a natural number is the number itself, moved up to 53 bits. -/
theorem round?_natCast (hpos : n ≠ 0) (h : n < 2 ^ 53) :
    round? n = some ⟨n * 2 ^ (52 - n.log2), -(52 - n.log2 : Nat)⟩ := by
  have hlog : n.log2 < 53 := (Nat.log2_lt hpos).mpr h
  have hmoved : (n : Rat) / power 2 (-(52 - n.log2 : Nat)) = (n * 2 ^ (52 - n.log2) : Nat) := by
    rw [power_neg_natCast, div_div_eq_mul_div, div_one, Nat.cast_mul]
  have hbits : n * 2 ^ (52 - n.log2) < 2 ^ 53 := by
    calc n * 2 ^ (52 - n.log2) < 2 ^ (n.log2 + 1) * 2 ^ (52 - n.log2) :=
          Nat.mul_lt_mul_of_pos_right Nat.lt_log2_self (Nat.two_pow_pos _)
      _ = 2 ^ 53 := by rw [← Nat.pow_add, show n.log2 + 1 + (52 - n.log2) = 53 by omega]
  have hne : n * 2 ^ (52 - n.log2) ≠ Nat.pow 2 53 := hbits.ne
  simp only [round?, exponentFor_natCast hpos h, hmoved, nearest_natCast, if_neg hne]
  rw [if_neg (by omega)]

theorem value_natCast (n k : Nat) : value ⟨n * 2 ^ k, -(k : Int)⟩ = n := by
  have : (2 ^ k : Rat) ≠ 0 := by positivity
  rw [value, power_neg_natCast]
  push_cast
  field_simp

end Binary

variable {n : Nat}

theorem round_natCast (hpos : n ≠ 0) (h : n < 2 ^ 53) : round n = ofNat n := by
  have hsign : ¬(n : Rat) < 0 := not_lt.mpr (Nat.cast_nonneg n)
  simp only [round, if_neg hsign, Binary.round?_natCast hpos h, Binary.value_natCast]
  rfl

theorem ofDecimal_natCast (h : n < 2 ^ 53) : ofDecimal false n 0 = ofNat n := by
  by_cases hpos : n = 0
  · subst hpos
    rfl
  have hdigits : (Nat.toDigits 10 n).length ≤ 16 :=
    (Nat.length_toDigits_le_iff (by decide) (by decide)).mpr (h.trans (by decide))
  have hone : power 10 0 = 1 := rfl
  rw [ofDecimal, if_neg (by omega), if_neg (by omega), ← round_natCast hpos h]
  simp [hone]

end LuaBundle.Number
