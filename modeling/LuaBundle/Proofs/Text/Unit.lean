import LuaBundle.Text.Basic

/-! Properties of single units. The classes of units that sources use lie below 128, where a
property can be checked unit by unit. -/

namespace LuaBundle.Text

/-- A property of all units up to a bound holds of each of them. -/
@[elab_as_elim]
theorem of_toNat_lt {P : UInt16 → Prop} {u : UInt16} {bound : Nat} (hu : u.toNat < bound)
    (h : ∀ n < bound, P n.toUInt16) : P u := by
  have := h u.toNat hu
  rwa [Nat.toUInt16, UInt16.ofNat_toNat] at this

theorem toNat_lt_of_isDigit {u : UInt16} (h : isDigit u = true) : u.toNat < 58 := by
  simp only [isDigit, Bool.and_eq_true, decide_eq_true_eq, UInt16.le_iff_toNat_le,
    UInt16.toNat_ofNat] at h
  omega

theorem toNat_lt_of_isWordUnit {u : UInt16} (h : isWordUnit u = true) : u.toNat < 128 := by
  simp only [isWordUnit, isDigit, Bool.or_eq_true, Bool.and_eq_true, decide_eq_true_eq, beq_iff_eq,
    UInt16.le_iff_toNat_le, UInt16.toNat_ofNat] at h
  rcases h with ((_ | _) | _) | rfl
  all_goals first | omega | decide

end LuaBundle.Text
