import LuaBundle.Proofs.Text.Blank
import LuaBundle.Proofs.Text.Join
import LuaBundle.Source.Escape

/-! Texts on one line. A text that is put together from others is on one line just if all of them
are. -/

namespace LuaBundle.Text

/-- A text that holds no line break. -/
def Unbroken (t : Text) : Prop := ∀ u ∈ t, Escape.isBreak u = false

instance (t : Text) : Decidable (Unbroken t) :=
  List.decidableBAll (Escape.isBreak · = false) t

variable {s t : Text}

theorem unbroken_iff : Unbroken t ↔ lineFeed ∉ t ∧ carriageReturn ∉ t := by
  constructor
  · intro h
    constructor
    · exact fun hmem => absurd (h lineFeed hmem) (by decide)
    · exact fun hmem => absurd (h carriageReturn hmem) (by decide)
  · rintro ⟨hfeed, hreturn⟩ u hu
    have hne : u ≠ lineFeed ∧ u ≠ carriageReturn :=
      ⟨fun h => hfeed (h ▸ hu), fun h => hreturn (h ▸ hu)⟩
    simp [Escape.isBreak, hne.1, hne.2]

theorem Unbroken.nil : Unbroken [] := by simp [Unbroken]

@[simp]
theorem unbroken_append : Unbroken (s ++ t) ↔ Unbroken s ∧ Unbroken t := List.forall_mem_append

theorem Unbroken.of_subset (h : Unbroken t) (hsubset : s ⊆ t) : Unbroken s :=
  fun u hu => h u (hsubset hu)

theorem unbroken_joinWith {sep : Text} (hsep : Unbroken sep) {parts : List Text} :
    Unbroken (joinWith sep parts) ↔ ∀ part ∈ parts, Unbroken part := by
  induction parts with
  | nil => simpa [joinWith] using Unbroken.nil
  | cons part rest ih =>
    by_cases hnil : rest = []
    · subst hnil
      simp [joinWith_singleton]
    · rw [joinWith_cons _ _ hnil, unbroken_append, unbroken_append, ih, List.forall_mem_cons]
      exact and_congr_left' (and_iff_left hsep)

@[simp]
theorem unbroken_cons {u : UInt16} : Unbroken (u :: t) ↔ Escape.isBreak u = false ∧ Unbroken t :=
  List.forall_mem_cons

theorem Unbroken.ite {p : Prop} [Decidable p] (hs : Unbroken s) (ht : Unbroken t) :
    Unbroken (if p then s else t) := by
  split
  · exact hs
  · exact ht

theorem unbroken_inSingleQuotes : Unbroken (inSingleQuotes t) ↔ Unbroken t := by
  have hquote : Escape.isBreak singleQuote = false := by decide
  simp [inSingleQuotes, hquote, Unbroken.nil]

/-- Blanks are single spaces in what is left of a text. -/
theorem IsNeat.unbroken (h : IsNeat t) : Unbroken t := by
  refine unbroken_iff.mpr ⟨fun hmem => ?_, fun hmem => ?_⟩
  · exact absurd (h.spaces _ hmem (by decide)) (by decide)
  · exact absurd (h.spaces _ hmem (by decide)) (by decide)

theorem unbroken_decimal (n : Nat) : Unbroken (decimal n) := by
  refine List.forall_mem_map.mpr fun c hc => ?_
  have hdigit := Nat.isDigit_of_mem_toDigits (by decide) (by decide) hc
  have hcode : ∀ m < 58, 48 ≤ m → Escape.isBreak m.toUInt16 = false := by decide
  simp only [Char.isDigit, Bool.and_eq_true, decide_eq_true_eq] at hdigit
  exact hcode c.toNat (Nat.lt_succ_of_le hdigit.2) hdigit.1

theorem mem_codePoints {u : UInt16} (hhigh : isHighSurrogate u = false)
    (hlow : isLowSurrogate u = false) (h : u ∈ t) : u.toNat ∈ codePoints t := by
  have hkept : (if isHighSurrogate u || isLowSurrogate u then 0xFFFD else u.toNat) = u.toNat := by
    simp [hhigh, hlow]
  induction t using codePoints.induct with
  | case1 => cases h
  | case2 v =>
    obtain rfl := List.mem_singleton.mp h
    rw [codePoints, hkept]
    exact List.mem_singleton_self _
  | case3 v v' rest hpair ih =>
    rw [Bool.and_eq_true] at hpair
    rw [codePoints, if_pos (by simp [hpair])]
    rcases List.mem_cons.mp h with rfl | h
    · rw [hhigh] at hpair
      cases hpair.1
    rcases List.mem_cons.mp h with rfl | h
    · rw [hlow] at hpair
      cases hpair.2
    · exact List.mem_cons_of_mem _ (ih h)
  | case4 v v' rest hpair ih =>
    rw [codePoints, if_neg hpair]
    rcases List.mem_cons.mp h with rfl | h
    · rw [hkept]
      exact List.mem_cons_self
    · exact List.mem_cons_of_mem _ (ih h)

/-- A name keeps its line breaks where it is stored. -/
theorem Unbroken.of_wellFormed (h : Unbroken t.wellFormed) : Unbroken t := by
  have hmem : ∀ {u : UInt16}, isHighSurrogate u = false → isLowSurrogate u = false → u ∈ t →
      u ∈ t.wellFormed := by
    intro u hhigh hlow hu
    refine List.mem_flatMap.mpr ⟨_, mem_codePoints hhigh hlow hu, ?_⟩
    rw [ofCodePoint, if_pos u.toNat_lt, Nat.toUInt16, UInt16.ofNat_toNat]
    exact List.mem_singleton_self u
  rw [unbroken_iff] at h ⊢
  exact ⟨fun hfeed => h.1 (hmem (by decide) (by decide) hfeed),
    fun hreturn => h.2 (hmem (by decide) (by decide) hreturn)⟩

end LuaBundle.Text
