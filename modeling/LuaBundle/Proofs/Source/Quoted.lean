import LuaBundle.Proofs.Text.Unit
import LuaBundle.Source.Lexeme
import LuaBundle.Source.Quoted
import Mathlib.Data.List.TakeWhile

/-! Literals between double quotes are read back: a scanner finds their closing quote, whatever
stands in them, and their escapes give the content. -/

namespace LuaBundle.Quoted

open Text

/-- The content of the literal at the start of a text, and the text after it. -/
def read? : Text → Option (Text × Text)
  | [] => none
  | u :: rest =>
    if u = doubleQuote then
      (Lexeme.quotedBody? doubleQuote rest).map fun (body, after) => (Escape.decode body, after)
    else none

/-- The last three decimal digits of a number. -/
def threeDigits (n : Nat) : Text :=
  [(48 + n / 100 % 10).toUInt16, (48 + n / 10 % 10).toUInt16, (48 + n % 10).toUInt16]

theorem numeric_eq {u : UInt16} (h : u.toNat < 128) :
    numeric u = backslash :: threeDigits u.toNat ∧ (threeDigits u.toNat).all isDigit = true ∧
      digitsValue 10 (threeDigits u.toNat) = u.toNat := by
  have hdigits : ∀ n < 128, padLeft 3 '0' (decimal n) = threeDigits n ∧
      (threeDigits n).all isDigit = true ∧ digitsValue 10 (threeDigits n) = n := by
    decide +kernel
  obtain ⟨htext, hall, hvalue⟩ := hdigits u.toNat h
  exact ⟨by rw [numeric, htext], hall, hvalue⟩

theorem toNat_lt_of_isControl {u : UInt16} (h : isControl u = true) : u.toNat < 128 := by
  simp only [isControl, Bool.or_eq_true, decide_eq_true_eq, beq_iff_eq] at h
  rcases h with h | rfl
  · have := UInt16.lt_iff_toNat_lt.mp h
    simp only [UInt16.toNat_ofNat] at this
    omega
  · decide

theorem isControl_of_isDigit {u : UInt16} (h : isDigit u = true) : isControl u = false := by
  have hdigit : isDigit u = true → isControl u = false := by
    refine of_toNat_lt (toNat_lt_of_isDigit h) ?_
    decide
  exact hdigit h

/-- A text that holds no control character. -/
def Printable (t : Text) : Prop := ∀ u ∈ t, isControl u = false

instance (t : Text) : Decidable (Printable t) := List.decidableBAll (isControl · = false) t

theorem printable_numeric {u : UInt16} (h : isControl u = true) : Printable (numeric u) := by
  obtain ⟨htext, hall, _⟩ := numeric_eq (toNat_lt_of_isControl h)
  rw [htext]
  exact List.forall_mem_cons.mpr
    ⟨by decide, fun v hv => isControl_of_isDigit (List.all_eq_true.mp hall v hv)⟩

theorem printable_encodeUnit (u : UInt16) : Printable (encodeUnit u) := by
  unfold encodeUnit
  split
  · rename_i hu
    rcases hu with rfl | rfl <;> decide
  · split
    · decide
    · split
      · decide
      · split
        · decide
        · split
          · exact printable_numeric ‹_›
          · rename_i hcontrol
            exact List.forall_mem_singleton.mpr (Bool.eq_false_iff.mpr hcontrol)

theorem printable_encode (t : Text) : Printable (encode t) := by
  intro v hv
  simp only [encode, List.cons_append, List.mem_cons, List.mem_append, List.mem_flatMap,
    List.not_mem_nil, or_false] at hv
  rcases hv with rfl | ⟨u, _, hv⟩ | rfl
  · decide
  · exact printable_encodeUnit u v hv
  · decide

theorem read?_digit {u : UInt16} (h : isDigit u = true) (rest : Text) :
    Escape.read? (u :: rest) = Escape.decimal? (u :: rest) := by
  have hdigit : isDigit u = true → Escape.letter? u = none ∧ Escape.isBreak u = false ∧
      u ≠ unit 'z' ∧ u ≠ unit 'x' ∧ u ≠ unit 'u' := by
    refine of_toNat_lt (toNat_lt_of_isDigit h) ?_
    decide
  obtain ⟨hletter, hbreak, hz, hx, hu⟩ := hdigit h
  simp only [Escape.read?, hletter, hbreak, hz, hx, hu, if_false, Bool.false_eq_true]

theorem read?_threeDigits {u : UInt16} (h : u.toNat < 128) (rest : Text) :
    Escape.read? (threeDigits u.toNat ++ rest) = some ([u], rest) := by
  obtain ⟨_, hall, hvalue⟩ := numeric_eq h
  have hdecimal : Escape.decimal? (threeDigits u.toNat ++ rest) = some ([u], rest) := by
    have htake : ((threeDigits u.toNat ++ rest).take 3).takeWhile isDigit =
        threeDigits u.toNat := by
      have : (threeDigits u.toNat ++ rest).take 3 = threeDigits u.toNat := rfl
      rw [this, List.takeWhile_eq_self_iff]
      exact List.all_eq_true.mp hall
    have hdrop : (threeDigits u.toNat ++ rest).drop 3 = rest := rfl
    have hlength : (threeDigits u.toNat).length = 3 := rfl
    simp only [Escape.decimal?, htake, hvalue, hlength, hdrop]
    rw [if_pos ⟨by omega, by omega⟩, Nat.toUInt16, UInt16.ofNat_toNat]
  rw [← hdecimal]
  exact read?_digit (List.all_eq_true.mp hall _ List.mem_cons_self) _

theorem decode_escape {t value after : Text} (h : Escape.read? t = some (value, after)) :
    Escape.decode (backslash :: t) = value ++ Escape.decode after := by
  rw [Escape.decode, if_pos rfl]
  split
  · rename_i h'
    rw [h] at h'
    simp only [Option.some.injEq, Prod.mk.injEq] at h'
    rw [h'.1, h'.2]
  · rename_i h'
    rw [h] at h'
    cases h'

theorem decode_cons {u : UInt16} (h : u ≠ backslash) (t : Text) :
    Escape.decode (u :: t) = u :: Escape.decode t := by
  rw [Escape.decode, if_neg h]

theorem quotedBody?_escape {q v : UInt16} (hq : q ≠ backslash) (hz : v ≠ unit 'z')
    (hbreak : Escape.isBreak v = false) (t : Text) :
    Lexeme.quotedBody? q (backslash :: v :: t) =
      (Lexeme.quotedBody? q t).map fun (body, after) => (backslash :: v :: body, after) := by
  have hskip : Escape.skip (v :: t) = ([v], t) := by
    simp only [Escape.skip, hbreak]
    rw [if_neg hz, if_neg Bool.false_ne_true]
  rw [Lexeme.quotedBody?, if_neg hq.symm, if_neg (by decide), if_pos rfl, hskip]
  cases Lexeme.quotedBody? q t <;> rfl

theorem quotedBody?_cons {q u : UInt16} (hq : u ≠ q) (hfeed : u ≠ lineFeed)
    (hslash : u ≠ backslash) (t : Text) :
    Lexeme.quotedBody? q (u :: t) =
      (Lexeme.quotedBody? q t).map fun (body, after) => (u :: body, after) := by
  rw [Lexeme.quotedBody?, if_neg hq, if_neg hfeed, if_neg hslash]
  cases Lexeme.quotedBody? q t <;> rfl

/-- How a unit is written: by a letter, by its number, or as it is. -/
theorem encodeUnit_cases (u : UInt16) :
    (∃ v, encodeUnit u = [backslash, v] ∧ Escape.letter? v = some u ∧ v ≠ unit 'z' ∧
        Escape.isBreak v = false) ∨
      (u.toNat < 128 ∧ encodeUnit u = numeric u) ∨
        (encodeUnit u = [u] ∧ u ≠ doubleQuote ∧ u ≠ lineFeed ∧ u ≠ backslash) := by
  unfold encodeUnit
  split
  · rename_i h
    rcases h with rfl | rfl <;> exact .inl ⟨_, rfl, by decide⟩
  · rename_i hquote
    split
    · rename_i h
      exact .inl ⟨_, rfl, by rw [h]; decide⟩
    · rename_i hfeed
      split
      · rename_i h
        exact .inl ⟨_, rfl, by rw [h]; decide⟩
      · split
        · rename_i h
          exact .inl ⟨_, rfl, by rw [h]; decide⟩
        · split
          · rename_i hcontrol
            exact .inr (.inl ⟨toNat_lt_of_isControl hcontrol, rfl⟩)
          · exact .inr (.inr ⟨rfl, fun he => hquote (.inr he), hfeed, fun he => hquote (.inl he)⟩)

theorem decode_encodeUnit (u : UInt16) (rest : Text) :
    Escape.decode (encodeUnit u ++ rest) = u :: Escape.decode rest := by
  rcases encodeUnit_cases u with ⟨v, he, hletter, _⟩ | ⟨hlt, he⟩ | ⟨he, _, _, hslash⟩
  · have hread : Escape.read? (v :: rest) = some ([u], rest) := by simp [Escape.read?, hletter]
    rw [he]
    exact decode_escape hread
  · rw [he, (numeric_eq hlt).1]
    exact decode_escape (read?_threeDigits hlt rest)
  · rw [he]
    exact decode_cons hslash rest

theorem quotedBody?_encodeUnit (u : UInt16) (rest : Text) :
    Lexeme.quotedBody? doubleQuote (encodeUnit u ++ rest) =
      (Lexeme.quotedBody? doubleQuote rest).map fun (body, after) =>
        (encodeUnit u ++ body, after) := by
  rcases encodeUnit_cases u with ⟨v, he, _, hz, hbreak⟩ | ⟨hlt, he⟩ | ⟨he, hquote, hfeed, hslash⟩
  · rw [he]
    exact quotedBody?_escape (by decide) hz hbreak rest
  · obtain ⟨htext, hall, _⟩ := numeric_eq hlt
    have hdigit : ∀ v ∈ threeDigits u.toNat, v ≠ unit 'z' ∧ Escape.isBreak v = false ∧
        v ≠ doubleQuote ∧ v ≠ lineFeed ∧ v ≠ backslash := by
      intro v hv
      have hv' := List.all_eq_true.mp hall v hv
      have : isDigit v = true → v ≠ unit 'z' ∧ Escape.isBreak v = false ∧
          v ≠ doubleQuote ∧ v ≠ lineFeed ∧ v ≠ backslash := by
        refine of_toNat_lt (toNat_lt_of_isDigit hv') ?_
        decide
      exact this hv'
    obtain ⟨hz, hbreak, -⟩ := hdigit _ List.mem_cons_self
    obtain ⟨-, -, hquote₂, hfeed₂, hslash₂⟩ :=
      hdigit _ (List.mem_cons_of_mem _ List.mem_cons_self)
    obtain ⟨-, -, hquote₃, hfeed₃, hslash₃⟩ :=
      hdigit _ (List.mem_cons_of_mem _ (List.mem_cons_of_mem _ List.mem_cons_self))
    rw [he, htext, threeDigits]
    simp only [List.cons_append, List.nil_append]
    rw [quotedBody?_escape (by decide) hz hbreak, quotedBody?_cons hquote₂ hfeed₂ hslash₂,
      quotedBody?_cons hquote₃ hfeed₃ hslash₃, Option.map_map, Option.map_map]
    rfl
  · rw [he]
    exact quotedBody?_cons hquote hfeed hslash rest

theorem decode_flatMap_encodeUnit (t : Text) : Escape.decode (t.flatMap encodeUnit) = t := by
  induction t with
  | nil => simp [Escape.decode]
  | cons u rest ih => rw [List.flatMap_cons, decode_encodeUnit, ih]

theorem quotedBody?_flatMap_encodeUnit (t rest : Text) :
    Lexeme.quotedBody? doubleQuote (t.flatMap encodeUnit ++ doubleQuote :: rest) =
      some (t.flatMap encodeUnit, rest) := by
  induction t with
  | nil => simp [Lexeme.quotedBody?]
  | cons u t ih =>
    rw [List.flatMap_cons, List.append_assoc, quotedBody?_encodeUnit, ih]
    rfl

/-- A literal is read back, whatever follows it. -/
theorem read?_encode (t rest : Text) : read? (encode t ++ rest) = some (t, rest) := by
  have h := quotedBody?_flatMap_encodeUnit t rest
  simp only [encode, read?, List.cons_append, List.append_assoc, List.nil_append, if_true, h,
    Option.map_some, decode_flatMap_encodeUnit]

end LuaBundle.Quoted
