import Mathlib.Algebra.Group.Nat.Defs
import Mathlib.Data.List.Forall2
import Mathlib.Data.List.TakeWhile
import LuaBundle.Text.Utf8

/-! What becomes of bytes that are read as text and written again. Bytes that are UTF-8 come out as
they went in. In others a mark stands for each longest run that starts a character without
completing it, and for each byte that starts none: this is described on the bytes alone, by the
table of well-formed byte sequences, and then shown of decoding and encoding. -/

namespace LuaBundle.Utf8

open Text

variable {b x y z : UInt8} {n bits : Nat} {bytes char rest fixed begun more : Bytes} {t : Text} 

/-! The table. -/

/-- The least and the greatest byte in a place. -/
abbrev Range := UInt8 × UInt8

def Within (b : UInt8) (r : Range) : Prop := r.1 ≤ b ∧ b ≤ r.2

instance (b : UInt8) (r : Range) : Decidable (Within b r) := inferInstanceAs (Decidable (_ ∧ _))

theorem Within.mono {r s : Range} (h : Within b r) (hlow : s.1 ≤ r.1) (hhigh : r.2 ≤ s.2) :
    Within b s := ⟨UInt8.le_trans hlow h.1, UInt8.le_trans h.2 hhigh⟩

/-- The bytes after the second, and the second where it is not further restricted. -/
abbrev continuation : Range := (0x80, 0xBF)

/-- The forms that characters have: no longer ones than needed, no surrogates, and none past the
last code point. -/
def forms : List (List Range) :=
  [[(0x00, 0x7F)],
    [(0xC2, 0xDF), continuation],
    [(0xE0, 0xE0), (0xA0, 0xBF), continuation],
    [(0xE1, 0xEC), continuation, continuation],
    [(0xED, 0xED), (0x80, 0x9F), continuation],
    [(0xEE, 0xEF), continuation, continuation],
    [(0xF0, 0xF0), (0x90, 0xBF), continuation, continuation],
    [(0xF1, 0xF3), continuation, continuation, continuation],
    [(0xF4, 0xF4), (0x80, 0x8F), continuation, continuation]]

/-- The bytes of one character. -/
def IsCharacter (bytes : Bytes) : Prop := ∃ form ∈ forms, List.Forall₂ Within bytes form

/-- Bytes that a character starts with. -/
def Starts (bytes : Bytes) : Prop := ∃ more, IsCharacter (bytes ++ more)

def WellFormed (bytes : Bytes) : Prop :=
  ∃ chars : List Bytes, (∀ char ∈ chars, IsCharacter char) ∧ bytes = chars.flatten

/-- The character `U+FFFD`. -/
def mark : Bytes := [0xEF, 0xBF, 0xBD]

/-- Bytes, and the UTF-8 that is made of them. -/
inductive Repaired : Bytes → Bytes → Prop
  | nil : Repaired [] []
  | character {char rest repaired : Bytes} (hchar : IsCharacter char)
    (hrest : Repaired rest repaired) : Repaired (char ++ rest) (char ++ repaired)
  | stray {b : UInt8} {rest repaired : Bytes} (hstray : ¬Starts [b])
    (hrest : Repaired rest repaired) : Repaired (b :: rest) (mark ++ repaired)
  | broken {b : UInt8} {begun rest repaired : Bytes} (hstarts : Starts (b :: begun))
    (hopen : ¬IsCharacter (b :: begun)) (hend : ∀ x ∈ rest.head?, ¬Starts (b :: begun ++ [x]))
    (hrest : Repaired rest repaired) : Repaired (b :: begun ++ rest) (mark ++ repaired)

theorem isCharacter_mark : IsCharacter mark :=
  ⟨[(0xEE, 0xEF), continuation, continuation], by decide, by simp [mark, Within]⟩

/-- Bytes that start a character go on to complete it, or to a byte that does not. -/
theorem exists_end (hstarts : Starts char) (bytes : Bytes) :
    ∃ more rest, bytes = more ++ rest ∧ Starts (char ++ more) ∧
      (IsCharacter (char ++ more) ∨
        ¬IsCharacter (char ++ more) ∧ ∀ x ∈ rest.head?, ¬Starts (char ++ more ++ [x])) := by
  induction bytes generalizing char with
  | nil =>
    refine ⟨[], [], rfl, by rwa [List.append_nil], ?_⟩
    by_cases hchar : IsCharacter (char ++ [])
    · exact .inl hchar
    · exact .inr ⟨hchar, by simp⟩
  | cons x bytes ih =>
    by_cases hchar : IsCharacter char
    · exact ⟨[], x :: bytes, rfl, by rwa [List.append_nil], .inl (by rwa [List.append_nil])⟩
    by_cases hnext : Starts (char ++ [x])
    · obtain ⟨more, rest, rfl, hmore, hend⟩ := ih hnext
      rw [List.append_assoc, List.singleton_append] at hmore hend
      exact ⟨x :: more, rest, rfl, hmore, hend⟩
    · refine ⟨[], x :: bytes, rfl, by rwa [List.append_nil], .inr ⟨by rwa [List.append_nil], ?_⟩⟩
      rw [List.append_nil]
      rintro _ ⟨⟩
      exact hnext

theorem exists_repaired (bytes : Bytes) : ∃ repaired, Repaired bytes repaired := by
  induction hlength : bytes.length using Nat.strongRecOn generalizing bytes with
  | ind length ih =>
    cases bytes with
    | nil => exact ⟨[], .nil⟩
    | cons b rest =>
      by_cases hstarts : Starts [b]
      · obtain ⟨more, rest, rfl, hmore, hend⟩ := exists_end hstarts rest
        have hshorter : rest.length < length := by
          rw [← hlength, List.length_cons, List.length_append]
          omega
        obtain ⟨repaired, hrest⟩ := ih rest.length hshorter rest rfl
        rcases hend with hchar | ⟨hopen, hend⟩
        · exact ⟨_, .character hchar hrest⟩
        · exact ⟨_, .broken hmore hopen hend hrest⟩
      · obtain ⟨repaired, hrest⟩ := ih rest.length (by simp [← hlength]) rest rfl
        exact ⟨_, .stray hstarts hrest⟩

theorem WellFormed.cons (hchar : IsCharacter char) (h : WellFormed rest) :
    WellFormed (char ++ rest) := by
  obtain ⟨chars, hchars, rfl⟩ := h
  exact ⟨char :: chars, List.forall_mem_cons.mpr ⟨hchar, hchars⟩, rfl⟩

theorem WellFormed.repaired (h : WellFormed bytes) : Repaired bytes bytes := by
  obtain ⟨chars, hchars, rfl⟩ := h
  induction chars with
  | nil => exact .nil
  | cons char chars ih =>
    obtain ⟨hchar, hchars⟩ := List.forall_mem_cons.mp hchars
    exact .character hchar (ih hchars)

theorem Repaired.wellFormed (h : Repaired bytes fixed) : WellFormed fixed := by
  induction h with
  | nil => exact ⟨[], by simp, rfl⟩
  | character hchar _ ih => exact ih.cons hchar
  | stray _ _ ih => exact ih.cons isCharacter_mark
  | broken _ _ _ _ ih => exact ih.cons isCharacter_mark

/-! Decoding follows the table. -/

/-- The form of the characters that start with a byte. -/
def formOf (b : UInt8) : Option (List Range) :=
  forms.find? fun form => form.head?.any (Within b ·)

/-- What is begun when a byte has been read, by the places after it. -/
def begin (bits : Nat) : List Range → Option Begun
  | [] => none
  | r :: more => some ⟨bits, more.length + 1, r.1, r.2⟩

/-- The code point so far after one more byte. -/
def push (bits : Nat) (b : UInt8) : Nat := bits * 0x40 + (b.toNat - 0x80)

theorem decodeFrom_cons (begun : Option Begun) (b : UInt8) (rest : Bytes) :
    decodeFrom begun (b :: rest) = (next begun b).1 ++ decodeFrom (next begun b).2 rest := by
  cases begun <;> rfl

theorem forall_byte {P : UInt8 → Prop} (h : ∀ n < 256, P (UInt8.ofNat n)) (b : UInt8) : P b := by
  have hb := h b.toNat b.toNat_lt
  rwa [UInt8.ofNat_toNat] at hb

theorem formOf_eq {r : Range} {form : List Range} (hform : r :: form ∈ forms) (hb : Within b r) :
    formOf b = some (r :: form) :=
  forall_byte (P := fun b => ∀ form ∈ forms, form.head?.any (Within b ·) → formOf b = some form)
    (by decide +kernel) b _ hform (by simpa using hb)

/-- What a first byte comes to, by the form of its characters. -/
theorem first_eq (b : UInt8) : first b =
    match formOf b with
    | none => ([replacement], none)
    | some form =>
      if form.tail = [] then (ofCodePoint b.toNat, none)
      else ([], begin (b.toNat % 2 ^ (6 - form.tail.length)) form.tail) :=
  forall_byte (P := fun b => first b =
    match formOf b with
    | none => ([replacement], none)
    | some form =>
      if form.tail = [] then (ofCodePoint b.toNat, none)
      else ([], begin (b.toNat % 2 ^ (6 - form.tail.length)) form.tail)) (by decide +kernel) b

theorem first_of_form {r : Range} {form : List Range} (hform : r :: form ∈ forms)
    (hb : Within b r) : first b =
      if form = [] then (ofCodePoint b.toNat, none)
      else ([], begin (b.toNat % 2 ^ (6 - form.length)) form) := by
  rw [first_eq, formOf_eq hform hb]
  rfl

theorem le_of_single {r : Range} (hform : [r] ∈ forms) : r.2 ≤ 0x7F := by
  have hall : (forms.all fun form => form.length != 1 || form.all (·.2 ≤ 0x7F)) = true := by decide
  simpa using List.all_eq_true.mp hall _ hform

theorem eq_continuation {r s : Range} {form : List Range} (hform : r :: s :: form ∈ forms) :
    ∀ q ∈ form, q = continuation := by
  have hall : (forms.all fun form => (form.drop 2).all (· = continuation)) = true := by decide
  simpa using List.all_eq_true.mp hall _ hform

section Continue

variable {r s : Range} {form : List Range} (hform : ∀ q ∈ form, q = continuation)

include hform

/-- A byte in its place is read, and the next place is open. -/
theorem next_within (hb : Within b r) : next (begin bits (r :: form)) b =
    if form = [] then (ofCodePoint (push bits b), none) else ([], begin (push bits b) form) := by
  have hin : r.1 ≤ b ∧ b ≤ r.2 := hb
  cases form with
  | nil =>
    simp only [begin, next, if_pos hin]
    rfl
  | cons q form =>
    obtain rfl := hform q (by simp)
    simp only [begin, next, if_pos hin]
    rfl

/-- Bytes in all their places make a character. -/
theorem decodeFrom_complete (hfits : List.Forall₂ Within more (r :: form)) :
    decodeFrom (begin bits (r :: form)) (more ++ rest) =
      ofCodePoint (more.foldl push bits) ++ decode rest := by
  induction form generalizing more r bits with
  | nil =>
    obtain ⟨b, _, hb, hnil, rfl⟩ := List.forall₂_cons_right_iff.mp hfits
    obtain rfl := List.forall₂_nil_right_iff.mp hnil
    rw [List.singleton_append, decodeFrom_cons, next_within hform hb, if_pos rfl, decode,
      List.foldl_cons, List.foldl_nil]
  | cons q form ih =>
    obtain ⟨b, more, hb, hmore, rfl⟩ := List.forall₂_cons_right_iff.mp hfits
    rw [List.cons_append, decodeFrom_cons, next_within hform hb, if_neg (by simp), List.nil_append,
      List.foldl_cons, ih (fun q hq => hform q (List.mem_cons_of_mem _ hq)) hmore]

end Continue

/-- Where a byte does not fit its place, or is missing, a mark stands for those before it. -/
theorem decodeFrom_broken {s : Range} {places after : List Range}
    (hform : ∀ q ∈ (places ++ s :: after).tail, q = continuation)
    (hfits : List.Forall₂ Within more places) (hend : ∀ x ∈ rest.head?, ¬Within x s) :
    decodeFrom (begin bits (places ++ s :: after)) (more ++ rest) = replacement :: decode rest := by
  induction places generalizing more bits with
  | nil =>
    obtain rfl := List.forall₂_nil_right_iff.mp hfits
    cases rest with
    | nil => rfl
    | cons x rest =>
      have hout : ¬(s.1 ≤ x ∧ x ≤ s.2) := hend x rfl
      rw [List.nil_append, List.nil_append, decodeFrom_cons, decode, decodeFrom_cons, begin]
      simp only [next, if_neg hout, List.cons_append]
  | cons q places ih =>
    obtain ⟨b, more, hb, hmore, rfl⟩ := List.forall₂_cons_right_iff.mp hfits
    have hplaces : ∀ q ∈ places ++ s :: after, q = continuation := hform
    rw [List.cons_append, List.cons_append, decodeFrom_cons, next_within hplaces hb,
      if_neg (by simp)]
    exact ih (fun q hq => hform q (List.mem_of_mem_tail hq)) hmore

/-! Encoding gives back what was decoded. -/

/-- A code point that is no surrogate. -/
structure IsScalar (n : Nat) : Prop where
  lt : n < 0x110000
  ne_surrogate : n < 0xD800 ∨ 0xDFFF < n

theorem toNat_surrogates (h : 0x10000 ≤ n) (hlt : n < 0x110000) :
    (0xD800 + (n - 0x10000) / 0x400).toUInt16.toNat = 0xD800 + (n - 0x10000) / 0x400 ∧
      (0xDC00 + (n - 0x10000) % 0x400).toUInt16.toNat = 0xDC00 + (n - 0x10000) % 0x400 :=
  ⟨UInt16.toNat_ofNat_of_lt' (by change _ < 65536; omega),
    UInt16.toNat_ofNat_of_lt' (by change _ < 65536; omega)⟩

/-- A code point of one unit is no surrogate. -/
theorem IsScalar.not_surrogate (h : IsScalar n) (hsmall : n < 0x10000) :
    isHighSurrogate n.toUInt16 = false ∧ isLowSurrogate n.toUInt16 = false := by
  have hscalar := h.ne_surrogate
  have hn : n.toUInt16.toNat = n := UInt16.toNat_ofNat_of_lt' hsmall
  simp only [isHighSurrogate, isLowSurrogate, UInt16.le_iff_toNat_le, hn]
  simp
  omega

/-- The two units of any other code point are surrogates. -/
theorem surrogates_of_le (h : 0x10000 ≤ n) (hlt : n < 0x110000) :
    isHighSurrogate (0xD800 + (n - 0x10000) / 0x400).toUInt16 = true ∧
      isLowSurrogate (0xDC00 + (n - 0x10000) % 0x400).toUInt16 = true := by
  obtain ⟨hhigh, hlow⟩ := toNat_surrogates h hlt
  simp only [isHighSurrogate, isLowSurrogate, UInt16.le_iff_toNat_le, hhigh, hlow]
  simp
  omega

theorem codePoints_ofCodePoint_append (h : IsScalar n) (t : Text) :
    codePoints (ofCodePoint n ++ t) = n :: codePoints t := by
  rw [ofCodePoint]
  split
  · rename_i hsmall
    have hn : n.toUInt16.toNat = n := UInt16.toNat_ofNat_of_lt' hsmall
    obtain ⟨hhigh, hlow⟩ := h.not_surrogate hsmall
    cases t with
    | nil => simp [codePoints, hhigh, hlow, hn]
    | cons u t => simp [codePoints, hhigh, hlow, hn]
  · rename_i hlarge
    obtain ⟨hhigh, hlow⟩ := toNat_surrogates (n := n) (by omega) h.lt
    have hpair := surrogates_of_le (n := n) (by omega) h.lt
    simp only [List.cons_append, List.nil_append, codePoints, hpair.1, hpair.2, Bool.and_self,
      if_true, hhigh, hlow]
    exact congrArg (· :: codePoints t) (by omega)

theorem toUInt8_eq (h : n = b.toNat) : n.toUInt8 = b := by
  rw [h]
  exact UInt8.ofNat_toNat

theorem encode_one (hb : b ≤ 0x7F) : IsScalar b.toNat ∧ encodeCodePoint b.toNat = [b] := by
  have hb : b.toNat ≤ 0x7F := hb
  refine ⟨⟨by omega, by omega⟩, ?_⟩
  rw [encodeCodePoint, if_pos (by omega), toUInt8_eq (b := b) rfl]

theorem encode_two (hb : Within b (0xC2, 0xDF)) (hx : Within x continuation) :
    IsScalar (push (b.toNat % 32) x) ∧ encodeCodePoint (push (b.toNat % 32) x) = [b, x] := by
  simp only [Within, UInt8.le_iff_toNat_le, UInt8.reduceToNat] at hb hx
  have hn : push (b.toNat % 32) x = (b.toNat - 0xC0) * 0x40 + (x.toNat - 0x80) := by
    unfold push
    omega
  generalize push (b.toNat % 32) x = n at hn ⊢
  refine ⟨⟨by omega, by omega⟩, ?_⟩
  rw [encodeCodePoint, if_neg (by omega), if_pos (by omega), toUInt8_eq (b := b) (by omega),
    toUInt8_eq (b := x) (by omega)]

theorem encode_three (hb : Within b (0xE0, 0xEF)) (hx : Within x continuation)
    (hy : Within y continuation) (hlong : 0xE0 < b ∨ 0xA0 ≤ x) (hscalar : b ≠ 0xED ∨ x ≤ 0x9F) :
    IsScalar (push (push (b.toNat % 16) x) y) ∧
      encodeCodePoint (push (push (b.toNat % 16) x) y) = [b, x, y] := by
  simp only [Within, UInt8.le_iff_toNat_le, UInt8.lt_iff_toNat_lt, ne_eq, ← UInt8.toNat_inj,
    UInt8.reduceToNat] at hb hx hy hlong hscalar
  have hn : push (push (b.toNat % 16) x) y =
      ((b.toNat - 0xE0) * 0x40 + (x.toNat - 0x80)) * 0x40 + (y.toNat - 0x80) := by
    unfold push
    omega
  generalize push (push (b.toNat % 16) x) y = n at hn ⊢
  refine ⟨⟨by omega, by omega⟩, ?_⟩
  rw [encodeCodePoint, if_neg (by omega), if_neg (by omega), if_pos (by omega),
    toUInt8_eq (b := b) (by omega), toUInt8_eq (b := x) (by omega), toUInt8_eq (b := y) (by omega)]

theorem encode_four (hb : Within b (0xF0, 0xF4)) (hx : Within x continuation)
    (hy : Within y continuation) (hz : Within z continuation) (hlong : 0xF0 < b ∨ 0x90 ≤ x)
    (hlast : b < 0xF4 ∨ x ≤ 0x8F) :
    IsScalar (push (push (push (b.toNat % 8) x) y) z) ∧
      encodeCodePoint (push (push (push (b.toNat % 8) x) y) z) = [b, x, y, z] := by
  simp only [Within, UInt8.le_iff_toNat_le, UInt8.lt_iff_toNat_lt, UInt8.reduceToNat]
    at hb hx hy hz hlong hlast
  have hn : push (push (push (b.toNat % 8) x) y) z = (((b.toNat - 0xF0) * 0x40 +
      (x.toNat - 0x80)) * 0x40 + (y.toNat - 0x80)) * 0x40 + (z.toNat - 0x80) := by
    unfold push
    omega
  generalize push (push (push (b.toNat % 8) x) y) z = n at hn ⊢
  refine ⟨⟨by omega, by omega⟩, ?_⟩
  rw [encodeCodePoint, if_neg (by omega), if_neg (by omega), if_neg (by omega),
    toUInt8_eq (b := b) (by omega), toUInt8_eq (b := x) (by omega), toUInt8_eq (b := y) (by omega),
    toUInt8_eq (b := z) (by omega)]

/-- The code point of a character is written with the bytes that it was read from. -/
theorem encodeCodePoint_foldl {r : Range} {form : List Range} (hform : r :: form ∈ forms)
    (hne : form ≠ []) (hb : Within b r) (hmore : List.Forall₂ Within more form) :
    IsScalar (more.foldl push (b.toNat % 2 ^ (6 - form.length))) ∧
      encodeCodePoint (more.foldl push (b.toNat % 2 ^ (6 - form.length))) = b :: more := by
  simp only [forms, List.mem_cons, List.cons.injEq, List.not_mem_nil, or_false] at hform
  rcases hform with ⟨-, rfl⟩ | ⟨rfl, rfl⟩ | ⟨rfl, rfl⟩ | ⟨rfl, rfl⟩ | ⟨rfl, rfl⟩ | ⟨rfl, rfl⟩ |
    ⟨rfl, rfl⟩ | ⟨rfl, rfl⟩ | ⟨rfl, rfl⟩
  · exact absurd rfl hne
  all_goals
    simp only [List.forall₂_cons_right_iff, List.forall₂_nil_right_iff] at hmore
  · obtain ⟨x, _, hx, rfl, rfl⟩ := hmore
    exact encode_two hb hx
  · obtain ⟨x, _, hx, ⟨y, _, hy, rfl, rfl⟩, rfl⟩ := hmore
    exact encode_three (hb.mono (by decide) (by decide)) (hx.mono (by decide) (by decide)) hy
      (.inr hx.1) (.inl (by rintro rfl; exact absurd hb (by decide)))
  · obtain ⟨x, _, hx, ⟨y, _, hy, rfl, rfl⟩, rfl⟩ := hmore
    exact encode_three (hb.mono (by decide) (by decide)) hx hy
      (.inl (UInt8.lt_of_lt_of_le (by decide) hb.1))
      (.inl (by rintro rfl; exact absurd hb (by decide)))
  · obtain ⟨x, _, hx, ⟨y, _, hy, rfl, rfl⟩, rfl⟩ := hmore
    exact encode_three (hb.mono (by decide) (by decide)) (hx.mono (by decide) (by decide)) hy
      (.inl (UInt8.lt_of_lt_of_le (by decide) hb.1)) (.inr hx.2)
  · obtain ⟨x, _, hx, ⟨y, _, hy, rfl, rfl⟩, rfl⟩ := hmore
    exact encode_three (hb.mono (by decide) (by decide)) hx hy
      (.inl (UInt8.lt_of_lt_of_le (by decide) hb.1))
      (.inl (by rintro rfl; exact absurd hb (by decide)))
  · obtain ⟨x, _, hx, ⟨y, _, hy, ⟨z, _, hz, rfl, rfl⟩, rfl⟩, rfl⟩ := hmore
    exact encode_four (hb.mono (by decide) (by decide)) (hx.mono (by decide) (by decide)) hy hz
      (.inr hx.1) (.inl (UInt8.lt_of_le_of_lt hb.2 (by decide)))
  · obtain ⟨x, _, hx, ⟨y, _, hy, ⟨z, _, hz, rfl, rfl⟩, rfl⟩, rfl⟩ := hmore
    exact encode_four (hb.mono (by decide) (by decide)) hx hy hz
      (.inl (UInt8.lt_of_lt_of_le (by decide) hb.1))
      (.inl (UInt8.lt_of_le_of_lt hb.2 (by decide)))
  · obtain ⟨x, _, hx, ⟨y, _, hy, ⟨z, _, hz, rfl, rfl⟩, rfl⟩, rfl⟩ := hmore
    exact encode_four (hb.mono (by decide) (by decide)) (hx.mono (by decide) (by decide)) hy hz
      (.inl (UInt8.lt_of_lt_of_le (by decide) hb.1)) (.inr hx.2)

theorem encode_ofCodePoint_append (h : IsScalar n) (t : Text) :
    encode (ofCodePoint n ++ t) = encodeCodePoint n ++ encode t := by
  rw [encode, codePoints_ofCodePoint_append h, List.flatMap_cons, encode]

theorem encode_replacement (t : Text) : encode (replacement :: t) = mark ++ encode t :=
  encode_ofCodePoint_append (n := 0xFFFD) ⟨by decide, by decide⟩ t

/-! The repair of bytes is what decoding and encoding make of them. -/

theorem decode_cons (b : UInt8) (rest : Bytes) :
    decode (b :: rest) = (first b).1 ++ decodeFrom (first b).2 rest := rfl

/-- The code point that the bytes of a character are read as and written from. -/
theorem exists_codePoint (hchar : IsCharacter char) : ∃ n, IsScalar n ∧ encodeCodePoint n = char ∧
    ∀ rest, decode (char ++ rest) = ofCodePoint n ++ decode rest := by
  obtain ⟨_, hform, hfits⟩ := hchar
  cases hfits with
  | nil => exact absurd hform (by decide)
  | @cons b r more form hb hmore =>
    by_cases hone : form = []
    · subst hone
      obtain rfl := List.forall₂_nil_right_iff.mp hmore
      obtain ⟨hscalar, hsame⟩ := encode_one (UInt8.le_trans hb.2 (le_of_single hform))
      refine ⟨_, hscalar, hsame, fun rest => ?_⟩
      rw [List.singleton_append, decode_cons, first_of_form hform hb, if_pos rfl]
      rfl
    · obtain ⟨hscalar, hsame⟩ := encodeCodePoint_foldl hform hone hb hmore
      refine ⟨_, hscalar, hsame, fun rest => ?_⟩
      rw [List.cons_append, decode_cons, first_of_form hform hb, if_neg hone, List.nil_append]
      obtain ⟨s, form, rfl⟩ := List.exists_cons_of_ne_nil hone
      exact decodeFrom_complete (eq_continuation hform) hmore

theorem encode_decode_character (hchar : IsCharacter char) (rest : Bytes) :
    encode (decode (char ++ rest)) = char ++ encode (decode rest) := by
  obtain ⟨n, hscalar, hsame, hread⟩ := exists_codePoint hchar
  rw [hread, encode_ofCodePoint_append hscalar, hsame]

/-- A byte that has a form starts a character. -/
theorem starts_of_formOf {form : List Range} (h : formOf b = some form) : Starts [b] := by
  have hform : form ∈ forms := List.mem_of_find?_eq_some h
  have hfirst := List.find?_some h
  have hall : (forms.all fun form => form.all fun q => q.1 ≤ q.2) = true := by decide
  cases form with
  | nil => exact absurd hform (by decide)
  | cons r form =>
    refine ⟨form.map (·.1), r :: form, hform, .cons (by simpa using hfirst) ?_⟩
    refine List.forall₂_map_left_iff.mpr (List.forall₂_same.mpr fun q hq => ?_)
    have hwhole := List.all_eq_true.mp (List.all_eq_true.mp hall _ hform) q
    exact ⟨UInt8.le_refl _, of_decide_eq_true (hwhole (List.mem_cons_of_mem _ hq))⟩

theorem decode_stray (h : ¬Starts [b]) (rest : Bytes) :
    decode (b :: rest) = replacement :: decode rest := by
  cases hform : formOf b with
  | none =>
    rw [decode_cons, first_eq, hform]
    rfl
  | some form => exact absurd (starts_of_formOf hform) h

theorem decode_broken (hstarts : Starts (b :: begun)) (hopen : ¬IsCharacter (b :: begun))
    (hend : ∀ x ∈ rest.head?, ¬Starts (b :: begun ++ [x])) :
    decode (b :: begun ++ rest) = replacement :: decode rest := by
  obtain ⟨more, _, hform, hfits⟩ := hstarts
  rw [List.cons_append] at hfits
  cases hfits with
  | @cons _ r _ form hb hfits =>
    have hread := List.forall₂_take begun.length hfits
    have hleft := List.forall₂_drop begun.length hfits
    rw [List.take_left] at hread
    rw [List.drop_left] at hleft
    have hsplit := List.take_append_drop begun.length form
    generalize List.take begun.length form = places at hread hsplit
    generalize List.drop begun.length form = after at hleft hsplit
    subst hsplit
    cases hleft with
    | nil => exact absurd ⟨_, hform, .cons hb (by simpa using hread)⟩ hopen
    | @cons m s more after hm hmore =>
      have hout : ∀ x ∈ rest.head?, ¬Within x s := fun x hx hin => hend x hx
        ⟨more, _, hform, .cons hb (by simpa using List.rel_append hread (.cons hin hmore))⟩
      have htail : ∀ q ∈ (places ++ s :: after).tail, q = continuation := by
        obtain ⟨p, form, hcons⟩ := List.exists_cons_of_ne_nil (List.append_ne_nil_of_right_ne_nil
          places (List.cons_ne_nil s after))
        rw [hcons] at hform ⊢
        exact eq_continuation hform
      rw [List.cons_append, decode_cons, first_of_form hform hb, if_neg (by simp),
        List.nil_append, decodeFrom_broken htail hread hout]

/-- The repair of bytes is what encoding makes of what decoding makes of them. -/
theorem Repaired.encode_decode (h : Repaired bytes fixed) : encode (decode bytes) = fixed := by
  induction h with
  | nil => rfl
  | character hchar _ ih => rw [encode_decode_character hchar, ih]
  | stray hstray _ ih => rw [decode_stray hstray, encode_replacement, ih]
  | broken hstarts hopen hend _ ih => rw [decode_broken hstarts hopen hend, encode_replacement, ih]

theorem repaired_iff : Repaired bytes fixed ↔ encode (decode bytes) = fixed := by
  refine ⟨Repaired.encode_decode, ?_⟩
  rintro rfl
  obtain ⟨fixed, h⟩ := exists_repaired bytes
  rwa [h.encode_decode]

/-- Just what is UTF-8 is the same after it has been read and written. -/
theorem encode_decode_eq_iff : encode (decode bytes) = bytes ↔ WellFormed bytes := by
  rw [← repaired_iff]
  exact ⟨Repaired.wellFormed, WellFormed.repaired⟩

/-! A unit or byte of ASCII divides what is on its sides. -/

theorem not_surrogate (b : UInt8) :
    isHighSurrogate b.toUInt16 = false ∧ isLowSurrogate b.toUInt16 = false :=
  forall_byte (P := fun b =>
    isHighSurrogate b.toUInt16 = false ∧ isLowSurrogate b.toUInt16 = false) (by decide +kernel) b

theorem codePoints_append_byte (b : UInt8) (t u : Text) :
    codePoints (t ++ b.toUInt16 :: u) = codePoints t ++ b.toNat :: codePoints u := by
  obtain ⟨hhigh, hlow⟩ := not_surrogate b
  induction t using codePoints.induct with
  | case1 => cases u <;> simp [codePoints, hhigh, hlow]
  | case2 v => cases u <;> simp [codePoints, hhigh, hlow]
  | case3 v v' rest hpair ih =>
    rw [List.cons_append, List.cons_append, codePoints, if_pos hpair, ih, codePoints, if_pos hpair]
    rfl
  | case4 v v' rest hpair ih =>
    rw [List.cons_append, List.cons_append, codePoints, if_neg hpair, ← List.cons_append, ih,
      codePoints, if_neg hpair]
    rfl

theorem encode_append_byte (hb : b < 0x80) (t u : Text) :
    encode (t ++ b.toUInt16 :: u) = encode t ++ b :: encode u := by
  have hle : b ≤ 0x7F := Nat.le_of_lt_succ hb
  have hone := (encode_one hle).2
  rw [encode, codePoints_append_byte, List.flatMap_append, List.flatMap_cons, hone]
  rfl

theorem low_of_next {begun : Option Begun} (b : UInt8) : ∀ c ∈ (next begun b).2, 0x80 ≤ c.low := by
  have hfirst : ∀ c ∈ (first b).2, 0x80 ≤ c.low := by
    have hall : (first b).2.all (0x80 ≤ ·.low) = true := forall_byte
      (P := fun b => (first b).2.all (0x80 ≤ ·.low) = true) (by decide +kernel) b
    intro c hc
    rw [Option.mem_def.mp hc] at hall
    simpa using hall
  cases begun with
  | none => exact hfirst
  | some c =>
    rw [next]
    split
    · split
      · simp
      · intro d hd
        obtain rfl := Option.some.inj hd
        exact UInt8.le_refl _
    · exact hfirst

theorem decodeFrom_append_byte (hb : b < 0x80) {begun : Option Begun}
    (hbegun : ∀ c ∈ begun, 0x80 ≤ c.low) (front back : Bytes) :
    decodeFrom begun (front ++ b :: back) =
      decodeFrom begun front ++ b.toUInt16 :: decode back := by
  have hfirst : first b = ([b.toUInt16], none) := if_pos hb
  induction front generalizing begun with
  | nil =>
    rw [List.nil_append, decodeFrom_cons]
    cases begun with
    | none =>
      rw [next, hfirst]
      rfl
    | some c =>
      have hout : ¬(c.low ≤ b ∧ b ≤ c.high) := fun hin =>
        UInt8.not_le.mpr hb (UInt8.le_trans (hbegun c rfl) hin.1)
      simp only [next, if_neg hout, hfirst]
      rfl
  | cons x front ih =>
    rw [List.cons_append, decodeFrom_cons, decodeFrom_cons, ih (low_of_next x), List.append_assoc]

theorem decode_append_byte (hb : b < 0x80) (front back : Bytes) :
    decode (front ++ b :: back) = decode front ++ b.toUInt16 :: decode back :=
  decodeFrom_append_byte hb (by simp) front back

theorem ascii_of_mem_mark (hx : x ∈ mark) : ¬x < 0x80 := by
  have hall : mark.all (¬· < 0x80) = true := by decide
  exact of_decide_eq_true (List.all_eq_true.mp hall x hx)

theorem Repaired.mem (h : Repaired bytes fixed) (hx : x < 0x80) (hmem : x ∈ fixed) : x ∈ bytes := by
  induction h with
  | nil => exact hmem
  | character _ _ ih =>
    rcases List.mem_append.mp hmem with hchar | hrest
    · exact List.mem_append_left _ hchar
    · exact List.mem_append_right _ (ih hrest)
  | stray _ _ ih =>
    rcases List.mem_append.mp hmem with hmark | hrest
    · exact absurd hx (ascii_of_mem_mark hmark)
    · exact List.mem_cons_of_mem _ (ih hrest)
  | broken _ _ _ _ ih =>
    rcases List.mem_append.mp hmem with hmark | hrest
    · exact absurd hx (ascii_of_mem_mark hmark)
    · exact List.mem_append_right _ (ih hrest)

theorem Repaired.head? (h : Repaired bytes fixed) (hx : x < 0x80) (hhead : fixed.head? = some x) :
    bytes.head? = some x := by
  cases h with
  | nil => exact hhead
  | @character char rest fixed hchar hrest =>
    obtain ⟨_, hform, hfits⟩ := hchar
    cases hfits with
    | nil => exact absurd hform (by decide)
    | cons => exact hhead
  | stray => exact absurd hx (ascii_of_mem_mark (by cases hhead; decide))
  | broken => exact absurd hx (ascii_of_mem_mark (by cases hhead; decide))

theorem mem_of_mem_decode (hb : b < 0x80) (h : b.toUInt16 ∈ decode bytes) : b ∈ bytes := by
  obtain ⟨t, u, htext⟩ := List.append_of_mem h
  have hfixed : Repaired bytes (encode (decode bytes)) := repaired_iff.mpr rfl
  rw [htext, encode_append_byte hb] at hfixed
  exact hfixed.mem hb (by simp)

theorem head?_decode (hb : b < 0x80) :
    (decode bytes).head? = some b.toUInt16 ↔ bytes.head? = some b := by
  constructor
  · intro h
    obtain ⟨u, htext⟩ := List.head?_eq_some_iff.mp h
    have hfixed : Repaired bytes (encode (decode bytes)) := repaired_iff.mpr rfl
    rw [htext, ← List.nil_append (_ :: u), encode_append_byte hb] at hfixed
    exact hfixed.head? hb rfl
  · intro h
    obtain ⟨rest, rfl⟩ := List.head?_eq_some_iff.mp h
    have htext := decode_append_byte hb [] rest
    rw [List.nil_append] at htext
    rw [htext]
    rfl

/-- What is before the first occurrence of a byte can be left out of the bytes or of the text. -/
theorem decode_dropWhile (hb : b < 0x80) (bytes : Bytes) :
    decode (bytes.dropWhile (· != b)) = (decode bytes).dropWhile (· != b.toUInt16) := by
  by_cases hmem : b ∈ bytes
  · obtain ⟨front, back, rfl, hfront⟩ := List.eq_append_cons_of_mem hmem
    have hbytes : ∀ x ∈ front, (x != b) = true := fun x hx => by
      rw [bne_iff_ne]
      rintro rfl
      exact hfront hx
    have htext : ∀ u ∈ decode front, (u != b.toUInt16) = true := fun u hu => by
      rw [bne_iff_ne]
      rintro rfl
      exact hfront (mem_of_mem_decode hb hu)
    rw [decode_append_byte hb, List.dropWhile_append_of_pos hbytes,
      List.dropWhile_append_of_pos htext, List.dropWhile_cons_of_neg (by simp),
      List.dropWhile_cons_of_neg (by simp)]
    exact decode_append_byte hb [] back
  · have hbytes : bytes.dropWhile (· != b) = [] := List.dropWhile_eq_nil_iff.mpr fun x hx => by
      rw [bne_iff_ne]
      rintro rfl
      exact hmem hx
    have htext : (decode bytes).dropWhile (· != b.toUInt16) = [] :=
      List.dropWhile_eq_nil_iff.mpr fun u hu => by
        rw [bne_iff_ne]
        rintro rfl
        exact hmem (mem_of_mem_decode hb hu)
    rw [hbytes, htext]
    rfl

end LuaBundle.Utf8
