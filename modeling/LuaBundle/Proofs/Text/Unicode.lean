import LuaBundle.Proofs.Text.Utf8

/-! Texts in which every surrogate has its partner. These are the texts that come back from a file
as they went in; any other comes back with `U+FFFD` for each surrogate that has none. -/

namespace LuaBundle

namespace Utf8

open Text

variable {m n : Nat} {bytes : Bytes} {t u : Text} {ns : List Nat}

theorem toNat_toUInt8 (h : n < 256) : n.toUInt8.toNat = n := UInt8.toNat_ofNat_of_lt' h

theorem within_toUInt8 {low high : UInt8} (hlow : low.toNat ≤ n) (hhigh : n ≤ high.toNat) :
    Within n.toUInt8 (low, high) := by
  have hlt := high.toNat_lt
  rw [Within, UInt8.le_iff_toNat_le, UInt8.le_iff_toNat_le, toNat_toUInt8 (by omega)]
  exact ⟨hlow, hhigh⟩

theorem within_continuation (n : Nat) : Within (0x80 + n % 0x40).toUInt8 continuation :=
  within_toUInt8 (Nat.le_add_right 0x80 _) (show _ ≤ 0xBF by omega)

/-- The bytes that a code point is written with are those of a character. -/
theorem IsScalar.isCharacter (h : IsScalar n) : IsCharacter (encodeCodePoint n) := by
  obtain ⟨hlt, hscalar⟩ := h
  have hlast := within_continuation n
  have hthird := within_continuation (n / 0x40)
  have hsecond := within_continuation (n / 0x1000)
  unfold encodeCodePoint
  split
  · exact ⟨[(0x00, 0x7F)], by decide,
      .cons (within_toUInt8 n.zero_le (show _ ≤ 0x7F by omega)) .nil⟩
  split
  · exact ⟨[(0xC2, 0xDF), continuation], by decide,
      .cons (within_toUInt8 (show 0xC2 ≤ _ by omega) (show _ ≤ 0xDF by omega)) (.cons hlast .nil)⟩
  split
  · rcases Nat.lt_or_ge n 0x1000 with h1 | h1
    · exact ⟨[(0xE0, 0xE0), (0xA0, 0xBF), continuation], by decide,
        .cons (within_toUInt8 (show 0xE0 ≤ _ by omega) (show _ ≤ 0xE0 by omega))
        (.cons (within_toUInt8 (show 0xA0 ≤ _ by omega) (show _ ≤ 0xBF by omega))
          (.cons hlast .nil))⟩
    rcases Nat.lt_or_ge n 0xD000 with h2 | h2
    · exact ⟨[(0xE1, 0xEC), continuation, continuation], by decide,
        .cons (within_toUInt8 (show 0xE1 ≤ _ by omega) (show _ ≤ 0xEC by omega))
        (.cons hthird (.cons hlast .nil))⟩
    rcases Nat.lt_or_ge n 0xE000 with h3 | h3
    · exact ⟨[(0xED, 0xED), (0x80, 0x9F), continuation], by decide,
        .cons (within_toUInt8 (show 0xED ≤ _ by omega) (show _ ≤ 0xED by omega))
        (.cons (within_toUInt8 (show 0x80 ≤ _ by omega) (show _ ≤ 0x9F by omega))
          (.cons hlast .nil))⟩
    · exact ⟨[(0xEE, 0xEF), continuation, continuation], by decide,
        .cons (within_toUInt8 (show 0xEE ≤ _ by omega) (show _ ≤ 0xEF by omega))
        (.cons hthird (.cons hlast .nil))⟩
  · rcases Nat.lt_or_ge n 0x40000 with h1 | h1
    · exact ⟨[(0xF0, 0xF0), (0x90, 0xBF), continuation, continuation], by decide,
        .cons (within_toUInt8 (show 0xF0 ≤ _ by omega) (show _ ≤ 0xF0 by omega))
        (.cons (within_toUInt8 (show 0x90 ≤ _ by omega) (show _ ≤ 0xBF by omega))
          (.cons hthird (.cons hlast .nil)))⟩
    rcases Nat.lt_or_ge n 0x100000 with h2 | h2
    · exact ⟨[(0xF1, 0xF3), continuation, continuation, continuation], by decide,
        .cons (within_toUInt8 (show 0xF1 ≤ _ by omega) (show _ ≤ 0xF3 by omega))
        (.cons hsecond (.cons hthird (.cons hlast .nil)))⟩
    · exact ⟨[(0xF4, 0xF4), (0x80, 0x8F), continuation, continuation], by decide,
        .cons (within_toUInt8 (show 0xF4 ≤ _ by omega) (show _ ≤ 0xF4 by omega))
        (.cons (within_toUInt8 (show 0x80 ≤ _ by omega) (show _ ≤ 0x8F by omega))
          (.cons hthird (.cons hlast .nil)))⟩

/-- The code point that the bytes of a character stand for. -/
def codePointOf : Bytes → Nat
  | [] => 0
  | b :: more => more.foldl push (if more = [] then b.toNat else b.toNat % 2 ^ (6 - more.length))

theorem codePointOf_two (b x : UInt8) :
    codePointOf [b, x] = b.toNat % 32 * 0x40 + (x.toNat - 0x80) := rfl

theorem codePointOf_three (b x y : UInt8) : codePointOf [b, x, y] =
    (b.toNat % 16 * 0x40 + (x.toNat - 0x80)) * 0x40 + (y.toNat - 0x80) := rfl

theorem codePointOf_four (b x y z : UInt8) : codePointOf [b, x, y, z] =
    ((b.toNat % 8 * 0x40 + (x.toNat - 0x80)) * 0x40 + (y.toNat - 0x80)) * 0x40 + (z.toNat - 0x80) :=
  rfl

theorem codePointOf_encodeCodePoint (h : n < 0x110000) : codePointOf (encodeCodePoint n) = n := by
  unfold encodeCodePoint
  split
  · exact toNat_toUInt8 (by omega)
  split
  · rw [codePointOf_two, toNat_toUInt8 (by omega), toNat_toUInt8 (by omega)]
    omega
  split
  · rw [codePointOf_three, toNat_toUInt8 (by omega), toNat_toUInt8 (by omega),
      toNat_toUInt8 (by omega)]
    omega
  · rw [codePointOf_four, toNat_toUInt8 (by omega), toNat_toUInt8 (by omega),
      toNat_toUInt8 (by omega), toNat_toUInt8 (by omega)]
    omega

/-- What has been written for a code point is read as that code point. -/
theorem decode_encodeCodePoint_append (h : IsScalar n) (rest : Bytes) :
    decode (encodeCodePoint n ++ rest) = ofCodePoint n ++ decode rest := by
  obtain ⟨m, hscalar, hsame, hread⟩ := exists_codePoint h.isCharacter
  have hm := congrArg codePointOf hsame
  rw [codePointOf_encodeCodePoint hscalar.lt, codePointOf_encodeCodePoint h.lt] at hm
  rw [hread, hm]

theorem decode_flatMap (hns : ∀ n ∈ ns, IsScalar n) :
    decode (ns.flatMap encodeCodePoint) = ns.flatMap ofCodePoint := by
  induction ns with
  | nil => rfl
  | cons n ns ih =>
    obtain ⟨hn, hns⟩ := List.forall_mem_cons.mp hns
    rw [List.flatMap_cons, List.flatMap_cons, decode_encodeCodePoint_append hn, ih hns]

theorem isScalar_of_unit {u : UInt16} (hhigh : isHighSurrogate u = false)
    (hlow : isLowSurrogate u = false) : IsScalar u.toNat := by
  have hlt := u.toNat_lt
  simp only [isHighSurrogate, isLowSurrogate, Bool.and_eq_false_iff, decide_eq_false_iff_not,
    UInt16.le_iff_toNat_le, UInt16.reduceToNat] at hhigh hlow
  exact ⟨by omega, by omega⟩

theorem isScalar_replaced (u : UInt16) :
    IsScalar (if isHighSurrogate u || isLowSurrogate u then 0xFFFD else u.toNat) := by
  split
  · exact ⟨by decide, by decide⟩
  · rename_i h
    rw [Bool.not_eq_true, Bool.or_eq_false_iff] at h
    exact isScalar_of_unit h.1 h.2

theorem isScalar_codePoints (t : Text) : ∀ n ∈ t.codePoints, IsScalar n := by
  induction t using codePoints.induct with
  | case1 => simp [codePoints]
  | case2 u =>
    rw [codePoints]
    exact List.forall_mem_singleton.mpr (isScalar_replaced u)
  | case3 u v rest hpair ih =>
    rw [codePoints, if_pos hpair]
    refine List.forall_mem_cons.mpr ⟨?_, ih⟩
    simp only [isHighSurrogate, isLowSurrogate, Bool.and_eq_true, decide_eq_true_eq,
      UInt16.le_iff_toNat_le, UInt16.reduceToNat] at hpair
    exact ⟨by omega, by omega⟩
  | case4 u v rest hpair ih =>
    rw [codePoints, if_neg hpair]
    exact List.forall_mem_cons.mpr ⟨isScalar_replaced u, ih⟩

/-- What a text is read as once it has been written. -/
theorem decode_encode (t : Text) : decode (encode t) = t.wellFormed :=
  decode_flatMap (isScalar_codePoints t)

end Utf8

namespace Text

open Utf8

variable {t t' sep : Text} {parts : List Text} {ns : List Nat} {u : UInt16}

/-- Whether every surrogate of a text has its partner. -/
def IsUnicode (t : Text) : Prop := t.wellFormed = t

instance (t : Text) : Decidable (IsUnicode t) := inferInstanceAs (Decidable (_ = _))

theorem codePoints_flatMap_append (hns : ∀ n ∈ ns, IsScalar n) (t : Text) :
    codePoints (ns.flatMap ofCodePoint ++ t) = ns ++ codePoints t := by
  induction ns with
  | nil => rfl
  | cons n ns ih =>
    obtain ⟨hn, hns⟩ := List.forall_mem_cons.mp hns
    rw [List.flatMap_cons, List.append_assoc, codePoints_ofCodePoint_append hn, ih hns,
      List.cons_append]

theorem isUnicode_flatMap (hns : ∀ n ∈ ns, IsScalar n) : IsUnicode (ns.flatMap ofCodePoint) := by
  have hpoints := codePoints_flatMap_append hns []
  rw [List.append_nil, codePoints, List.append_nil] at hpoints
  rw [IsUnicode, wellFormed, hpoints]

theorem isUnicode_ofCodePoint {n : Nat} (hn : IsScalar n) : IsUnicode (ofCodePoint n) := by
  have h := isUnicode_flatMap (List.forall_mem_singleton.mpr hn)
  rwa [List.flatMap_singleton] at h

theorem IsUnicode.append (h : IsUnicode t) (h' : IsUnicode t') : IsUnicode (t ++ t') := by
  have hpoints := codePoints_flatMap_append (isScalar_codePoints t) t'
  rw [← wellFormed, show t.wellFormed = t from h] at hpoints
  rw [IsUnicode, wellFormed, hpoints, List.flatMap_append]
  exact congrArg₂ _ h h'

theorem isUnicode_unit (hhigh : isHighSurrogate u = false) (hlow : isLowSurrogate u = false) :
    IsUnicode [u] := by
  have h := isUnicode_ofCodePoint (isScalar_of_unit hhigh hlow)
  rwa [ofCodePoint, if_pos u.toNat_lt, show u.toNat.toUInt16 = u from UInt16.ofNat_toNat] at h

/-- A unit of ASCII before a text. -/
theorem IsUnicode.cons (h : IsUnicode t) (hu : u < 0x80) : IsUnicode (u :: t) := by
  have hunit : ∀ n < 0x80, IsUnicode [UInt16.ofNat n] := by decide +kernel
  have h' := hunit u.toNat hu
  rw [UInt16.ofNat_toNat] at h'
  exact h'.append h

theorem isUnicode_ofString (s : String) : IsUnicode (ofString s) := by
  have hscalar : ∀ n ∈ s.toList.map Char.toNat, IsScalar n := by
    intro n hn
    obtain ⟨c, -, rfl⟩ := List.mem_map.mp hn
    have hvalid := c.valid
    simp only [UInt32.isValidChar, Nat.isValidChar] at hvalid
    exact ⟨by unfold Char.toNat; omega, by unfold Char.toNat; omega⟩
  have h := isUnicode_flatMap hscalar
  rwa [List.flatMap_map] at h

theorem isUnicode_joinWith (hsep : IsUnicode sep) (hparts : ∀ part ∈ parts, IsUnicode part) :
    IsUnicode (joinWith sep parts) := by
  induction parts with
  | nil => rfl
  | cons part rest ih =>
    obtain ⟨hpart, hrest⟩ := List.forall_mem_cons.mp hparts
    by_cases hnil : rest = []
    · rw [hnil]
      simpa [joinWith] using hpart
    · rw [joinWith, List.intercalate_cons_of_ne_nil hnil]
      exact (hpart.append hsep).append (ih hrest)

theorem isUnicode_replacement : IsUnicode [replacement] :=
  isUnicode_unit (by decide) (by decide)

/-- What bytes are read as. -/
theorem isUnicode_decode (bytes : Bytes) : IsUnicode (decode bytes) := by
  obtain ⟨fixed, h⟩ := exists_repaired bytes
  induction h with
  | nil => rfl
  | character hchar _ ih =>
    obtain ⟨n, hn, -, hread⟩ := exists_codePoint hchar
    rw [hread]
    exact (isUnicode_ofCodePoint hn).append ih
  | stray hstray _ ih =>
    rw [decode_stray hstray]
    exact isUnicode_replacement.append ih
  | broken hstarts hopen hend _ ih =>
    rw [decode_broken hstarts hopen hend]
    exact isUnicode_replacement.append ih

theorem le_of_surrogate (h : isHighSurrogate u = true ∨ isLowSurrogate u = true) : 0xD800 ≤ u := by
  simp only [isHighSurrogate, isLowSurrogate, Bool.and_eq_true, decide_eq_true_eq] at h
  rcases h with h | h
  · exact h.1
  · exact UInt16.le_trans (by decide) h.1

/-- Putting texts in the place of units of ASCII. -/
theorem IsUnicode.flatMap {f : UInt16 → Text} (h : IsUnicode t)
    (hf : ∀ u, f u = [u] ∨ u < 0x80 ∧ IsUnicode (f u)) : IsUnicode (t.flatMap f) := by
  have hkept : ∀ u, isHighSurrogate u = true ∨ isLowSurrogate u = true → f u = [u] := by
    refine fun u hu => (hf u).resolve_right fun ⟨hlt, _⟩ => ?_
    exact absurd (UInt16.lt_of_le_of_lt (le_of_surrogate hu) hlt) (by decide)
  have hpoint : ∀ n, IsScalar n → IsUnicode ((ofCodePoint n).flatMap f) := by
    intro n hn
    rw [ofCodePoint]
    split
    · rename_i hsmall
      obtain ⟨hhigh, hlow⟩ := hn.not_surrogate hsmall
      rw [List.flatMap_singleton]
      rcases hf n.toUInt16 with hsame | ⟨_, hunicode⟩
      · rw [hsame]
        exact isUnicode_unit hhigh hlow
      · exact hunicode
    · rename_i hlarge
      obtain ⟨hhigh, hlow⟩ := surrogates_of_le (n := n) (by omega) hn.lt
      have hpair := isUnicode_ofCodePoint hn
      rw [ofCodePoint, if_neg hlarge] at hpair
      rwa [List.flatMap_cons, List.flatMap_singleton, hkept _ (.inl hhigh), hkept _ (.inr hlow)]
  rw [← show t.wellFormed = t from h, wellFormed, List.flatMap_assoc]
  have hall := isScalar_codePoints t
  generalize codePoints t = ns at hall ⊢
  induction ns with
  | nil => rfl
  | cons n ns ih =>
    obtain ⟨hn, hns⟩ := List.forall_mem_cons.mp hall
    exact (hpoint n hn).append (ih hns)

end Text

end LuaBundle
