import LuaBundle.Proofs.Source.Quoted
import Mathlib.Data.List.Chain
import Mathlib.Data.Nat.Digits.Defs

/-! The grammar of escapes: what the text between the quotes of a string consists of, how each part
is spelled and what it stands for. A text that is spelled part by part is decoded part by part, as
long as no part goes on with the unit after it. -/

namespace LuaBundle.Escape

open Text

/-- The letters and signs that are escapes by themselves, with what they stand for. -/
def letters : List (UInt16 × UInt16) :=
  [(unit 'n', 10), (unit 't', 9), (unit 'r', 13), (unit 'a', 7), (unit 'b', 8), (unit 'f', 12),
    (unit 'v', 11), (backslash, backslash), (doubleQuote, doubleQuote), (singleQuote, singleQuote)]

def lineBreaks : List Text :=
  [[lineFeed], [carriageReturn], [carriageReturn, lineFeed], [lineFeed, carriageReturn]]

/-- The number that digits spell, the last of them for the units. -/
def numberOf (base : Nat) (digits : Text) : Nat := Nat.ofDigits base (digits.map hexValue).reverse

/-- A part of the text between the quotes of a string. -/
inductive Sequence where
  | plain (u : UInt16) (hu : u ≠ backslash)
  | letter (u value : UInt16) (hu : (u, value) ∈ letters)
  | lineBreak (run : Text) (hrun : run ∈ lineBreaks)
  | blanks (run : Text) (hrun : ∀ u ∈ run, isAsciiBlank u = true)
  | byte (first second : UInt16) (hfirst : isHexDigit first = true)
    (hsecond : isHexDigit second = true)
  | decimal (digits : Text) (hlength : 1 ≤ digits.length ∧ digits.length ≤ 3)
    (hdigits : ∀ u ∈ digits, isDigit u = true) (hvalue : numberOf 10 digits ≤ 255)
  | codePoint (digits : Text) (hlength : 1 ≤ digits.length ∧ digits.length ≤ 8)
    (hdigits : ∀ u ∈ digits, isHexDigit u = true) (hvalue : numberOf 16 digits ≤ 0x10FFFF)

namespace Sequence

def spelling : Sequence → Text
  | plain u _ => [u]
  | letter u _ _ => [backslash, u]
  | lineBreak run _ => backslash :: run
  | blanks run _ => backslash :: unit 'z' :: run
  | byte first second _ _ => [backslash, unit 'x', first, second]
  | decimal digits _ _ _ => backslash :: digits
  | codePoint digits _ _ _ => backslash :: unit 'u' :: leftBrace :: digits ++ [rightBrace]

def content : Sequence → Text
  | plain u _ => [u]
  | letter _ value _ => [value]
  | lineBreak _ _ => [lineFeed]
  | blanks _ _ => []
  | byte first second _ _ => [(numberOf 16 [first, second]).toUInt16]
  | decimal digits _ _ _ => [(numberOf 10 digits).toUInt16]
  | codePoint digits _ _ _ => ofCodePoint (numberOf 16 digits)

/-- A unit that would be read as one more unit of a sequence before it. -/
def GoesOn : Sequence → UInt16 → Prop
  | decimal digits _ _ _, u => digits.length < 3 ∧ isDigit u = true
  | blanks _ _, u => isAsciiBlank u = true
  | lineBreak run _, u =>
    run = [lineFeed] ∧ u = carriageReturn ∨ run = [carriageReturn] ∧ u = lineFeed
  | _, _ => False

/-- A sequence that does not go on with a plain unit after it. -/
def Apart (s : Sequence) : Sequence → Prop
  | plain u _ => ¬s.GoesOn u
  | _ => True

end Sequence

theorem digitsValue_eq (base : Nat) (digits : Text) :
    digitsValue base digits = numberOf base digits := by
  rw [digitsValue, numberOf, Nat.ofDigits_eq_foldr, List.foldr_reverse, List.foldl_map]
  simp [Nat.add_comm, Nat.mul_comm]

/-! Each kind of escape, with whatever follows it. -/

section Read

variable {rest : Text}

theorem read?_letter {u value : UInt16} (hu : (u, value) ∈ letters) :
    read? (u :: rest) = some ([value], rest) := by
  have hletters : letters.all (fun p => letter? p.1 == some p.2) = true := by decide
  have hletter : letter? u = some value :=
    beq_iff_eq.mp (List.all_eq_true.mp hletters (u, value) hu)
  rw [read?, hletter]

theorem afterBreak_of_head? {u : UInt16}
    (h : ∀ v ∈ rest.head?, ¬(isBreak v = true ∧ v ≠ u)) : afterBreak u rest = rest := by
  cases rest with
  | nil => rfl
  | cons v rest =>
    have hv := h v rfl
    rw [afterBreak, if_neg (by simpa using hv)]

theorem read?_lineBreak {run : Text} (hrun : run ∈ lineBreaks)
    (h : ∀ u ∈ rest.head?, ¬(Sequence.lineBreak run hrun).GoesOn u) :
    read? (run ++ rest) = some ([lineFeed], rest) := by
  simp only [lineBreaks, List.mem_cons, List.not_mem_nil, or_false] at hrun
  rcases hrun with rfl | rfl | rfl | rfl
  · have hafter : afterBreak lineFeed rest = rest := by
      refine afterBreak_of_head? fun v hv hbreak => h v hv (.inl ⟨rfl, ?_⟩)
      simpa [isBreak, hbreak.2] using hbreak.1
    exact congrArg (fun t => some ([lineFeed], t)) hafter
  · have hafter : afterBreak carriageReturn rest = rest := by
      refine afterBreak_of_head? fun v hv hbreak => h v hv (.inr ⟨rfl, ?_⟩)
      simpa [isBreak, hbreak.2] using hbreak.1
    exact congrArg (fun t => some ([lineFeed], t)) hafter
  · rfl
  · rfl

theorem read?_blanks {run : Text} (hrun : ∀ u ∈ run, isAsciiBlank u = true)
    (h : ∀ u ∈ rest.head?, ¬isAsciiBlank u = true) :
    read? (unit 'z' :: (run ++ rest)) = some ([], rest) := by
  have hstop : rest.dropWhile isAsciiBlank = rest := by
    cases rest with
    | nil => rfl
    | cons u rest => exact List.dropWhile_cons_of_neg (h u rfl)
  have hdrop : (run ++ rest).dropWhile isAsciiBlank = rest := by
    rw [List.dropWhile_append_of_pos hrun, hstop]
  exact congrArg (fun t => some ([], t)) hdrop

theorem read?_byte {first second : UInt16} (hfirst : isHexDigit first = true)
    (hsecond : isHexDigit second = true) : read? (unit 'x' :: first :: second :: rest) =
      some ([(numberOf 16 [first, second]).toUInt16], rest) := by
  have hread : read? (unit 'x' :: first :: second :: rest) = hex? (first :: second :: rest) := rfl
  rw [hread, hex?, hfirst, hsecond, digitsValue_eq]
  rfl

theorem decimal?_digits {digits : Text} (hlength : 1 ≤ digits.length ∧ digits.length ≤ 3)
    (hdigits : ∀ u ∈ digits, isDigit u = true) (hvalue : numberOf 10 digits ≤ 255)
    (h : ∀ u ∈ rest.head?, ¬(digits.length < 3 ∧ isDigit u = true)) :
    decimal? (digits ++ rest) = some ([(numberOf 10 digits).toUInt16], rest) := by
  have hrun : ((digits ++ rest).take 3).takeWhile isDigit = digits := by
    have hstop : (rest.take (3 - digits.length)).takeWhile isDigit = [] := by
      cases rest with
      | nil => simp
      | cons u rest =>
        rcases Nat.lt_or_ge digits.length 3 with hlt | hge
        · have hu : ¬isDigit u = true := fun hu => h u rfl ⟨hlt, hu⟩
          obtain ⟨n, hn⟩ : ∃ n, 3 - digits.length = n + 1 := ⟨2 - digits.length, by omega⟩
          rw [hn, List.take_succ_cons, List.takeWhile_cons_of_neg hu]
        · rw [Nat.sub_eq_zero_of_le hge]
          rfl
    rw [List.take_append, List.take_of_length_le hlength.2, List.takeWhile_append_of_pos hdigits,
      hstop, List.append_nil]
  simp only [decimal?, hrun, digitsValue_eq]
  rw [if_pos ⟨hlength.1, hvalue⟩, List.drop_left]

theorem codePoint?_digits {digits : Text} (hlength : 1 ≤ digits.length ∧ digits.length ≤ 8)
    (hdigits : ∀ u ∈ digits, isHexDigit u = true) (hvalue : numberOf 16 digits ≤ 0x10FFFF) :
    codePoint? (leftBrace :: (digits ++ rightBrace :: rest)) =
      some (ofCodePoint (numberOf 16 digits), rest) := by
  have hbrace : ¬isHexDigit rightBrace = true := by decide
  have htake : (digits ++ rightBrace :: rest).takeWhile isHexDigit = digits := by
    rw [List.takeWhile_append_of_pos hdigits, List.takeWhile_cons_of_neg hbrace, List.append_nil]
  have hdrop : (digits ++ rightBrace :: rest).dropWhile isHexDigit = rightBrace :: rest := by
    rw [List.dropWhile_append_of_pos hdigits, List.dropWhile_cons_of_neg hbrace]
  simp only [codePoint?, htake, hdrop, digitsValue_eq]
  exact if_pos ⟨trivial, trivial, hlength.1, hlength.2, hvalue⟩

end Read

namespace Sequence

/-- A sequence is decoded by itself where it does not go on with what follows it. -/
theorem decode_append (s : Sequence) {rest : Text} (h : ∀ u ∈ rest.head?, ¬s.GoesOn u) :
    decode (s.spelling ++ rest) = s.content ++ decode rest := by
  cases s with
  | plain u hu => exact Quoted.decode_cons hu rest
  | letter u value hu => exact Quoted.decode_escape (read?_letter hu)
  | lineBreak run hrun => exact Quoted.decode_escape (read?_lineBreak hrun h)
  | blanks run hrun => exact Quoted.decode_escape (read?_blanks hrun h)
  | byte first second hfirst hsecond => exact Quoted.decode_escape (read?_byte hfirst hsecond)
  | decimal digits hlength hdigits hvalue =>
    obtain ⟨u, more, rfl⟩ := List.exists_cons_of_ne_nil (List.length_pos_iff.mp hlength.1)
    have hread := Quoted.read?_digit (hdigits u List.mem_cons_self) (more ++ rest)
    refine Quoted.decode_escape (hread.trans ?_)
    exact decimal?_digits hlength hdigits hvalue h
  | codePoint digits hlength hdigits hvalue =>
    have hread : read? (unit 'u' :: leftBrace :: (digits ++ rightBrace :: rest)) =
        codePoint? (leftBrace :: (digits ++ rightBrace :: rest)) := rfl
    have hspelling : (codePoint digits hlength hdigits hvalue).spelling ++ rest =
        backslash :: unit 'u' :: leftBrace :: (digits ++ rightBrace :: rest) := by
      simp [spelling]
    rw [hspelling]
    exact Quoted.decode_escape (hread.trans (codePoint?_digits hlength hdigits hvalue))

theorem not_goesOn_backslash (s : Sequence) : ¬s.GoesOn backslash := by
  have hdigit : ¬isDigit backslash = true := by decide
  have hblank : ¬isAsciiBlank backslash = true := by decide
  have hreturn : backslash ≠ carriageReturn := by decide
  have hfeed : backslash ≠ lineFeed := by decide
  cases s <;> simp [GoesOn, hdigit, hblank, hreturn, hfeed]

/-- The unit that a spelling starts with: a plain unit, or a backslash. -/
theorem apart_head? {s s' : Sequence} (h : s.Apart s') (rest : Text) :
    ∀ u ∈ (s'.spelling ++ rest).head?, ¬s.GoesOn u := by
  intro u hu
  cases s' with
  | plain v hv =>
    obtain rfl := Option.some.inj hu
    exact h
  | _ =>
    obtain rfl := Option.some.inj hu
    exact s.not_goesOn_backslash

end Sequence

/-- A text that is spelled in sequences is decoded to what they stand for, one after the other. -/
theorem decode_spelling {parts : List Sequence} (h : parts.IsChain Sequence.Apart) :
    decode (parts.flatMap Sequence.spelling) = parts.flatMap Sequence.content := by
  induction parts with
  | nil => simp [decode]
  | cons s parts ih =>
    have hhead : ∀ u ∈ (parts.flatMap Sequence.spelling).head?, ¬s.GoesOn u := by
      cases parts with
      | nil => simp
      | cons s' parts => exact Sequence.apart_head? (List.isChain_cons_cons.mp h).1 _
    rw [List.flatMap_cons, List.flatMap_cons, s.decode_append hhead, ih h.tail]

/-- Sequences that stand next to what they could be taken to go on with. -/
def closeParts : List Sequence :=
  [.decimal "007" (by decide) (List.all_eq_true.mp (by decide)) (by decide),
    .plain (unit '9') (by decide),
    .decimal "65" (by decide) (List.all_eq_true.mp (by decide)) (by decide),
    .plain (unit 'B') (by decide),
    .blanks " \n\t" (List.all_eq_true.mp (by decide)), .letter (unit 't') 9 (by decide),
    .lineBreak [carriageReturn] (by decide), .plain carriageReturn (by decide),
    .lineBreak [carriageReturn, lineFeed] (by decide), .plain lineFeed (by decide),
    .byte (unit 'e') (unit '9') (by decide) (by decide),
    .codePoint "1F600" (by decide) (List.all_eq_true.mp (by decide)) (by decide)]

theorem decode_closeParts :
    closeParts.IsChain Sequence.Apart ∧
      closeParts.flatMap Sequence.spelling =
        "\\0079\\65B\\z \n\t\\t\\\r\r\\\r\n\n\\xe9\\u\x7b1F600\x7d" ∧
      decode "\\0079\\65B\\z \n\t\\t\\\r\r\\\r\n\n\\xe9\\u\x7b1F600\x7d" =
        "\x079AB\t\n\r\n\né😀" := by
  have hchain : closeParts.IsChain Sequence.Apart := by
    simp [closeParts, Sequence.Apart, Sequence.GoesOn]
    decide
  have hspelling : closeParts.flatMap Sequence.spelling =
      "\\0079\\65B\\z \n\t\\t\\\r\r\\\r\n\n\\xe9\\u\x7b1F600\x7d" := by decide +kernel
  have hcontent : closeParts.flatMap Sequence.content =
      "\x079AB\t\n\r\n\né😀" := by decide +kernel
  refine ⟨hchain, hspelling, ?_⟩
  rw [← hspelling, ← hcontent]
  exact decode_spelling hchain

end LuaBundle.Escape
