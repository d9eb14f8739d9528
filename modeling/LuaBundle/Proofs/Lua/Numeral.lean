import LuaBundle.Proofs.Lua.Piece
import LuaBundle.Proofs.Text.Unit

/-! The lexemes of a numeral: a scan that knows nothing of numerals sees words of digits and
letters, with dots and signs between them. A numeral may end in a dot, which then follows a word. -/

namespace LuaBundle

open Text

/-- Whether a unit is a symbol wherever it stands. -/
def isPlainSymbol (u : UInt16) : Bool :=
  !isBlank u && !isWordUnit u && u != doubleQuote && u != singleQuote && u != dash &&
    u != leftBracket

namespace Lexeme

theorem read_word {u : UInt16} (h : isWordUnit u = true) (rest : Text) :
    read u rest = (word (u :: rest.takeWhile isWordUnit), rest.dropWhile isWordUnit) := by
  have hblank : isWordUnit u = true → isBlank u = false := by
    refine of_toNat_lt (toNat_lt_of_isWordUnit h) ?_
    decide +kernel
  rw [read, hblank h, h]
  rfl

theorem openingLevel?_eq_none {u : UInt16} (h : u ≠ leftBracket) (rest : Text) :
    openingLevel? (u :: rest) = none := by
  rw [openingLevel?, if_neg h]

/-- A unit that starts neither a word, a comment nor a literal is a symbol. -/
theorem read_symbol {u : UInt16} {rest : Text} (hblank : isBlank u = false)
    (hword : isWordUnit u = false) (hquote : ¬(u = doubleQuote ∨ u = singleQuote))
    (hcomment : ¬(u = dash ∧ rest.head? = some dash))
    (hopening : openingLevel? (u :: rest) = none) : read u rest = (symbol u, rest) := by
  rw [read, hblank, hword, if_neg Bool.false_ne_true, if_neg Bool.false_ne_true, if_neg hquote,
    if_neg hcomment, hopening]

end Lexeme

theorem lexemes_plainSymbol {u : UInt16} (h : isPlainSymbol u = true) (rest : Text) :
    lexemes (u :: rest) = .symbol u :: lexemes rest := by
  simp only [isPlainSymbol, Bool.and_eq_true, Bool.not_eq_true', bne_iff_ne] at h
  obtain ⟨⟨⟨⟨⟨hblank, hword⟩, hdouble⟩, hsingle⟩, hdash⟩, hbracket⟩ := h
  rw [lexemes, Lexeme.read_symbol hblank hword (by simp [hdouble, hsingle]) (by simp [hdash])
    (Lexeme.openingLevel?_eq_none hbracket rest)]

/-- A dash is a symbol where it starts no comment. -/
theorem lexemes_dash {rest : Text} (h : rest.head? ≠ some dash) :
    lexemes (dash :: rest) = .symbol dash :: lexemes rest := by
  rw [lexemes, Lexeme.read_symbol (by decide) (by decide) (by decide) (by simp [h])
    (Lexeme.openingLevel?_eq_none (by decide) rest)]

/-- A run of units of names is one word. -/
theorem lexemes_word {w after : Text} (hne : w ≠ []) (hall : ∀ u ∈ w, isWordUnit u = true)
    (hafter : Lua.startsWord after = false) : lexemes (w ++ after) = .word w :: lexemes after := by
  obtain ⟨u, rest, rfl⟩ := List.exists_cons_of_ne_nil hne
  obtain ⟨hu, hrest⟩ := List.forall_mem_cons.mp hall
  have hstop : after.takeWhile isWordUnit = [] ∧ after.dropWhile isWordUnit = after := by
    cases after with
    | nil => exact ⟨rfl, rfl⟩
    | cons v after =>
      have hv : isWordUnit v = false := hafter
      simp [hv]
  rw [List.cons_append, lexemes, Lexeme.read_word hu, List.takeWhile_append_of_pos hrest,
    List.dropWhile_append_of_pos hrest, hstop.1, hstop.2, List.append_nil]

namespace Lua

/-- The units of the words in numerals. -/
def isNumeralUnit (u : UInt16) : Bool :=
  isHexDigit u || u == unit 'x' || u == unit 'X' || isBinaryMark u

theorem toNat_lt_of_isNumeralUnit {u : UInt16} (h : isNumeralUnit u = true) : u.toNat < 128 := by
  simp only [isNumeralUnit, isHexDigit, isBinaryMark, isDigit, Bool.or_eq_true, Bool.and_eq_true,
    decide_eq_true_eq, beq_iff_eq, UInt16.le_iff_toNat_le, UInt16.toNat_ofNat] at h
  rcases h with ((((⟨_, _⟩ | ⟨_, _⟩) | ⟨_, _⟩) | rfl) | rfl) | rfl | rfl
  all_goals first | omega | decide

theorem isWordUnit_of_isNumeralUnit {u : UInt16} (h : isNumeralUnit u = true) :
    isWordUnit u = true := by
  have : isNumeralUnit u = true → isWordUnit u = true := by
    refine of_toNat_lt (toNat_lt_of_isNumeralUnit h) ?_
    decide
  exact this h

/-- The words and symbols that a numeral consists of. -/
def IsNumeric (l : Lexeme) : Prop :=
  (∃ w, l = .word w ∧ w ≠ [] ∧ ∀ u ∈ w, isNumeralUnit u = true) ∨
    ∃ u, l = .symbol u ∧ (u = dot ∨ isSign u = true)

/-- The part of a numeral up to its dot. -/
def IsWhole (t : Text) : Prop := t = [] ∨ ∃ w, t = w ++ [dot] ∧ ∀ u ∈ w, isNumeralUnit u = true

/-- The part of a numeral from the sign of its exponent on. -/
def IsSigned (t : Text) : Prop :=
  t = [] ∨ ∃ s v digits, t = s :: v :: digits ∧ isSign s = true ∧
    ∀ u ∈ v :: digits, isDigit u = true

theorem isNumeralUnit_of_isHexDigit {u : UInt16} (h : isHexDigit u = true) :
    isNumeralUnit u = true := by
  simp [isNumeralUnit, h]

theorem isNumeralUnit_of_isDigit {u : UInt16} (h : isDigit u = true) : isNumeralUnit u = true :=
  isNumeralUnit_of_isHexDigit (by simp [isHexDigit, h])

/-- A mantissa, after a prefix that tells its base. -/
theorem exists_whole {digit : UInt16 → Bool} {base t : Text}
    (hdigit : ∀ u, digit u = true → isNumeralUnit u = true)
    (hbase : ∀ u ∈ base, isNumeralUnit u = true) (h : isMantissa digit t = true) :
    ∃ whole run, base ++ t = whole ++ run ∧ IsWhole whole ∧ (∀ u ∈ run, isNumeralUnit u = true) ∧
      (run = [] → ∃ w, w ≠ [] ∧ whole = w ++ [dot] ∧ ∀ u ∈ w, isNumeralUnit u = true) := by
  have hsplit := List.takeWhile_append_dropWhile (p := digit) (l := t)
  have hrun : ∀ u ∈ t.takeWhile digit, isNumeralUnit u = true := fun u hu =>
    hdigit u (List.all_eq_true.mp List.all_takeWhile u hu)
  unfold isMantissa at h
  split at h
  · rename_i hdrop
    rw [hdrop, List.append_nil] at hsplit
    refine ⟨[], base ++ t, rfl, .inl rfl, ?_, fun hnil => ?_⟩
    · rw [hsplit] at hrun
      simpa [or_imp, forall_and] using ⟨hbase, hrun⟩
    · simp_all
  · rename_i u fraction hdrop
    simp only [Bool.and_eq_true, beq_iff_eq, decide_eq_true_eq] at h
    obtain ⟨⟨rfl, hfraction⟩, hlength⟩ := h
    rw [hdrop] at hsplit
    have hwhole : ∀ u ∈ base ++ t.takeWhile digit, isNumeralUnit u = true := by
      simpa [or_imp, forall_and] using ⟨hbase, hrun⟩
    refine ⟨(base ++ t.takeWhile digit) ++ [dot], fraction, ?_, .inr ⟨_, rfl, hwhole⟩,
      fun u hu => hdigit u (List.all_eq_true.mp hfraction u hu), fun hnil => ?_⟩
    · simp [hsplit]
    · refine ⟨_, ?_, rfl, hwhole⟩
      intro he
      rw [List.append_eq_nil_iff.mp he |>.2, hnil] at hsplit
      rw [← hsplit] at hlength
      simp at hlength

/-- An exponent with its mark. -/
theorem exists_signed {mark : UInt16} {t : Text} (hmark : isNumeralUnit mark = true)
    (h : isExponent t = true) :
    ∃ run signed, mark :: t = run ++ signed ∧ run ≠ [] ∧ (∀ u ∈ run, isNumeralUnit u = true) ∧
      IsSigned signed := by
  cases t with
  | nil => cases h
  | cons u rest =>
    rw [isExponent] at h
    split at h
    · rename_i hsign
      simp only [Bool.and_eq_true, Bool.not_eq_true', List.isEmpty_eq_false_iff] at h
      obtain ⟨v, digits, rfl⟩ := List.exists_cons_of_ne_nil h.1
      exact ⟨[mark], u :: v :: digits, rfl, by simp, by simpa using hmark,
        .inr ⟨u, v, digits, rfl, hsign, List.all_eq_true.mp h.2⟩⟩
    · refine ⟨mark :: u :: rest, [], by simp, by simp, ?_, .inl rfl⟩
      exact List.forall_mem_cons.mpr ⟨hmark, fun v hv =>
        isNumeralUnit_of_isDigit (List.all_eq_true.mp h v hv)⟩

/-- The parts of a numeral: up to the dot, the run of digits and letters after it, and a signed
exponent. If the run is missing, a word stands before the dot and nothing follows it. -/
structure Parts (t whole run signed : Text) : Prop where
  eq : t = whole ++ (run ++ signed)
  dotted : IsWhole whole
  units : ∀ u ∈ run, isNumeralUnit u = true
  exponent : IsSigned signed
  missing : run = [] → signed = [] ∧
    ∃ w, w ≠ [] ∧ whole = w ++ [dot] ∧ ∀ u ∈ w, isNumeralUnit u = true

theorem exists_parts_of_isNumber {digit isMark : UInt16 → Bool} {base t : Text}
    (hdigit : ∀ u, digit u = true → isNumeralUnit u = true)
    (hmark : ∀ u, isMark u = true → isNumeralUnit u = true)
    (hbase : ∀ u ∈ base, isNumeralUnit u = true) (h : isNumber digit isMark t = true) :
    ∃ whole run signed, Parts (base ++ t) whole run signed := by
  have hsplit := List.takeWhile_append_dropWhile (p := fun u => !isMark u) (l := t)
  simp only [isNumber, Bool.and_eq_true] at h
  obtain ⟨hmantissa, hexponent⟩ := h
  obtain ⟨whole, run, htext, hwhole, hrun, hmissing⟩ := exists_whole hdigit hbase hmantissa
  rw [← hsplit]
  split at hexponent
  · rename_i hdrop
    rw [hdrop, List.append_nil]
    exact ⟨whole, run, [], by simp [htext], hwhole, hrun, .inl rfl,
      fun hnil => ⟨rfl, hmissing hnil⟩⟩
  · rename_i mark exponent hdrop
    have hm : isMark mark = true := by
      have := List.head?_dropWhile_not (p := fun u => !isMark u) (l := t)
      rw [hdrop] at this
      simpa using this
    obtain ⟨run', signed, htext', hne, hrun', hsigned⟩ := exists_signed (hmark mark hm) hexponent
    refine ⟨whole, run ++ run', signed, ⟨?_, hwhole, ?_, hsigned, fun hnil => ?_⟩⟩
    · rw [hdrop, htext', ← List.append_assoc, htext]
      simp
    · simpa [or_imp, forall_and] using ⟨hrun, hrun'⟩
    · exact absurd (List.append_eq_nil_iff.mp hnil).2 hne

/-- A numeral has these parts. -/
theorem exists_parts {t : Text} (h : isNumeral t = true) :
    ∃ whole run signed, Parts t whole run signed := by
  have hdecimal : ∀ u, isDecimalMark u = true → isNumeralUnit u = true := by
    intro u hu
    have : u = unit 'e' ∨ u = unit 'E' := by simpa [isDecimalMark] using hu
    rcases this with rfl | rfl <;> decide
  have hbinary : ∀ u, isBinaryMark u = true → isNumeralUnit u = true := by
    intro u hu
    simp [isNumeralUnit, hu]
  have hnil : ∀ u ∈ ([] : Text), isNumeralUnit u = true := by simp
  unfold isNumeral at h
  split at h
  · rename_i u v rest
    split at h
    · rename_i hprefix
      simp only [isHexPrefix, Bool.and_eq_true, Bool.or_eq_true, beq_iff_eq] at hprefix
      have hbase : [u, v].all isNumeralUnit = true := by
        rcases hprefix with ⟨rfl, rfl | rfl⟩ <;> decide
      exact exists_parts_of_isNumber (fun _ => isNumeralUnit_of_isHexDigit) hbinary
        (List.all_eq_true.mp hbase) h
    · exact exists_parts_of_isNumber (fun _ => isNumeralUnit_of_isDigit) hdecimal hnil h
  · exact exists_parts_of_isNumber (fun _ => isNumeralUnit_of_isDigit) hdecimal hnil h

/-- The word that a run of units is, if it is not empty. -/
def wordOf (w : Text) : List Lexeme := if w = [] then [] else [.word w]

theorem lexemes_run {w after : Text} (hall : ∀ u ∈ w, isNumeralUnit u = true)
    (hafter : startsWord after = false) : lexemes (w ++ after) = wordOf w ++ lexemes after := by
  unfold wordOf
  split
  · rename_i hw
    rw [hw]
    rfl
  · rename_i hw
    exact lexemes_word hw (fun u hu => isWordUnit_of_isNumeralUnit (hall u hu)) hafter

theorem isNumeric_wordOf {w : Text} (hall : ∀ u ∈ w, isNumeralUnit u = true) :
    ∀ l ∈ wordOf w, IsNumeric l := by
  intro l hl
  unfold wordOf at hl
  split at hl
  · cases hl
  · rename_i hw
    obtain rfl := List.mem_singleton.mp hl
    exact .inl ⟨w, rfl, hw, hall⟩

/-- A signed exponent is a symbol and a word. -/
theorem lexemes_signed {signed : Text} (h : IsSigned signed) :
    ∃ ls, (∀ after, startsWord after = false → startsWord (signed ++ after) = false ∧
        lexemes (signed ++ after) = ls ++ lexemes after) ∧
      (∀ l ∈ ls, IsNumeric l) ∧
      (signed = [] ∧ ls = [] ∨ ∃ ls' w, ls = ls' ++ [.word w]) := by
  rcases h with rfl | ⟨s, v, digits, rfl, hsign, hdigits⟩
  · exact ⟨[], fun after hafter => ⟨hafter, rfl⟩, by simp, .inl ⟨rfl, rfl⟩⟩
  · have hunits : ∀ u ∈ v :: digits, isNumeralUnit u = true := fun u hu =>
      isNumeralUnit_of_isDigit (hdigits u hu)
    have hdash : v ≠ dash := by
      rintro rfl
      exact absurd (hdigits _ List.mem_cons_self) (by decide)
    refine ⟨[.symbol s] ++ [.word (v :: digits)], fun after hafter => ?_, ?_,
      .inr ⟨[.symbol s], v :: digits, rfl⟩⟩
    · have hword := lexemes_word (List.cons_ne_nil v digits)
        (fun u hu => isWordUnit_of_isNumeralUnit (hunits u hu)) hafter
      have hs : s = unit '+' ∨ s = dash := by simpa [isSign] using hsign
      rcases hs with rfl | rfl
      · refine ⟨rfl, ?_⟩
        rw [List.cons_append, lexemes_plainSymbol (by decide), hword]
        rfl
      · refine ⟨rfl, ?_⟩
        rw [List.cons_append, lexemes_dash (by simp [hdash]), hword]
        rfl
    · intro l hl
      rcases List.mem_append.mp hl with hl | hl
      · obtain rfl := List.mem_singleton.mp hl
        exact .inr ⟨s, rfl, .inr hsign⟩
      · obtain rfl := List.mem_singleton.mp hl
        exact .inl ⟨_, rfl, List.cons_ne_nil v digits, hunits⟩

/-- The part of a numeral up to its dot is a word that may be missing, and a symbol. -/
theorem lexemes_whole {whole : Text} (h : IsWhole whole) :
    ∃ ls, (∀ rest, lexemes (whole ++ rest) = ls ++ lexemes rest) ∧ (∀ l ∈ ls, IsNumeric l) ∧
      ∀ w, w ≠ [] → whole = w ++ [dot] → ls = [.word w, .symbol dot] := by
  rcases h with rfl | ⟨w, rfl, hw⟩
  · exact ⟨[], fun rest => rfl, by simp, fun w hw he => by simp at he⟩
  · refine ⟨wordOf w ++ [.symbol dot], fun rest => ?_, ?_, fun w' hw' he => ?_⟩
    · rw [List.append_assoc, lexemes_run hw (by rfl), List.singleton_append,
        lexemes_plainSymbol (by decide), List.append_assoc]
      rfl
    · intro l hl
      rcases List.mem_append.mp hl with hl | hl
      · exact isNumeric_wordOf hw l hl
      · obtain rfl := List.mem_singleton.mp hl
        exact .inr ⟨dot, rfl, .inl rfl⟩
    · obtain rfl := List.append_cancel_right he
      rw [wordOf, if_neg hw']
      rfl

theorem exists_lexemes_numeral {t : Text} (h : isNumeral t = true) :
    ∃ ls, (∀ after, startsWord after = false → lexemes (t ++ after) = ls ++ lexemes after) ∧
      (∀ l ∈ ls, IsNumeric l) ∧
      ((∃ ls' w, ls = ls' ++ [.word w]) ∨ ∃ ls' w, ls = ls' ++ [.word w, .symbol dot]) := by
  obtain ⟨whole, run, signed, hparts⟩ := exists_parts h
  obtain ⟨front, hfront, hnumeric, hdot⟩ := lexemes_whole hparts.dotted
  obtain ⟨back, hback, hnumeric', hend⟩ := lexemes_signed hparts.exponent
  refine ⟨front ++ (wordOf run ++ back), fun after hafter => ?_, ?_, ?_⟩
  · obtain ⟨hstarts, hlexemes⟩ := hback after hafter
    rw [hparts.eq, List.append_assoc, hfront, List.append_assoc, lexemes_run hparts.units hstarts,
      hlexemes]
    simp
  · intro l hl
    rcases List.mem_append.mp hl with hl | hl
    · exact hnumeric l hl
    · rcases List.mem_append.mp hl with hl | hl
      · exact isNumeric_wordOf hparts.units l hl
      · exact hnumeric' l hl
  · by_cases hrun : run = []
    · obtain ⟨hsigned, w, hw, hwhole, _⟩ := hparts.missing hrun
      rcases hend with ⟨_, rfl⟩ | ⟨ls', w', rfl⟩
      · refine .inr ⟨[], w, ?_⟩
        rw [hdot w hw hwhole, hrun]
        rfl
      · exact .inl ⟨front ++ (wordOf run ++ ls'), w', by simp⟩
    · rcases hend with ⟨_, rfl⟩ | ⟨ls', w', rfl⟩
      · refine .inl ⟨front, run, ?_⟩
        rw [wordOf, if_neg hrun, List.append_nil]
      · exact .inl ⟨front ++ (wordOf run ++ ls'), w', by simp⟩

/-- The lexemes of a numeral do not depend on what follows it, as long as this is no unit of a
word. The last is a word, or a dot after a word. -/
theorem lexemes_numeral {t : Text} (h : isNumeral t = true) :
    (∀ after, startsWord after = false → lexemes (t ++ after) = lexemes t ++ lexemes after) ∧
      (∀ l ∈ lexemes t, IsNumeric l) ∧
      ((∃ ls w, lexemes t = ls ++ [.word w]) ∨
        ∃ ls w, lexemes t = ls ++ [.word w, .symbol dot]) := by
  obtain ⟨ls, hls, hrest⟩ := exists_lexemes_numeral h
  have halone := hls [] rfl
  rw [List.append_nil, lexemes, List.append_nil] at halone
  rw [halone]
  exact ⟨hls, hrest⟩

/-- A numeral that ends in a dot has a word before it; any other ends in a word. -/
theorem lexemes_numeral_end {t : Text} (h : isNumeral t = true) :
    (t.getLast? ≠ some dot ∧ ∃ ls w, lexemes t = ls ++ [.word w]) ∨
      (t.getLast? = some dot ∧ ∃ ls w, lexemes t = ls ++ [.word w, .symbol dot]) := by
  obtain ⟨_, hnumeric, hend⟩ := lexemes_numeral h
  have htext := lexemes_text t
  rcases hend with ⟨ls, w, hls⟩ | ⟨ls, w, hls⟩
  · refine .inl ⟨?_, ls, w, hls⟩
    rcases hnumeric (.word w) (by simp [hls]) with ⟨w', he, hw, hall⟩ | ⟨_, he, _⟩
    · obtain rfl := Lexeme.word.inj he
      obtain ⟨front, u, rfl⟩ : ∃ front u, w = front ++ [u] :=
        ⟨_, _, (List.dropLast_concat_getLast hw).symm⟩
      have hu : u ≠ dot := by
        rintro rfl
        exact absurd (hall dot (by simp)) (by decide)
      rw [← htext, hls]
      simpa [Lexeme.text] using hu
    · cases he
  · refine .inr ⟨?_, ls, w, hls⟩
    rw [← htext, hls]
    simp [Lexeme.text]

end Lua

end LuaBundle
