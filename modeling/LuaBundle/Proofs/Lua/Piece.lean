import LuaBundle.Source.Lexeme

/-! The lexical rules of Lua 5.4, for sources whose lines end with line feeds: how a text splits
into names, numerals, literal strings, the other tokens, and the blanks and comments between them.
Each token is as long as it can be. There is no split where the text holds a unit that starts no
token, a malformed numeral or escape, or a literal or comment that is not closed. -/

namespace LuaBundle.Lua

open Text

/-- A token, a blank or a comment. Keywords are names. -/
inductive Piece where
  | blank (unit : UInt16)
  | comment (text : Text)
  | name (text : Text)
  | numeral (text : Text)
  | quoted (quote : UInt16) (body : Text)
  | bracketed (level : Nat) (body : Text)
  | operator (text : Text)
  deriving DecidableEq, Repr

def Piece.text : Piece → Text
  | blank u => [u]
  | comment t => t
  | name t => t
  | numeral t => t
  | quoted q body => q :: body ++ [q]
  | bracketed level body => Lexeme.opening level ++ body ++ Lexeme.closing level
  | operator t => t

/-! Numerals: `longestNumeral` takes what looks like one, and `isNumeral` tells whether it is. -/

def isSign (u : UInt16) : Bool := u == unit '+' || u == dash

/-- The letter that marks the exponent of a decimal numeral. -/
def isDecimalMark (u : UInt16) : Bool := u == unit 'e' || u == unit 'E'

/-- The letter that marks the exponent of a hexadecimal numeral. -/
def isBinaryMark (u : UInt16) : Bool := u == unit 'p' || u == unit 'P'

def isHexPrefix (u v : UInt16) : Bool := u == unit '0' && (v == unit 'x' || v == unit 'X')

/-- Digits and dots, and marks of an exponent with a sign each. -/
def longestRun (isMark : UInt16 → Bool) (afterMark : Bool) : Text → Text
  | [] => []
  | u :: rest =>
    if isMark u then u :: longestRun isMark true rest
    else if isHexDigit u || u == dot || (afterMark && isSign u) then
      u :: longestRun isMark false rest
    else []

/-- What is read as one numeral at the start of a text. -/
def longestNumeral : Text → Text
  | [] => []
  | u :: rest =>
    if u = dot then
      match rest with
      | [] => [u]
      | v :: rest => u :: v :: longestRun isDecimalMark false rest
    else
      match rest with
      | [] => [u]
      | v :: after =>
        if isHexPrefix u v then u :: v :: longestRun isBinaryMark false after
        else u :: longestRun isDecimalMark false (v :: after)

/-- Digits, at least one, with at most one dot among them. -/
def isMantissa (digit : UInt16 → Bool) (t : Text) : Bool :=
  match t.dropWhile digit with
  | [] => !t.isEmpty
  | u :: fraction => u == dot && fraction.all digit && 2 ≤ t.length

/-- Decimal digits, at least one, after a sign that may be missing. -/
def isExponent : Text → Bool
  | [] => false
  | u :: rest => if isSign u then !rest.isEmpty && rest.all isDigit else (u :: rest).all isDigit

/-- A mantissa, and an exponent that may be missing. -/
def isNumber (digit isMark : UInt16 → Bool) (t : Text) : Bool :=
  isMantissa digit (t.takeWhile fun u => !isMark u) &&
    match t.dropWhile fun u => !isMark u with
    | [] => true
    | _ :: exponent => isExponent exponent

def isNumeral : Text → Bool
  | u :: v :: rest =>
    if isHexPrefix u v then isNumber isHexDigit isBinaryMark rest
    else isNumber isDigit isDecimalMark (u :: v :: rest)
  | t => isNumber isDigit isDecimalMark t

/-- Whether a text starts with a unit of names: a numeral must not touch one. -/
def startsWord (t : Text) : Bool := t.head?.any isWordUnit

def readNumeral? (t : Text) : Option (Piece × Text) :=
  let numeral := longestNumeral t
  let after := t.drop numeral.length
  if isNumeral numeral && !startsWord after then some (.numeral numeral, after) else none

/-! Strings between quotes. -/

/-- The units that stand for one unit or a quote after a backslash, and the line feed. -/
def simpleEscapes : Text := ofString "abfnrtv\\\"'\n"

/-- The length of an escape of a code point after its letter: hexadecimal digits in braces, for a
number below `2 ^ 31`. -/
def codePointLength? : Text → Option Nat
  | [] => none
  | u :: rest =>
    let digits := rest.takeWhile isHexDigit
    if u = leftBrace ∧ (rest.drop digits.length).head? = some rightBrace ∧ digits ≠ [] ∧
        digitsValue 16 digits < Nat.pow 2 31 then some (digits.length + 2)
    else none

/-- The number of units that the escape after a backslash takes. -/
def escapeLength? : Text → Option Nat
  | [] => none
  | u :: rest =>
    if u = unit 'z' then some (1 + (rest.takeWhile Escape.isAsciiBlank).length)
    else if u = unit 'x' then
      if (rest.take 2).length = 2 ∧ (rest.take 2).all isHexDigit then some 3 else none
    else if u = unit 'u' then (codePointLength? rest).map (1 + ·)
    else if isDigit u then
      let digits := ((u :: rest).take 3).takeWhile isDigit
      if digitsValue 10 digits ≤ 255 then some digits.length else none
    else if simpleEscapes.contains u then some 1
    else none

/-- The text up to the closing quote, and what follows the quote. -/
def stringBody? (quote : UInt16) : Text → Option (Text × Text)
  | [] => none
  | u :: rest =>
    if u = quote then some ([], rest)
    else if Escape.isBreak u then none
    else if u = backslash then
      match escapeLength? rest with
      | none => none
      | some n =>
        (stringBody? quote (rest.drop n)).map fun (body, after) => (u :: rest.take n ++ body, after)
    else (stringBody? quote rest).map fun (body, after) => (u :: body, after)
termination_by t => t.length
decreasing_by
  · simp only [List.length_drop, List.length_cons]
    omega
  · simp

/-! The tokens that are no names, numerals or strings. -/

/-- Longer ones stand before those that they start with. -/
def operators : List Text :=
  ["...", "..", ".", "<<", "<=", "<", ">>", ">=", ">", "//", "/", "==", "=", "~=", "~", "::", ":",
    "+", "-", "*", "%", "^", "#", "&", "|", "(", ")", "\x7b", "\x7d", "[", "]", ";", ","].map
      ofString

def readOperator? (t : Text) : Option (Piece × Text) :=
  (operators.find? (·.isPrefixOf t)).map fun op => (.operator op, t.drop op.length)

def readComment? (t : Text) : Option (Piece × Text) :=
  match Lexeme.readComment t with
  | (.comment c, after) => some (.comment c, after)
  | _ => none

/-- A literal in long brackets, or the operator that one bracket is. -/
def readBracket? (t : Text) : Option (Piece × Text) :=
  match Lexeme.openingLevel? t with
  | some (level, inner) =>
    (cut? (Lexeme.closing level) inner).map fun (body, after) => (.bracketed level body, after)
  | none => if t.tail.head? = some equals then none else readOperator? t

/-- The piece that starts with `u`, and the text after it. -/
def read? (u : UInt16) (rest : Text) : Option (Piece × Text) :=
  if Escape.isAsciiBlank u then some (.blank u, rest)
  else if isDigit u || (u == dot && rest.head?.any isDigit) then readNumeral? (u :: rest)
  else if isWordUnit u then
    some (.name (u :: rest.takeWhile isWordUnit), rest.dropWhile isWordUnit)
  else if u = doubleQuote ∨ u = singleQuote then
    (stringBody? u rest).map fun (body, after) => (.quoted u body, after)
  else if u = dash ∧ rest.head? = some dash then readComment? rest.tail
  else if u = leftBracket then readBracket? (u :: rest)
  else readOperator? (u :: rest)

/-! Pieces make up the text that they are read from. -/

theorem prefix_longestRun (isMark : UInt16 → Bool) (afterMark : Bool) (t : Text) :
    longestRun isMark afterMark t <+: t := by
  induction t generalizing afterMark with
  | nil => exact List.prefix_rfl
  | cons u rest ih =>
    rw [longestRun]
    split
    · exact List.prefix_cons_inj u |>.mpr (ih true)
    · split
      · exact List.prefix_cons_inj u |>.mpr (ih false)
      · exact List.nil_prefix

theorem prefix_longestNumeral (t : Text) : longestNumeral t <+: t := by
  unfold longestNumeral
  split
  · exact List.prefix_rfl
  · split
    · split
      · exact List.prefix_rfl
      · exact List.prefix_cons_inj _ |>.mpr
          (List.prefix_cons_inj _ |>.mpr (prefix_longestRun _ _ _))
    · split
      · exact List.prefix_rfl
      · split
        · exact List.prefix_cons_inj _ |>.mpr
            (List.prefix_cons_inj _ |>.mpr (prefix_longestRun _ _ _))
        · exact List.prefix_cons_inj _ |>.mpr (prefix_longestRun _ _ _)

theorem append_drop_of_prefix {s t : Text} (h : s <+: t) : s ++ t.drop s.length = t := by
  obtain ⟨rest, rfl⟩ := h
  rw [List.drop_left]

theorem readNumeral?_eq_some {t after : Text} {p : Piece} (h : readNumeral? t = some (p, after)) :
    ∃ n, p = .numeral n ∧ isNumeral n = true ∧ startsWord after = false := by
  simp only [readNumeral?] at h
  split at h
  · rename_i hnumeral
    simp only [Bool.and_eq_true, Bool.not_eq_true'] at hnumeral
    obtain ⟨rfl, rfl⟩ := Prod.mk.inj (Option.some.inj h)
    exact ⟨_, rfl, hnumeral⟩
  · cases h

theorem readNumeral?_text {t after : Text} {p : Piece} (h : readNumeral? t = some (p, after)) :
    p.text ++ after = t := by
  simp only [readNumeral?] at h
  split at h
  · simp only [Option.some.injEq, Prod.mk.injEq] at h
    obtain ⟨rfl, rfl⟩ := h
    exact append_drop_of_prefix (prefix_longestNumeral t)
  · cases h

theorem stringBody?_text {quote : UInt16} {t body after : Text}
    (h : stringBody? quote t = some (body, after)) : body ++ quote :: after = t := by
  fun_induction stringBody? quote t generalizing body after with
  | case1 => cases h
  | case2 rest =>
    simp only [Option.some.injEq, Prod.mk.injEq] at h
    obtain ⟨rfl, rfl⟩ := h
    rfl
  | case3 => cases h
  | case4 => cases h
  | case5 rest _ _ n _ ih =>
    obtain ⟨⟨b, a⟩, hb, he⟩ := Option.map_eq_some_iff.mp h
    simp only [Prod.mk.injEq] at he
    obtain ⟨rfl, rfl⟩ := he
    have := ih hb
    rw [List.cons_append, List.cons_append, List.append_assoc, this, List.take_append_drop]
  | case6 u rest _ _ _ ih =>
    obtain ⟨⟨b, a⟩, hb, he⟩ := Option.map_eq_some_iff.mp h
    simp only [Prod.mk.injEq] at he
    obtain ⟨rfl, rfl⟩ := he
    rw [List.cons_append, ih hb]

theorem readOperator?_text {t after : Text} {p : Piece} (h : readOperator? t = some (p, after)) :
    p.text ++ after = t := by
  obtain ⟨op, hop, he⟩ := Option.map_eq_some_iff.mp h
  simp only [Prod.mk.injEq] at he
  obtain ⟨rfl, rfl⟩ := he
  have hprefix : op.isPrefixOf t = true := by
    simpa using List.find?_some hop
  exact append_drop_of_prefix (List.isPrefixOf_iff_prefix.mp hprefix)

theorem readOperator?_eq_some {t after : Text} {p : Piece}
    (h : readOperator? t = some (p, after)) :
    ∃ op ∈ operators, p = .operator op ∧ t = op ++ after := by
  have htext := readOperator?_text h
  obtain ⟨op, hop, he⟩ := Option.map_eq_some_iff.mp h
  obtain rfl := (Prod.mk.inj he).1
  exact ⟨op, List.mem_of_find?_eq_some hop, rfl, htext.symm⟩

theorem readComment?_eq_some {t after : Text} {p : Piece} (h : readComment? t = some (p, after)) :
    ∃ c, p = .comment c ∧ Lexeme.readComment t = (.comment c, after) ∧ c.head? = some dash ∧
      c ++ after = dash :: dash :: t := by
  unfold readComment? at h
  split at h
  · rename_i c a hc
    obtain ⟨rfl, rfl⟩ := Prod.mk.inj (Option.some.inj h)
    have htext := Lexeme.readComment_text t
    rw [hc] at htext
    refine ⟨c, rfl, hc, ?_, htext⟩
    unfold Lexeme.readComment at hc
    repeat' split at hc
    all_goals cases hc
    all_goals simp
  · cases h

/-- The kinds of pieces that a text can start with. -/
theorem read?_cases {u : UInt16} {rest after : Text} {p : Piece}
    (h : read? u rest = some (p, after)) :
    (p = .blank u ∧ Escape.isAsciiBlank u = true ∧ after = rest) ∨
    readNumeral? (u :: rest) = some (p, after) ∨
    (p = .name (u :: rest.takeWhile isWordUnit) ∧ isWordUnit u = true ∧
      after = rest.dropWhile isWordUnit) ∨
    (∃ body, p = .quoted u body ∧ (u = doubleQuote ∨ u = singleQuote) ∧
      stringBody? u rest = some (body, after)) ∨
    (∃ tail, u = dash ∧ rest = dash :: tail ∧ readComment? tail = some (p, after)) ∨
    (∃ level inner body, p = .bracketed level body ∧ u = leftBracket ∧
      Lexeme.openingLevel? (u :: rest) = some (level, inner) ∧
      cut? (Lexeme.closing level) inner = some (body, after)) ∨
    (readOperator? (u :: rest) = some (p, after) ∧ ¬(u = dash ∧ rest.head? = some dash) ∧
      Lexeme.openingLevel? (u :: rest) = none) := by
  unfold read? at h
  split at h
  · rename_i hblank
    obtain ⟨rfl, rfl⟩ := Prod.mk.inj (Option.some.inj h)
    exact .inl ⟨rfl, hblank, rfl⟩
  · refine .inr ?_
    split at h
    · exact .inl h
    · refine .inr ?_
      split at h
      · rename_i hword
        obtain ⟨rfl, rfl⟩ := Prod.mk.inj (Option.some.inj h)
        exact .inl ⟨rfl, hword, rfl⟩
      · refine .inr ?_
        split at h
        · rename_i hquote
          obtain ⟨⟨body, a⟩, hbody, he⟩ := Option.map_eq_some_iff.mp h
          obtain ⟨rfl, rfl⟩ := Prod.mk.inj he
          exact .inl ⟨body, rfl, hquote, hbody⟩
        · refine .inr ?_
          split at h
          · rename_i hdash
            obtain ⟨tail, rfl⟩ : ∃ tail, rest = dash :: tail := by
              cases rest with
              | nil => simp at hdash
              | cons v tail => exact ⟨tail, by simpa using hdash.2⟩
            exact .inl ⟨tail, hdash.1, rfl, h⟩
          · rename_i hdash
            refine .inr ?_
            split at h
            · rename_i hbracket
              unfold readBracket? at h
              split at h
              · rename_i level inner hopening
                obtain ⟨⟨body, a⟩, hc, he⟩ := Option.map_eq_some_iff.mp h
                obtain ⟨rfl, rfl⟩ := Prod.mk.inj he
                exact .inl ⟨level, inner, body, rfl, hbracket, hopening, hc⟩
              · rename_i hopening
                split at h
                · cases h
                · exact .inr ⟨h, hdash, hopening⟩
            · rename_i hbracket
              refine .inr ⟨h, hdash, ?_⟩
              rw [Lexeme.openingLevel?, if_neg hbracket]

/-- A piece and what follows it are the text that it was read from. -/
theorem read?_text {u : UInt16} {rest after : Text} {p : Piece}
    (h : read? u rest = some (p, after)) : p.text ++ after = u :: rest := by
  rcases read?_cases h with ⟨rfl, _, rfl⟩ | hnumeral | ⟨rfl, _, rfl⟩ | ⟨body, rfl, _, hbody⟩ |
    ⟨tail, rfl, rfl, hcomment⟩ | ⟨level, inner, body, rfl, _, hopening, hcut⟩ | ⟨hoperator, _⟩
  · rfl
  · exact readNumeral?_text hnumeral
  · simp [Piece.text]
  · rw [← stringBody?_text hbody]
    simp [Piece.text]
  · obtain ⟨c, rfl, _, _, htext⟩ := readComment?_eq_some hcomment
    exact htext
  · rw [← Lexeme.openingLevel?_eq_some hopening, ← cut?_eq_some hcut]
    simp [Piece.text]
  · exact readOperator?_text hoperator

/-- What a piece is made of, as far as it matters to one who scans it. -/
def Piece.Valid : Piece → Prop
  | blank u => Escape.isAsciiBlank u = true
  | comment c => c.head? = some dash
  | name w => ∃ u rest, w = u :: rest ∧ isWordUnit u = true
  | numeral n => n ≠ [] ∧ isNumeral n = true
  | quoted q _ => q = doubleQuote ∨ q = singleQuote
  | bracketed _ _ => True
  | operator op => op ∈ operators

theorem valid_of_read? {u : UInt16} {rest after : Text} {p : Piece}
    (h : read? u rest = some (p, after)) : p.Valid := by
  rcases read?_cases h with ⟨rfl, hblank, _⟩ | hnumeral | ⟨rfl, hword, _⟩ | ⟨body, rfl, hquote, _⟩ |
    ⟨tail, _, _, hcomment⟩ | ⟨level, inner, body, rfl, _⟩ | ⟨hoperator, _⟩
  · exact hblank
  · obtain ⟨n, rfl, hn, _⟩ := readNumeral?_eq_some hnumeral
    refine ⟨?_, hn⟩
    rintro rfl
    cases hn
  · exact ⟨_, _, rfl, hword⟩
  · exact hquote
  · obtain ⟨c, rfl, _, hhead, _⟩ := readComment?_eq_some hcomment
    exact hhead
  · trivial
  · obtain ⟨op, hop, rfl, _⟩ := readOperator?_eq_some hoperator
    exact hop

theorem Piece.Valid.text_ne_nil {p : Piece} (h : p.Valid) : p.text ≠ [] := by
  cases p with
  | comment c =>
    rintro rfl
    cases h
  | name w =>
    obtain ⟨u, rest, rfl, _⟩ := h
    exact List.cons_ne_nil u rest
  | numeral n => exact h.1
  | operator op =>
    have hall : ∀ op ∈ operators, op ≠ [] := by decide
    exact hall op h
  | _ => simp [Piece.text, Lexeme.opening]

theorem length_read? {u : UInt16} {rest after : Text} {p : Piece}
    (h : read? u rest = some (p, after)) : after.length ≤ rest.length := by
  have hlength := congrArg List.length (read?_text h)
  have := List.length_pos_iff.mpr (valid_of_read? h).text_ne_nil
  simp only [List.length_append, List.length_cons] at hlength
  omega

/-- The pieces of a text, where it splits without error. -/
def pieces? : Text → Option (List Piece)
  | [] => some []
  | u :: rest =>
    match _h : read? u rest with
    | none => none
    | some (p, after) => (pieces? after).map (p :: ·)
termination_by t => t.length
decreasing_by
  have := length_read? _h
  simp only [List.length_cons]
  omega

/-- The source text of pieces in a row. -/
def source (ps : List Piece) : Text := ps.flatMap Piece.text

@[simp] theorem source_nil : source [] = [] := rfl

@[simp] theorem source_cons (p : Piece) (ps : List Piece) :
    source (p :: ps) = p.text ++ source ps := rfl

@[simp] theorem source_append (ps qs : List Piece) : source (ps ++ qs) = source ps ++ source qs :=
  List.flatMap_append

theorem valid_of_pieces? {t : Text} {ps : List Piece} (h : pieces? t = some ps) :
    ∀ p ∈ ps, p.Valid := by
  fun_induction pieces? t generalizing ps with
  | case1 => simp [← Option.some.inj h]
  | case2 => cases h
  | case3 u rest p after hread ih =>
    obtain ⟨qs, hqs, rfl⟩ := Option.map_eq_some_iff.mp h
    exact List.forall_mem_cons.mpr ⟨valid_of_read? hread, ih hqs⟩

/-- The pieces of a text make it up. -/
theorem pieces?_text {t : Text} {ps : List Piece} (h : pieces? t = some ps) : source ps = t := by
  fun_induction pieces? t generalizing ps with
  | case1 => simp [← Option.some.inj h]
  | case2 => cases h
  | case3 u rest p after hread ih =>
    obtain ⟨qs, hqs, rfl⟩ := Option.map_eq_some_iff.mp h
    rw [source_cons, ih hqs, read?_text hread]

end LuaBundle.Lua
