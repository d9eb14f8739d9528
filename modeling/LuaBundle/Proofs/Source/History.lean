import LuaBundle.Proofs.Source.Argument

/-! What a scan remembers of the tokens before a place. The history of all the tokens tells whether
they qualify or declare a name and whether they assign to `require`; a history that leaves out what
calls hold tells the same. -/

namespace LuaBundle

open Text

namespace RequireSite

open Lua

def mark? : Lexeme → Option Mark
  | .word w => some (.word w)
  | .quoted _ _ | .bracketed _ _ => some .string
  | .symbol u => some (.symbol u)
  | _ => none

namespace History

/-- The history after lexemes none of which starts a use. -/
def pushAll (h : History) (ls : List Lexeme) : History := (ls.filterMap mark?).foldl push h

theorem pushAll_append (h : History) (ls ms : List Lexeme) :
    h.pushAll (ls ++ ms) = (h.pushAll ls).pushAll ms := by
  rw [pushAll, List.filterMap_append, List.foldl_append]
  rfl

theorem pushAll_cons {l : Lexeme} {m : Mark} (hm : mark? l = some m) (h : History)
    (ls : List Lexeme) : h.pushAll (l :: ls) = (h.push m).pushAll ls := by
  rw [pushAll, List.filterMap_cons_some hm, List.foldl_cons]
  rfl

end History

theorem History.precedesGlobal_iff (h : History) :
    h.precedesGlobal = true ↔ h.last ≠ .symbol colon ∧
      (h.last = .symbol dot → h.beforeLast = .symbol dot) ∧ h.last ≠ .word "local" ∧
      h.last ≠ .word "function" := by
  simp [History.precedesGlobal, and_assoc, imp_iff_not_or]

theorem History.assignsRequire_iff (h : History) :
    h.assignsRequire = true ↔ h.last = .symbol equals ∧ h.beforeLast = .word "require" := by
  simp [History.assignsRequire]

/-- The history of all tokens among pieces. -/
def historyOf (ps : List Piece) : History := History.empty.pushAll (lexemesOf ps)

theorem historyOf_append (ps qs : List Piece) :
    historyOf (ps ++ qs) = (historyOf ps).pushAll (lexemesOf qs) := by
  rw [historyOf, lexemesOf_append, History.pushAll_append]
  rfl

theorem historyOf_concat (ps : List Piece) (x : Piece) :
    historyOf (ps ++ [x]) = (historyOf ps).pushAll x.lexemes := by
  rw [historyOf_append, lexemesOf_cons, lexemesOf_nil, List.append_nil]

theorem filterMap_mark?_tokensIn (ps : List Piece) :
    (lexemesOf (tokensIn ps)).filterMap mark? = (lexemesOf ps).filterMap mark? := by
  induction ps with
  | nil => rfl
  | cons x ps ih =>
    cases htoken : x.isToken with
    | false =>
      rw [tokensIn, List.filter_cons_of_neg (by simp [htoken]), ← tokensIn, ih]
      cases x <;> first | rfl | cases htoken
    | true =>
      rw [tokensIn, List.filter_cons_of_pos htoken, ← tokensIn, lexemesOf_cons, lexemesOf_cons,
        List.filterMap_append, List.filterMap_append, ih]

theorem historyOf_of_tokensIn {ps past : List Piece} {x : Piece} (h : tokensIn ps = past ++ [x]) :
    historyOf ps = (historyOf past).pushAll x.lexemes := by
  rw [historyOf, History.pushAll, ← filterMap_mark?_tokensIn, h, lexemesOf_append,
    List.filterMap_append, List.foldl_append]
  simp [historyOf, History.pushAll]

/-- Whether a dot is the last lexeme of a token. -/
def endsInDot : Piece → Bool
  | .numeral n => n.getLast? == some dot
  | .operator op => op.getLast? == some dot
  | _ => false

/-- The last tokens among pieces. -/
def Preceded (ts before : List Piece) : Prop := ts <:+ tokensIn before

/-- Whether the last token is a dot that follows no other: a name after it is a field. -/
def BeforeField (before : List Piece) : Prop :=
  ∃ past, tokensIn before = past ++ [.operator [dot]] ∧ ∀ x ∈ past.getLast?, endsInDot x = false

/-- Whether the last token is a numeral that ends in a dot. -/
def AfterNumeralDot (before : List Piece) : Prop :=
  ∃ n, Preceded [.numeral n] before ∧ n.getLast? = some dot

theorem preceded_iff {before past : List Piece} {x : Piece} (h : tokensIn before = past ++ [x])
    (y : Piece) : Preceded [y] before ↔ y = x := by
  rw [Preceded, h]
  constructor
  · rintro ⟨front, hfront⟩
    exact (List.cons.inj (List.append_inj' hfront rfl).2).1
  · rintro rfl
    exact ⟨past, rfl⟩

theorem preceded_pair_iff {before past : List Piece} {x : Piece}
    (h : tokensIn before = past ++ [x]) (y z : Piece) :
    Preceded [y, z] before ↔ z = x ∧ [y] <:+ past := by
  rw [Preceded, h]
  constructor
  · rintro ⟨front, hfront⟩
    rw [← List.singleton_append, ← List.append_assoc] at hfront
    obtain ⟨hfront, hx⟩ := List.append_inj' hfront rfl
    exact ⟨(List.cons.inj hx).1, front, hfront⟩
  · rintro ⟨rfl, front, rfl⟩
    exact ⟨front, by simp⟩

/-- An operator of more than one unit leaves nothing of the history before it. -/
theorem pushAll_operator {op : Text} (hop : op ∈ operators) (g : History) :
    (∃ u, op = [u] ∧ g.pushAll (Piece.operator op).lexemes = ⟨.symbol u, g.last⟩) ∨
      ∃ u v, op.getLast? = some u ∧ (∀ w, op ≠ [w]) ∧
        g.pushAll (Piece.operator op).lexemes = ⟨.symbol u, .symbol v⟩ ∧
        (u = colon → op = [colon, colon]) ∧ (u = dot → v = dot) := by
  have hall : ∀ op ∈ operators, op.length = 1 ∨ ∃ u ∈ op.getLast?, ∃ v ∈ op.dropLast.getLast?,
      (u = colon → op = [colon, colon]) ∧ (u = dot → v = dot) := by decide +kernel
  rcases hall op hop with hlength | ⟨u, hu, v, hv, hcolon, hdot⟩
  · obtain ⟨u, rfl⟩ := List.length_eq_one_iff.mp hlength
    exact .inl ⟨u, rfl, rfl⟩
  · obtain ⟨init, rfl⟩ := List.getLast?_eq_some_iff.mp hu
    rw [List.dropLast_concat] at hv
    obtain ⟨front, rfl⟩ := List.getLast?_eq_some_iff.mp hv
    refine .inr ⟨u, v, hu, fun w hw => ?_, ?_, hcolon, hdot⟩
    · simpa using congrArg List.length hw
    · rw [Piece.lexemes, List.map_append, List.map_append, History.pushAll_append,
        History.pushAll_append]
      rfl

/-- The words that tell what a name after them means. -/
def meaningful : List Text := ["require", "local", "function"]

theorem not_isNumeral_of_meaningful {w : Text} (h : w ∈ meaningful) :
    w.all isNumeralUnit = false := by
  have hall : ∀ w ∈ meaningful, w.all isNumeralUnit = false := by decide
  exact hall w h

/-- A numeral leaves a dot after a word, or a word that tells nothing. -/
theorem pushAll_numeral {n : Text} (hn : isNumeral n = true) (g : History) :
    (n.getLast? ≠ some dot ∧ ∃ w, (g.pushAll (Piece.numeral n).lexemes).last = .word w ∧
        w ∉ meaningful) ∨
      (n.getLast? = some dot ∧
        ∃ w, g.pushAll (Piece.numeral n).lexemes = ⟨.symbol dot, .word w⟩) := by
  rcases lexemes_numeral_end hn with ⟨hlast, ls, w, hls⟩ | ⟨hlast, ls, w, hls⟩
  · refine .inl ⟨hlast, w, ?_, ?_⟩
    · rw [Piece.lexemes, hls, History.pushAll_append]
      rfl
    · intro hw
      rcases (lexemes_numeral hn).2.1 (.word w) (by simp [hls]) with ⟨v, he, _, hv⟩ | ⟨_, he, _⟩
      · obtain rfl := Lexeme.word.inj he
        have := not_isNumeral_of_meaningful hw
        rw [List.all_eq_true.mpr hv] at this
        cases this
      · cases he
  · refine .inr ⟨hlast, w, ?_⟩
    rw [Piece.lexemes, hls, History.pushAll_append]
    rfl

/-- The tokens after which the scan takes a name for a field, a method or a declared name. -/
def IsQualifier (g : History) : Piece → Prop
  | .name w => w = "local" ∨ w = "function"
  | .numeral n => n.getLast? = some dot
  | .operator op => op = [colon] ∨ op = [colon, colon] ∨ op = [dot] ∧ g.last ≠ .symbol dot
  | _ => False

theorem precedesGlobal_pushAll {x : Piece} (hx : x.Valid) (htoken : x.isToken = true)
    (g : History) : (g.pushAll x.lexemes).precedesGlobal = false ↔ IsQualifier g x := by
  cases x with
  | blank u => cases htoken
  | comment c => cases htoken
  | quoted q body => simp [IsQualifier, History.pushAll, Piece.lexemes, mark?, History.push,
      History.precedesGlobal]
  | bracketed level body => simp [IsQualifier, History.pushAll, Piece.lexemes, mark?, History.push,
      History.precedesGlobal]
  | name w =>
    change (History.precedesGlobal ⟨.word w, g.last⟩) = false ↔ w = "local" ∨ w = "function"
    rw [← Bool.not_eq_true, History.precedesGlobal]
    simp [-not_and, not_and_or]
  | numeral n =>
    rcases pushAll_numeral hx.2 g with ⟨hlast, w, hw, hmean⟩ | ⟨hlast, w, hw⟩
    · rw [History.precedesGlobal, hw]
      simp only [meaningful, List.mem_cons, not_or] at hmean
      simp [IsQualifier, hlast, hmean]
    · rw [hw]
      simp [IsQualifier, hlast, History.precedesGlobal]
  | operator op =>
    rcases pushAll_operator hx g with ⟨u, rfl, hu⟩ | ⟨u, v, hlast, hne, hu, hcolon, hdot⟩
    · rw [hu]
      by_cases hcolon : u = colon
      · simp [IsQualifier, History.precedesGlobal, hcolon]
      · simp [IsQualifier, History.precedesGlobal, hcolon]
    · rw [hu]
      by_cases hc : u = colon
      · simp [IsQualifier, History.precedesGlobal, hcolon hc, hc]
      · have hop : op ≠ [colon, colon] := by
          rintro rfl
          exact hc (by simpa using hlast.symm)
        simpa [IsQualifier, History.precedesGlobal, hne, hc, hop] using hdot

theorem assignsRequire_pushAll {x : Piece} (hx : x.Valid) (htoken : x.isToken = true)
    (g : History) : (g.pushAll x.lexemes).assignsRequire = true ↔
      x = .operator [equals] ∧ g.last = .word "require" := by
  cases x with
  | blank u => cases htoken
  | comment c => cases htoken
  | numeral n =>
    rcases pushAll_numeral hx.2 g with ⟨_, w, hw, _⟩ | ⟨_, w, hw⟩
    · simp [History.assignsRequire, hw]
    · have hne : dot ≠ equals := by decide
      simp [History.assignsRequire, hw, hne]
  | operator op =>
    rcases pushAll_operator hx g with ⟨u, rfl, hu⟩ | ⟨u, v, _, hne, hu, _, _⟩
    · simp [History.assignsRequire, hu]
    · simp [History.assignsRequire, hu, hne]
  | _ => simp [History.assignsRequire, History.pushAll, Piece.lexemes, mark?, History.push]

/-- The last mark of a token is a dot where the token ends in one, and the word `require` only for
the name. -/
theorem last_pushAll {x : Piece} (hx : x.Valid) (htoken : x.isToken = true) (g : History) :
    ((g.pushAll x.lexemes).last = .symbol dot ↔ endsInDot x = true) ∧
      ((g.pushAll x.lexemes).last = .word "require" ↔ x = .name "require") := by
  cases x with
  | blank u => cases htoken
  | comment c => cases htoken
  | numeral n =>
    rcases pushAll_numeral hx.2 g with ⟨hlast, w, hw, hmean⟩ | ⟨hlast, w, hw⟩
    · have hne : w ≠ "require" := fun he => hmean (by simp [he, meaningful])
      simp [endsInDot, hw, hlast, hne]
    · simp [endsInDot, hw, hlast]
  | operator op =>
    rcases pushAll_operator hx g with ⟨u, rfl, hu⟩ | ⟨u, v, hlast, _, hu, _, _⟩
    · simp [endsInDot, hu]
    · simp [endsInDot, hu, hlast]
  | _ => simp [endsInDot, History.pushAll, Piece.lexemes, mark?, History.push]

theorem exists_lastToken {ps : List Piece} (hvalid : ∀ x ∈ ps, x.Valid) (hne : tokensIn ps ≠ []) :
    ∃ past x, tokensIn ps = past ++ [x] ∧ x.Valid ∧ x.isToken = true ∧
      (∀ y ∈ past, y.Valid) ∧ tokensIn past = past := by
  rcases List.eq_nil_or_concat (tokensIn ps) with hnil | ⟨past, x, h⟩
  · exact absurd hnil hne
  · rw [List.concat_eq_append] at h
    have hmem : ∀ y ∈ past ++ [x], y ∈ ps ∧ y.isToken = true := by
      rw [← h]
      exact fun y hy => List.mem_filter.mp hy
    refine ⟨past, x, h, hvalid x (hmem x (by simp)).1, (hmem x (by simp)).2,
      fun y hy => hvalid y (hmem y (by simp [hy])).1, ?_⟩
    exact List.filter_eq_self.mpr fun y hy => (hmem y (by simp [hy])).2

theorem historyOf_of_no_token {ps : List Piece} (h : tokensIn ps = []) :
    historyOf ps = History.empty := by
  rw [historyOf, History.pushAll, ← filterMap_mark?_tokensIn, h]
  rfl

theorem last_historyOf {ps : List Piece} (hvalid : ∀ x ∈ ps, x.Valid) :
    ((historyOf ps).last = .symbol dot ↔ ∃ x ∈ (tokensIn ps).getLast?, endsInDot x = true) ∧
      ((historyOf ps).last = .word "require" ↔ Preceded [.name "require"] ps) := by
  by_cases hnil : tokensIn ps = []
  · rw [historyOf_of_no_token hnil, hnil, Preceded, hnil]
    simp [History.empty]
  · obtain ⟨past, x, h, hx, htoken, _⟩ := exists_lastToken hvalid hnil
    obtain ⟨hdot, hrequire⟩ := last_pushAll hx htoken (historyOf past)
    rw [historyOf_of_tokensIn h, hdot, hrequire, preceded_iff h, h]
    exact ⟨by simp, eq_comm⟩

theorem assignsRequire_historyOf {ps : List Piece} (hvalid : ∀ x ∈ ps, x.Valid) :
    (historyOf ps).assignsRequire = true ↔
      Preceded [.name "require", .operator [equals]] ps := by
  by_cases hnil : tokensIn ps = []
  · rw [historyOf_of_no_token hnil, Preceded, hnil]
    simp [History.empty, History.assignsRequire]
  · obtain ⟨past, x, h, hx, htoken, hpast, htokens⟩ := exists_lastToken hvalid hnil
    rw [historyOf_of_tokensIn h, assignsRequire_pushAll hx htoken, (last_historyOf hpast).2,
      preceded_pair_iff h, Preceded, htokens, eq_comm]

/-- The tokens before a name after which a scan takes it for no global. -/
def LooksQualified (before : List Piece) : Prop :=
  Preceded [.operator [colon]] before ∨ Preceded [.operator [colon, colon]] before ∨
    BeforeField before ∨ AfterNumeralDot before ∨ Preceded [.name "local"] before ∨
    Preceded [.name "function"] before

theorem beforeField_iff {ps past : List Piece} {x : Piece} (h : tokensIn ps = past ++ [x])
    (hpast : ∀ y ∈ past, y.Valid) (htokens : tokensIn past = past) :
    BeforeField ps ↔ x = .operator [dot] ∧ (historyOf past).last ≠ .symbol dot := by
  rw [Ne, (last_historyOf hpast).1, htokens, BeforeField, h]
  constructor
  · rintro ⟨front, hfront, hall⟩
    obtain ⟨rfl, hx⟩ := List.append_inj' hfront rfl
    refine ⟨(List.cons.inj hx).1, ?_⟩
    rintro ⟨y, hy, hdot⟩
    rw [hall y hy] at hdot
    cases hdot
  · rintro ⟨rfl, hall⟩
    exact ⟨past, rfl, fun y hy => Bool.eq_false_iff.mpr fun hdot => hall ⟨y, hy, hdot⟩⟩

theorem precedesGlobal_historyOf {ps : List Piece} (hvalid : ∀ x ∈ ps, x.Valid) :
    (historyOf ps).precedesGlobal = false ↔ LooksQualified ps := by
  by_cases hnil : tokensIn ps = []
  · rw [historyOf_of_no_token hnil, LooksQualified, BeforeField, AfterNumeralDot]
    simp [Preceded, hnil, History.empty, History.precedesGlobal]
  · obtain ⟨past, x, h, hx, htoken, hpast, htokens⟩ := exists_lastToken hvalid hnil
    rw [historyOf_of_tokensIn h, precedesGlobal_pushAll hx htoken, LooksQualified,
      beforeField_iff h hpast htokens, AfterNumeralDot]
    simp only [preceded_iff h]
    cases x <;> simp [IsQualifier, eq_comm]

theorem exists_mark {x : Piece} (hx : x.Valid) (htoken : x.isToken = true) :
    x.lexemes.filterMap mark? ≠ [] := by
  obtain ⟨l, ls, hls⟩ := List.exists_cons_of_ne_nil (lexemes_ne_nil hx)
  have hsolid := isSolid_of_mem_lexemes hx htoken l (by simp [hls])
  rw [hls]
  cases l <;> first | exact List.cons_ne_nil _ _ | cases hsolid

theorem eq_equals_of_marks {x : Piece} (hx : x.Valid)
    (h : x.lexemes.filterMap mark? = [.symbol equals]) : x = .operator [equals] := by
  obtain ⟨l, hl, hm⟩ := List.mem_filterMap.mp (show Mark.symbol equals ∈ _ by rw [h]; simp)
  cases l with
  | symbol u =>
    obtain rfl := Mark.symbol.inj (Option.some.inj hm)
    cases x with
    | numeral n =>
      rcases (lexemes_numeral hx.2).2.1 _ hl with ⟨_, he, _⟩ | ⟨v, he, hv⟩
      · cases he
      · obtain rfl := Lexeme.symbol.inj he
        exact absurd hv (by decide)
    | operator op =>
      have hmarks : (op.map Lexeme.symbol).filterMap mark? = op.map Mark.symbol := by
        rw [List.filterMap_map]
        exact congrFun List.filterMap_eq_map' op
      rw [Piece.lexemes, hmarks] at h
      obtain ⟨u, rfl⟩ := List.length_eq_one_iff.mp (by simpa using congrArg List.length h)
      obtain rfl := Mark.symbol.inj (List.cons.inj h).1
      rfl
    | _ => simp [Piece.lexemes] at hl
  | _ => cases hm

/-- A mark after which a name is a global that is assigned to nothing. -/
def TellsNothing (m : Mark) : Prop :=
  m ≠ .symbol colon ∧ m ≠ .symbol dot ∧ m ≠ .symbol equals ∧ m ≠ .word "local" ∧
    m ≠ .word "function"

/-- A history tells the same of a name after it as another one. -/
structure Tracks (h r : History) : Prop where
  last : h.last = r.last ∨ TellsNothing h.last ∧ TellsNothing r.last
  dot : r.last = .symbol dot → (h.beforeLast = .symbol dot ↔ r.beforeLast = .symbol dot)
  equals : r.last = .symbol equals →
    (h.beforeLast = .word "require" ↔ r.beforeLast = .word "require")

namespace Tracks

variable {h r : History}

theorem refl (h : History) : Tracks h h := ⟨.inl rfl, fun _ => .rfl, fun _ => .rfl⟩

theorem precedesGlobal_eq (ht : Tracks h r) : h.precedesGlobal = r.precedesGlobal := by
  rw [Bool.eq_iff_iff, h.precedesGlobal_iff, r.precedesGlobal_iff]
  rcases ht.last with hlast | ⟨⟨hc, hd, _, hl, hf⟩, hc', hd', _, hl', hf'⟩
  · rw [hlast]
    by_cases hdot : r.last = .symbol Text.dot
    · simp [hdot, ht.dot hdot]
    · simp [hdot]
  · simp [hc, hd, hl, hf, hc', hd', hl', hf']

theorem assignsRequire_eq (ht : Tracks h r) : h.assignsRequire = r.assignsRequire := by
  rw [Bool.eq_iff_iff, h.assignsRequire_iff, r.assignsRequire_iff]
  rcases ht.last with hlast | ⟨⟨_, _, he, _⟩, _, _, he', _⟩
  · rw [hlast]
    exact and_congr_right ht.equals
  · simp [he, he']

theorem push {m : Mark} (ht : Tracks h r)
    (hm : m = .symbol Text.equals → (h.last = .word "require" ↔ r.last = .word "require")) :
    Tracks (h.push m) (r.push m) := by
  refine ⟨.inl rfl, fun _ => ?_, hm⟩
  rcases ht.last with hlast | ⟨⟨_, hd, _⟩, _, hd', _⟩
  · simp [History.push, hlast]
  · simp [History.push, hd, hd']

/-- Reading one more token keeps the agreement. Only for an equality sign it matters what stands
before. -/
theorem pushAll {x : Piece} (hx : x.Valid) (htoken : x.isToken = true) (ht : Tracks h r)
    (heq : x = .operator [Text.equals] →
      (h.last = .word "require" ↔ r.last = .word "require")) :
    Tracks (h.pushAll x.lexemes) (r.pushAll x.lexemes) ∧
      (h.pushAll x.lexemes).last = (r.pushAll x.lexemes).last := by
  cases hmarks : x.lexemes.filterMap mark? with
  | nil => exact absurd hmarks (exists_mark hx htoken)
  | cons m ms =>
    cases ms with
    | nil =>
      rw [History.pushAll, History.pushAll, hmarks]
      refine ⟨ht.push ?_, rfl⟩
      rintro rfl
      exact heq (eq_equals_of_marks hx hmarks)
    | cons m' ms =>
      rw [History.pushAll, History.pushAll, hmarks]
      exact ⟨.refl _, rfl⟩

end Tracks

/-- The history of a scan between the pieces read and those to come: it tracks the tokens read, and
no protected call is half read. -/
structure Synced (h : History) (done ps : List Piece) : Prop where
  tracks : Tracks h (historyOf done)
  target : (fromToken ps).head? = some (.operator [equals]) →
    (h.last = .word "require" ↔ (historyOf done).last = .word "require")
  outside : Preceded [.name "pcall"] done → ¬IsProtected ps
  inside : Preceded [.name "pcall", .operator [leftParen]] done →
    ¬[.name "require", .operator [comma]] <+: tokensIn ps

namespace Synced

theorem start (ps : List Piece) : Synced .empty [] ps where
  tracks := .refl _
  target := fun _ => .rfl
  outside := fun h => by simp [Preceded, tokensIn] at h
  inside := fun h => by simp [Preceded, tokensIn] at h

variable {h : History} {done ps : List Piece}

theorem looksQualified_iff (hs : Synced h done ps) (hvalid : ∀ x ∈ done, x.Valid) :
    LooksQualified done ↔ h.precedesGlobal = false := by
  rw [← precedesGlobal_historyOf hvalid, hs.tracks.precedesGlobal_eq]

theorem pass_gap {x : Piece} (htoken : x.isToken = false) (hs : Synced h done (x :: ps)) :
    Synced (h.pushAll x.lexemes) (done ++ [x]) ps := by
  have hnone : x.lexemes.filterMap mark? = [] := by
    cases x <;> first | rfl | cases htoken
  have hsame : ∀ g : History, g.pushAll x.lexemes = g := by
    intro g
    rw [History.pushAll, hnone]
    rfl
  have hpast : tokensIn (done ++ [x]) = tokensIn done := by simp [tokensIn, htoken]
  have hnext : tokensIn (x :: ps) = tokensIn ps := by simp [tokensIn, htoken]
  have hfrom : fromToken (x :: ps) = fromToken ps := by simp [fromToken, htoken]
  rw [hsame]
  refine ⟨?_, ?_, ?_, ?_⟩
  · rw [historyOf_concat, hsame]
    exact hs.tracks
  · rw [historyOf_concat, hsame, ← hfrom]
    exact hs.target
  · rw [Preceded, hpast, IsProtected, ← hnext]
    exact hs.outside
  · rw [Preceded, hpast, ← hnext]
    exact hs.inside

theorem pass_token {x : Piece} (hx : x.Valid) (htoken : x.isToken = true)
    (hs : Synced h done (x :: ps)) (hpcall : x = .name "pcall" → ¬IsProtected ps) :
    Synced (h.pushAll x.lexemes) (done ++ [x]) ps := by
  have hpast : tokensIn (done ++ [x]) = tokensIn done ++ [x] := by simp [tokensIn, htoken]
  have hnext : tokensIn (x :: ps) = x :: tokensIn ps := by simp [tokensIn, htoken]
  have hfrom : fromToken (x :: ps) = x :: ps := by simp [fromToken, htoken]
  obtain ⟨ht, hlast⟩ := hs.tracks.pushAll hx htoken fun he => hs.target (by rw [hfrom, he]; rfl)
  refine ⟨?_, ?_, ?_, ?_⟩
  · rw [historyOf_concat]
    exact ht
  · rw [historyOf_concat, hlast]
    exact fun _ => .rfl
  · exact fun hp => hpcall ((preceded_iff hpast _).mp hp).symm
  · intro hp hmore
    obtain ⟨hparen, hout⟩ := (preceded_pair_iff hpast _ _).mp hp
    refine hs.outside hout ?_
    rw [IsProtected, hnext, ← hparen]
    exact (List.prefix_cons_inj _).mpr hmore

/-- Reading a piece that starts no use keeps the scan in step. -/
theorem pass {x : Piece} (hx : x.Valid) (hs : Synced h done (x :: ps))
    (hpcall : x = .name "pcall" → ¬IsProtected ps) :
    Synced (h.pushAll x.lexemes) (done ++ [x]) ps := by
  cases htoken : x.isToken with
  | false => exact hs.pass_gap htoken
  | true => exact hs.pass_token hx htoken hpcall

/-- After a use the history has a mark that tells nothing, and so does the last token read. -/
theorem leave {past : List Piece} {x : Piece} {m : Mark}
    (hm : m = .symbol rightParen ∨ m = .word "pcall") (hdone : tokensIn done = past ++ [x])
    (hlast : x = .name "require" ∧ (fromToken ps).head? ≠ some (.operator [equals]) ∨
      endsCall x = true) : Synced (h.push m) done ps := by
  have hmark : TellsNothing m ∧ m ≠ .word "require" := by
    rcases hm with rfl | rfl <;> simp [TellsNothing] <;> decide
  have hraw : TellsNothing (historyOf done).last ∧
      (endsCall x = true → (historyOf done).last ≠ .word "require") := by
    rw [historyOf_of_tokensIn hdone]
    rcases hlast with ⟨rfl, _⟩ | hends
    · refine ⟨?_, fun hends => absurd hends (by decide)⟩
      change TellsNothing (.word "require")
      refine ⟨?_, ?_, ?_, ?_, ?_⟩ <;> decide
    · obtain ⟨m, hm, hne⟩ : ∃ m, ((historyOf past).pushAll x.lexemes).last = m ∧
          (m = .string ∨ m = .symbol rightParen ∨ m = .symbol rightBrace) := by
        cases x with
        | quoted q body => exact ⟨_, rfl, .inl rfl⟩
        | bracketed level body => exact ⟨_, rfl, .inl rfl⟩
        | operator op =>
          simp only [endsCall, Bool.or_eq_true, beq_iff_eq] at hends
          rcases hends with rfl | rfl
          · exact ⟨_, rfl, .inr (.inl rfl)⟩
          · exact ⟨_, rfl, .inr (.inr rfl)⟩
        | _ => cases hends
      rw [hm]
      rcases hne with rfl | rfl | rfl <;> simp [TellsNothing] <;> decide
  have hx : x ≠ .name "pcall" ∧ x ≠ .operator [leftParen] := by
    rcases hlast with ⟨rfl, _⟩ | hends
    · exact ⟨by decide, by decide⟩
    · constructor <;> rintro rfl <;> exact absurd hends (by decide)
  refine ⟨⟨.inr ⟨hmark.1, hraw.1⟩, ?_, ?_⟩, ?_, ?_, ?_⟩
  · exact fun hdot => absurd hdot hraw.1.2.1
  · exact fun hequals => absurd hequals hraw.1.2.2.1
  · intro hnext
    rcases hlast with ⟨_, hne⟩ | hends
    · exact absurd hnext hne
    · exact ⟨fun he => absurd he hmark.2, fun he => absurd he (hraw.2 hends)⟩
  · exact fun hp => absurd ((preceded_iff hdone _).mp hp).symm hx.1
  · exact fun hp => absurd ((preceded_pair_iff hdone _ _).mp hp).1.symm hx.2

end Synced

end RequireSite

end LuaBundle
