import LuaBundle.Proofs.Source.Placement
import LuaBundle.Source.RequireSite

/-! What a use of `require` takes of the pieces after it: nothing, one literal, a table, or an
argument list up to its parenthesis. -/

namespace LuaBundle

open Text

namespace Lua

def Piece.isLiteral : Piece → Bool
  | quoted _ _ | bracketed _ _ => true
  | _ => false

/-- Whether a token after a name makes it a call. -/
def Piece.opensCall : Piece → Bool
  | operator op => op == [leftParen] || op == [leftBrace]
  | x => x.isLiteral

/-- The call that the pieces after a name make is closed, if they make one. -/
structure IsClosed (ps : List Piece) : Prop where
  parens : ∀ rest, fromToken ps = .operator [leftParen] :: rest →
    (balanced? leftParen rightParen 0 rest).isSome
  braces : ∀ rest, fromToken ps = .operator [leftBrace] :: rest →
    (balanced? leftBrace rightBrace 0 rest).isSome

theorem valid_of_fromToken {ps rest : List Piece} {x : Piece} (hvalid : ∀ y ∈ ps, y.Valid)
    (h : fromToken ps = x :: rest) : x.Valid ∧ ∀ y ∈ rest, y.Valid := by
  have hmem : ∀ y ∈ x :: rest, y ∈ ps := by
    rw [← h]
    exact fun y hy => (List.dropWhile_sublist _).subset hy
  exact ⟨hvalid x (hmem x (by simp)), fun y hy => hvalid y (hmem y (by simp [hy]))⟩

theorem isToken_of_fromToken {ps rest : List Piece} {x : Piece} (h : fromToken ps = x :: rest) :
    x.isToken = true := by
  have := List.head?_dropWhile_not (fun y : Piece => !y.isToken) ps
  rw [show ps.dropWhile (fun y => !y.isToken) = x :: rest from h] at this
  simpa using this

theorem eq_gap_append {ps rest : List Piece} {x : Piece} (h : fromToken ps = x :: rest) :
    ps = gap ps ++ x :: rest := by
  rw [← h, gap_append_fromToken]

theorem place_operator (u : UInt16) (p : Position) (ts : List Token) :
    Token.place p (Piece.operator [u]).lexemes ++ ts = ⟨.symbol u, p⟩ :: ts := rfl

theorem significant?_token {ps rest : List Piece} {x : Piece} (hvalid : ∀ y ∈ ps, y.Valid)
    (h : fromToken ps = x :: rest) (p : Position) :
    Token.significant? (tokensOf p ps) =
      some (Token.place (p.after (source (gap ps))) x.lexemes ++
        tokensOf (p.after (source (gap ps ++ [x]))) rest) := by
  rw [significant?_tokensOf hvalid, h, tokensOf_cons, source_append, Position.after_append,
    source_cons, source_nil, List.append_nil]

theorem exists_token_of_significant? {ps : List Piece} {p q : Position} {l : Lexeme}
    {ts : List Token} (hvalid : ∀ x ∈ ps, x.Valid)
    (h : Token.significant? (tokensOf p ps) = some (⟨l, q⟩ :: ts)) :
    ∃ x rest, fromToken ps = x :: rest ∧ x.Valid ∧ l ∈ x.lexemes ∧
      q = p.after (source (gap ps)) ∧
      (x.lexemes = [l] → ts = tokensOf (p.after (source (gap ps ++ [x]))) rest) := by
  cases hps : fromToken ps with
  | nil =>
    rw [significant?_tokensOf hvalid, hps] at h
    cases h
  | cons x rest =>
    have hx := (valid_of_fromToken hvalid hps).1
    obtain ⟨l', ls, hls⟩ := List.exists_cons_of_ne_nil (lexemes_ne_nil hx)
    rw [significant?_token hvalid hps, hls, Token.place, List.cons_append] at h
    obtain ⟨hl, hts⟩ := List.cons.inj (Option.some.inj h)
    obtain ⟨rfl, rfl⟩ := Token.mk.inj hl
    refine ⟨x, rest, rfl, hx, by simp [hls], rfl, fun hsingle => ?_⟩
    obtain rfl : ls = [] := (List.cons.inj (hls.symm.trans hsingle)).2
    exact hts.symm

theorem exists_operator_of_significant? {ps : List Piece} {p q : Position} {u : UInt16}
    {ts : List Token} (hvalid : ∀ x ∈ ps, x.Valid) (hu : isDelimiter u = true)
    (h : Token.significant? (tokensOf p ps) = some (⟨.symbol u, q⟩ :: ts)) :
    ∃ rest, fromToken ps = .operator [u] :: rest ∧
      ts = tokensOf (p.after (source (gap ps ++ [.operator [u]]))) rest := by
  obtain ⟨x, rest, hps, hx, hl, _, hts⟩ := exists_token_of_significant? hvalid h
  obtain rfl := eq_operator_of_symbol_mem hx hu hl
  exact ⟨rest, hps, hts rfl⟩

/-- The words that the scan looks for hold letters that no numeral holds. -/
theorem eq_name_of_word_mem {x : Piece} {w : Text} (hx : x.Valid)
    (hw : w.all isNumeralUnit = false) (h : .word w ∈ x.lexemes) : x = .name w := by
  cases x with
  | name v =>
    obtain rfl := Lexeme.word.inj (List.mem_singleton.mp h)
    rfl
  | numeral n =>
    rcases (lexemes_numeral hx.2).2.1 _ h with ⟨v, he, _, hv⟩ | ⟨_, he, _⟩
    · obtain rfl := Lexeme.word.inj he
      rw [List.all_eq_true.mpr hv] at hw
      cases hw
    · cases he
  | operator op =>
    obtain ⟨_, _, he⟩ := List.mem_map.mp h
    cases he
  | _ => simp [Piece.lexemes] at h

theorem exists_name_of_significant? {ps : List Piece} {p q : Position} {w : Text}
    {ts : List Token} (hvalid : ∀ x ∈ ps, x.Valid) (hw : w.all isNumeralUnit = false)
    (h : Token.significant? (tokensOf p ps) = some (⟨.word w, q⟩ :: ts)) :
    ∃ rest, fromToken ps = .name w :: rest ∧
      ts = tokensOf (p.after (source (gap ps ++ [.name w]))) rest := by
  obtain ⟨x, rest, hps, hx, hl, _, hts⟩ := exists_token_of_significant? hvalid h
  obtain rfl := eq_name_of_word_mem hx hw hl
  exact ⟨rest, hps, hts rfl⟩

/-- The tokens among pieces. -/
def tokensIn (ps : List Piece) : List Piece := ps.filter Piece.isToken

theorem tokensIn_append (ps qs : List Piece) : tokensIn (ps ++ qs) = tokensIn ps ++ tokensIn qs :=
  List.filter_append ps qs

theorem tokensIn_gap (ps : List Piece) : tokensIn (gap ps) = [] := by
  refine List.filter_eq_nil_iff.mpr fun x hx => ?_
  simpa using List.all_eq_true.mp (List.all_takeWhile (l := ps)) x hx

theorem tokensIn_of_fromToken {ps rest : List Piece} {x : Piece} (h : fromToken ps = x :: rest) :
    tokensIn ps = x :: tokensIn rest := by
  have htoken := isToken_of_fromToken h
  rw [eq_gap_append h, tokensIn_append, tokensIn_gap, List.nil_append, tokensIn,
    List.filter_cons_of_pos htoken, tokensIn]

theorem exists_fromToken {ps ts : List Piece} {x : Piece} (h : tokensIn ps = x :: ts) :
    ∃ rest, fromToken ps = x :: rest ∧ tokensIn rest = ts := by
  cases hps : fromToken ps with
  | nil =>
    rw [← gap_append_fromToken ps, hps, List.append_nil, tokensIn_gap] at h
    cases h
  | cons y rest =>
    rw [tokensIn_of_fromToken hps] at h
    obtain ⟨rfl, rfl⟩ := List.cons.inj h
    exact ⟨rest, rfl, rfl⟩

end Lua

namespace RequireSite

open Lua

variable {position : Position}

theorem literal?_of_isLiteral {x : Piece} (h : x.isLiteral = true) :
    ∃ l name raw, x.lexemes = [l] ∧ literal? l = some (name, raw) ∧ (∀ t, l ≠ .openString t) ∧
      ∀ u, l ≠ .symbol u := by
  cases x with
  | quoted q body => exact ⟨_, _, _, rfl, rfl, by simp, by simp⟩
  | bracketed level body => exact ⟨_, _, _, rfl, rfl, by simp, by simp⟩
  | _ => cases h

theorem literal?_eq_none {x : Piece} (hx : x.Valid) (htoken : x.isToken = true)
    (h : x.isLiteral = false) : ∀ l ∈ x.lexemes, literal? l = none ∧ ∀ t, l ≠ .openString t := by
  intro l hl
  have hsolid := isSolid_of_mem_lexemes hx htoken l hl
  cases x with
  | quoted q body => cases h
  | bracketed level body => cases h
  | numeral n =>
    rcases (lexemes_numeral hx.2).2.1 l hl with ⟨w, rfl, _⟩ | ⟨u, rfl, _⟩
    · exact ⟨rfl, by simp⟩
    · exact ⟨rfl, by simp⟩
  | operator op =>
    obtain ⟨u, _, rfl⟩ := List.mem_map.mp hl
    exact ⟨rfl, by simp⟩
  | name w =>
    obtain rfl := List.mem_singleton.mp hl
    exact ⟨rfl, by simp⟩
  | blank u => cases htoken
  | comment c => cases htoken

/-- What an argument list takes of the pieces after its opening. -/
inductive Arguments (position : Position) (ps : List Piece) :
    RequireSite → List Piece → List Piece → Prop
  | literal {x : Piece} {rest left : List Piece} (name raw : Text)
    (hx : x.isLiteral = true) (hps : fromToken ps = x :: rest)
    (hrest : fromToken rest = .operator [rightParen] :: left) :
    Arguments position ps (.literal position name raw)
      (gap ps ++ x :: (gap rest ++ [.operator [rightParen]])) left
  | first {x : Piece} {left : List Piece} (name raw : Text)
    (hx : x.isLiteral = true) (hps : fromToken ps = x :: left) :
    Arguments position ps (.literal position name raw) (gap ps ++ [x]) left
  | computed {inside left : List Piece}
    (hinside : balanced? leftParen rightParen 0 ps = some (inside, left)) :
    Arguments position ps (.computed position (source inside))
      (inside ++ [.operator [rightParen]]) left

theorem readComputed_tokensOf (position : Position) {ps : List Piece} (hvalid : ∀ x ∈ ps, x.Valid)
    (hclosed : (balanced? leftParen rightParen 0 ps).isSome) (p : Position) :
    ∃ site taken left, Arguments position ps site taken left ∧
      readComputed position (tokensOf p ps) =
        ⟨some site, some (tokensOf (p.after (source taken)) left)⟩ := by
  obtain ⟨⟨inside, left⟩, hinside⟩ := Option.isSome_iff_exists.mp hclosed
  refine ⟨_, _, _, .computed hinside, ?_⟩
  rw [readComputed, balanced?_tokensOf (by decide) (by decide) hvalid, hinside]
  simp only [Option.map_some, source_tokensOf, source_append, source_cons, source_nil]
  rfl

theorem readArguments_of_not_literal {ps : List Piece} (hvalid : ∀ x ∈ ps, x.Valid)
    (h : ∀ x rest, fromToken ps = x :: rest → x.isLiteral = false) (protectedCall : Bool)
    (p : Position) :
    readArguments position protectedCall (tokensOf p ps) =
      readComputed position (tokensOf p ps) := by
  cases hps : fromToken ps with
  | nil =>
    rw [readArguments, significant?_tokensOf hvalid, hps]
    rfl
  | cons x rest =>
    have hx := (valid_of_fromToken hvalid hps).1
    obtain ⟨l, ls, hls⟩ := List.exists_cons_of_ne_nil (lexemes_ne_nil hx)
    obtain ⟨hnone, hopen⟩ :=
      literal?_eq_none hx (isToken_of_fromToken hps) (h x rest hps) l (by simp [hls])
    rw [readArguments, significant?_token hvalid hps, hls, Token.place, List.cons_append]
    cases l with
    | openString t => exact absurd rfl (hopen t)
    | _ => simp only [hnone]

/-- A literal is the argument where the parenthesis follows or, in a protected call, a comma. -/
theorem readArguments_literal (position : Position) {ts rest : List Token} {t : Token}
    {name raw : Text}
    (hts : Token.significant? ts = some (t :: rest)) (hname : literal? t.lexeme = some (name, raw))
    (protectedCall : Bool) :
    readArguments position protectedCall ts = readComputed position ts ∨
      (∃ q after, Token.significant? rest = some (⟨.symbol rightParen, q⟩ :: after) ∧
        readArguments position protectedCall ts = ⟨some (literal position name raw), some after⟩) ∨
      readArguments position protectedCall ts = ⟨some (literal position name raw), some rest⟩ := by
  obtain ⟨l, q⟩ := t
  rw [readArguments, hts]
  have hl : (∃ quote body, l = .quoted quote body) ∨ ∃ level body, l = .bracketed level body := by
    cases l with
    | quoted quote body => exact .inl ⟨quote, body, rfl⟩
    | bracketed level body => exact .inr ⟨level, body, rfl⟩
    | _ => cases hname
  rcases hl with ⟨quote, body, rfl⟩ | ⟨level, body, rfl⟩
  all_goals
    simp only [hname]
    split
    · rename_i u p after hrest
      split
      · rename_i hu
        exact .inr (.inl ⟨p, after, by rw [hrest, hu], rfl⟩)
      · split
        · exact .inr (.inr rfl)
        · exact .inl rfl
    · exact .inl rfl

/-- An argument list takes a lone literal, or everything up to its closing parenthesis. -/
theorem readArguments_tokensOf (position : Position) {ps : List Piece} (hvalid : ∀ x ∈ ps, x.Valid)
    (hclosed : (balanced? leftParen rightParen 0 ps).isSome) (protectedCall : Bool) (p : Position) :
    ∃ site taken left, Arguments position ps site taken left ∧
      readArguments position protectedCall (tokensOf p ps) =
        ⟨some site, some (tokensOf (p.after (source taken)) left)⟩ := by
  have hcomputed := readComputed_tokensOf position hvalid hclosed p
  by_cases hliteral : ∃ x rest, fromToken ps = x :: rest ∧ x.isLiteral = true
  · obtain ⟨x, rest, hps, hx⟩ := hliteral
    have hrest := (valid_of_fromToken hvalid hps).2
    obtain ⟨l, name, raw, hl, hname, hopen, hsymbol⟩ := literal?_of_isLiteral hx
    have hts := significant?_token hvalid hps p
    rw [hl, Token.place, Token.place, List.singleton_append] at hts
    rcases readArguments_literal position hts hname protectedCall with
      hread | ⟨q, after, hafter, hread⟩ | hread
    · rw [hread]
      exact hcomputed
    · obtain ⟨left, hleft, rfl⟩ := exists_operator_of_significant? hrest (by decide) hafter
      refine ⟨_, _, left, .literal name raw hx hps hleft, ?_⟩
      rw [hread]
      simp only [source_append, source_cons, source_nil, List.append_nil, Position.after_append]
    · exact ⟨_, _, _, .first name raw hx hps, hread⟩
  · rw [readArguments_of_not_literal hvalid fun x rest hps =>
      Bool.eq_false_iff.mpr fun hx => hliteral ⟨x, rest, hps, hx⟩]
    exact hcomputed

/-- What a use takes of the pieces after `require`, and the site that it makes. -/
inductive Call (position : Position) (ps : List Piece) :
    Option RequireSite → List Piece → List Piece → Prop
  | assigned (hnext : (fromToken ps).head? = some (.operator [equals])) :
    Call position ps none [] ps
  | bare (hnext : (fromToken ps).head? ≠ some (.operator [equals]))
    (hcall : ∀ x ∈ (fromToken ps).head?, x.opensCall = false) :
    Call position ps (some (.computed position [])) [] ps
  | literal {x : Piece} {left : List Piece} (name raw : Text)
    (hx : x.isLiteral = true) (hps : fromToken ps = x :: left) :
    Call position ps (some (.literal position name raw)) (gap ps ++ [x]) left
  | arguments {rest taken left : List Piece} {site : RequireSite}
    (hps : fromToken ps = .operator [leftParen] :: rest)
    (harguments : Arguments position rest site taken left) :
    Call position ps (some site) (gap ps ++ .operator [leftParen] :: taken) left
  | table {rest inside left : List Piece}
    (hps : fromToken ps = .operator [leftBrace] :: rest)
    (hinside : balanced? leftBrace rightBrace 0 rest = some (inside, left)) :
    Call position ps
      (some (.computed position
        (source (.operator [leftBrace] :: (inside ++ [.operator [rightBrace]])))))
      (gap ps ++ .operator [leftBrace] :: (inside ++ [.operator [rightBrace]])) left

theorem readCall_numeral (position : Position) {ps rest : List Piece} {n : Text}
    (hvalid : ∀ x ∈ ps, x.Valid) (hps : fromToken ps = .numeral n :: rest) (p : Position) :
    readCall position (tokensOf p ps) =
      ⟨some (computed position []), some (tokensOf p ps)⟩ := by
  have hn := (valid_of_fromToken hvalid hps).1
  obtain ⟨l, ls, hls⟩ := List.exists_cons_of_ne_nil (lexemes_ne_nil hn)
  rw [readCall, significant?_token hvalid hps p, hls, Token.place, List.cons_append]
  rcases (lexemes_numeral hn.2).2.1 l (by rw [← Piece.lexemes, hls]; simp) with
    ⟨w, rfl, _⟩ | ⟨u, rfl, hu⟩
  · rfl
  · obtain ⟨hparen, hbrace, hequals⟩ : u ≠ leftParen ∧ u ≠ leftBrace ∧ u ≠ equals := by
      have : u = dot ∨ u = unit '+' ∨ u = dash := by simpa [isSign] using hu
      rcases this with rfl | rfl | rfl <;> decide
    exact (if_neg hparen).trans ((if_neg hbrace).trans (if_neg fun h => hequals h.1))

theorem readCall_operator (position : Position) {ps rest : List Piece} {op : Text}
    (hvalid : ∀ x ∈ ps, x.Valid) (hps : fromToken ps = .operator op :: rest)
    (hclosed : IsClosed ps)
    (hequals : op = [equals] → (source rest).head? ≠ some equals) (p : Position) :
    ∃ site taken left, Call position ps site taken left ∧
      readCall position (tokensOf p ps) =
        ⟨site, some (tokensOf (p.after (source taken)) left)⟩ := by
  obtain ⟨hx, hrest⟩ := valid_of_fromToken hvalid hps
  rw [readCall, significant?_token hvalid hps p]
  have hall : ∀ op ∈ operators, op = [leftParen] ∨ op = [leftBrace] ∨ op = [equals] ∨
      op = [equals, equals] ∨ ∃ u ∈ op.head?, u ≠ leftParen ∧ u ≠ leftBrace ∧ u ≠ equals := by
    decide +kernel
  rcases hall op hx with rfl | rfl | rfl | rfl | ⟨u, hu, hparen, hbrace, hne⟩
  · obtain ⟨site, taken, left, harguments, hread⟩ :=
      readArguments_tokensOf position hrest (hclosed.parens rest hps) false
        (p.after (source (gap ps ++ [.operator [leftParen]])))
    refine ⟨_, _, _, .arguments hps harguments, (if_pos rfl).trans (hread.trans ?_)⟩
    simp only [source_append, source_cons, source_nil, List.append_nil, Position.after_append]
  · obtain ⟨⟨inside, left⟩, hinside⟩ := Option.isSome_iff_exists.mp (hclosed.braces rest hps)
    refine ⟨_, _, _, .table hps hinside, ?_⟩
    have hbalanced := @balanced?_tokensOf leftBrace rightBrace (by decide) (by decide) rest hrest
      0 (p.after (source (gap ps ++ [.operator [leftBrace]])))
    rw [hinside, Option.map_some] at hbalanced
    rw [place_operator]
    refine (if_neg (by decide)).trans ((if_pos rfl).trans ?_)
    rw [hbalanced]
    simp only [source_append, source_cons, source_nil, List.append_nil, source_tokensOf,
      Position.after_append]
    rfl
  · refine ⟨_, _, _, .assigned (by simp [hps]), ?_⟩
    rw [place_operator]
    refine (if_neg (by decide)).trans ((if_neg (by decide)).trans (if_pos ⟨rfl, ?_⟩))
    rw [source_tokensOf]
    exact hequals rfl
  · -- Two equality signs are a comparison.
    refine ⟨_, _, _, .bare (by simp [hps]) (by simp [hps, Piece.opensCall]), ?_⟩
    exact (if_neg (by decide)).trans ((if_neg (by decide)).trans (if_neg fun h => h.2 rfl))
  · obtain ⟨tail, rfl⟩ : ∃ tail, op = u :: tail := by
      cases op with
      | nil => cases hu
      | cons v tail => exact ⟨tail, by simpa using hu⟩
    refine ⟨_, _, _, .bare ?_ ?_, ?_⟩
    · simp [hps, hne]
    · simp [hps, Piece.opensCall, hparen, hbrace]
    · exact (if_neg hparen).trans ((if_neg hbrace).trans (if_neg fun h => hne h.1))

theorem readCall_tokensOf (position : Position) {ps : List Piece} (hvalid : ∀ x ∈ ps, x.Valid)
    (hclosed : IsClosed ps)
    (hequals : ∀ rest, fromToken ps = .operator [equals] :: rest →
      (source rest).head? ≠ some equals) (p : Position) :
    ∃ site taken left, Call position ps site taken left ∧
      readCall position (tokensOf p ps) =
        ⟨site, some (tokensOf (p.after (source taken)) left)⟩ := by
  cases hps : fromToken ps with
  | nil =>
    refine ⟨_, _, _, .bare (by simp [hps]) (by simp [hps]), ?_⟩
    rw [readCall, significant?_tokensOf hvalid, hps]
    rfl
  | cons x rest =>
    have htoken := isToken_of_fromToken hps
    cases x with
    | blank u => cases htoken
    | comment c => cases htoken
    | quoted q body =>
      rw [readCall, significant?_token hvalid hps p]
      exact ⟨_, _, _, .literal _ _ rfl hps, rfl⟩
    | bracketed level body =>
      rw [readCall, significant?_token hvalid hps p]
      exact ⟨_, _, _, .literal _ _ rfl hps, rfl⟩
    | name w =>
      refine ⟨_, _, _, .bare (by simp [hps]) (by simp [hps, Piece.opensCall, Piece.isLiteral]), ?_⟩
      rw [readCall, significant?_token hvalid hps p]
      rfl
    | numeral n =>
      exact ⟨_, _, _, .bare (by simp [hps]) (by simp [hps, Piece.opensCall, Piece.isLiteral]),
        readCall_numeral position hvalid hps p⟩
    | operator op =>
      refine readCall_operator position hvalid hps hclosed (fun hop => ?_) p
      rw [hop] at hps
      exact hequals rest hps

/-- Whether the pieces after `pcall` give it `require` and further arguments. -/
def IsProtected (ps : List Piece) : Prop :=
  [.operator [leftParen], .name "require", .operator [comma]] <+: tokensIn ps

theorem isProtected_of_readProtected? {ps : List Piece} (hvalid : ∀ x ∈ ps, x.Valid) {p : Position}
    {use : Use} (h : readProtected? (tokensOf p ps) = some use) : IsProtected ps := by
  obtain ⟨_, _, _, _, _, _, hparens, hnames, hcommas, _⟩ := readProtected?_eq_some h
  obtain ⟨inner, hparen, rfl⟩ := exists_operator_of_significant? hvalid (by decide) hparens
  have hinner := (valid_of_fromToken hvalid hparen).2
  obtain ⟨rest, hname, rfl⟩ := exists_name_of_significant? hinner (by decide) hnames
  have hrest := (valid_of_fromToken hinner hname).2
  obtain ⟨more, hcomma, _⟩ := exists_operator_of_significant? hrest (by decide) hcommas
  rw [IsProtected, tokensIn_of_fromToken hparen, tokensIn_of_fromToken hname,
    tokensIn_of_fromToken hcomma]
  exact ⟨tokensIn more, rfl⟩

/-- What the use in a protected call takes of the pieces after `pcall`: those up to `require`, those
of the use, and those left. -/
inductive Protected (p : Position) (ps : List Piece) :
    RequireSite → List Piece → List Piece → List Piece → Prop
  | intro {opening rest more taken left : List Piece} {site : RequireSite}
    (hps : ps = opening ++ .name "require" :: rest)
    (hopening : tokensIn opening = [.operator [leftParen]])
    (hrest : fromToken rest = .operator [comma] :: more)
    (harguments : Arguments (p.after (source opening)) more site taken left) :
    Protected p ps site opening (gap rest ++ .operator [comma] :: taken) left

theorem readProtected?_tokensOf {ps : List Piece} (hvalid : ∀ x ∈ ps, x.Valid)
    (hprotected : IsProtected ps)
    (hclosed : ∀ opening rest more, ps = opening ++ .name "require" :: rest →
      tokensIn opening = [.operator [leftParen]] → fromToken rest = .operator [comma] :: more →
      (balanced? leftParen rightParen 0 more).isSome) (p : Position) :
    ∃ site opening taken left, Protected p ps site opening taken left ∧
      readProtected? (tokensOf p ps) =
        some ⟨some site,
          some (tokensOf (p.after (source (opening ++ .name "require" :: taken))) left)⟩ := by
  obtain ⟨more, hmore⟩ := hprotected
  obtain ⟨inner, hparen, hinner⟩ := exists_fromToken hmore.symm
  obtain ⟨rest, hname, hrest⟩ := exists_fromToken hinner
  obtain ⟨more, hcomma, _⟩ := exists_fromToken hrest
  have hvalidInner := (valid_of_fromToken hvalid hparen).2
  have hvalidRest := (valid_of_fromToken hvalidInner hname).2
  have hvalidMore := (valid_of_fromToken hvalidRest hcomma).2
  have hps : ps = (gap ps ++ .operator [leftParen] :: gap inner) ++ .name "require" :: rest := by
    rw [List.append_assoc, List.cons_append, ← eq_gap_append hname, ← eq_gap_append hparen]
  have hopening : tokensIn (gap ps ++ .operator [leftParen] :: gap inner) =
      [.operator [leftParen]] := by
    rw [tokensIn_append, tokensIn_gap, List.nil_append, tokensIn,
      List.filter_cons_of_pos (by rfl), ← tokensIn, tokensIn_gap]
  obtain ⟨site, taken, left, harguments, hread⟩ := readArguments_tokensOf
    (p.after (source (gap ps ++ .operator [leftParen] :: gap inner))) hvalidMore
    (hclosed _ _ _ hps hopening hcomma) true
    (p.after (source (gap ps ++ .operator [leftParen] :: gap inner ++ .name "require" ::
      (gap rest ++ [.operator [comma]]))))
  refine ⟨_, _, _, _, .intro hps hopening hcomma harguments, ?_⟩
  rw [readProtected?, significant?_token hvalid hparen, place_operator]
  simp only [if_true]
  rw [significant?_token hvalidInner hname]
  simp only [Piece.lexemes, Token.place, List.cons_append, List.nil_append, if_true]
  rw [significant?_token hvalidRest hcomma, place_operator]
  simp only [if_true]
  simp only [source_append, source_cons, source_nil, List.append_nil, Position.after_append]
    at hread ⊢
  rw [hread]

end RequireSite

end LuaBundle
