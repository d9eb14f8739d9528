import LuaBundle.Proofs.Lua.Lexemes
import LuaBundle.Source.Token

/-! The tokens of pieces at their places. Positions grow along a source, so that a position tells
which token stands there; the next token and the bracket that closes an open one are found piece by
piece. -/

namespace LuaBundle

open Text

namespace Position

def Before (p q : Position) : Prop := p.line < q.line ∨ p.line = q.line ∧ p.column < q.column

theorem Before.trans {p q r : Position} (h : p.Before q) (h' : q.Before r) : p.Before r := by
  unfold Before at *
  omega

theorem Before.ne {p q : Position} (h : p.Before q) : p ≠ q := by
  rintro rfl
  unfold Before at h
  omega

theorem before_step (p : Position) (u : UInt16) : p.Before (p.step u) := by
  unfold step Before
  split
  · exact .inl (Nat.lt_succ_self _)
  · exact .inr ⟨rfl, Nat.lt_succ_self _⟩

theorem before_after {t : Text} (h : t ≠ []) (p : Position) : p.Before (p.after t) := by
  induction t generalizing p with
  | nil => exact absurd rfl h
  | cons u t ih =>
    rw [after_cons]
    by_cases ht : t = []
    · rw [ht]
      exact before_step p u
    · exact (before_step p u).trans (ih ht _)

def UpTo (p q : Position) : Prop := p = q ∨ p.Before q

theorem UpTo.refl (p : Position) : p.UpTo p := .inl rfl

theorem UpTo.trans {p q r : Position} (h : p.UpTo q) (h' : q.UpTo r) : p.UpTo r := by
  rcases h with rfl | h
  · exact h'
  · rcases h' with rfl | h'
    · exact .inr h
    · exact .inr (h.trans h')

theorem Before.trans_upTo {p q r : Position} (h : p.Before q) (h' : q.UpTo r) : p.Before r := by
  rcases h' with rfl | h'
  · exact h
  · exact h.trans h'

theorem upTo_after (p : Position) (t : Text) : p.UpTo (p.after t) := by
  by_cases ht : t = []
  · rw [ht]
    exact .refl p
  · exact .inr (before_after ht p)

end Position

namespace Token

theorem place_append (p : Position) (ls more : List Lexeme) :
    place p (ls ++ more) = place p ls ++ place (p.after (ls.flatMap Lexeme.text)) more := by
  induction ls generalizing p with
  | nil => rfl
  | cons l ls ih =>
    rw [List.cons_append, place, ih, List.flatMap_cons, Position.after_append]
    rfl

theorem source_place (p : Position) (ls : List Lexeme) :
    source (place p ls) = ls.flatMap Lexeme.text := by
  induction ls generalizing p with
  | nil => rfl
  | cons l ls ih =>
    rw [place, List.flatMap_cons, ← ih (p.after l.text)]
    rfl

end Token

namespace Lua

/-- The tokens of a scan over pieces, the first of them at `p`. -/
def tokensOf (p : Position) (ps : List Piece) : List Token := Token.place p (lexemesOf ps)

theorem source_lexemesOf (ps : List Piece) : (lexemesOf ps).flatMap Lexeme.text = source ps := by
  induction ps with
  | nil => rfl
  | cons x ps ih => rw [lexemesOf_cons, List.flatMap_append, ih, x.lexemes_text, source_cons]

theorem tokensOf_cons (p : Position) (x : Piece) (ps : List Piece) :
    tokensOf p (x :: ps) = Token.place p x.lexemes ++ tokensOf (p.after x.text) ps := by
  rw [tokensOf, lexemesOf_cons, Token.place_append, x.lexemes_text]
  rfl

theorem source_tokensOf (p : Position) (ps : List Piece) :
    Token.source (tokensOf p ps) = source ps := by
  rw [tokensOf, Token.source_place, source_lexemesOf]

/-- Whether a piece is a token: neither a blank nor a comment. -/
def Piece.isToken : Piece → Bool
  | blank _ | comment _ => false
  | _ => true

def Piece.isBlank : Piece → Bool
  | blank _ => true
  | _ => false

/-- The pieces from the next token on. -/
def fromToken (ps : List Piece) : List Piece := ps.dropWhile fun x => !x.isToken

/-- The blanks and comments before the next token. -/
def gap (ps : List Piece) : List Piece := ps.takeWhile fun x => !x.isToken

theorem gap_append_fromToken (ps : List Piece) : gap ps ++ fromToken ps = ps :=
  List.takeWhile_append_dropWhile

/-- The pieces up to the `close` that ends the bracket open at a depth, and those after it. -/
def balanced? (opener close : UInt16) (depth : Nat) : List Piece → Option (List Piece × List Piece)
  | [] => none
  | x :: rest =>
    if x = .operator [close] then
      match depth with
      | 0 => some ([], rest)
      | depth + 1 => (balanced? opener close depth rest).map fun (inside, after) =>
        (x :: inside, after)
    else
      (balanced? opener close (if x = .operator [opener] then depth + 1 else depth) rest).map
        fun (inside, after) => (x :: inside, after)

theorem balanced?_eq_some {opener close : UInt16} {depth : Nat} {ps inside after : List Piece}
    (h : balanced? opener close depth ps = some (inside, after)) :
    ps = inside ++ .operator [close] :: after := by
  fun_induction balanced? opener close depth ps generalizing inside after with
  | case1 => cases h
  | case2 rest =>
    obtain ⟨rfl, rfl⟩ := Prod.mk.inj (Option.some.inj h)
    rfl
  | case3 rest depth ih =>
    obtain ⟨⟨i, a⟩, hb, he⟩ := Option.map_eq_some_iff.mp h
    obtain ⟨rfl, rfl⟩ := Prod.mk.inj he
    rw [ih hb]
    rfl
  | case4 depth x rest _ ih =>
    obtain ⟨⟨i, a⟩, hb, he⟩ := Option.map_eq_some_iff.mp h
    obtain ⟨rfl, rfl⟩ := Prod.mk.inj he
    rw [ih hb]
    rfl

/-- The lexemes of tokens: those of text that is no comment and is closed. -/
def IsSolid : Lexeme → Prop
  | .word _ | .quoted _ _ | .bracketed _ _ | .symbol _ => True
  | _ => False

theorem isSolid_of_mem_lexemes {x : Piece} (hx : x.Valid) (htoken : x.isToken = true) :
    ∀ l ∈ x.lexemes, IsSolid l := by
  intro l hl
  cases x with
  | blank u => cases htoken
  | comment c => cases htoken
  | numeral n =>
    rcases (lexemes_numeral hx.2).2.1 l hl with ⟨w, rfl, _⟩ | ⟨u, rfl, _⟩ <;> trivial
  | operator op =>
    obtain ⟨u, _, rfl⟩ := List.mem_map.mp hl
    trivial
  | _ =>
    obtain rfl := List.mem_singleton.mp hl
    trivial

theorem lexemes_ne_nil {x : Piece} (hx : x.Valid) : x.lexemes ≠ [] := by
  intro hnil
  have htext := x.lexemes_text
  rw [hnil] at htext
  exact hx.text_ne_nil htext.symm

/-- The brackets and the comma, which are parts of no longer token. -/
def isDelimiter (u : UInt16) : Bool :=
  [leftParen, rightParen, leftBrace, rightBrace, comma].contains u

theorem eq_operator_of_symbol_mem {x : Piece} {u : UInt16} (hx : x.Valid)
    (hu : isDelimiter u = true) (h : .symbol u ∈ x.lexemes) : x = .operator [u] := by
  cases x with
  | numeral n =>
    rcases (lexemes_numeral hx.2).2.1 _ h with ⟨_, he, _⟩ | ⟨v, he, hv⟩
    · cases he
    · obtain rfl := Lexeme.symbol.inj he
      have : u = dot ∨ u = unit '+' ∨ u = dash := by simpa [isSign] using hv
      rcases this with rfl | rfl | rfl <;> exact absurd hu (by decide)
  | operator op =>
    obtain ⟨v, hv, he⟩ := List.mem_map.mp h
    obtain rfl := Lexeme.symbol.inj he
    have hall : ∀ op ∈ operators, (op.all fun v => !isDelimiter v || op == [v]) = true := by decide
    have := List.all_eq_true.mp (hall op hx) v hv
    simp only [hu, Bool.not_true, Bool.false_or, beq_iff_eq] at this
    rw [this]
  | _ => simp [Piece.lexemes] at h

theorem significant?_tokensOf {ps : List Piece} (hvalid : ∀ x ∈ ps, x.Valid) (p : Position) :
    Token.significant? (tokensOf p ps) =
      some (tokensOf (p.after (source (gap ps))) (fromToken ps)) := by
  induction ps generalizing p with
  | nil => rfl
  | cons x ps ih =>
    obtain ⟨hx, hps⟩ := List.forall_mem_cons.mp hvalid
    cases htoken : x.isToken with
    | false =>
      have hgap : gap (x :: ps) = x :: gap ps := by simp [gap, htoken]
      have hfrom : fromToken (x :: ps) = fromToken ps := by simp [fromToken, htoken]
      rw [hgap, hfrom, source_cons, Position.after_append, ← ih hps]
      cases x <;> first | rfl | cases htoken
    | true =>
      have hgap : gap (x :: ps) = [] := by simp [gap, htoken]
      have hfrom : fromToken (x :: ps) = x :: ps := by simp [fromToken, htoken]
      have hsolid := isSolid_of_mem_lexemes hx htoken
      obtain ⟨l, ls, hls⟩ := List.exists_cons_of_ne_nil (lexemes_ne_nil hx)
      rw [hgap, hfrom, source_nil, Position.after_nil, tokensOf_cons, hls, Token.place,
        List.cons_append, Token.significant?]
      have hl := hsolid l (by simp [hls])
      cases l <;> first | rfl | cases hl

theorem balanced?_place {opener close : UInt16} {depth : Nat} {ls : List Lexeme}
    (hopen : ∀ l ∈ ls, ∀ t, l ≠ .openComment t ∧ l ≠ .openString t)
    (hne : ∀ l ∈ ls, l ≠ .symbol opener ∧ l ≠ .symbol close) (p : Position) (ts : List Token) :
    Token.balanced? opener close depth (Token.place p ls ++ ts) =
      (Token.balanced? opener close depth ts).map fun (inside, after) =>
        (Token.place p ls ++ inside, after) := by
  induction ls generalizing p with
  | nil => simp [Token.place]
  | cons l ls ih =>
    obtain ⟨ho, hopen⟩ := List.forall_mem_cons.mp hopen
    obtain ⟨hn, hne⟩ := List.forall_mem_cons.mp hne
    have htail := ih hopen hne (p.after l.text)
    rw [Token.place, List.cons_append, Token.balanced?.eq_def]
    cases l with
    | openComment t => exact absurd rfl (ho t).1
    | openString t => exact absurd rfl (ho t).2
    | symbol u =>
      have hopener : u ≠ opener := fun he => hn.1 (by rw [he])
      have hclose : u ≠ close := fun he => hn.2 (by rw [he])
      simp only [if_neg hclose, if_neg hopener]
      rw [htail, Option.map_map]
      rfl
    | _ =>
      simp only
      rw [htail, Option.map_map]
      rfl

theorem lexemes_ne_open {x : Piece} (hx : x.Valid) :
    ∀ l ∈ x.lexemes, ∀ t, l ≠ .openComment t ∧ l ≠ .openString t := by
  intro l hl t
  cases htoken : x.isToken with
  | true =>
    have := isSolid_of_mem_lexemes hx htoken l hl
    cases l <;> simp_all [IsSolid]
  | false =>
    cases x with
    | blank u =>
      obtain rfl := List.mem_singleton.mp hl
      simp
    | comment c =>
      obtain rfl := List.mem_singleton.mp hl
      simp
    | _ => cases htoken

theorem balanced?_tokensOf {opener close : UInt16} (hopener : isDelimiter opener = true)
    (hclose : isDelimiter close = true) {ps : List Piece} (hvalid : ∀ x ∈ ps, x.Valid) (depth : Nat)
    (p : Position) :
    Token.balanced? opener close depth (tokensOf p ps) =
      (balanced? opener close depth ps).map fun (inside, after) =>
        (tokensOf p inside, tokensOf (p.after (source inside ++ [close])) after) := by
  induction ps generalizing p depth with
  | nil => rfl
  | cons x ps ih =>
    obtain ⟨hx, hps⟩ := List.forall_mem_cons.mp hvalid
    by_cases hxc : x = .operator [close]
    · subst hxc
      rw [balanced?.eq_def, tokensOf_cons]
      change Token.balanced? opener close depth
        (⟨.symbol close, p⟩ :: tokensOf (p.after [close]) ps) = _
      rw [Token.balanced?.eq_def]
      simp only [if_true]
      cases depth with
      | zero => rfl
      | succ depth =>
        simp only
        rw [ih hps, Option.map_map, Option.map_map]
        rfl
    · rw [balanced?.eq_def, tokensOf_cons]
      simp only [if_neg hxc]
      by_cases hxo : x = .operator [opener]
      · subst hxo
        have hne : opener ≠ close := fun he => hxc (by rw [he])
        change Token.balanced? opener close depth
          (⟨.symbol opener, p⟩ :: tokensOf (p.after [opener]) ps) = _
        rw [Token.balanced?.eq_def]
        simp only [if_neg hne, if_true]
        rw [ih hps, Option.map_map, Option.map_map]
        rfl
      · have hne : ∀ l ∈ x.lexemes, l ≠ .symbol opener ∧ l ≠ .symbol close := by
          intro l hl
          constructor <;> rintro rfl
          · exact hxo (eq_operator_of_symbol_mem hx hopener hl)
          · exact hxc (eq_operator_of_symbol_mem hx hclose hl)
        rw [balanced?_place (lexemes_ne_open hx) hne, ih hps, if_neg hxo, Option.map_map,
          Option.map_map]
        refine congrArg (Option.map · _) ?_
        funext ⟨inside, after⟩
        simp only [Function.comp_apply]
        simp only [tokensOf_cons, source_cons, Position.after_append]

end Lua

end LuaBundle
