import LuaBundle.Proofs.Bundle.Isolation
import LuaBundle.Proofs.Source.Rebinding
import LuaBundle.Proofs.Source.Site

/-! Calls of `require` with an expression for an argument. Whatever stands in its literals and
comments, the parentheses of an expression match, and the call ends where the expression does. -/

namespace LuaBundle

open Text

namespace Lexeme

/-- The literal that is written for a value. -/
def ofValue (value : Text) : Lexeme := .quoted doubleQuote (value.flatMap Quoted.encodeUnit)

/-- Lexemes without the blanks and comments among them. -/
def code (ls : List Lexeme) : List Lexeme := ls.filter fun l => !l.isGap

theorem code_append (ls more : List Lexeme) : code (ls ++ more) = code ls ++ code more :=
  List.filter_append ls more

theorem code_gap {gap : List Lexeme} (h : ∀ l ∈ gap, l.isGap = true) : code gap = [] :=
  List.filter_eq_nil_iff.mpr fun l hl => by simp [h l hl]

theorem code_cons {l : Lexeme} (h : l.isGap = false) (ls : List Lexeme) :
    code (l :: ls) = l :: code ls :=
  List.filter_cons_of_pos (by simp [h])

end Lexeme

/-- The text of an expression with its lexemes: words, operators, literals, and expressions in
parentheses, with blanks and comments anywhere. Only two words in a row need one between them. -/
inductive Expression : Text → List Lexeme → Prop
  | nil : Expression [] []
  | blank {u : UInt16} {t : Text} {ls : List Lexeme} (hu : isBlank u = true)
    (h : Expression t ls) : Expression (u :: t) (.blank u :: ls)
  | comment {c t : Text} {ls : List Lexeme} (hc : Lexeme.IsComment c) (h : Expression t ls) :
    Expression (c ++ t) (.comment c :: ls)
  | word {w t : Text} {ls : List Lexeme} (hne : w ≠ []) (hall : ∀ u ∈ w, isWordUnit u = true)
    (hnext : Lua.startsWord t = false) (h : Expression t ls) : Expression (w ++ t) (.word w :: ls)
  | operator {u : UInt16} {t : Text} {ls : List Lexeme} (hu : isPlainSymbol u = true)
    (hopen : u ≠ leftParen) (hclose : u ≠ rightParen) (h : Expression t ls) :
    Expression (u :: t) (.symbol u :: ls)
  | literal (value : Text) {t : Text} {ls : List Lexeme} (h : Expression t ls) :
    Expression (Quoted.encode value ++ t) (.ofValue value :: ls)
  | group {s t : Text} {inner ls : List Lexeme} (hinner : Expression s inner)
    (h : Expression t ls) : Expression (leftParen :: (s ++ rightParen :: t))
      (.symbol leftParen :: (inner ++ .symbol rightParen :: ls))

namespace Token

/-- Lexemes that a search for a closing parenthesis passes, at the depth it came with. -/
def IsMatched (ls : List Lexeme) : Prop := ∀ p depth ts,
  balanced? leftParen rightParen depth (place p ls ++ ts) =
    (balanced? leftParen rightParen depth ts).map fun r => (place p ls ++ r.1, r.2)

variable {l : Lexeme} {inner ls : List Lexeme}

theorem IsMatched.nil : IsMatched [] := fun _ _ _ => by simp [place]

theorem IsMatched.cons (h : IsMatched ls) (hopen : l.isOpen = false)
    (hleft : l ≠ .symbol leftParen) (hright : l ≠ .symbol rightParen) : IsMatched (l :: ls) := by
  intro p depth ts
  rw [place, List.cons_append, balanced?_inside hopen hright, if_neg hleft, h, Option.map_map]
  rfl

/-- The parentheses around matched lexemes lead one level down and back. -/
theorem IsMatched.group (hinner : IsMatched inner) (h : IsMatched ls) :
    IsMatched (.symbol leftParen :: (inner ++ .symbol rightParen :: ls)) := by
  intro p depth ts
  have hclose : ∀ q us, balanced? leftParen rightParen (depth + 1)
      (⟨.symbol rightParen, q⟩ :: us) = (balanced? leftParen rightParen depth us).map
        fun r => (⟨.symbol rightParen, q⟩ :: r.1, r.2) := by
    intro q us
    rw [balanced?.eq_def]
    exact if_pos rfl
  have hne : Lexeme.symbol leftParen ≠ .symbol rightParen := by decide
  rw [place, List.cons_append, balanced?_inside rfl hne, if_pos rfl, place_append,
    List.append_assoc, hinner, place, List.cons_append, hclose, h]
  simp [Option.map_map, Function.comp_def]

theorem IsMatched.closed (h : IsMatched ls) (p q : Position) (ts : List Token) :
    balanced? leftParen rightParen 0 (place p ls ++ ⟨.symbol rightParen, q⟩ :: ts) =
      some (place p ls, ts) := by
  rw [h, balanced?_close, Option.map_some, List.append_nil]

/-- The code of tokens from their next token on. -/
theorem code_map_lexeme {gap : List Token} (hgap : IsGap gap) {x : Token}
    (hx : x.lexeme.isGap = false) (more : List Token) :
    Lexeme.code ((gap ++ x :: more).map (·.lexeme)) =
      x.lexeme :: Lexeme.code (more.map (·.lexeme)) := by
  rw [List.map_append, Lexeme.code_append, Lexeme.code_gap hgap.lexemes, List.map_cons,
    Lexeme.code_cons hx, List.nil_append]

end Token

namespace Expression

open Token (place IsMatched)

variable {t : Text} {ls : List Lexeme}

/-- The lexemes of an expression are read one by one, whatever follows that goes on with no word. -/
theorem lexemes_append (h : Expression t ls) {rest : Text} (hrest : Lua.startsWord rest = false) :
    lexemes (t ++ rest) = ls ++ lexemes rest := by
  induction h generalizing rest with
  | nil => rfl
  | blank hu _ ih => rw [List.cons_append, RequireSite.lexemes_blank hu, ih hrest, List.cons_append]
  | comment hc _ ih => rw [List.append_assoc, lexemes_comment hc, ih hrest, List.cons_append]
  | @word w t ls hne hall hnext _ ih =>
    have hafter : Lua.startsWord (t ++ rest) = false := by
      cases t with
      | nil => exact hrest
      | cons u t => exact hnext
    rw [List.append_assoc, lexemes_word hne hall hafter, ih hrest, List.cons_append]
  | operator hu _ _ _ ih =>
    rw [List.cons_append, lexemes_plainSymbol hu, ih hrest, List.cons_append]
  | literal value _ ih =>
    rw [List.append_assoc, Bundle.apart_encode, ih hrest]
    rfl
  | @group s t inner ls _ _ ihInner ih =>
    have hclose : Lua.startsWord (rightParen :: (t ++ rest)) = false :=
      (by decide : isWordUnit rightParen = false)
    rw [List.cons_append, lexemes_plainSymbol (by decide), List.append_assoc, List.cons_append,
      ihInner hclose, lexemes_plainSymbol (by decide), ih hrest]
    simp

theorem text_eq (h : Expression t ls) : ls.flatMap Lexeme.text = t := by
  have hlexemes := @lexemes_append _ _ h [] rfl
  rw [List.append_nil, RequireSite.lexemes_nil, List.append_nil] at hlexemes
  rw [← hlexemes, lexemes_text]

theorem isMatched (h : Expression t ls) : IsMatched ls := by
  induction h with
  | nil => exact .nil
  | blank _ _ ih => exact ih.cons rfl (by simp) (by simp)
  | comment _ _ ih => exact ih.cons rfl (by simp) (by simp)
  | word _ _ _ _ ih => exact ih.cons rfl (by simp) (by simp)
  | operator _ hopen hclose _ ih => exact ih.cons rfl (by simpa using hopen) (by simpa using hclose)
  | literal _ _ ih => exact ih.cons rfl (by simp [Lexeme.ofValue]) (by simp [Lexeme.ofValue])
  | group _ _ ihInner ih => exact ihInner.group ih

/-- The string literals of an expression are written for values. -/
theorem eq_ofValue (h : Expression t ls) {l : Lexeme} (hl : l ∈ ls)
    (hliteral : (RequireSite.literal? l).isSome) : ∃ value, l = .ofValue value := by
  induction h with
  | nil => cases hl
  | literal value _ ih =>
    rcases List.mem_cons.mp hl with rfl | hl
    · exact ⟨value, rfl⟩
    · exact ih hl
  | group _ _ ihInner ih =>
    simp only [List.mem_cons, List.mem_append] at hl
    rcases hl with rfl | hl | rfl | hl
    · cases hliteral
    · exact ihInner hl
    · cases hliteral
    · exact ih hl
  | _ =>
    rename_i ih
    rcases List.mem_cons.mp hl with rfl | hl
    · cases hliteral
    · exact ih hl

end Expression

namespace RequireSite

open Token (place balanced? significant? IsGap)
open Lexeme (code)

variable {position : Position} {protectedCall : Bool} {t : Text} {ls : List Lexeme}

/-- A next token that is no parenthesis stands among those up to the closing one. -/
theorem inside_of_significant? {ts rest inside after : List Token} {x : Token}
    (hts : significant? ts = some (x :: rest)) (hgap : x.lexeme.isGap = false)
    (hopen : x.lexeme.isOpen = false) (hleft : x.lexeme ≠ .symbol leftParen)
    (hright : x.lexeme ≠ .symbol rightParen)
    (hinside : balanced? leftParen rightParen 0 ts = some (inside, after)) :
    ∃ more, code (inside.map (·.lexeme)) = x.lexeme :: code (more.map (·.lexeme)) ∧
      x ∈ inside ∧ balanced? leftParen rightParen 0 rest = some (more, after) := by
  obtain ⟨gap, hgaps, rfl, _⟩ := Token.significant?_eq_some hts
  rw [Token.balanced?_append hgaps, Token.balanced?_inside hopen hright, if_neg hleft,
    Option.map_map] at hinside
  obtain ⟨⟨more, _⟩, hrest, he⟩ := Option.map_eq_some_iff.mp hinside
  obtain ⟨rfl, rfl⟩ := Prod.mk.inj he
  exact ⟨more, Token.code_map_lexeme hgaps hgap more, by simp, hrest⟩

theorem code_of_closed {ts rest inside after : List Token} {q : Position}
    (hts : significant? ts = some (⟨.symbol rightParen, q⟩ :: rest))
    (hinside : balanced? leftParen rightParen 0 ts = some (inside, after)) :
    code (inside.map (·.lexeme)) = [] := by
  obtain ⟨gap, hgap, rfl, _⟩ := Token.significant?_eq_some hts
  rw [Token.balanced?_append hgap, Token.balanced?_close] at hinside
  obtain ⟨rfl, _⟩ := Prod.mk.inj (Option.some.inj hinside)
  rw [List.append_nil]
  exact Lexeme.code_gap hgap.lexemes

/-- A literal that comes next in parentheses is the first lexeme of their code. -/
theorem code_of_literal (h : Expression t ls) {p : Position} {us rest after : List Token}
    {x : Token} (hclosed : balanced? leftParen rightParen 0 us = some (place p ls, after))
    (hts : significant? us = some (x :: rest)) (hx : (literal? x.lexeme).isSome) :
    ∃ value more, code ls = .ofValue value :: code (more.map (·.lexeme)) ∧
      balanced? leftParen rightParen 0 rest = some (more, after) := by
  obtain ⟨hgap, hopen, hsymbol⟩ : x.lexeme.isGap = false ∧ x.lexeme.isOpen = false ∧
      ∀ u, x.lexeme ≠ .symbol u := by
    rcases eq_quoted_or_bracketed hx with ⟨_, _, he⟩ | ⟨_, _, he⟩ <;>
      exact ⟨by rw [he]; rfl, by rw [he]; rfl, by simp [he]⟩
  obtain ⟨more, hcode, hmem, hrest⟩ :=
    inside_of_significant? hts hgap hopen (hsymbol _) (hsymbol _) hclosed
  obtain ⟨value, he⟩ := h.eq_ofValue (Token.mem_lexemes_of_mem_place hmem) hx
  rw [Token.map_lexeme_place, he] at hcode
  exact ⟨value, more, hcode, hrest⟩

/-- An expression in parentheses is computed as a whole, unless it is one literal or, where `pcall`
passes it on, starts with a literal and a comma. -/
theorem readArguments_expression (h : Expression t ls)
    (hlone : ∀ value, code ls ≠ [.ofValue value])
    (hfirst : protectedCall = true →
      ∀ value more, code ls ≠ .ofValue value :: .symbol comma :: more)
    (p q : Position) (ts : List Token) :
    readArguments position protectedCall (place p ls ++ ⟨.symbol rightParen, q⟩ :: ts) =
      ⟨some (computed position t), some ts⟩ := by
  have hclosed := h.isMatched.closed p q ts
  have hcomputed : readComputed position (place p ls ++ ⟨.symbol rightParen, q⟩ :: ts) =
      ⟨some (computed position t), some ts⟩ := by
    rw [readComputed, hclosed]
    simp only [Token.source_place, h.text_eq]
  generalize place p ls ++ ⟨.symbol rightParen, q⟩ :: ts = us at hclosed hcomputed ⊢
  have hread := argumentsRead position protectedCall us
  generalize readArguments position protectedCall us = use at hread ⊢
  -- The parenthesis is closed, so that only a literal could be read for the argument.
  cases hread with
  | unread hts =>
    rw [balanced?_eq_none_of_unread hts] at hclosed
    cases hclosed
  | openString hts =>
    obtain ⟨gap, hgap, rfl, _⟩ := Token.significant?_eq_some hts
    rw [Token.balanced?_append hgap] at hclosed
    cases hclosed
  | literal hts hx hrest =>
    obtain ⟨value, more, hcode, hmore⟩ :=
      code_of_literal h hclosed hts (Option.isSome_of_eq_some hx)
    rw [code_of_closed hrest hmore] at hcode
    exact absurd hcode (hlone value)
  | first hts hx hrest hprotected =>
    obtain ⟨value, more, hcode, hmore⟩ :=
      code_of_literal h hclosed hts (Option.isSome_of_eq_some hx)
    have hplain : Lexeme.symbol comma ≠ .symbol leftParen ∧
        Lexeme.symbol comma ≠ .symbol rightParen := by decide
    obtain ⟨_, hcomma, _⟩ := inside_of_significant? hrest rfl rfl hplain.1 hplain.2 hmore
    rw [hcomma] at hcode
    exact absurd hcode (hfirst hprotected value _)
  | computed => exact hcomputed

theorem lexemes_close (h : Expression t ls) :
    lexemes (t ++ [rightParen]) = ls ++ [.symbol rightParen] := by
  rw [h.lexemes_append (by decide), lexemes_plainSymbol (by decide), lexemes_nil]

/-- A use that is all there is. -/
theorem scanTokens_lone {w : Text} {p : Position} {ts : List Token} {site : RequireSite}
    (hu : use? .empty w p ts = some ⟨some site, some []⟩) :
    scanTokens .empty (⟨.word w, p⟩ :: ts) = [site] := by
  have hkeeps : keepsName .empty site = false := Bool.and_false _
  rw [scanTokens_use hu, filter_keepsName, Option.elim_some, made, hkeeps, scanTokens]
  rfl

theorem scan_call (h : Expression t ls) (hlone : ∀ value, code ls ≠ [.ofValue value]) :
    scan ("require(" ++ t ++ ")") = [computed ⟨1, 1⟩ t] := by
  have htext : "require(" ++ t ++ ")" = ("require" ++ leftParen :: (t ++ [rightParen]) : Text) := by
    have hcall : ofString "require(" = "require" ++ [leftParen] := by decide
    rw [hcall, List.append_assoc, List.append_assoc]
    rfl
  have hread : ∀ p, readCall .start (place p (lexemes (leftParen :: (t ++ [rightParen])))) =
      ⟨some (computed ⟨1, 1⟩ t), some []⟩ := by
    intro p
    rw [lexemes_plainSymbol (by decide), lexemes_close h, place, readCall_symbol rfl, if_pos rfl,
      Token.place_append]
    exact readArguments_expression h hlone (by simp) _ _ _
  rw [htext, scan_eq (by exact (by decide : some (unit 'r') ≠ some hash)),
    Bundle.sitesFrom_require rfl]
  exact scanTokens_lone ((if_pos ⟨rfl, rfl⟩).trans (congrArg some (hread _)))

theorem scan_protectedCall (h : Expression t ls) (hlone : ∀ value, code ls ≠ [.ofValue value])
    (hfirst : ∀ value more, code ls ≠ .ofValue value :: .symbol comma :: more) :
    scan ("pcall(require," ++ t ++ ")") = [computed ⟨1, 7⟩ t] := by
  have htext : "pcall(require," ++ t ++ ")" =
      ("pcall" ++ leftParen :: ("require" ++ comma :: (t ++ [rightParen])) : Text) := by
    have hcall : ofString "pcall(require," = "pcall" ++ leftParen :: ("require" ++ [comma]) := by
      decide
    rw [hcall]
    simp only [List.append_assoc, List.cons_append]
    rfl
  have hlexemes : lexemes ("pcall" ++ leftParen :: ("require" ++ comma :: (t ++ [rightParen]))) =
      .word "pcall" :: .symbol leftParen :: .word "require" :: .symbol comma ::
        (ls ++ [.symbol rightParen]) := by
    rw [lexemes_word (by decide) (List.all_eq_true.mp (by decide)) rfl,
      lexemes_plainSymbol (by decide),
      lexemes_word (by decide) (List.all_eq_true.mp (by decide)) rfl,
      lexemes_plainSymbol (by decide), lexemes_close h]
  have hread : ∀ p, readArguments ⟨1, 7⟩ true (place p (ls ++ [.symbol rightParen])) =
      ⟨some (computed ⟨1, 7⟩ t), some []⟩ := by
    intro p
    rw [Token.place_append]
    exact readArguments_expression h hlone (fun _ => hfirst) _ _ _
  rw [htext, scan_eq (by exact (by decide : some (unit 'p') ≠ some hash)), sitesFrom, hlexemes]
  refine scanTokens_lone (((if_neg (by decide)).trans (if_pos rfl)).trans ?_)
  exact (readProtected?_eq rfl rfl rfl).trans (congrArg some (hread _))

/-- A call of `require` with an expression, by itself or through `pcall`, is one computed site with
the text of the expression, in which every run of blanks is one space. Only a literal by itself
names a module, and in a protected call a literal with more arguments after it. -/
theorem scan_expression (h : Expression t ls) (hlone : ∀ value, code ls ≠ [.ofValue value]) :
    scan ("require(" ++ t ++ ")") = [⟨none, trim (collapseBlanks t), ⟨1, 1⟩⟩] ∧
      ((∀ value more, code ls ≠ .ofValue value :: .symbol comma :: more) →
        scan ("pcall(require," ++ t ++ ")") = [⟨none, trim (collapseBlanks t), ⟨1, 7⟩⟩]) :=
  ⟨scan_call h hlone, scan_protectedCall h hlone⟩

/-- A literal and a comment with parentheses of their own, the comment inside a nested call. -/
theorem scan_nested_expression : ∃ ls, Expression "\"p(\" .. f( x --)\n)" ls ∧
    (∀ value, code ls ≠ [.ofValue value]) ∧
    (∀ value more, code ls ≠ .ofValue value :: .symbol comma :: more) ∧
    scan ("require(" ++ ("\"p(\" .. f( x --)\n)" : Text) ++ ")") =
      [⟨none, "\"p(\" .. f( x --) )", ⟨1, 1⟩⟩] ∧
    scan ("pcall(require," ++ ("\"p(\" .. f( x --)\n)" : Text) ++ ")") =
      [⟨none, "\"p(\" .. f( x --) )", ⟨1, 7⟩⟩] := by
  have hcomment : Lexeme.IsComment "--)\n" :=
    @Lexeme.IsComment.line ")" ⟨by decide, Lexeme.openingLevel?_eq_none_iff.mp (by decide)⟩
  have hspace : isBlank space = true := by decide
  have hdot : isPlainSymbol dot = true ∧ dot ≠ leftParen ∧ dot ≠ rightParen := by decide
  have hword : ∀ u ∈ ("x" : Text), isWordUnit u = true := List.all_eq_true.mp (by decide)
  have hname : ∀ u ∈ ("f" : Text), isWordUnit u = true := List.all_eq_true.mp (by decide)
  have hinner := Expression.blank hspace <| .word (by decide) hword rfl <| .blank hspace <|
    .comment hcomment .nil
  have hparts := Expression.literal "p(" <| .blank hspace <| .operator hdot.1 hdot.2.1 hdot.2.2 <|
    .operator hdot.1 hdot.2.1 hdot.2.2 <| .blank hspace <| .word (by decide) hname rfl <|
    .group hinner .nil
  obtain ⟨ls, h, more, hcode⟩ : ∃ ls, Expression "\"p(\" .. f( x --)\n)" ls ∧
      ∃ more, code ls = .ofValue "p(" :: .symbol dot :: more :=
    ⟨_, Eq.subst (motive := fun s => Expression s _) (by decide) hparts, _, rfl⟩
  have hlone : ∀ value, code ls ≠ [.ofValue value] := by simp [hcode]
  have hfirst : ∀ value more, code ls ≠ .ofValue value :: .symbol comma :: more := by
    rw [hcode]
    intro value more he
    exact absurd (Lexeme.symbol.inj (List.cons.inj (List.cons.inj he).2).1) (by decide)
  obtain ⟨hcall, hprotected⟩ := scan_expression h hlone
  exact ⟨ls, h, hlone, hfirst, hcall, hprotected hfirst⟩

end RequireSite

end LuaBundle
