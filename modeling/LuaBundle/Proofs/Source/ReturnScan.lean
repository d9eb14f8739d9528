import LuaBundle.Proofs.Source.Embedding
import LuaBundle.Proofs.Source.Returns
import LuaBundle.Proofs.Source.Site

/-! A scan of a source whose lines end in a carriage return and a line feed. It reads the tokens of
the source with line feeds alone, use by use, and finds the same sites; only the names and arguments
of literals have the carriage returns that stand in them. -/

namespace LuaBundle

open Text

namespace Lexeme

theorem eq_symbol_of_withReturns {l : Lexeme} {u : UInt16} (h : l.withReturns = symbol u) :
    l = symbol u := by
  cases l <;> first | exact h | cases h

theorem eq_word_of_withReturns {l : Lexeme} {w : Text} (h : l.withReturns = word w) :
    l = word w := by
  cases l <;> first | exact h | cases h

theorem exists_openString_of_withReturns {l : Lexeme} {s : Text}
    (h : l.withReturns = openString s) : ∃ s, l = openString s := by
  cases l <;> first | exact ⟨_, rfl⟩ | cases h

theorem opensCall_withReturns (l : Lexeme) : l.withReturns.opensCall = l.opensCall := by
  cases l <;> rfl

end Lexeme

namespace Token

/-- The tokens with carriage returns in their texts. -/
def withReturns (ts : List Token) : List Token :=
  ts.flatMap fun x => place x.position x.lexeme.returned

/-- Tokens whose lexemes are without carriage returns of their own. -/
def AllReturn (ts : List Token) : Prop := ∀ x ∈ ts, x.lexeme.Returns

variable {ts us : List Token}

theorem AllReturn.of_suffix (h : AllReturn ts) (hsuffix : us <:+ ts) : AllReturn us :=
  fun x hx => h x (hsuffix.subset hx)

theorem AllReturn.next {x : Token} {rest : List Token} (h : AllReturn ts)
    (hts : significant? ts = some (x :: rest)) : x.lexeme.Returns ∧ AllReturn rest := by
  have hsuffix := suffix_of_significant? hts
  exact ⟨h x (hsuffix.subset List.mem_cons_self),
    h.of_suffix ((List.suffix_cons x rest).trans hsuffix)⟩

theorem withReturns_token {x : Token} (h : x.lexeme ≠ .blank lineFeed) (ts : List Token) :
    withReturns (x :: ts) = ⟨x.lexeme.withReturns, x.position⟩ :: withReturns ts := by
  rw [withReturns, List.flatMap_cons, Lexeme.returned_eq h]
  rfl

theorem isGap_returned {l : Lexeme} (h : l.isGap = true) (p : Position) :
    IsGap (place p l.returned) := by
  intro x hx
  have hmem := mem_lexemes_of_mem_place hx
  cases l with
  | blank u =>
    obtain ⟨v, _, he⟩ := List.mem_map.mp hmem
    rw [← he]
    rfl
  | comment c =>
    rw [List.mem_singleton.mp hmem]
    rfl
  | _ => cases h

theorem place_withReturns {ls : List Lexeme} (h : ∀ l ∈ ls, l.Returns) (p : Position) :
    place p (ls.flatMap Lexeme.returned) = withReturns (place p ls) := by
  induction ls generalizing p with
  | nil => rfl
  | cons l ls ih =>
    obtain ⟨hl, hls⟩ := List.forall_mem_cons.mp h
    rw [List.flatMap_cons, place_append, hl.2, Position.after_withReturns, ih hls]
    rfl

theorem source_withReturns (h : AllReturn ts) :
    source (withReturns ts) = Text.withReturns (source ts) := by
  induction ts with
  | nil => rfl
  | cons x ts ih =>
    obtain ⟨hx, hts⟩ := List.forall_mem_cons.mp h
    have hplace := source_place x.position x.lexeme.returned
    rw [hx.2] at hplace
    exact (source_append _ _).trans
      (((congrArg₂ _ hplace (ih hts))).trans (withReturns_append _ _).symm)

theorem restOfLine_withReturns (h : AllReturn ts) :
    restOfLine (withReturns ts) = restOfLine ts := by
  rw [restOfLine, source_withReturns h]
  exact trim_firstLine_withReturns _

/-- The next token is the same, with carriage returns. -/
theorem significant?_withReturns (ts : List Token) :
    significant? (withReturns ts) = (significant? ts).map withReturns := by
  induction ts with
  | nil => rfl
  | cons x ts ih =>
    by_cases hgap : x.lexeme.isGap = true
    · rw [significant?_gap hgap, ← ih]
      exact significant?_append (isGap_returned hgap _) _
    · have hne : x.lexeme ≠ .blank lineFeed := fun he => hgap (by rw [he]; rfl)
      rw [withReturns_token hne]
      obtain ⟨l, p⟩ := x
      cases l with
      | blank u => exact absurd rfl hgap
      | comment c => exact absurd rfl hgap
      | openComment s => rfl
      | _ => exact congrArg some (withReturns_token hne ts).symm

/-- A bracket is closed at the same token. -/
theorem balanced?_withReturns {opener close : UInt16} (depth : Nat) (ts : List Token) :
    balanced? opener close depth (withReturns ts) = (balanced? opener close depth ts).map
      fun (inside, after) => (withReturns inside, withReturns after) := by
  induction ts generalizing depth with
  | nil => rfl
  | cons x ts ih =>
    by_cases hgap : x.lexeme.isGap = true
    -- A gap may become two blanks, which a search for a bracket passes all the same.
    · have hone : balanced? opener close depth (x :: ts) =
          (balanced? opener close depth ts).map fun (inside, after) => (x :: inside, after) :=
        @balanced?_append _ _ _ [x] (by simpa [IsGap] using hgap) ts
      have hgaps : balanced? opener close depth (withReturns (x :: ts)) = _ :=
        balanced?_append (isGap_returned hgap x.position) (withReturns ts)
      rw [hgaps, hone, ih, Option.map_map, Option.map_map]
      rfl
    · have hne : x.lexeme ≠ .blank lineFeed := fun he => hgap (by rw [he]; rfl)
      have hcons := fun inside => (withReturns_token hne inside).symm
      rw [withReturns_token hne]
      obtain ⟨l, p⟩ := x
      cases l with
      | blank u => exact absurd rfl hgap
      | comment c => exact absurd rfl hgap
      | openComment s => rfl
      | openString s => rfl
      | symbol u =>
        have hlexeme : (Lexeme.symbol u).withReturns = .symbol u := rfl
        simp only [hlexeme] at hcons ⊢
        rw [balanced?.eq_def, balanced?.eq_def]
        simp only [ih]
        split
        · cases depth with
          | zero => rfl
          | succ depth => simp [Option.map_map, Function.comp_def, hcons]
        · simp [Option.map_map, Function.comp_def, hcons]
      | _ =>
        rw [balanced?.eq_def, balanced?.eq_def]
        simp only [Lexeme.withReturns] at hcons ⊢
        simp [ih, Option.map_map, Function.comp_def, hcons]

/-- The next token, in both sources. -/
theorem significant?_withReturns_cons {x : Token} {rest : List Token}
    (h : significant? ts = some (x :: rest)) : significant? (withReturns ts) =
      some (⟨x.lexeme.withReturns, x.position⟩ :: withReturns rest) := by
  have hne : x.lexeme ≠ .blank lineFeed := by
    obtain ⟨_, _, _, hself⟩ := significant?_eq_some h
    intro he
    have hgap : x.lexeme.isGap = true := by rw [he]; rfl
    rw [significant?_gap hgap] at hself
    exact absurd (length_significant? hself) (by simp)
  rw [significant?_withReturns, h, Option.map_some, withReturns_token hne]

theorem exists_of_significant?_withReturns {x' : Token} {rest' : List Token}
    (h : significant? (withReturns ts) = some (x' :: rest')) :
    ∃ x rest, significant? ts = some (x :: rest) ∧
      x' = ⟨x.lexeme.withReturns, x.position⟩ ∧ rest' = withReturns rest := by
  cases hts : significant? ts with
  | none =>
    rw [significant?_withReturns, hts] at h
    cases h
  | some us =>
    cases us with
    | nil =>
      rw [significant?_withReturns, hts] at h
      cases h
    | cons x rest =>
      rw [significant?_withReturns_cons hts] at h
      obtain ⟨rfl, rfl⟩ := List.cons.inj (Option.some.inj h)
      exact ⟨x, rest, rfl, rfl, rfl⟩

/-- A next token in which no carriage return is put is the next one in both sources. -/
theorem significant?_of_withReturns {l : Lexeme} (hl : ∀ {l' : Lexeme}, l'.withReturns = l → l' = l)
    {q : Position} {rest' : List Token}
    (h : significant? (withReturns ts) = some (⟨l, q⟩ :: rest')) :
    ∃ rest, significant? ts = some (⟨l, q⟩ :: rest) ∧ rest' = withReturns rest := by
  obtain ⟨⟨l', r⟩, rest, hx, he, hrest⟩ := exists_of_significant?_withReturns h
  obtain ⟨hlexeme, rfl⟩ := Token.mk.inj he
  obtain rfl := hl hlexeme.symm
  exact ⟨rest, hx, hrest⟩

/-- An open string goes on to the same end of its line. -/
theorem restOfLine_withReturns_openString (h : AllReturn ts) {s : Text} {q : Position}
    {rest : List Token} (hts : significant? ts = some (⟨.openString s, q⟩ :: rest)) :
    restOfLine (⟨.openString (Text.withReturns s), q⟩ :: withReturns rest) =
      restOfLine (⟨.openString s, q⟩ :: rest) :=
  restOfLine_withReturns (h.of_suffix (suffix_of_significant? hts))

end Token

namespace RequireSite

open Token (significant? balanced? restOfLine source AllReturn significant?_of_withReturns)
open Lexeme (withReturns eq_symbol_of_withReturns eq_word_of_withReturns)

theorem dropLeadingBreak_withReturns {t : Text} (h : carriageReturn ∉ t) :
    literal?.dropLeadingBreak (Text.withReturns t) =
      Text.withReturns (literal?.dropLeadingBreak t) := by
  cases t with
  | nil => rfl
  | cons u t =>
    rw [List.mem_cons, not_or] at h
    by_cases hu : u = lineFeed
    · subst hu
      have hfeed : literal?.dropLeadingBreak (lineFeed :: t) = Escape.afterBreak lineFeed t := rfl
      rw [hfeed, Escape.afterBreak_lineFeed h.2]
      rfl
    · have hbreak := Escape.isBreak_eq_false hu (Ne.symm h.1)
      rw [withReturns_cons hu, literal?.dropLeadingBreak, literal?.dropLeadingBreak, hbreak,
        if_neg Bool.false_ne_true, if_neg Bool.false_ne_true, withReturns_cons hu]

theorem isSome_literal?_withReturns (l : Lexeme) :
    (literal? l.withReturns).isSome = (literal? l).isSome := by
  cases l <;> rfl

/-- A literal stands for the same text, up to carriage returns. -/
theorem literal?_withReturns {l : Lexeme} {name raw : Text} (hl : l.Returns)
    (h : literal? l = some (name, raw)) :
    ∃ name' raw', literal? l.withReturns = some (name', raw') ∧
      withoutReturns name' = withoutReturns name ∧ withoutReturns raw' = withoutReturns raw := by
  have hraw : ∀ {l' : Lexeme}, l' = l → l' ≠ .blank lineFeed →
      withoutReturns l'.withReturns.text = withoutReturns l'.text := by
    rintro _ rfl hne
    have htext := hl.2
    rw [Lexeme.returned_eq hne, List.flatMap_singleton] at htext
    rw [htext, withoutReturns_withReturns]
  have hbody : ∀ u ∈ l.text, u ≠ carriageReturn := fun u hu he => hl.1 (he ▸ hu)
  cases l with
  | quoted q body =>
    obtain ⟨rfl, rfl⟩ := Prod.mk.inj (Option.some.inj h)
    refine ⟨_, _, rfl, Escape.decode_withReturns fun hmem => ?_, hraw rfl (by simp)⟩
    exact hbody _ (by simp [Lexeme.text, hmem]) rfl
  | bracketed level body =>
    obtain ⟨rfl, rfl⟩ := Prod.mk.inj (Option.some.inj h)
    have hclean : carriageReturn ∉ body := fun hmem =>
      hbody _ (by simp [Lexeme.text, hmem]) rfl
    refine ⟨_, _, rfl, ?_, hraw rfl (by simp)⟩
    rw [dropLeadingBreak_withReturns hclean, withoutReturns_withReturns]
  | _ => cases h

/-- A site that is the same, or a literal one whose texts are the same up to carriage returns. -/
inductive UpToReturns : RequireSite → RequireSite → Prop
  | same (site : RequireSite) : UpToReturns site site
  | literal {p : Position} {name name' raw raw' : Text}
    (hname : withoutReturns name' = withoutReturns name)
    (hraw : withoutReturns raw' = withoutReturns raw) :
    UpToReturns (.literal p name raw) (.literal p name' raw')

/-- A use that is read the same and leaves the same tokens, with carriage returns. -/
structure ReadSame (use use' : Use) : Prop where
  site : Option.Rel UpToReturns use.site use'.site
  rest : use'.rest = use.rest.map Token.withReturns

theorem computed_withReturns (p : Position) (t : Text) :
    computed p (Text.withReturns t) = computed p t := by
  rw [computed, collapseBlanks_withReturns]
  rfl

section Use

variable {ts : List Token} {p : Position} {protectedCall : Bool}

theorem ReadSame.computed {raw : Text} {rest : Option (List Token)} :
    ReadSame ⟨some (.computed p raw), rest⟩
      ⟨some (.computed p raw), rest.map Token.withReturns⟩ :=
  ⟨.some (.same _), rfl⟩

theorem ReadSame.literal {name name' raw raw' : Text} {after : List Token}
    (hname : withoutReturns name' = withoutReturns name)
    (hraw : withoutReturns raw' = withoutReturns raw) :
    ReadSame ⟨some (.literal p name raw), some after⟩
      ⟨some (.literal p name' raw'), some (Token.withReturns after)⟩ :=
  ⟨.some (.literal hname hraw), rfl⟩

theorem readSame_readComputed (hts : AllReturn ts) :
    ReadSame (readComputed p ts) (readComputed p (Token.withReturns ts)) := by
  unfold readComputed
  rw [Token.balanced?_withReturns, Token.restOfLine_withReturns hts]
  cases hinside : balanced? leftParen rightParen 0 ts with
  | none => exact .computed
  | some found =>
    obtain ⟨inside, after⟩ := found
    obtain ⟨q, rfl, _⟩ := Token.balanced?_eq_some hinside
    have hclean : AllReturn inside := fun x hx => hts x (List.mem_append_left _ hx)
    simp only [Option.map_some, Token.source_withReturns hclean, computed_withReturns]
    exact .computed

/-- Arguments that are read up to their parenthesis are read so with carriage returns. -/
theorem readArguments_withReturns {us : List Token} (hts : significant? ts = some us)
    (hopen : ∀ t ∈ us.head?, ∀ s, t.lexeme ≠ .openString s)
    (hliteral : ∀ x rest, us = x :: rest → (literal? x.lexeme).isSome → ∀ u q after,
      significant? rest = some (⟨.symbol u, q⟩ :: after) →
        u ≠ rightParen ∧ ¬(protectedCall = true ∧ u = comma)) :
    readArguments p protectedCall (Token.withReturns ts) =
      readComputed p (Token.withReturns ts) := by
  refine readArguments_to_close ?_ ?_ ?_
  · rw [Token.significant?_withReturns, hts]
    rfl
  · intro s q rest' hfirst
    obtain ⟨x, rest, hx, he, _⟩ := Token.exists_of_significant?_withReturns hfirst
    obtain ⟨s', hs⟩ := Lexeme.exists_openString_of_withReturns (congrArg Token.lexeme he).symm
    obtain rfl := Option.some.inj (hts.symm.trans hx)
    exact hopen x rfl s' hs
  · -- A symbol after a literal is one of `ts`, where it neither closes nor goes on with the call.
    intro x' rest' u q after' hfirst hsome hafter'
    obtain ⟨x, rest, hx, rfl, rfl⟩ := Token.exists_of_significant?_withReturns hfirst
    obtain ⟨after, hafter, _⟩ := significant?_of_withReturns eq_symbol_of_withReturns hafter'
    rw [isSome_literal?_withReturns] at hsome
    exact hliteral x rest (Option.some.inj (hts.symm.trans hx)) hsome u q after hafter

theorem readSame_readArguments (hts : AllReturn ts) :
    ReadSame (readArguments p protectedCall ts)
      (readArguments p protectedCall (Token.withReturns ts)) := by
  have hread := argumentsRead p protectedCall ts
  generalize readArguments p protectedCall ts = use at hread ⊢
  cases hread with
  | unread hnone =>
    rw [readArguments, Token.significant?_withReturns, hnone, Option.map_none]
    simp only [Token.restOfLine_withReturns hts]
    exact .computed
  | @openString s q rest hnext =>
    rw [← Token.restOfLine_withReturns_openString hts hnext, readArguments,
      Token.significant?_withReturns_cons hnext]
    exact .computed
  | literal hnext hx hclose =>
    obtain ⟨hl, -⟩ := hts.next hnext
    obtain ⟨name', raw', hx', hname, hraw⟩ := literal?_withReturns hl hx
    rw [readArguments_of_literal (Token.significant?_withReturns_cons hnext) rfl hx',
      Token.significant?_withReturns_cons hclose]
    exact .literal hname hraw
  | first hnext hx hcomma hprotected =>
    obtain ⟨hl, -⟩ := hts.next hnext
    obtain ⟨name', raw', hx', hname, hraw⟩ := literal?_withReturns hl hx
    rw [readArguments_of_literal (Token.significant?_withReturns_cons hnext) rfl hx',
      Token.significant?_withReturns_cons hcomma, hprotected]
    exact .literal hname hraw
  | computed hnext hopen hliteral =>
    rw [readArguments_withReturns hnext hopen hliteral]
    exact readSame_readComputed hts

theorem isAssigned_withReturns (hts : AllReturn ts) :
    IsAssigned (Token.withReturns ts) ↔ IsAssigned ts := by
  have hhead : ∀ {rest : List Token}, AllReturn rest →
      ((source (Token.withReturns rest)).head? = some equals ↔
        (source rest).head? = some equals) := by
    intro rest hrest
    rw [Token.source_withReturns hrest]
    exact head?_withReturns (by decide) (by decide) _
  constructor
  · rintro ⟨q, rest', hnext, hne⟩
    obtain ⟨rest, hx, rfl⟩ := significant?_of_withReturns eq_symbol_of_withReturns hnext
    exact ⟨q, rest, hx, mt (hhead (hts.next hx).2).mpr hne⟩
  · rintro ⟨q, rest, hnext, hne⟩
    exact ⟨q, _, Token.significant?_withReturns_cons hnext,
      mt (hhead (hts.next hnext).2).mp hne⟩

theorem readSame_readCall (hts : AllReturn ts) :
    ReadSame (readCall p ts) (readCall p (Token.withReturns ts)) := by
  have hread := callRead p ts
  generalize readCall p ts = use at hread ⊢
  cases hread with
  | unread hnone =>
    rw [readCall, Token.significant?_withReturns, hnone]
    exact .computed
  | @openString s q rest hnext =>
    rw [← Token.restOfLine_withReturns_openString hts hnext, readCall,
      Token.significant?_withReturns_cons hnext]
    exact .computed
  | assigned hassigned =>
    obtain ⟨q, rest, hnext, hne⟩ := (isAssigned_withReturns hts).mpr hassigned
    rw [readCall_symbol hnext, if_neg (by decide), if_neg (by decide), if_pos ⟨rfl, hne⟩]
    exact ⟨.none, rfl⟩
  | @bare us hnext hcall hassigned =>
    have hnot := mt (isAssigned_withReturns hts).mp hassigned
    have hcall' : ∀ t ∈ (Token.withReturns us).head?, t.lexeme.opensCall = false := by
      cases us with
      | nil => simp [Token.withReturns]
      | cons x rest =>
        have hsame := Token.significant?_withReturns ts
        rw [hnext, Token.significant?_withReturns_cons hnext] at hsame
        rw [← Option.some.inj hsame]
        intro t ht
        obtain rfl := Option.some.inj ht
        exact (Lexeme.opensCall_withReturns _).trans (hcall x rfl)
    rw [readCall_bare (by rw [Token.significant?_withReturns, hnext]; rfl) hcall' hnot]
    exact .computed
  | arguments hnext =>
    rw [readCall_symbol (Token.significant?_withReturns_cons hnext), if_pos rfl]
    exact readSame_readArguments (hts.next hnext).2
  | @table q rest inside after hnext hinside =>
    have hrest := (hts.next hnext).2
    obtain ⟨r, rfl, _⟩ := Token.balanced?_eq_some hinside
    have hclean : AllReturn inside := fun x hx => hrest x (List.mem_append_left _ hx)
    have htable : leftBrace :: Text.withReturns (source inside) ++ [rightBrace] =
        Text.withReturns (leftBrace :: source inside ++ [rightBrace]) := by
      rw [withReturns_append]
      rfl
    rw [readCall_symbol (Token.significant?_withReturns_cons hnext), if_neg (by decide), if_pos rfl,
      Token.balanced?_withReturns, hinside]
    simp only [Option.map_some, Token.source_withReturns hclean, htable, computed_withReturns]
    exact .computed
  | @openTable q rest hnext hinside =>
    have hclean := hts.of_suffix (Token.suffix_of_significant? hnext)
    have htable : source (⟨.symbol leftBrace, q⟩ :: Token.withReturns rest) =
        Text.withReturns (source (⟨.symbol leftBrace, q⟩ :: rest)) :=
      Token.source_withReturns hclean
    rw [readCall_symbol (Token.significant?_withReturns_cons hnext), if_neg (by decide), if_pos rfl,
      Token.balanced?_withReturns, hinside]
    simp only [Option.map_none, htable, computed_withReturns]
    exact .computed
  | literal hnext hx =>
    obtain ⟨hl, -⟩ := hts.next hnext
    obtain ⟨name', raw', hx', hname, hraw⟩ := literal?_withReturns hl hx
    rw [readCall_literal (Token.significant?_withReturns_cons hnext) hx']
    exact .literal hname hraw

theorem readSame_readProtected? (hts : AllReturn ts) :
    Option.Rel ReadSame (readProtected? ts) (readProtected? (Token.withReturns ts)) := by
  cases hu : readProtected? ts with
  | some use =>
    obtain ⟨_, _, _, parens, names, commas, hparens, hnames, hcommas, rfl⟩ :=
      readProtected?_eq_some hu
    have hclean := ((hts.next hparens).2.next hnames).2.next hcommas
    rw [readProtected?_eq (Token.significant?_withReturns_cons hparens)
      (Token.significant?_withReturns_cons hnames) (Token.significant?_withReturns_cons hcommas)]
    exact .some (readSame_readArguments hclean.2)
  | none =>
    rw [readProtected?_eq_none]
    · exact .none
    intro q parens' position names' r commas' hparens' hnames' hcommas'
    obtain ⟨parens, hparens, rfl⟩ := significant?_of_withReturns eq_symbol_of_withReturns hparens'
    obtain ⟨names, hnames, rfl⟩ := significant?_of_withReturns eq_word_of_withReturns hnames'
    obtain ⟨commas, hcommas, rfl⟩ := significant?_of_withReturns eq_symbol_of_withReturns hcommas'
    rw [readProtected?_eq hparens hnames hcommas] at hu
    cases hu

theorem readSame_use? {h : History} {w : Text} (hts : AllReturn ts) :
    Option.Rel ReadSame (use? h w p ts) (use? h w p (Token.withReturns ts)) := by
  rw [use?, use?]
  split
  · exact .some (readSame_readCall hts)
  · split
    · exact readSame_readProtected? hts
    · exact .none

end Use

/-- A site is dropped in both sources or in none. -/
theorem UpToReturns.made {site site' : RequireSite} (hs : UpToReturns site site') (h : History) :
    List.Forall₂ UpToReturns (made h site) (made h site') := by
  have hkeeps : keepsName h site' = keepsName h site := by cases hs <;> rfl
  rw [RequireSite.made, RequireSite.made, hkeeps]
  split
  · exact .nil
  · exact .cons hs .nil

theorem ReadSame.made {use use' : Use} (hu : ReadSame use use') (h : History) (w : Text) :
    List.Forall₂ UpToReturns (use.site.elim [] (RequireSite.made h))
        (use'.site.elim [] (RequireSite.made h)) ∧ markOf w use' = markOf w use := by
  obtain ⟨site, rest⟩ := use
  obtain ⟨site', rest'⟩ := use'
  cases hu.site with
  | none => exact ⟨.nil, rfl⟩
  | some hs => exact ⟨hs.made h, rfl⟩

theorem mark?_withReturns (l : Lexeme) : mark? l.withReturns = mark? l := by
  cases l <;> rfl

theorem isOpen_withReturns (l : Lexeme) : l.withReturns.isOpen = l.isOpen := by
  cases l <;> rfl

section Scan

variable {h h' : History} {x : Token} {ts ts' : List Token} {sites : List RequireSite} {w : Text}
  {p : Position}

theorem use?_withReturns_eq_none (hts : AllReturn ts) (hu : use? h w p ts = none) :
    use? h w p (Token.withReturns ts) = none := by
  have hread := @readSame_use? ts p h w hts
  rw [hu] at hread
  generalize use? h w p (Token.withReturns ts) = found at hread ⊢
  cases hread
  rfl

theorem exists_use?_withReturns {site : Option RequireSite} {rest : Option (List Token)}
    (hts : AllReturn ts) (hu : use? h w p ts = some ⟨site, rest⟩) :
    ∃ site', use? h w p (Token.withReturns ts) = some ⟨site', rest.map Token.withReturns⟩ ∧
      List.Forall₂ UpToReturns (site.elim [] (made h)) (site'.elim [] (made h)) ∧
      markOf w ⟨site', rest.map Token.withReturns⟩ = markOf w ⟨site, rest⟩ := by
  have hread := @readSame_use? ts p h w hts
  rw [hu] at hread
  generalize use? h w p (Token.withReturns ts) = found at hread ⊢
  cases hread with
  | @some _ use' hsame =>
    obtain ⟨site', rest'⟩ := use'
    obtain rfl := hsame.rest
    exact ⟨site', rfl, hsame.made h w⟩

theorem scanTokens_withReturns_mark {m : Mark} (hts : AllReturn ts)
    (hm : mark? x.lexeme = some m)
    (hword : ∀ w, x.lexeme = .word w → use? h w x.position ts = none) :
    scanTokens h (Token.withReturns (x :: ts)) =
      scanTokens (h.push m) (Token.withReturns ts) := by
  have hne : x.lexeme ≠ .blank lineFeed := fun he => by rw [he] at hm; cases hm
  rw [Token.withReturns_token hne]
  refine (Step.mark ((mark?_withReturns _).trans hm) fun w hw => ?_).scanTokens_eq
  exact use?_withReturns_eq_none hts (hword w (eq_word_of_withReturns hw))

/-- What one step finds the other scan finds as well, and both go on from the same token. -/
theorem Step.withReturns (hts : AllReturn ts) (hs : Step h ts sites h' ts') :
    ∃ sites', List.Forall₂ UpToReturns sites sites' ∧
      scanTokens h (Token.withReturns ts) = sites' ++ scanTokens h' (Token.withReturns ts') := by
  cases hs with
  | gap hx => exact ⟨[], .nil, scanTokens_gap (Token.isGap_returned hx _) h _⟩
  | mark hm hword =>
    have hrest := hts.of_suffix (List.suffix_cons _ _)
    exact ⟨[], .nil, scanTokens_withReturns_mark hrest hm hword⟩
  | use hu =>
    have hrest := hts.of_suffix (List.suffix_cons _ _)
    obtain ⟨site', hu', hsites, hmark⟩ := exists_use?_withReturns hrest hu
    refine ⟨_, hsites, ?_⟩
    rw [Token.withReturns_token (by simp), ← hmark]
    exact (Step.use hu').scanTokens_eq

/-- The scans of the two go side by side. -/
theorem scanTokens_withReturns (hts : AllReturn ts) :
    List.Forall₂ UpToReturns (scanTokens h ts) (scanTokens h (Token.withReturns ts)) := by
  induction h, ts using scan_induction with
  | done h =>
    rw [Token.withReturns, List.flatMap_nil, scanTokens]
    exact .nil
  | opened h x ts hx =>
    have hne : x.lexeme ≠ .blank lineFeed := fun he => by rw [he] at hx; cases hx
    rw [Token.withReturns_token hne, scanTokens_open hx,
      scanTokens_open ((isOpen_withReturns _).trans hx)]
    exact .nil
  | stop h w p ts site hu =>
    have hrest := hts.of_suffix (List.suffix_cons _ _)
    obtain ⟨site', hu', hsites, _⟩ := exists_use?_withReturns hrest hu
    rw [Token.withReturns_token (by simp), scanTokens_stop hu]
    exact (scanTokens_stop hu').symm ▸ hsites
  | step h ts sites h' ts' hstep ih =>
    obtain ⟨taken, hsplit, _⟩ := hstep.split
    obtain ⟨sites', hsites, hscan⟩ := hstep.withReturns hts
    rw [hstep.scanTokens_eq, hscan]
    exact List.rel_append hsites (ih (hts.of_suffix ⟨taken, hsplit.symm⟩))

end Scan

/-! The tokens of the text. -/

variable {t : Text}

theorem program_withReturns (t : Text) :
    program (Text.withReturns t) = Text.withReturns (program t) := by
  have hhead := @head?_withReturns hash (by decide) (by decide) t
  by_cases hhash : t.head? = some hash
  · have hline := lineFeed_notMem_firstLine t
    rw [program, program, if_pos (hhead.mpr hhash), if_pos hhash]
    rcases eq_firstLine_or t with ⟨hdrop, htext⟩ | ⟨rest, hdrop, htext⟩
    · have hnone : lineFeed ∉ t := htext ▸ hline
      rw [withReturns_eq_self hnone, afterFirstLine, hdrop]
      rfl
    · have hreturns : afterFirstLine (Text.withReturns t) = Text.withReturns rest := by
        conv_lhs => rw [htext, withReturns_line hline]
        rw [afterFirstLine, (Lexeme.takeWhile_line (lineFeed_notMem_concat hline) _).2,
          List.tail_cons]
      rw [hreturns, afterFirstLine, hdrop, List.tail_cons]
  · rw [program, program, if_neg (mt hhead.mp hhash), if_neg hhash]

theorem prologue_withReturns (t : Text) :
    prologue (Text.withReturns t) = Text.withReturns (prologue t) := by
  have htext := prologue_append_program (Text.withReturns t)
  have hparts := congrArg Text.withReturns (prologue_append_program t)
  rw [withReturns_append, ← program_withReturns] at hparts
  exact List.append_cancel_right (htext.trans hparts.symm)

theorem tokens_withReturns (h : carriageReturn ∉ t) :
    tokens (Text.withReturns t) = Token.withReturns (tokens t) ∧ AllReturn (tokens t) := by
  have hprogram : carriageReturn ∉ program t := fun hmem =>
    h (prologue_append_program t ▸ List.mem_append_right _ hmem)
  have hlexemes := returns_of_mem_lexemes hprogram
  rw [tokens_eq, tokens_eq, prologue_withReturns, program_withReturns, Position.after_withReturns,
    lexemes_withReturns hprogram, Token.place_withReturns hlexemes]
  exact ⟨rfl, fun x hx => hlexemes _ (Token.mem_lexemes_of_mem_place hx)⟩

/-- A site at the same place, of the same kind, with the same texts up to carriage returns. -/
structure SameUpToReturns (site site' : RequireSite) : Prop where
  isLiteral : site'.isLiteral = site.isLiteral
  line : site'.position.line = site.position.line
  column : site'.position.column = site.position.column
  moduleName : site'.moduleName.map withoutReturns = site.moduleName.map withoutReturns
  rawArgument : withoutReturns site'.rawArgument = withoutReturns site.rawArgument

theorem UpToReturns.sameUpToReturns {site site' : RequireSite} (h : UpToReturns site site') :
    SameUpToReturns site site' := by
  cases h with
  | same => exact ⟨rfl, rfl, rfl, rfl, rfl⟩
  | literal hname hraw => exact ⟨rfl, rfl, rfl, congrArg some hname, hraw⟩

/-- Whether lines end in a line feed or in a carriage return and a line feed makes no difference to
a scan: it finds as many sites, each at its place and of the same texts up to the carriage returns
in them. -/
theorem scan_withReturns (h : carriageReturn ∉ t) :
    List.Forall₂ SameUpToReturns (scan t) (scan (Text.withReturns t)) := by
  obtain ⟨htokens, hclean⟩ := tokens_withReturns h
  rw [scan, scan, htokens]
  exact (scanTokens_withReturns hclean).imp fun _ _ hs => hs.sameUpToReturns

/-- A long string that starts with a line break, an escaped line break, and a call that is not
closed. -/
theorem scan_broken_lines :
    carriageReturn ∉ ("require [[\na\n]]\nrequire 'b\\\nc'\nrequire(\nd" : Text) ∧
      scan "require [[\na\n]]\nrequire 'b\\\nc'\nrequire(\nd" =
        [literal ⟨1, 1⟩ "a\n" "[[\na\n]]", literal ⟨4, 1⟩ "b\nc" "'b\\\nc'", computed ⟨6, 1⟩ []] ∧
      scan (Text.withReturns "require [[\na\n]]\nrequire 'b\\\nc'\nrequire(\nd") =
        [literal ⟨1, 1⟩ "a\r\n" "[[\r\na\r\n]]", literal ⟨4, 1⟩ "b\nc" "'b\\\r\nc'",
          computed ⟨6, 1⟩ []] ∧
      List.Forall₂ SameUpToReturns (scan "require [[\na\n]]\nrequire 'b\\\nc'\nrequire(\nd")
        (scan (Text.withReturns "require [[\na\n]]\nrequire 'b\\\nc'\nrequire(\nd")) := by
  have h : carriageReturn ∉ ("require [[\na\n]]\nrequire 'b\\\nc'\nrequire(\nd" : Text) := by
    decide +kernel
  exact ⟨h, by decide +kernel, by decide +kernel, scan_withReturns h⟩

end RequireSite

end LuaBundle
