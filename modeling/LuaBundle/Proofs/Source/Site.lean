import LuaBundle.Proofs.Source.Shape
import LuaBundle.Proofs.Text.Blank

/-! Where the sites of a scan stand in the text, and what their arguments are there. A position
tells the offset of the name; a literal argument follows the name in the text, and a computed one
has single spaces. -/

namespace LuaBundle

open Text

namespace Position

/-- A position counts the line feeds before it, and the units since the last of them. -/
theorem start_after (t : Text) : start.after t =
    ⟨t.count lineFeed + 1, (t.reverse.takeWhile (· != lineFeed)).length + 1⟩ := by
  induction t using List.reverseRecOn with
  | nil => rfl
  | append_singleton t u ih =>
    rw [after_append, ih, after_cons, after_nil, step, List.count_append, List.reverse_append]
    by_cases hu : u = lineFeed
    · simp [hu]
    · simp [hu]

theorem before_take {t : Text} {m n : Nat} (hlt : m < n) (hn : n ≤ t.length) :
    (start.after (t.take m)).Before (start.after (t.take n)) := by
  have hsplit : t.take n = t.take m ++ (t.drop m).take (n - m) := by
    rw [← List.take_add, Nat.add_sub_cancel' hlt.le]
  have hne : (t.drop m).take (n - m) ≠ [] := by
    rw [ne_eq, List.take_eq_nil_iff, List.drop_eq_nil_iff]
    omega
  rw [hsplit, after_append]
  exact before_after hne _

end Position

/-- The offset of a position in a text: as many line feeds stand before it as there are lines above,
and as many units since the last of them as there are columns to the left. -/
structure IsOffset (t : Text) (offset : Nat) (p : Position) : Prop where
  le : offset ≤ t.length
  line : p.line = (t.take offset).count lineFeed + 1
  column : p.column = ((t.take offset).reverse.takeWhile (· != lineFeed)).length + 1

theorem isOffset_iff {t : Text} {offset : Nat} {p : Position} :
    IsOffset t offset p ↔ offset ≤ t.length ∧ Position.start.after (t.take offset) = p := by
  rw [Position.start_after]
  constructor
  · rintro ⟨hle, hline, hcolumn⟩
    exact ⟨hle, by rw [← hline, ← hcolumn]⟩
  · rintro ⟨hle, rfl⟩
    exact ⟨hle, rfl, rfl⟩

theorem isOffset_append {before after : Text} {p : Position}
    (h : Position.start.after before = p) : IsOffset (before ++ after) before.length p := by
  refine isOffset_iff.mpr ⟨?_, by rwa [List.take_left]⟩
  rw [List.length_append]
  exact Nat.le_add_right _ _

theorem IsOffset.lt {t : Text} {m n : Nat} {p q : Position} (hm : IsOffset t m p)
    (hn : IsOffset t n q) (h : p.Before q) : m < n := by
  obtain ⟨hmax, rfl⟩ := isOffset_iff.mp hm
  obtain ⟨_, rfl⟩ := isOffset_iff.mp hn
  rcases Nat.lt_trichotomy m n with hlt | rfl | hlt
  · exact hlt
  · exact absurd rfl h.ne
  · exact absurd rfl ((Position.before_take hlt hmax).trans h).ne

/-- No two offsets have one position. -/
theorem IsOffset.unique {t : Text} {m n : Nat} {p : Position} (hm : IsOffset t m p)
    (hn : IsOffset t n p) : m = n := by
  obtain ⟨hm, hp⟩ := isOffset_iff.mp hm
  obtain ⟨hn, hq⟩ := isOffset_iff.mp hn
  rcases Nat.lt_trichotomy m n with hlt | heq | hlt
  · exact absurd (hp.trans hq.symm) (Position.before_take hlt hn).ne
  · exact heq
  · exact absurd (hq.trans hp.symm) (Position.before_take hlt hm).ne

namespace Token

theorem map_lexeme_place (p : Position) (ls : List Lexeme) :
    (place p ls).map (·.lexeme) = ls := by
  induction ls generalizing p with
  | nil => rfl
  | cons l ls ih => rw [place, List.map_cons, ih]

/-- A token of lexemes in a row: what stands before it, and its position after that. -/
theorem exists_lexemes_of_place {p : Position} {ls : List Lexeme} {front back : List Token}
    {x : Token} (h : place p ls = front ++ x :: back) :
    ls = front.map (·.lexeme) ++ x.lexeme :: back.map (·.lexeme) ∧
      x.position = p.after ((front.map (·.lexeme)).flatMap Lexeme.text) := by
  induction ls generalizing p front with
  | nil =>
    have := congrArg List.length h
    simp [place] at this
  | cons l ls ih =>
    cases front with
    | nil =>
      obtain ⟨rfl, rfl⟩ := List.cons.inj h
      rw [map_lexeme_place]
      exact ⟨rfl, rfl⟩
    | cons y front =>
      obtain ⟨rfl, hrest⟩ := List.cons.inj h
      obtain ⟨rfl, hposition⟩ := ih hrest
      refine ⟨rfl, ?_⟩
      rw [hposition, List.map_cons, List.flatMap_cons, Position.after_append]

theorem IsGap.lexemes {gap : List Token} (h : IsGap gap) :
    ∀ c ∈ gap.map (·.lexeme), c.isGap = true := by
  intro c hc
  obtain ⟨x, hx, rfl⟩ := List.mem_map.mp hc
  exact h x hx

end Token

namespace RequireSite

open Token (significant?)

/-! The argument of a site, among the lexemes after the name. -/

/-- A literal after a name, with at most a parenthesis or comma before it. -/
def Argued (ls : List Lexeme) (name raw : Text) : Prop :=
  ∃ gap opening gap' l after, (∀ c ∈ gap, c.isGap = true) ∧ (∀ c ∈ gap', c.isGap = true) ∧
    (opening = [] ∨ opening = [.symbol leftParen] ∨ opening = [.symbol comma]) ∧
    literal? l = some (name, raw) ∧ ls = gap ++ (opening ++ (gap' ++ l :: after))

/-- What a site is made of, given the tokens after its name: of a literal, or of any text. -/
def MadeOf (ts : List Token) (site : RequireSite) : Prop :=
  (∃ raw, site = computed site.position raw) ∨
    ∃ name raw, site = literal site.position name raw ∧ Argued (ts.map (·.lexeme)) name raw

variable {position : Position} {protectedCall : Bool} {ts : List Token} {site : RequireSite}

theorem madeOf_computed {raw : Text} (h : computed position raw = site) : MadeOf ts site := by
  subst h
  exact .inl ⟨raw, rfl⟩

theorem madeOf_readComputed {us : List Token} (hs : (readComputed position us).site = some site) :
    MadeOf ts site := by
  unfold readComputed at hs
  split at hs <;> exact madeOf_computed (Option.some.inj hs)

/-- A literal among arguments is the first token after the parenthesis or comma. -/
theorem madeOf_readArguments {u : UInt16} {q : Position} {rest : List Token}
    (hts : significant? ts = some (⟨.symbol u, q⟩ :: rest)) (hu : u = leftParen ∨ u = comma)
    (hs : (readArguments position protectedCall rest).site = some site) : MadeOf ts site := by
  obtain ⟨gap, hgap, rfl, _⟩ := Token.significant?_eq_some hts
  have hliteral : ∀ {x : Token} {after : List Token} {name raw : Text},
      significant? rest = some (x :: after) → literal? x.lexeme = some (name, raw) →
      literal position name raw = site → MadeOf (gap ++ ⟨.symbol u, q⟩ :: rest) site := by
    intro x after name raw hrest hx he
    subst he
    obtain ⟨gap', hgap', rfl, _⟩ := Token.significant?_eq_some hrest
    refine .inr ⟨name, raw, rfl, gap.map (·.lexeme), [.symbol u], gap'.map (·.lexeme), x.lexeme,
      after.map (·.lexeme), hgap.lexemes, hgap'.lexemes, .inr ?_, hx, by simp⟩
    exact hu.imp (fun he => by rw [he]) fun he => by rw [he]
  have hread := argumentsRead position protectedCall rest
  generalize readArguments position protectedCall rest = use at hs hread
  cases hread with
  | unread => exact madeOf_computed (Option.some.inj hs)
  | openString => exact madeOf_computed (Option.some.inj hs)
  | literal hrest hx => exact hliteral hrest hx (Option.some.inj hs)
  | first hrest hx => exact hliteral hrest hx (Option.some.inj hs)
  | computed => exact madeOf_readComputed hs

theorem madeOf_readCall (hs : (readCall position ts).site = some site) : MadeOf ts site := by
  have hread := callRead position ts
  generalize readCall position ts = use at hs hread
  cases hread with
  | unread => exact madeOf_computed (Option.some.inj hs)
  | openString => exact madeOf_computed (Option.some.inj hs)
  | assigned => cases hs
  | bare => exact madeOf_computed (Option.some.inj hs)
  | arguments hts => exact madeOf_readArguments hts (.inl rfl) hs
  | table => exact madeOf_computed (Option.some.inj hs)
  | openTable => exact madeOf_computed (Option.some.inj hs)
  | @literal x rest name raw hts hx =>
    obtain rfl := Option.some.inj hs
    obtain ⟨gap, hgap, rfl, _⟩ := Token.significant?_eq_some hts
    exact .inr ⟨name, raw, rfl, gap.map (·.lexeme), [], [], x.lexeme, rest.map (·.lexeme),
      hgap.lexemes, by simp, .inl rfl, hx, by simp⟩

/-- A site that stands at a name among tokens, and is made of what follows it there. -/
def FoundIn (ts : List Token) (site : RequireSite) : Prop :=
  ∃ front back, ts = front ++ ⟨.word "require", site.position⟩ :: back ∧ MadeOf back site

theorem FoundIn.of_suffix {us : List Token} (h : FoundIn us site) (hsuffix : us <:+ ts) :
    FoundIn ts site := by
  obtain ⟨front, back, rfl, hmade⟩ := h
  obtain ⟨more, rfl⟩ := hsuffix
  exact ⟨more ++ front, back, by simp, hmade⟩

theorem foundIn_use? {h : History} {w : Text} {p : Position} {rest : Option (List Token)}
    (hu : use? h w p ts = some ⟨some site, rest⟩) : FoundIn (⟨.word w, p⟩ :: ts) site := by
  rw [use?] at hu
  split at hu
  · rename_i hw
    have hsite := congrArg Use.site (Option.some.inj hu)
    exact ⟨[], ts, by rw [hw.1, position_readCall hsite]; rfl, madeOf_readCall hsite⟩
  · split at hu
    · obtain ⟨_, q, _, parens, names, commas, hparens, hnames, hcommas, hread⟩ :=
        readProtected?_eq_some hu
      have hsite := (congrArg Use.site hread).symm
      have hname : FoundIn (⟨.word "require", q⟩ :: names) site :=
        ⟨[], names, by rw [position_readArguments hsite]; rfl,
          madeOf_readArguments hcommas (.inr rfl) hsite⟩
      exact hname.of_suffix ((Token.suffix_of_significant? hnames).trans
        ((List.suffix_cons _ _).trans ((Token.suffix_of_significant? hparens).trans
          (List.suffix_cons _ _))))
    · cases hu

theorem foundIn_made {h : History} {w : Text} {p : Position} {found : Option RequireSite}
    {rest : Option (List Token)} (hu : use? h w p ts = some ⟨found, rest⟩)
    (hs : site ∈ found.elim [] (made h)) : FoundIn (⟨.word w, p⟩ :: ts) site := by
  cases found with
  | none => cases hs
  | some found =>
    obtain ⟨_, rfl⟩ := mem_made.mp hs
    exact foundIn_use? hu

theorem Step.foundIn {h h' : History} {ts' : List Token} {sites : List RequireSite}
    (hstep : Step h ts sites h' ts') (hs : site ∈ sites) : FoundIn ts site := by
  cases hstep with
  | gap => cases hs
  | mark => cases hs
  | use hu => exact foundIn_made hu hs

theorem foundIn_scanTokens {h : History} (hs : site ∈ scanTokens h ts) : FoundIn ts site := by
  induction h, ts using scan_induction with
  | done h =>
    rw [scanTokens] at hs
    cases hs
  | opened h t ts ht =>
    rw [scanTokens_open ht] at hs
    cases hs
  | stop h w p ts found hu =>
    rw [scanTokens_stop hu] at hs
    exact foundIn_made hu hs
  | step h ts sites h' ts' hstep ih =>
    rw [hstep.scanTokens_eq] at hs
    rcases List.mem_append.mp hs with hfound | hlater
    · exact hstep.foundIn hfound
    · obtain ⟨taken, rfl, _⟩ := hstep.split
      exact (ih hlater).of_suffix (List.suffix_append _ _)

end RequireSite

/-! The same in the text. -/

/-- A string literal from its first quote or bracket to its last, and its content. -/
inductive IsLiteral : Text → Text → Prop
  | quoted {q : UInt16} {body : Text} (hq : q = doubleQuote ∨ q = singleQuote)
    (hbody : Lexeme.QuotedBody q body) : IsLiteral (q :: body ++ [q]) (Escape.decode body)
  | bracketed {level : Nat} {body : Text} (hbody : EndsFirst (Lexeme.closing level) body) :
    IsLiteral (Lexeme.opening level ++ body ++ Lexeme.closing level)
      (RequireSite.literal?.dropLeadingBreak body)

/-- A literal in the text after a name: nothing but blanks and comments with their ends stands
between the two, and at most one parenthesis or comma. -/
def FollowedBy (after raw name : Text) : Prop :=
  ∃ gap opening gap' rest, Lexeme.Spacing gap ∧ Lexeme.Spacing gap' ∧
    (opening = [] ∨ opening = [leftParen] ∨ opening = [comma]) ∧
    after = gap ++ (opening ++ (gap' ++ (raw ++ rest))) ∧ IsLiteral raw name

/-- A site at its place in a text. -/
structure Stands (t : Text) (site : RequireSite) (offset : Nat) : Prop where
  isOffset : ∀ n, IsOffset t n site.position ↔ n = offset
  keyword : ∃ before after, t = before ++ ("require" ++ after) ∧ before.length = offset ∧
    (∀ u ∈ before.getLast?, isWordUnit u = false) ∧ (∀ u ∈ after.head?, isWordUnit u = false) ∧
    ∀ name, site.moduleName = some name → FollowedBy after site.rawArgument name
  neat : site.moduleName = none → IsNeat site.rawArgument

theorem isLiteral_of_literal? {l : Lexeme} {name raw : Text} (hl : l.Formed)
    (h : RequireSite.literal? l = some (name, raw)) : IsLiteral raw name ∧ l.text = raw := by
  rcases RequireSite.eq_quoted_or_bracketed (Option.isSome_of_eq_some h) with
    ⟨q, body, rfl⟩ | ⟨level, body, rfl⟩
  · obtain ⟨rfl, rfl⟩ := Prod.mk.inj (Option.some.inj h)
    exact ⟨.quoted hl.1 hl.2, rfl⟩
  · obtain ⟨rfl, rfl⟩ := Prod.mk.inj (Option.some.inj h)
    exact ⟨.bracketed hl, rfl⟩

theorem Lexeme.getLast?_closing (t : Text) (level : Nat) :
    (t ++ closing level).getLast? = some rightBracket := by
  rw [closing, ← List.append_assoc, List.getLast?_concat]

/-- A lexeme before a word ends in no unit of a word. -/
theorem Lexeme.Formed.getLast? {l : Lexeme} {u : UInt16} {rest : Text} (hl : l.Formed)
    (hfits : l.Fits (u :: rest)) (hu : isWordUnit u = true) :
    ∀ v ∈ l.text.getLast?, isWordUnit v = false := by
  have hbracket : isWordUnit rightBracket = false := by decide
  have hfeed : isWordUnit lineFeed = false := by decide
  intro v hv
  cases l with
  | blank w =>
    obtain rfl : w = v := Option.some.inj hv
    exact RequireSite.isWordUnit_eq_false_of_isBlank hl
  | comment c =>
    rcases hfits with hcomment | hnil
    · cases hcomment with
      | @block level body _ =>
        rw [text, getLast?_closing] at hv
        rwa [← Option.some.inj hv]
      | line _ =>
        rw [text, List.getLast?_concat] at hv
        rwa [← Option.some.inj hv]
    · cases hnil
  | word w =>
    rw [hfits u rfl] at hu
    cases hu
  | quoted q body =>
    rw [text, List.getLast?_concat] at hv
    rw [← Option.some.inj hv]
    rcases hl.1 with rfl | rfl <;> decide
  | bracketed level body =>
    rw [text, getLast?_closing] at hv
    rwa [← Option.some.inj hv]
  | symbol w =>
    obtain rfl := Option.some.inj hv
    exact hl.2.1
  | openComment s => exact hl.elim
  | openString s => exact hl.elim

namespace RequireSite

theorem prologue_append_program (t : Text) : prologue t ++ program t = t := by
  unfold prologue program
  split
  · rw [afterFirstLine, firstLine, List.append_assoc, ← List.drop_one, List.take_append_drop]
    exact List.takeWhile_append_dropWhile
  · rfl

/-- A program that follows a first line starts on the next line. -/
theorem getLast?_prologue {t : Text} (h : program t ≠ []) :
    ∀ u ∈ (prologue t).getLast?, u = lineFeed := by
  unfold prologue program at *
  split at h
  · rename_i hhash
    rw [if_pos hhash]
    rcases eq_firstLine_or t with ⟨hdrop, _⟩ | ⟨rest, hdrop, _⟩
    · rw [afterFirstLine, hdrop] at h
      exact absurd rfl h
    · intro u hu
      rw [hdrop, List.take_succ_cons, List.take_zero, List.getLast?_concat] at hu
      exact (Option.some.inj hu).symm
  · rename_i hhash
    simp [hhash]

/-- What stands before a word of the program does not end in a unit of a word. -/
theorem getLast?_before {t w : Text} {front back : List Lexeme}
    (h : lexemes (program t) = front ++ .word w :: back) :
    ∀ u ∈ (prologue t ++ front.flatMap Lexeme.text).getLast?, isWordUnit u = false := by
  rcases List.eq_nil_or_concat front with rfl | ⟨init, l, rfl⟩
  · have hprogram : program t ≠ [] := by
      intro hnil
      rw [hnil, lexemes] at h
      cases h
    intro u hu
    rw [List.flatMap_nil, List.append_nil] at hu
    rw [getLast?_prologue hprogram u hu]
    decide
  · rw [List.concat_eq_append, List.append_assoc] at h
    have hopen := isOpen_of_lexemes h (by simp)
    obtain ⟨hform, hfits⟩ := formed_of_lexemes h hopen
    obtain ⟨hw, -⟩ := @formed_of_lexemes _ (init ++ [l]) _ (.word w) (by simpa using h) rfl
    obtain ⟨u, rest, rfl⟩ := List.exists_cons_of_ne_nil hw.1
    have hne : l.text ≠ [] := text_ne_nil_of_mem_lexemes (t := program t) (by simp [h])
    have hlast := hform.getLast? hfits (hw.2 u List.mem_cons_self)
    rw [List.concat_eq_append, List.flatMap_append, List.flatMap_singleton, ← List.append_assoc,
      List.getLast?_append_of_ne_nil _ hne]
    exact hlast

/-- The literal of a site in the text after its name. -/
theorem followedBy_of_argued {t name raw : Text} {front back : List Lexeme} {l : Lexeme}
    (hls : lexemes t = front ++ l :: back) (h : Argued back name raw) :
    FollowedBy (back.flatMap Lexeme.text) raw name := by
  obtain ⟨gap, opening, gap', x, after, hgap, hgap', hopening, hx, rfl⟩ := h
  have hfirst : Lexeme.Spacing (gap.flatMap Lexeme.text) := by
    obtain ⟨y, more, hy⟩ :=
      @List.exists_cons_of_ne_nil _ (opening ++ (gap' ++ x :: after)) (by simp)
    rw [hy] at hls
    exact spacing_of_gap (hls.trans (List.append_cons _ _ _)) hgap
  have hsecond : lexemes t = (front ++ l :: (gap ++ opening)) ++ (gap' ++ x :: after) := by
    simpa using hls
  have hform : x.Formed := by
    refine (formed_of_lexemes (hsecond.trans (List.append_assoc _ _ _).symm) ?_).1
    exact Lexeme.isOpen_of_endsCall (endsCall_of_literal? (Option.isSome_of_eq_some hx))
  obtain ⟨hliteral, hraw⟩ := isLiteral_of_literal? hform hx
  refine ⟨_, opening.flatMap Lexeme.text, _, after.flatMap Lexeme.text, hfirst,
    spacing_of_gap hsecond hgap', ?_, ?_, hliteral⟩
  · rcases hopening with rfl | rfl | rfl
    · exact .inl rfl
    · exact .inr (.inl rfl)
    · exact .inr (.inr rfl)
  · simp only [List.flatMap_append, List.flatMap_cons, hraw]

theorem exists_stands {t : Text} {site : RequireSite} (hs : site ∈ scan t) :
    ∃ offset, Stands t site offset := by
  obtain ⟨front, back, htokens, hmade⟩ := foundIn_scanTokens hs
  rw [tokens_eq] at htokens
  obtain ⟨hls, hposition⟩ := Token.exists_lexemes_of_place htokens
  have htext : t = (prologue t ++ (front.map (·.lexeme)).flatMap Lexeme.text) ++
      ("require" ++ (back.map (·.lexeme)).flatMap Lexeme.text) := by
    have hprogram := lexemes_text (program t)
    rw [hls, List.flatMap_append, List.flatMap_cons] at hprogram
    rw [List.append_assoc]
    exact (prologue_append_program t).symm.trans (congrArg _ hprogram.symm)
  let before : Text := prologue t ++ (front.map (·.lexeme)).flatMap Lexeme.text
  have hoffset : IsOffset t before.length site.position := by
    rw [htext]
    exact isOffset_append ((Position.after_append _ _ _).trans hposition.symm)
  refine ⟨before.length, fun n => ⟨fun hn => hn.unique hoffset, ?_⟩,
    ⟨before, _, htext, rfl, getLast?_before hls, ?_, ?_⟩, ?_⟩
  · rintro rfl
    exact hoffset
  · exact (formed_of_lexemes hls rfl).2
  · intro name hname
    rcases hmade with ⟨raw, hsite⟩ | ⟨name', raw, hsite, hargued⟩
    · rw [hsite] at hname
      cases hname
    · rw [hsite] at hname ⊢
      obtain rfl := Option.some.inj hname
      exact followedBy_of_argued hls hargued
  · intro hnone
    rcases hmade with ⟨raw, hsite⟩ | ⟨name', raw, hsite, _⟩
    · rw [hsite]
      exact isNeat_trim_collapseBlanks raw
    · rw [hsite] at hnone
      cases hnone

/-- Every site of a scan stands at a name `require` of its text, each further on than the one
before. The argument of a literal site is a literal that follows the name; the argument of any
other is on one line, with single spaces. -/
theorem scan_stands (t : Text) :
    (∀ site ∈ scan t, ∃ offset, Stands t site offset) ∧
      (scan t).Pairwise fun s s' =>
        ∀ m n, IsOffset t m s.position → IsOffset t n s'.position → m < n := by
  refine ⟨fun site hs => exists_stands hs, ?_⟩
  have hpairwise : ((tokens t).map (·.position)).Pairwise Position.Before := by
    rw [tokens_eq, List.pairwise_map]
    exact Token.pairwise_place (fun _ => text_ne_nil_of_mem_lexemes) _
  have hsites := hpairwise.sublist (sublist_scanTokens .empty (tokens t))
  rw [List.pairwise_map] at hsites
  exact hsites.imp fun hbefore m n hm hn => hm.lt hn hbefore

end RequireSite

end LuaBundle
