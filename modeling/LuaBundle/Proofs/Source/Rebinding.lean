import LuaBundle.Proofs.Source.Steps
import LuaBundle.Proofs.Text.Blank

/-! The uses of the global `require` that a scan comes to and drops: those whose value is assigned
to a name `require`, whatever that names, and that are given nothing. A use is given nothing if it
is no call, and also if it is a call whose arguments are blank. -/

namespace LuaBundle

open Text

namespace RequireSite

open Token (significant? balanced? restOfLine source IsGap)

/-! What the history tells of the tokens before. -/

section History

/-- The tokens of the program among tokens, as a scan remembers them. -/
def marks (ts : List Token) : List Mark := ts.filterMap fun t => mark? t.lexeme

/-- The last tokens assign to something named `require`: a variable, a field or an entry of a
table. -/
def AssignsRequire (before : List Token) : Prop :=
  [.word "require", .symbol equals] <:+ marks before

theorem marks_append (ts us : List Token) : marks (ts ++ us) = marks ts ++ marks us :=
  List.filterMap_append

theorem marks_singleton {t : Token} {m : Mark} (h : mark? t.lexeme = some m) : marks [t] = [m] := by
  simp [marks, h]

theorem suffix_concat_iff {m m' : Mark} {ms : List Mark} : [m] <:+ ms ++ [m'] ↔ m = m' := by
  rw [List.suffix_concat_iff]
  constructor
  · rintro (hnil | ⟨front, hfront, _⟩)
    · cases hnil
    · exact (List.cons.inj (List.append_inj' ((List.nil_append _).trans hfront) rfl).2).1
  · rintro rfl
    exact .inr ⟨[], rfl, List.nil_suffix⟩

theorem suffix_pair_concat_iff {m m' m'' : Mark} {ms : List Mark} :
    [m, m'] <:+ ms ++ [m''] ↔ m' = m'' ∧ [m] <:+ ms := by
  rw [List.suffix_concat_iff]
  constructor
  · rintro (hnil | ⟨front, hfront, hsuffix⟩)
    · cases hnil
    · rw [← List.singleton_append] at hfront
      obtain ⟨rfl, hm⟩ := List.append_inj' hfront rfl
      exact ⟨(List.cons.inj hm).1, hsuffix⟩
  · rintro ⟨rfl, hsuffix⟩
    exact .inr ⟨[m], rfl, hsuffix⟩

/-- A history tells whether the tokens `before` it assign to `require`. What follows may still turn
an equality sign into a comparison, which the history knows of. -/
structure Follows (h : History) (before after : List Token) : Prop where
  last : h.last = .word "require" → [.word "require"] <:+ marks before
  assigns : h.assignsRequire = true → AssignsRequire before
  name : [.word "require"] <:+ marks before → h.last = .word "require" ∨ ¬IsAssigned after
  assigned : AssignsRequire before →
    h.assignsRequire = true ∨ ∃ q rest, after = ⟨.symbol equals, q⟩ :: rest

theorem follows_empty (ts : List Token) : Follows .empty [] ts where
  last := fun hlast => by cases hlast
  assigns := fun hassigns => by cases hassigns
  name := fun hname => by simp [marks] at hname
  assigned := fun hassigned => by simp [AssignsRequire, marks] at hassigned

theorem eq_of_mark?_symbol {l : Lexeme} {u : UInt16} (h : mark? l = some (.symbol u)) :
    l = .symbol u := by
  cases l with
  | symbol v => exact congrArg Lexeme.symbol (Mark.symbol.inj (Option.some.inj h))
  | word w => cases h
  | quoted q body => cases h
  | bracketed level body => cases h
  | _ => cases h

variable {h : History} {before ts : List Token}

theorem Follows.gap {t : Token} (hf : Follows h before (t :: ts)) (ht : t.lexeme.isGap = true) :
    Follows h (before ++ [t]) ts := by
  have hnone : mark? t.lexeme = none := by
    cases hl : t.lexeme <;> simp_all [Lexeme.isGap, mark?]
  have hmarks : marks (before ++ [t]) = marks before := by simp [marks, hnone]
  refine ⟨fun hl => hmarks ▸ hf.last hl, fun ha => ?_, fun hname => ?_, fun hassigned => ?_⟩
  · rw [AssignsRequire, hmarks]
    exact hf.assigns ha
  · rw [hmarks] at hname
    have := hf.name hname
    rwa [IsAssigned, Token.significant?_gap ht] at this
  · rw [AssignsRequire, hmarks] at hassigned
    rcases hf.assigned hassigned with ha | ⟨q, rest, he⟩
    · exact .inl ha
    · rw [(List.cons.inj he).1] at ht
      cases ht

theorem Follows.mark {t : Token} {m : Mark} {q : Position} {s : Text}
    (hf : Follows h before (t :: ts)) (hm : mark? t.lexeme = some m)
    (hts : ts = Token.place q (lexemes s)) : Follows (h.push m) (before ++ [t]) ts := by
  have hmarks : marks (before ++ [t]) = marks before ++ [m] := by
    rw [marks_append, marks_singleton hm]
  refine ⟨fun hl => ?_, fun ha => ?_, fun hname => ?_, fun hassigned => ?_⟩
  · rw [hmarks, suffix_concat_iff]
    exact hl.symm
  · rw [AssignsRequire, hmarks, suffix_pair_concat_iff]
    obtain ⟨hequals, hrequire⟩ := (History.assignsRequire_iff _).mp ha
    exact ⟨hequals.symm, hf.last hrequire⟩
  · rw [hmarks, suffix_concat_iff] at hname
    exact .inl hname.symm
  · rw [AssignsRequire, hmarks, suffix_pair_concat_iff] at hassigned
    obtain ⟨rfl, hname⟩ := hassigned
    rcases hf.name hname with hlast | hnot
    · exact .inl ((History.assignsRequire_iff _).mpr ⟨rfl, hlast⟩)
    · right
      obtain ⟨l, p⟩ := t
      obtain rfl := eq_of_mark?_symbol hm
      have hhead : (source ts).head? = some equals := by
        by_contra hne
        exact hnot ⟨p, ts, rfl, hne⟩
      rw [hts] at hhead ⊢
      obtain ⟨rest, hrest⟩ := Token.eq_equals_of_head? hhead
      exact ⟨q, rest, hrest⟩

/-- An assignment to the name takes nothing of what follows. -/
theorem use?_assigned {w : Text} {p : Position} {rest : Option (List Token)}
    (hu : use? h w p ts = some ⟨none, rest⟩) : w = "require" ∧ rest = some ts := by
  rw [use?] at hu
  split at hu
  · rename_i hw
    have hread := Option.some.inj hu
    obtain ⟨q, more, hts, hne⟩ := site_readCall_eq_none_iff.mp (congrArg Use.site hread)
    rw [readCall_symbol hts, if_neg (by decide), if_neg (by decide), if_pos ⟨rfl, hne⟩] at hread
    exact ⟨hw.1, (congrArg Use.rest hread).symm⟩
  · split at hu
    · obtain ⟨_, q, _, _, _, commas, _, _, _, hread⟩ := readProtected?_eq_some hu
      obtain ⟨site, hsite⟩ := exists_site_readArguments q true commas
      rw [← hread] at hsite
      cases hsite
    · cases hu

/-- Where a use takes nothing, no assignment follows it. -/
theorem not_isAssigned_of_use? {w : Text} {p : Position} {site : RequireSite}
    {rest : Option (List Token)} (hw : w = "require")
    (hu : use? h w p ts = some ⟨some site, rest⟩) : ¬IsAssigned ts := by
  intro hassigned
  have hnone : (readCall p ts).site = none := site_readCall_eq_none_iff.mpr hassigned
  subst hw
  rw [use?] at hu
  split at hu
  · rw [Option.some.inj hu] at hnone
    cases hnone
  · cases hu

/-- Marks of which neither is `require` or an equality sign tell the same: no assignment. -/
theorem follows_of_last {m m' : Mark} {ms : List Mark} {after : List Token}
    (hm : m ≠ .word "require" ∧ m ≠ .symbol equals) (hms : marks before = ms ++ [m'])
    (hm' : m' ≠ .symbol equals ∧ (m' = .word "require" → ¬IsAssigned after)) :
    Follows (h.push m) before after where
  last := fun hlast => absurd hlast hm.1
  assigns := fun hassigns => absurd ((History.assignsRequire_iff _).mp hassigns).1 hm.2
  name := fun hname => by
    rw [hms, suffix_concat_iff] at hname
    exact .inr (hm'.2 hname.symm)
  assigned := fun hassigned => by
    rw [AssignsRequire, hms, suffix_pair_concat_iff] at hassigned
    exact absurd hassigned.1.symm hm'.1

theorem mark?_of_endsCall {l : Lexeme} (h : l.endsCall = true) :
    ∃ m, mark? l = some m ∧ m ≠ .symbol equals ∧ m ≠ .word "require" := by
  cases l with
  | quoted q body => exact ⟨_, rfl, by simp, by simp⟩
  | bracketed level body => exact ⟨_, rfl, by simp, by simp⟩
  | symbol u =>
    refine ⟨_, rfl, ?_, by simp⟩
    simp only [Lexeme.endsCall, Bool.or_eq_true, beq_iff_eq] at h
    rcases h with rfl | rfl <;> decide
  | _ => cases h

theorem markOf_site {w : Text} {site : RequireSite} {rest : Option (List Token)} :
    markOf w ⟨some site, rest⟩ ≠ .word "require" ∧ markOf w ⟨some site, rest⟩ ≠ .symbol equals := by
  rw [markOf]
  split
  · exact ⟨by simp, by decide⟩
  · rename_i hw
    exact ⟨fun he => hw ⟨Mark.word.inj he, rfl⟩, by simp⟩

theorem Follows.use {w : Text} {p : Position} {site : Option RequireSite} {after : List Token}
    {q : Position} {s : Text} (hf : Follows h before (⟨.word w, p⟩ :: ts))
    (hts : ts = Token.place q (lexemes s)) (hu : use? h w p ts = some ⟨site, some after⟩) :
    ∃ taken, ⟨.word w, p⟩ :: ts = taken ++ after ∧
      Follows (h.push (markOf w ⟨site, some after⟩)) (before ++ taken) after := by
  cases site with
  | none =>
    obtain ⟨rfl, hrest⟩ := use?_assigned hu
    obtain rfl := Option.some.inj hrest
    exact ⟨[_], rfl, hf.mark rfl hts⟩
  | some site =>
    rcases takes_use? hu with ⟨hw, rfl⟩ | ⟨taken, x, rfl, _, hx⟩
    · refine ⟨[_], rfl, follows_of_last markOf_site (marks_append _ _) ⟨by simp, fun _ => ?_⟩⟩
      exact not_isAssigned_of_use? hw hu
    · obtain ⟨m, hm, hequals, hrequire⟩ := mark?_of_endsCall hx
      refine ⟨⟨.word w, p⟩ :: taken ++ [x], by simp, ?_⟩
      have hmarks : marks (before ++ (⟨.word w, p⟩ :: taken ++ [x])) =
          marks (before ++ ⟨.word w, p⟩ :: taken) ++ [m] := by
        rw [← List.append_assoc, marks_append, marks_singleton hm]
      exact follows_of_last markOf_site hmarks ⟨hequals, fun he => absurd he hrequire⟩

/-- A step goes on with tokens that the history knows the last ones before of. -/
theorem Step.follows {sites : List RequireSite} {h' : History} {ts' : List Token} {q : Position}
    {s : Text} (hs : Step h ts sites h' ts') (hts : ts = Token.place q (lexemes s))
    (hf : Follows h before ts) : ∃ taken, ts = taken ++ ts' ∧ Follows h' (before ++ taken) ts' := by
  have htail : ∀ {t : Token} {rest : List Token}, ts = t :: rest →
      ∃ q s, rest = Token.place q (lexemes s) := by
    rintro t rest rfl
    exact Token.exists_text_of_suffix hts (List.suffix_cons t rest)
  cases hs with
  | @gap t _ ht => exact ⟨[t], rfl, hf.gap ht⟩
  | @mark t _ m hm _ =>
    obtain ⟨q, s, hrest⟩ := htail rfl
    exact ⟨[t], rfl, hf.mark hm hrest⟩
  | use hu =>
    obtain ⟨q, s, hrest⟩ := htail rfl
    exact hf.use hrest hu

theorem Steps.follows {sites : List RequireSite} {h' : History} {ts' : List Token} {q : Position}
    {s : Text} (hs : Steps h ts sites h' ts') (hts : ts = Token.place q (lexemes s))
    (hf : Follows h before ts) : ∃ taken, ts = taken ++ ts' ∧ Follows h' (before ++ taken) ts' := by
  induction hs generalizing before q s with
  | refl => exact ⟨[], rfl, by rwa [List.append_nil]⟩
  | step hstep _ ih =>
    obtain ⟨first, hfirst, hf'⟩ := hstep.follows hts hf
    obtain ⟨q', s', hts'⟩ := Token.exists_text_of_suffix hts ⟨first, hfirst.symm⟩
    obtain ⟨taken, htaken, hf''⟩ := ih hts' hf'
    refine ⟨first ++ taken, by rw [hfirst, htaken, List.append_assoc], ?_⟩
    rwa [← List.append_assoc]

/-- Where a scan comes to a word, the history tells whether the tokens before it assign to
`require`. -/
theorem Steps.exists_before {t w : Text} {p : Position} {sites : List RequireSite}
    (hs : Steps .empty (tokens t) sites h (⟨.word w, p⟩ :: ts)) :
    ∃ before, tokens t = before ++ ⟨.word w, p⟩ :: ts ∧
      (h.assignsRequire = true ↔ AssignsRequire before) := by
  obtain ⟨before, hsplit, hf⟩ := hs.follows (tokens_eq t) (follows_empty _)
  refine ⟨before, hsplit, hf.assigns, fun hassigns => ?_⟩
  rcases hf.assigned hassigns with h | ⟨q, rest, he⟩
  · exact h
  · cases (List.cons.inj he).1

end History

/-! What a use is given. -/

section Argument

/-- The arguments start with a string that is not closed or, in a protected call, with a literal and
a comma: a scan reads no further for the name. -/
def StartsWithString (protectedCall : Bool) (ts : List Token) : Prop :=
  ∃ x rest, significant? ts = some (x :: rest) ∧ ((∃ s, x.lexeme = .openString s) ∨
    protectedCall = true ∧ (literal? x.lexeme).isSome ∧
      ∃ q after, significant? rest = some (⟨.symbol comma, q⟩ :: after))

/-- An argument list that holds blanks alone, or where it is not closed, that holds blanks alone up
to the end of the line. -/
inductive Blank (protectedCall : Bool) (ts : List Token) : Prop
  | closed {inside after : List Token}
    (hinside : balanced? leftParen rightParen 0 ts = some (inside, after))
    (hblank : ∀ u ∈ source inside, isBlank u = true)
  | unclosed (hopen : balanced? leftParen rightParen 0 ts = none)
    (hblank : ∀ u ∈ firstLine (source ts), isBlank u = true)
    (hstring : ¬StartsWithString protectedCall ts)

/-- A use that is given nothing. -/
inductive GivenNothing (ts : List Token) : Text → Prop
  /-- It is no call. -/
  | uncalled (h : ∀ us, significant? ts = some us → ∀ t ∈ us.head?, t.lexeme.opensCall = false) :
    GivenNothing ts "require"
  | called {q : Position} {rest : List Token}
    (hts : significant? ts = some (⟨.symbol leftParen, q⟩ :: rest)) (hblank : Blank false rest) :
    GivenNothing ts "require"
  | inPcall {q q' q'' : Position} {parens names commas : List Token}
    (hparens : significant? ts = some (⟨.symbol leftParen, q⟩ :: parens))
    (hnames : significant? parens = some (⟨.word "require", q'⟩ :: names))
    (hcommas : significant? names = some (⟨.symbol comma, q''⟩ :: commas))
    (hblank : Blank true commas) : GivenNothing ts "pcall"

variable {position : Position} {protectedCall : Bool} {ts : List Token} {raw : Text}

theorem computed_empty_iff : (computed position raw).rawArgument = [] ↔
    ∀ u ∈ raw, isBlank u = true :=
  trim_collapseBlanks_eq_nil_iff raw

theorem restOfLine_blank_iff : (∀ u ∈ restOfLine ts, isBlank u = true) ↔
    ∀ u ∈ firstLine (source ts), isBlank u = true :=
  forall_mem_trim _

theorem balanced?_eq_none_of_unread {opener close : UInt16} {depth : Nat}
    (h : significant? ts = none) : balanced? opener close depth ts = none := by
  induction ts with
  | nil => cases h
  | cons t ts ih =>
    obtain ⟨l, p⟩ := t
    cases l with
    | blank u => exact Option.map_eq_none_iff.mpr (ih h)
    | comment s => exact Option.map_eq_none_iff.mpr (ih h)
    | openComment s => rfl
    | _ => cases h

theorem balanced?_of_literal {opener close : UInt16} {x : Token}
    {rest after : List Token} {q : Position} (hts : significant? ts = some (x :: rest))
    (hx : (literal? x.lexeme).isSome)
    (hrest : significant? rest = some (⟨.symbol close, q⟩ :: after)) :
    (balanced? opener close 0 ts).isSome := by
  obtain ⟨gap, hgap, rfl, _⟩ := Token.significant?_eq_some hts
  obtain ⟨gap', hgap', rfl, _⟩ := Token.significant?_eq_some hrest
  have hends := endsCall_of_literal? hx
  have hsymbol : ∀ u, x.lexeme ≠ .symbol u := by
    intro u he
    rw [he] at hx
    cases hx
  rw [Token.balanced?_append hgap, Token.balanced?_inside (Lexeme.isOpen_of_endsCall hends)
    (hsymbol _), if_neg (hsymbol _), Token.balanced?_append hgap', Token.balanced?_close]
  rfl

theorem suffix_tail {t : Token} {rest : List Token} (h : significant? ts = some (t :: rest)) :
    rest <:+ ts :=
  (List.suffix_cons t rest).trans (Token.suffix_of_significant? h)

/-- Tokens of a text that are blank as text are blanks. -/
theorem isGap_of_blank {inside : List Token} {p : Position} {s : Text}
    (hsub : ∀ t ∈ inside, t ∈ Token.place p (lexemes s))
    (hblank : ∀ u ∈ source inside, isBlank u = true) : IsGap inside := by
  intro t ht
  rcases lexemes_start _ (Token.mem_lexemes_of_mem_place (hsub t ht)) with
    ⟨u, he, _⟩ | ⟨u, rest, htext, hu⟩
  · rw [he]
    rfl
  · have hmem : u ∈ source inside := List.mem_flatMap.mpr ⟨t, ht, by simp [htext]⟩
    rw [hblank u hmem] at hu
    cases hu

/-- The rest of a line from a token of the program on is not blank. -/
theorem firstLine_not_blank {t : Token} {rest : List Token} {p : Position} {s : Text}
    (ht : t ∈ Token.place p (lexemes s)) (hgap : t.lexeme.isGap = false) :
    ¬∀ u ∈ firstLine (source (t :: rest)), isBlank u = true := by
  intro hblank
  rcases lexemes_start _ (Token.mem_lexemes_of_mem_place ht) with
    ⟨u, he, _⟩ | ⟨u, more, htext, hu⟩
  · rw [he] at hgap
    cases hgap
  · have hfeed : u ≠ lineFeed := by
      rintro rfl
      exact absurd hu (by decide)
    have hmem : u ∈ firstLine (source (t :: rest)) := by
      simp [source, htext, firstLine, hfeed]
    rw [hblank u hmem] at hu
    cases hu

/-- Arguments that hold blanks alone make a site without a name or an argument. -/
theorem Blank.readArguments_eq {p : Position} {s : Text} (hts : ts = Token.place p (lexemes s))
    (h : Blank protectedCall ts) :
    ∃ raw, (readArguments position protectedCall ts).site = some (.computed position raw) ∧
      ∀ u ∈ raw, isBlank u = true := by
  cases h with
  | @closed inside after hinside hblank =>
    obtain ⟨q, hsplit, _⟩ := Token.balanced?_eq_some hinside
    have hgap : IsGap inside := isGap_of_blank
      (fun t ht => hts ▸ hsplit ▸ List.mem_append_left _ ht) hblank
    have hsignificant : significant? ts = some (⟨.symbol rightParen, q⟩ :: after) := by
      rw [hsplit, Token.significant?_append hgap]
      rfl
    refine ⟨source inside, ?_, hblank⟩
    rw [readArguments_of_no_literal hsignificant (by simp) (by simp [literal?]), readComputed,
      hinside]
  | unclosed hopen hblank hstring =>
    refine ⟨restOfLine ts, ?_, restOfLine_blank_iff.mpr hblank⟩
    have hread := argumentsRead position protectedCall ts
    generalize readArguments position protectedCall ts = use at hread
    cases hread with
    | unread => rfl
    | openString hts => exact absurd ⟨_, _, hts, .inl ⟨_, rfl⟩⟩ hstring
    | literal hts hx hrest =>
      have hclosed : (balanced? leftParen rightParen 0 ts).isSome :=
        balanced?_of_literal hts (by simp [hx]) hrest
      rw [hopen] at hclosed
      cases hclosed
    | first hts hx hrest hprotected =>
      exact absurd ⟨_, _, hts, .inr ⟨hprotected, by simp [hx], _, _, hrest⟩⟩ hstring
    | computed => rw [readComputed, hopen]

/-- What stands on a line from an open string on is no empty argument. -/
theorem openString_not_empty {p q : Position} {s string : Text} {rest : List Token}
    (hts : ts = Token.place p (lexemes s))
    (hopen : significant? ts = some (⟨.openString string, q⟩ :: rest)) :
    (computed position (restOfLine (⟨.openString string, q⟩ :: rest))).rawArgument ≠ [] := by
  obtain ⟨gap, _, hsplit, _⟩ := Token.significant?_eq_some hopen
  intro hraw
  rw [computed_empty_iff, restOfLine_blank_iff] at hraw
  have hmem : _ ∈ Token.place p (lexemes s) :=
    hts ▸ hsplit ▸ List.mem_append_right gap List.mem_cons_self
  exact firstLine_not_blank hmem rfl hraw

theorem blank_of_readArguments {site : RequireSite} {p : Position} {s : Text}
    (hts : ts = Token.place p (lexemes s))
    (hsite : (readArguments position protectedCall ts).site = some site)
    (hname : site.moduleName = none) (hraw : site.rawArgument = []) : Blank protectedCall ts := by
  have hread := argumentsRead position protectedCall ts
  generalize readArguments position protectedCall ts = use at hsite hread
  cases hread with
  | unread hnone =>
    obtain rfl := Option.some.inj hsite
    rw [computed_empty_iff, restOfLine_blank_iff] at hraw
    refine .unclosed (balanced?_eq_none_of_unread hnone) hraw ?_
    rintro ⟨x, rest, hsome, _⟩
    rw [hnone] at hsome
    cases hsome
  | openString hopen =>
    obtain rfl := Option.some.inj hsite
    exact absurd hraw (openString_not_empty hts hopen)
  | literal =>
    obtain rfl := Option.some.inj hsite
    cases hname
  | first =>
    obtain rfl := Option.some.inj hsite
    cases hname
  | @computed us hus hopen hliteral =>
    unfold readComputed at hsite
    split at hsite
    · rename_i inside after hinside
      obtain rfl := Option.some.inj hsite
      exact .closed hinside (computed_empty_iff.mp hraw)
    · rename_i hunclosed
      obtain rfl := Option.some.inj hsite
      rw [computed_empty_iff, restOfLine_blank_iff] at hraw
      refine .unclosed hunclosed hraw ?_
      rintro ⟨x, rest, hx, hstring⟩
      obtain rfl := Option.some.inj (hus.symm.trans hx)
      rcases hstring with ⟨s', hs'⟩ | ⟨hprotected, hname, q, after, hrest⟩
      · exact hopen x rfl s' hs'
      · exact (hliteral x rest rfl hname comma q after hrest).2 ⟨hprotected, rfl⟩

theorem GivenNothing.of_readCall {site : RequireSite} {p : Position} {s : Text}
    (hts : ts = Token.place p (lexemes s)) (hsite : (readCall position ts).site = some site)
    (hname : site.moduleName = none) (hraw : site.rawArgument = []) :
    GivenNothing ts "require" := by
  have hread := callRead position ts
  generalize readCall position ts = use at hsite hread
  cases hread with
  | unread hnone =>
    refine .uncalled fun us hus => ?_
    rw [hnone] at hus
    cases hus
  | openString hopen =>
    obtain rfl := Option.some.inj hsite
    exact absurd hraw (openString_not_empty hts hopen)
  | assigned => cases hsite
  | bare hus hcall =>
    refine .uncalled fun us' hus' => ?_
    rw [hus] at hus'
    exact Option.some.inj hus' ▸ hcall
  | arguments hparen =>
    obtain ⟨p', s', hrest⟩ := Token.exists_text_of_suffix hts (suffix_tail hparen)
    exact .called hparen (blank_of_readArguments hrest hsite hname hraw)
  | table =>
    obtain rfl := Option.some.inj hsite
    exact absurd (computed_empty_iff.mp hraw leftBrace (by simp)) (by decide)
  | openTable =>
    obtain rfl := Option.some.inj hsite
    exact absurd (computed_empty_iff.mp hraw leftBrace (by simp [source, Lexeme.text])) (by decide)
  | literal =>
    obtain rfl := Option.some.inj hsite
    cases hname

theorem GivenNothing.readCall_eq {p : Position} {s : Text} (hts : ts = Token.place p (lexemes s))
    (h : GivenNothing ts "require") (hassigned : ¬IsAssigned ts) :
    ∃ raw, (readCall position ts).site = some (.computed position raw) ∧
      ∀ u ∈ raw, isBlank u = true := by
  cases h with
  | uncalled hcall =>
    refine ⟨[], ?_, by simp⟩
    cases hus : significant? ts with
    | none => rw [readCall, hus]
    | some us => rw [readCall_bare hus (hcall us hus) hassigned]
  | called hparen hblank =>
    obtain ⟨p', s', hrest⟩ := Token.exists_text_of_suffix hts (suffix_tail hparen)
    rw [readCall_symbol hparen, if_pos rfl]
    exact hblank.readArguments_eq hrest

theorem GivenNothing.blank {q q' q'' : Position} {parens names commas : List Token}
    (h : GivenNothing ts "pcall")
    (hparens : significant? ts = some (⟨.symbol leftParen, q⟩ :: parens))
    (hnames : significant? parens = some (⟨.word "require", q'⟩ :: names))
    (hcommas : significant? names = some (⟨.symbol comma, q''⟩ :: commas)) : Blank true commas := by
  cases h with
  | inPcall hparens' hnames' hcommas' hblank =>
    obtain ⟨_, rfl⟩ := List.cons.inj (Option.some.inj (hparens.symm.trans hparens'))
    obtain ⟨_, rfl⟩ := List.cons.inj (Option.some.inj (hnames.symm.trans hnames'))
    obtain ⟨_, rfl⟩ := List.cons.inj (Option.some.inj (hcommas.symm.trans hcommas'))
    exact hblank

/-- A use makes a site without a name and an argument where it is given nothing. -/
theorem use?_empty_iff {h : History} {w : Text} {p q : Position} {s : Text} {site : RequireSite}
    {rest : Option (List Token)} (hts : ts = Token.place q (lexemes s))
    (hu : use? h w p ts = some ⟨some site, rest⟩) :
    (site.moduleName = none ∧ site.rawArgument = []) ↔ GivenNothing ts w := by
  have hu' := hu
  rw [use?] at hu'
  split at hu'
  · rename_i hw
    obtain ⟨rfl, _⟩ := hw
    have hsite := congrArg Use.site (Option.some.inj hu')
    constructor
    · rintro ⟨hname, hraw⟩
      exact .of_readCall hts hsite hname hraw
    · intro hgiven
      obtain ⟨raw, hcomputed, hblank⟩ := hgiven.readCall_eq hts (not_isAssigned_of_use? rfl hu)
      obtain rfl := Option.some.inj (hsite.symm.trans hcomputed)
      exact ⟨rfl, computed_empty_iff.mpr hblank⟩
  · split at hu'
    · rename_i hw
      subst hw
      obtain ⟨q', position, q'', parens, names, commas, hparens, hnames, hcommas, huse⟩ :=
        readProtected?_eq_some hu'
      have hsite := (congrArg Use.site huse).symm
      obtain ⟨r, s', hrest⟩ := Token.exists_text_of_suffix hts
        ((suffix_tail hcommas).trans ((suffix_tail hnames).trans (suffix_tail hparens)))
      constructor
      · rintro ⟨hname, hraw⟩
        exact .inPcall hparens hnames hcommas (blank_of_readArguments hrest hsite hname hraw)
      · intro hgiven
        have hempty := hgiven.blank hparens hnames hcommas
        obtain ⟨raw, hcomputed, hblank⟩ := @Blank.readArguments_eq position _ _ _ _ hrest hempty
        obtain rfl := Option.some.inj (hsite.symm.trans hcomputed)
        exact ⟨rfl, computed_empty_iff.mpr hblank⟩
    · cases hu'

end Argument

/-- A scan drops a use of the global `require` that it comes to just where the use is given nothing
and follows an assignment to the name `require`, whatever stands before that; any other use has its
site. -/
theorem dropped_iff {t w : Text} {p : Position} {ts : List Token} {h : History}
    {sites : List RequireSite} {site : RequireSite} {rest : Option (List Token)}
    (hs : Steps .empty (tokens t) sites h (⟨.word w, p⟩ :: ts))
    (hu : use? h w p ts = some ⟨some site, rest⟩) :
    ∃ before, tokens t = before ++ ⟨.word w, p⟩ :: ts ∧
      ((∀ s ∈ scan t, s.position ≠ site.position) ↔ AssignsRequire before ∧ GivenNothing ts w) ∧
      (site ∈ scan t ↔ ¬(AssignsRequire before ∧ GivenNothing ts w)) := by
  obtain ⟨before, hsplit, hassigns⟩ := hs.exists_before
  refine ⟨before, hsplit, ?_⟩
  have hsuffix : ts <:+ tokens t := hsplit ▸ ⟨before ++ [⟨.word w, p⟩], by simp⟩
  obtain ⟨q, s, hts⟩ := Token.exists_text_of_suffix (tokens_eq t) hsuffix
  have hkeeps : keepsName h site = true ↔ AssignsRequire before ∧ GivenNothing ts w := by
    rw [keepsName_iff, use?_empty_iff hts hu, hassigns]
    exact and_comm
  obtain ⟨hmem, hnone⟩ := mem_scan_iff hs hu
  exact ⟨hnone.trans hkeeps, by rw [hmem, ← hkeeps, Bool.not_eq_true]⟩

/-- The field of a table that holds `require` under its own name. -/
theorem dropped_field :
    ∃ sites h p before site rest,
      Steps .empty (tokens "M.require = require") sites h [⟨.word "require", p⟩] ∧
      use? h "require" p [] = some ⟨some site, rest⟩ ∧
      tokens "M.require = require" = before ++ [⟨.word "require", p⟩] ∧
      [.symbol dot, .word "require", .symbol equals] <:+ marks before ∧
      ∀ s ∈ scan "M.require = require", s.position ≠ site.position := by
  let p : Position := ⟨1, 13⟩
  let front : List Token := [⟨.word "M", ⟨1, 1⟩⟩, ⟨.symbol dot, ⟨1, 2⟩⟩,
    ⟨.word "require", ⟨1, 3⟩⟩, ⟨.blank space, ⟨1, 10⟩⟩, ⟨.symbol equals, ⟨1, 11⟩⟩,
    ⟨.blank space, ⟨1, 12⟩⟩]
  have htokens : tokens "M.require = require" = front ++ [⟨.word "require", p⟩] := by
    decide +kernel
  have hs : Steps .empty (tokens "M.require = require") []
      ⟨.symbol equals, .word "require"⟩ [⟨.word "require", p⟩] := by
    rw [htokens]
    have plain : ∀ {w v : Text} {h : History} {q : Position} {ts : List Token},
        use? h v q ts = none → Lexeme.word v = .word w → use? h w q ts = none := by
      rintro w v h q ts hu he
      rwa [← Lexeme.word.inj he]
    exact .step (.mark rfl fun w => plain (by decide)) <|
      .step (.mark rfl (by simp)) <|
      .step (.mark rfl fun w => plain (by decide)) <|
      .step (.gap rfl) <| .step (.mark rfl (by simp)) <| .step (.gap rfl) .refl
  have hu : use? ⟨.symbol equals, .word "require"⟩ "require" p [] =
      some ⟨some (computed p []), some []⟩ := by decide
  obtain ⟨before, hsplit, hdropped, _⟩ := dropped_iff hs hu
  obtain rfl : before = front := List.append_cancel_right (hsplit.symm.trans htokens)
  have hmarks : marks front =
      [.word "M"] ++ [.symbol dot, .word "require", .symbol equals] := by decide
  have hassigns : AssignsRequire front := ⟨[.word "M", .symbol dot], hmarks.symm⟩
  refine ⟨[], _, p, front, _, _, hs, hu, hsplit, ⟨_, hmarks.symm⟩, hdropped.mpr ⟨hassigns, ?_⟩⟩
  exact .uncalled fun us hus => by simp [← Option.some.inj hus]

end RequireSite

end LuaBundle
