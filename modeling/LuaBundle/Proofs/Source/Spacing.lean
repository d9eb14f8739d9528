import LuaBundle.Proofs.Source.Embedding
import LuaBundle.Proofs.Source.Rebinding
import LuaBundle.Proofs.Source.Respacing

/-! A scan of the same code with other blanks and comments. Each use is read the same, up to the
spaces in a computed argument, so that the scan finds sites of the same names. Only arguments that
hold nothing but blanks and comments tell the two apart. -/

namespace LuaBundle

open Text

/-- A lexeme of the code is not blank. -/
theorem Lexeme.Formed.exists_not_blank {l : Lexeme} (h : l.Formed) (hl : l.isGap = false) :
    ∃ u ∈ l.text, isBlank u = false := by
  cases l with
  | blank u => cases hl
  | comment c => cases hl
  | word w =>
    obtain ⟨u, rest, rfl⟩ := List.exists_cons_of_ne_nil h.1
    exact ⟨u, List.mem_cons_self, RequireSite.isBlank_eq_false_of_isWordUnit
      (h.2 u List.mem_cons_self)⟩
  | quoted q body =>
    refine ⟨q, List.mem_cons_self, ?_⟩
    rcases h.1 with rfl | rfl <;> decide
  | bracketed level body => exact ⟨leftBracket, List.mem_cons_self, by decide⟩
  | symbol u => exact ⟨u, List.mem_cons_self, h.1⟩
  | openComment s => exact h.elim
  | openString s => exact h.elim

namespace Token

variable {ts ts' : List Token}

theorem SameCode.symm (h : SameCode ts ts') : SameCode ts' ts := by
  induction h with
  | nil => exact .nil
  | code hl hform _ ih => exact .code hl hform ih
  | gap hgap hgap' _ ih => exact .gap hgap' hgap ih

/-- The next token of the code, with what follows it. -/
theorem SameCode.next_or_end (h : SameCode ts ts') :
    (significant? ts = some [] ∧ significant? ts' = some []) ∨
      ∃ l p p' rest rest', significant? ts = some (⟨l, p⟩ :: rest) ∧
        significant? ts' = some (⟨l, p'⟩ :: rest') ∧ l.isGap = false ∧ l.Formed ∧
        SameCode rest rest' := by
  induction h with
  | nil => exact .inl ⟨rfl, rfl⟩
  | @code l p p' ts ts' hl hform h _ =>
    have hopen : ∀ s, l ≠ .openComment s := by
      rintro s rfl
      exact hform.elim
    exact .inr ⟨l, p, p', ts, ts', significant?_token hl hopen ts, significant?_token hl hopen ts',
      hl, hform, h⟩
  | gap hgap hgap' _ ih =>
    rwa [significant?_append hgap.isGap, significant?_append hgap'.isGap]

theorem SameCode.next {l : Lexeme} {p : Position} {rest : List Token} (h : SameCode ts ts')
    (hts : significant? ts = some (⟨l, p⟩ :: rest)) :
    ∃ p' rest', significant? ts' = some (⟨l, p'⟩ :: rest') ∧ SameCode rest rest' ∧ l.Formed := by
  rcases h.next_or_end with ⟨hnil, _⟩ | ⟨l', q, q', us, us', hus, hus', _, hform, hrest⟩
  · rw [hnil] at hts
    cases hts
  · obtain ⟨hl, rfl⟩ := List.cons.inj (Option.some.inj (hus.symm.trans hts))
    obtain ⟨rfl, rfl⟩ := Token.mk.inj hl
    exact ⟨q', us', hus', hrest, hform⟩

theorem SameCode.exists_significant? (h : SameCode ts ts') : ∃ us, significant? ts = some us := by
  rcases h.next_or_end with ⟨hnil, _⟩ | ⟨_, _, _, _, _, hus, _⟩
  · exact ⟨_, hnil⟩
  · exact ⟨_, hus⟩

theorem source_append_head? {x : Token} (hx : x.lexeme.Formed) (ts : List Token) :
    (source (x :: ts)).head? = x.lexeme.text.head? :=
  head?_flatMap_text hx (source ts)

theorem IsSpace.head?_source {gap : List Token} (h : IsSpace gap) (ts : List Token) :
    (source (gap ++ ts)).head? ≠ some equals := by
  obtain ⟨x, more, rfl⟩ := List.exists_cons_of_ne_nil h.ne_nil
  have hx := h.formed x List.mem_cons_self
  obtain ⟨u, hu, hor⟩ := hx.head?_gap (h.isGap x List.mem_cons_self)
  rw [List.cons_append, source_append_head? hx, hu]
  intro he
  obtain rfl := Option.some.inj he
  exact absurd hor (by decide)

theorem SameCode.head?_source (h : SameCode ts ts') :
    (source ts).head? = some equals ↔ (source ts').head? = some equals := by
  cases h with
  | nil => rfl
  | code hl hform => rw [source_append_head? hform, source_append_head? hform]
  | gap hgap hgap' => exact iff_of_false (hgap.head?_source _) (hgap'.head?_source _)

/-- A token is the bracket that is looked for, or the search goes on after it, whatever follows. -/
theorem balanced?_token {opener close : UInt16} {l : Lexeme} (hopen : l.isOpen = false)
    (depth : Nat) : l = .symbol close ∧ depth = 0 ∨ ∃ d, ∀ (p : Position) (ts : List Token),
      balanced? opener close depth (⟨l, p⟩ :: ts) =
        (balanced? opener close d ts).map fun r => (⟨l, p⟩ :: r.1, r.2) := by
  by_cases hclose : l = .symbol close
  · cases depth with
    | zero => exact .inl ⟨hclose, rfl⟩
    | succ depth =>
      refine .inr ⟨depth, fun p ts => ?_⟩
      rw [hclose, balanced?.eq_def]
      exact if_pos rfl
  · exact .inr ⟨if l = .symbol opener then depth + 1 else depth, fun p ts =>
      balanced?_inside (t := ⟨l, p⟩) hopen hclose ts⟩

/-- A bracket is closed at the same token of the code. -/
theorem SameCode.closes {opener close : UInt16} {depth : Nat} {inside after : List Token}
    (h : SameCode ts ts') (hts : balanced? opener close depth ts = some (inside, after)) :
    ∃ inside' after', balanced? opener close depth ts' = some (inside', after') ∧
      SameCode inside inside' ∧ SameCode after after' := by
  induction h generalizing depth inside after with
  | nil => cases hts
  | @code l p p' ts ts' hl hform h ih =>
    rcases @balanced?_token opener close _ hform.isOpen depth with ⟨rfl, rfl⟩ | ⟨d, hgo⟩
    · rw [balanced?_close] at hts
      obtain ⟨rfl, rfl⟩ := Prod.mk.inj (Option.some.inj hts)
      exact ⟨[], ts', balanced?_close _ _, .nil, h⟩
    · rw [hgo] at hts
      obtain ⟨⟨i, a⟩, hrest, he⟩ := Option.map_eq_some_iff.mp hts
      obtain ⟨rfl, rfl⟩ := Prod.mk.inj he
      obtain ⟨i', a', hrest', hi, ha⟩ := ih hrest
      exact ⟨_, _, by rw [hgo, hrest']; rfl, .code hl hform hi, ha⟩
  | @gap gap gap' ts ts' hgap hgap' h ih =>
    rw [balanced?_append hgap.isGap] at hts
    obtain ⟨⟨i, a⟩, hrest, he⟩ := Option.map_eq_some_iff.mp hts
    obtain ⟨rfl, rfl⟩ := Prod.mk.inj he
    obtain ⟨i', a', hrest', hi, ha⟩ := ih hrest
    exact ⟨_, _, by rw [balanced?_append hgap'.isGap, hrest']; rfl, .gap hgap hgap' hi, ha⟩

theorem SameCode.eq_nil (h : SameCode ts ts') (hts : ts = []) : ts' = [] := by
  cases h with
  | nil => rfl
  | code => cases hts
  | gap hgap => exact absurd (List.append_eq_nil_iff.mp hts).1 hgap.ne_nil

theorem SameCode.isGap (h : SameCode ts ts') (hts : IsGap ts) : IsGap ts' := by
  induction h with
  | nil => exact hts
  | code hl =>
    have hgap := hts _ List.mem_cons_self
    rw [hl] at hgap
    cases hgap
  | gap _ hgap' _ ih =>
    exact List.forall_mem_append.mpr ⟨hgap'.isGap, ih (List.forall_mem_append.mp hts).2⟩

theorem SameCode.exists_not_blank (h : SameCode ts ts') (hts : ¬IsGap ts) :
    ∃ u ∈ source ts', isBlank u = false := by
  induction h with
  | nil => exact absurd (by simp [IsGap]) hts
  | code hl hform =>
    obtain ⟨u, hu, hblank⟩ := hform.exists_not_blank hl
    exact ⟨u, List.mem_append_left _ hu, hblank⟩
  | @gap _ gap' _ ts' hgap _ _ ih =>
    obtain ⟨u, hu, hblank⟩ := ih fun h => hts (List.forall_mem_append.mpr ⟨hgap.isGap, h⟩)
    rw [source_append]
    exact ⟨u, List.mem_append_right _ hu, hblank⟩

end Token

namespace RequireSite

open Token (SameCode significant? balanced? source IsGap)

/-! What a use makes of the same code. -/

/-- A site of the same name, with an argument where the other has one. -/
structure Matches (site site' : RequireSite) : Prop where
  moduleName : site'.moduleName = site.moduleName
  empty : site'.rawArgument = [] ↔ site.rawArgument = []

/-- Uses that take the same code. -/
structure SameUse (use use' : Use) : Prop where
  site : Option.Rel Matches use.site use'.site
  rest : Option.Rel SameCode use.rest use'.rest

/-- Arguments that hold nothing but blanks and comments, at least one. -/
def HoldsSpace (ts : List Token) : Prop :=
  ∃ gap q after, gap ≠ [] ∧ IsGap gap ∧ ts = gap ++ ⟨.symbol rightParen, q⟩ :: after

theorem not_holdsSpace {ts rest : List Token} {t : Token} (hts : significant? ts = some (t :: rest))
    (ht : t.lexeme ≠ .symbol rightParen) : ¬HoldsSpace ts := by
  rintro ⟨gap, q, after, _, hgap, rfl⟩
  rw [Token.significant?_append hgap, Token.significant?_token rfl (by simp)] at hts
  obtain ⟨rfl, _⟩ := List.cons.inj (Option.some.inj hts)
  exact ht rfl

/-- A call of `require`, by itself or in `pcall`, with nothing but blanks and comments for its
arguments. -/
inductive GivenSpace (ts : List Token) : Text → Prop
  | called {q : Position} {rest : List Token}
    (hts : significant? ts = some (⟨.symbol leftParen, q⟩ :: rest)) (hspace : HoldsSpace rest) :
    GivenSpace ts "require"
  | inPcall {q q' q'' : Position} {parens names commas : List Token}
    (hparens : significant? ts = some (⟨.symbol leftParen, q⟩ :: parens))
    (hnames : significant? parens = some (⟨.word "require", q'⟩ :: names))
    (hcommas : significant? names = some (⟨.symbol comma, q''⟩ :: commas))
    (hspace : HoldsSpace commas) : GivenSpace ts "pcall"

section Use

variable {ts ts' : List Token} {p p' : Position} {protectedCall : Bool}

theorem matches_computed (hs : SameCode ts ts') (hts : ts = [] ∨ ¬IsGap ts) :
    Matches (computed p (source ts)) (computed p' (source ts')) := by
  refine ⟨rfl, ?_⟩
  rw [computed_empty_iff, computed_empty_iff]
  rcases hts with rfl | hts
  · rw [hs.eq_nil rfl]
  · obtain ⟨u, hu, hblank⟩ := hs.exists_not_blank hts
    obtain ⟨v, hv, hblank'⟩ := hs.symm.exists_not_blank fun hgap => hts (hs.symm.isGap hgap)
    refine iff_of_false (fun hall => ?_) fun hall => ?_
    · rw [hall u hu] at hblank
      cases hblank
    · rw [hall v hv] at hblank'
      cases hblank'

theorem sameUse_readComputed (hs : SameCode ts ts') (hspace : ¬HoldsSpace ts)
    (hrest : (readComputed p ts).rest.isSome) :
    SameUse (readComputed p ts) (readComputed p' ts') := by
  unfold readComputed at hrest ⊢
  split at hrest
  · rename_i inside after hinside
    obtain ⟨inside', after', hinside', hsame, hafter⟩ := hs.closes hinside
    rw [hinside']
    refine ⟨.some (matches_computed hsame ?_), .some hafter⟩
    obtain ⟨q, hsplit, _⟩ := Token.balanced?_eq_some hinside
    by_cases hne : inside = []
    · exact .inl hne
    · exact .inr fun hgap => hspace ⟨inside, q, after, hne, hgap, hsplit⟩
  · cases hrest

/-- Arguments that are read up to their parenthesis are read so with other blanks. -/
theorem readArguments_eq_readComputed_of {us : List Token} (hs : SameCode ts ts')
    (hts : significant? ts = some us) (hopen : ∀ t ∈ us.head?, ∀ s, t.lexeme ≠ .openString s)
    (hliteral : ∀ x rest, us = x :: rest → (literal? x.lexeme).isSome → ∀ u q after,
      significant? rest = some (⟨.symbol u, q⟩ :: after) →
        u ≠ rightParen ∧ ¬(protectedCall = true ∧ u = comma)) :
    readArguments p' protectedCall ts' = readComputed p' ts' := by
  -- Any other reading of `ts'` would be one of `ts`, which the hypotheses exclude.
  refine readArguments_to_close ?_ ?_ ?_
  · obtain ⟨us', hus'⟩ := hs.symm.exists_significant?
    exact Option.isSome_of_eq_some hus'
  · intro s q' rest' hfirst
    obtain ⟨_, _, hx, _⟩ := hs.symm.next hfirst
    obtain rfl := Option.some.inj (hts.symm.trans hx)
    exact hopen _ rfl _ rfl
  · intro x rest' u q' after' hfirst hx hafter
    obtain ⟨q, rest, hnext, hs', _⟩ := hs.symm.next hfirst
    obtain ⟨_, _, hsymbol, _⟩ := hs'.next hafter
    obtain rfl := Option.some.inj (hts.symm.trans hnext)
    exact hliteral ⟨x.lexeme, q⟩ rest rfl hx _ _ _ hsymbol

theorem sameUse_literal {name raw : Text} {after after' : List Token} (h : SameCode after after') :
    SameUse ⟨some (literal p name raw), some after⟩ ⟨some (literal p' name raw), some after'⟩ :=
  ⟨.some ⟨rfl, .rfl⟩, .some h⟩

theorem sameUse_readArguments (hs : SameCode ts ts') (hspace : ¬HoldsSpace ts)
    (hrest : (readArguments p protectedCall ts).rest.isSome) :
    SameUse (readArguments p protectedCall ts) (readArguments p' protectedCall ts') := by
  have hread := argumentsRead p protectedCall ts
  generalize readArguments p protectedCall ts = use at hrest hread ⊢
  cases hread with
  | unread => cases hrest
  | openString => cases hrest
  | @literal x _ _ _ _ _ hts hx hclose =>
    obtain ⟨q, rest', hts', hrests, _⟩ := hs.next hts
    obtain ⟨_, after', hclose', hafter, _⟩ := hrests.next hclose
    rw [readArguments_of_literal hts' rfl hx, hclose']
    exact sameUse_literal hafter
  | @first x _ _ _ _ _ hts hx hcomma hprotected =>
    obtain ⟨q, rest', hts', hrests, _⟩ := hs.next hts
    obtain ⟨_, after', hcomma', _⟩ := hrests.next hcomma
    rw [readArguments_of_literal hts' rfl hx, hcomma', hprotected]
    exact sameUse_literal hrests
  | computed hts hopen hliteral =>
    rw [readArguments_eq_readComputed_of hs hts hopen hliteral]
    exact sameUse_readComputed hs hspace hrest

theorem isAssigned_iff_of_sameCode (hs : SameCode ts ts') : IsAssigned ts ↔ IsAssigned ts' := by
  rcases hs.next_or_end with ⟨hnil, hnil'⟩ | ⟨l, q, q', us, us', hus, hus', _, _, hrest⟩
  · exact iff_of_false (not_isAssigned hnil (by simp)) (not_isAssigned hnil' (by simp))
  · rw [isAssigned_iff_of_significant? hus, isAssigned_iff_of_significant? hus', Ne, Ne,
      hrest.head?_source]

theorem matches_table {ts ts' : List Token} :
    Matches (computed p (leftBrace :: source ts ++ [rightBrace]))
      (computed p' (leftBrace :: source ts' ++ [rightBrace])) := by
  have hne : ∀ (q : Position) (us : List Token),
      (computed q (leftBrace :: source us ++ [rightBrace])).rawArgument ≠ [] := by
    intro q us hempty
    exact absurd (computed_empty_iff.mp hempty leftBrace (by simp)) (by decide)
  exact ⟨rfl, iff_of_false (hne p' ts') (hne p ts)⟩

theorem sameUse_readCall (hs : SameCode ts ts') (hspace : ¬GivenSpace ts "require")
    (hrest : (readCall p ts).rest.isSome) : SameUse (readCall p ts) (readCall p' ts') := by
  have hread := callRead p ts
  generalize readCall p ts = use at hrest hread ⊢
  cases hread with
  | unread => cases hrest
  | openString => cases hrest
  | openTable => cases hrest
  | assigned hassigned =>
    obtain ⟨q, rest, hts', hne⟩ := (isAssigned_iff_of_sameCode hs).mp hassigned
    rw [readCall_symbol hts', if_neg (by decide), if_neg (by decide), if_pos ⟨rfl, hne⟩]
    exact ⟨.none, .some hs⟩
  | @bare us hts hcall hassigned =>
    have hnot := fun h => hassigned ((isAssigned_iff_of_sameCode hs).mpr h)
    have hbare : readCall p' ts' = ⟨some (computed p' []), some ts'⟩ := by
      rcases hs.next_or_end with ⟨_, hnil'⟩ | ⟨l, q, q', us, us', hus, hus', _⟩
      · exact readCall_bare hnil' (by simp) hnot
      · obtain rfl := Option.some.inj (hts.symm.trans hus)
        refine readCall_bare hus' (fun t ht => ?_) hnot
        obtain rfl := Option.some.inj ht
        exact hcall ⟨l, q⟩ rfl
    rw [hbare]
    exact ⟨.some ⟨rfl, .rfl⟩, .some hs⟩
  | arguments hts =>
    obtain ⟨_, rest', hts', hrests, _⟩ := hs.next hts
    rw [readCall_symbol hts', if_pos rfl]
    exact sameUse_readArguments hrests (fun h => hspace (.called hts h)) hrest
  | table hts hinside =>
    obtain ⟨_, rest', hts', hrests, _⟩ := hs.next hts
    obtain ⟨inside', after', hinside', _, hafter⟩ := hrests.closes hinside
    rw [readCall_symbol hts', if_neg (by decide), if_pos rfl, hinside']
    exact ⟨.some matches_table, .some hafter⟩
  | literal hts hx =>
    obtain ⟨_, rest', hts', hrests, _⟩ := hs.next hts
    rw [readCall_literal hts' hx]
    exact sameUse_literal hrests

theorem readProtected?_eq_none_of_sameCode (hs : SameCode ts ts')
    (hu : readProtected? ts = none) : readProtected? ts' = none := by
  refine readProtected?_eq_none fun q parens position names r commas hparens hnames hcommas => ?_
  obtain ⟨_, _, hparens', hafter, _⟩ := hs.symm.next hparens
  obtain ⟨_, _, hnames', hafter, _⟩ := hafter.next hnames
  obtain ⟨_, _, hcommas', _⟩ := hafter.next hcommas
  rw [readProtected?_eq hparens' hnames' hcommas'] at hu
  cases hu

theorem sameUse_readProtected? {use : Use} (hs : SameCode ts ts')
    (hspace : ¬GivenSpace ts "pcall") (hu : readProtected? ts = some use)
    (hrest : use.rest.isSome) : ∃ use', readProtected? ts' = some use' ∧ SameUse use use' := by
  obtain ⟨_, _, _, parens, names, commas, hparens, hnames, hcommas, rfl⟩ :=
    readProtected?_eq_some hu
  obtain ⟨_, _, hparens', hafter, _⟩ := hs.next hparens
  obtain ⟨_, _, hnames', hafter, _⟩ := hafter.next hnames
  obtain ⟨_, _, hcommas', hafter, _⟩ := hafter.next hcommas
  exact ⟨_, readProtected?_eq hparens' hnames' hcommas',
    sameUse_readArguments hafter (fun h => hspace (.inPcall hparens hnames hcommas h)) hrest⟩

theorem use?_eq_none_of_sameCode {h : History} {w : Text} (hs : SameCode ts ts')
    (hu : use? h w p ts = none) : use? h w p' ts' = none := by
  rw [use?] at hu ⊢
  split at hu
  · cases hu
  · rename_i hw
    rw [if_neg hw]
    split at hu
    · rename_i hpcall
      rw [if_pos hpcall]
      exact readProtected?_eq_none_of_sameCode hs hu
    · rename_i hpcall
      rw [if_neg hpcall]

/-- A use that is read to its end is read the same with other blanks. -/
theorem sameUse_use? {h : History} {w : Text} {use : Use} (hs : SameCode ts ts')
    (hspace : ¬GivenSpace ts w) (hu : use? h w p ts = some use) (hrest : use.rest.isSome) :
    ∃ use', use? h w p' ts' = some use' ∧ SameUse use use' := by
  rw [use?] at hu ⊢
  split at hu
  · rename_i hw
    rw [if_pos hw]
    obtain rfl := Option.some.inj hu
    exact ⟨_, rfl, sameUse_readCall hs (hw.1 ▸ hspace) hrest⟩
  · rename_i hw
    rw [if_neg hw]
    split at hu
    · rename_i hpcall
      rw [if_pos hpcall]
      exact sameUse_readProtected? hs (hpcall ▸ hspace) hu hrest
    · cases hu

end Use

/-! Two scans of the same code go side by side. -/

/-- No use that a scan comes to is given nothing but blanks and comments. -/
def GivesCode (h : History) (ts : List Token) : Prop :=
  ∀ sites h' w p us, Steps h ts sites h' (⟨.word w, p⟩ :: us) → (use? h' w p us).isSome →
    ¬GivenSpace us w

section Scan

variable {h : History} {ts ts' : List Token}

theorem GivesCode.step {found : List RequireSite} {h₁ : History} {us : List Token}
    (hgiven : GivesCode h ts) (hstep : Step h ts found h₁ us) : GivesCode h₁ us :=
  fun _ _ _ _ _ hsteps => hgiven _ _ _ _ _ (.step hstep hsteps)

theorem GivesCode.of_gap {gap : List Token} (hgap : IsGap gap) (hgiven : GivesCode h (gap ++ ts)) :
    GivesCode h ts := by
  induction gap with
  | nil => exact hgiven
  | cons t gap ih =>
    obtain ⟨ht, hgap⟩ := List.forall_mem_cons.mp hgap
    exact ih hgap (hgiven.step (.gap ht))

theorem reachesEnd_gap {gap : List Token} (hgap : IsGap gap) (h : History) (ts : List Token) :
    reachesEnd h (gap ++ ts) = reachesEnd h ts := by
  induction gap with
  | nil => rfl
  | cons t gap ih =>
    obtain ⟨ht, hgap⟩ := List.forall_mem_cons.mp hgap
    rw [List.cons_append, reachesEnd_step (.gap ht), ih hgap]

/-- A scan that comes to the end reads every use to its end. -/
theorem isSome_rest_of_reachesEnd {w : Text} {p : Position} {use : Use}
    (hends : reachesEnd h (⟨.word w, p⟩ :: ts) = true) (hu : use? h w p ts = some use) :
    use.rest.isSome := by
  obtain ⟨site, _ | after⟩ := use
  · exact absurd hends (not_reachesEnd_stop hu)
  · rfl

theorem Matches.made {site site' : RequireSite} (hm : Matches site site') (h : History) :
    List.Forall₂ Matches (made h site) (made h site') := by
  have hkeeps : keepsName h site' = keepsName h site := by
    have hempty : site'.rawArgument.isEmpty = site.rawArgument.isEmpty := by
      rw [Bool.eq_iff_iff, List.isEmpty_iff, List.isEmpty_iff, hm.empty]
    rw [keepsName, keepsName, hm.moduleName, hempty]
  rw [RequireSite.made, RequireSite.made, hkeeps]
  split
  · exact .nil
  · exact .cons hm .nil

/-- What a use leaves to the scan. -/
theorem SameUse.step {use use' : Use} (hsame : SameUse use use') (h : History) (w : Text) :
    List.Forall₂ Matches (use.site.elim [] (RequireSite.made h))
        (use'.site.elim [] (RequireSite.made h)) ∧
      markOf w use' = markOf w use := by
  obtain ⟨site, rest⟩ := use
  obtain ⟨site', rest'⟩ := use'
  cases hsame.site with
  | none => exact ⟨.nil, rfl⟩
  | some hm => exact ⟨hm.made h, rfl⟩

/-- A step of each of two scans that leaves the same code. -/
inductive StepTogether (h : History) (ts ts' : List Token) : Prop
  | intro {found found' : List RequireSite} {h₁ : History} {us us' : List Token}
    (hstep : Step h ts found h₁ us) (hstep' : Step h ts' found' h₁ us')
    (hfound : List.Forall₂ Matches found found') (hrest : SameCode us us')
    (hlt : us.length < ts.length) : StepTogether h ts ts'

/-- Two scans that come to the same token of the code go on together. -/
theorem stepTogether {l : Lexeme} {p p' : Position} (hs : SameCode ts ts')
    (hl : l.isGap = false) (hform : l.Formed) (hends : reachesEnd h (⟨l, p⟩ :: ts) = true)
    (hgiven : GivesCode h (⟨l, p⟩ :: ts)) :
    StepTogether h (⟨l, p⟩ :: ts) (⟨l, p'⟩ :: ts') := by
  have hmark : ∀ {m : Mark}, mark? l = some m →
      (∀ w, l = .word w → use? h w p ts = none) →
      StepTogether h (⟨l, p⟩ :: ts) (⟨l, p'⟩ :: ts') := fun hm hnone =>
    .intro (.mark hm hnone) (.mark hm fun w hw => use?_eq_none_of_sameCode hs (hnone w hw)) .nil hs
      (Nat.lt_succ_self _)
  cases l with
  | blank u => cases hl
  | comment s => cases hl
  | quoted q body => exact hmark rfl (by simp)
  | bracketed level body => exact hmark rfl (by simp)
  | symbol u => exact hmark rfl (by simp)
  | openComment s => exact hform.elim
  | openString s => exact hform.elim
  | word w =>
    cases hu : use? h w p ts with
    | none =>
      refine hmark rfl fun v hv => ?_
      obtain rfl := Lexeme.word.inj hv
      exact hu
    | some use =>
      have hspace : ¬GivenSpace ts w := hgiven _ _ _ _ _ .refl (by rw [hu]; rfl)
      have hrest := isSome_rest_of_reachesEnd hends hu
      obtain ⟨use', hu', hsame⟩ := @sameUse_use? _ _ p p' _ _ _ hs hspace hu hrest
      obtain ⟨hfound, hmarks⟩ := hsame.step h w
      obtain ⟨site, _ | after⟩ := use
      · cases hrest
      · obtain ⟨site', rest'⟩ := use'
        cases hsame.rest with
        | some hafter =>
          have hstep' := Step.use hu'
          rw [hmarks] at hstep'
          exact .intro (.use hu) hstep' hfound hafter (Nat.lt_succ_of_le (length_use? hu rfl))

/-- Two scans of the same code find sites of the same names, and both come to the end. -/
theorem scanTokens_of_sameCode (hs : SameCode ts ts') (hends : reachesEnd h ts = true)
    (hgiven : GivesCode h ts) :
    reachesEnd h ts' = true ∧ List.Forall₂ Matches (scanTokens h ts) (scanTokens h ts') := by
  -- On the tokens that are left, as a use takes more than one.
  induction hlength : ts.length using Nat.strong_induction_on generalizing h ts ts' with
  | _ n ih =>
    subst hlength
    cases hs with
    | nil =>
      rw [scanTokens]
      exact ⟨hends, .nil⟩
    | code hl hform hs =>
      obtain ⟨hstep, hstep', hfound, hrest, hlt⟩ := stepTogether hs hl hform hends hgiven
      rw [hstep.scanTokens_eq, hstep'.scanTokens_eq, reachesEnd_step hstep']
      rw [reachesEnd_step hstep] at hends
      obtain ⟨hends', hsites⟩ := ih _ hlt hrest hends (hgiven.step hstep) rfl
      exact ⟨hends', List.rel_append hfound hsites⟩
    | gap hgap hgap' hs =>
      rw [scanTokens_gap hgap.isGap, scanTokens_gap hgap'.isGap, reachesEnd_gap hgap'.isGap]
      rw [reachesEnd_gap hgap.isGap] at hends
      refine ih _ ?_ hs hends (hgiven.of_gap hgap.isGap) rfl
      have := List.length_pos_iff.mpr hgap.ne_nil
      rw [List.length_append]
      omega

end Scan

/-- The same program with other blanks and comments is scanned to its end as well, to the same
sites, up to what a computed argument looks like. -/
theorem scan_respaced {t t' : Text} (h : RespacedSource t t') (hends : RunsToEnd t)
    (hgiven : GivesCode .empty (tokens t)) :
    RunsToEnd t' ∧ List.Forall₂ (fun site site' =>
        site'.isLiteral = site.isLiteral ∧ site'.moduleName = site.moduleName)
      (scan t) (scan t') := by
  obtain ⟨_, _, hsteps⟩ := reachesEnd_iff.mp hends
  rw [tokens_eq] at hsteps
  obtain ⟨hends', hsites⟩ :=
    scanTokens_of_sameCode (sameCode_tokens h hsteps.closed) hends hgiven
  refine ⟨hends', hsites.imp ?_⟩
  intro site site' hm
  rw [isLiteral, isLiteral, hm.moduleName]
  exact ⟨rfl, rfl⟩

/-- A call with other blanks and two comments. -/
theorem scan_spread_call :
    RespacedSource "require( 'a' )" "require(\n--[[b]]'a' --c\n)" ∧
      RunsToEnd "require( 'a' )" ∧ GivesCode .empty (tokens "require( 'a' )") ∧
      scan "require( 'a' )" = [literal ⟨1, 1⟩ "a" "'a'"] ∧
      RunsToEnd "require(\n--[[b]]'a' --c\n)" ∧ List.Forall₂ (fun site site' =>
          site'.isLiteral = site.isLiteral ∧ site'.moduleName = site.moduleName)
        (scan "require( 'a' )") (scan "require(\n--[[b]]'a' --c\n)") := by
  let after : List Token := [⟨.symbol leftParen, ⟨1, 8⟩⟩, ⟨.blank space, ⟨1, 9⟩⟩,
    ⟨.quoted singleQuote "a", ⟨1, 10⟩⟩, ⟨.blank space, ⟨1, 13⟩⟩, ⟨.symbol rightParen, ⟨1, 14⟩⟩]
  have htokens : tokens "require( 'a' )" = ⟨.word "require", ⟨1, 1⟩⟩ :: after := by decide +kernel
  have hlexemes : lexemes (program "require( 'a' )") = .word "require" :: .symbol leftParen ::
      ([.blank space] ++ .quoted singleQuote "a" ::
        ([.blank space] ++ [.symbol rightParen])) := by decide +kernel
  have hrun : IsRun [.blank space] := ⟨by simp, by simp [Lexeme.isGap]⟩
  have hblock : Lexeme.IsComment "--[[b]]" := by
    have hbody : cut? (Lexeme.closing 0) "b]]" = some (("b" : Text), []) := by decide
    exact .block (endsFirst_of_cut? (Lexeme.closing_ne_nil 0) hbody)
  have hline : Lexeme.IsComment "--c\n" :=
    @Lexeme.IsComment.line "c" ⟨by decide, Lexeme.openingLevel?_eq_none_iff.mp (by decide)⟩
  have hreplaced : ∀ {c t : Text} {u : UInt16} {l : Lexeme} {ls : List Lexeme},
      isBlank u = true → Lexeme.IsComment c → l.isGap = false → Respaced (l :: ls) t →
      Respaced ([.blank space] ++ l :: ls) (u :: (c ++ []) ++ t) := by
    intro c t u l ls hu hc hl h
    refine .replaced ⟨by simp, by simp [Lexeme.isGap]⟩ ?_ hu (.comment hc .nil) h
    rintro _ ⟨⟩
    exact hl
  have hspread := Respaced.code (l := .word "require") rfl <|
    .code (l := .symbol leftParen) rfl <| hreplaced (u := lineFeed) (by decide) hblock rfl <|
    .code (l := .quoted singleQuote "a") rfl <| hreplaced (u := space) (by decide) hline rfl <|
    .code (l := .symbol rightParen) rfl .nil
  have h : RespacedSource "require( 'a' )" "require(\n--[[b]]'a' --c\n)" :=
    ⟨_, hlexemes ▸ hspread, by decide +kernel⟩
  have hends : RunsToEnd "require( 'a' )" := by decide +kernel
  have hgiven : GivesCode .empty (tokens "require( 'a' )") := by
    intro sites h' w p us hs _ hspace
    obtain ⟨taken, hsplit, _⟩ := hs.split
    rw [htokens] at hsplit
    cases taken with
    | nil =>
      obtain ⟨_, rfl⟩ := List.cons.inj hsplit
      cases hspace with
      | called hts hspace =>
        obtain ⟨_, rfl⟩ := List.cons.inj (Option.some.inj hts)
        exact not_holdsSpace rfl (by decide) hspace
      | inPcall hparens hnames =>
        obtain ⟨_, rfl⟩ := List.cons.inj (Option.some.inj hparens)
        cases hnames
    | cons t taken =>
      have hmem : (⟨.word w, p⟩ : Token) ∈ after := by
        rw [(List.cons.inj hsplit).2]
        simp
      simp [after] at hmem
  exact ⟨h, hends, hgiven, by decide +kernel, scan_respaced h hends hgiven⟩

end RequireSite

end LuaBundle
