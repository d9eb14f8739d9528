import LuaBundle.Proofs.Source.Steps

/-! A scan in another context: after other tokens, at other places, and before other tokens. What it
finds in tokens that it reads to their end depends on none of these, as long as nothing follows that
could belong to a call or an assignment. -/

namespace LuaBundle

open Text

namespace Token

/-- The token at another place. -/
def move (f : Position → Position) (t : Token) : Token := { t with position := f t.position }

/-- Tokens at the end of a source: blanks and comments. -/
structure IsTrailing (us : List Token) : Prop where
  gap : IsGap us
  head : (source us).head? ≠ some equals

/-- Tokens whose first word, if they have one, goes on with no use. -/
structure Inert (us : List Token) : Prop where
  word : ∃ vs, significant? us = some vs ∧ ∀ t ∈ vs.head?, ∃ w, t.lexeme = .word w ∧ w ≠ "require"
  head : (source us).head? ≠ some equals

variable {f : Position → Position} {ts us vs gap : List Token}

theorem source_append (ts us : List Token) : source (ts ++ us) = source ts ++ source us :=
  List.flatMap_append

@[simp] theorem source_move (ts : List Token) : source (ts.map (move f)) = source ts := by
  rw [source, List.flatMap_map]
  rfl

theorem IsGap.significant?_eq (h : IsGap gap) : significant? gap = some [] := by
  rw [← List.append_nil gap, significant?_append h]
  rfl

theorem IsGap.move (h : IsGap gap) : IsGap (gap.map (move f)) := by
  intro t ht
  obtain ⟨s, hs, rfl⟩ := List.mem_map.mp ht
  exact h s hs

theorem IsTrailing.inert (h : IsTrailing gap) : Inert gap :=
  ⟨⟨[], h.gap.significant?_eq, by simp⟩, h.head⟩

theorem Inert.nil : Inert [] := ⟨⟨[], rfl, by simp⟩, by simp [source]⟩

theorem Inert.of_text {p : Position} {s : Text} (hus : us = place p (lexemes s))
    (hvs : significant? us = some vs)
    (hword : ∀ t ∈ vs.head?, ∃ w, t.lexeme = .word w ∧ w ≠ "require") : Inert us := by
  refine ⟨⟨vs, hvs, hword⟩, fun hhead => ?_⟩
  obtain ⟨rest, hrest⟩ := eq_equals_of_head? (hus ▸ hhead)
  rw [hus, hrest] at hvs
  obtain ⟨w, hw, _⟩ := hword ⟨.symbol equals, p⟩ (by rw [← Option.some.inj hvs]; rfl)
  cases hw

theorem map_move_id (ts : List Token) : ts.map (move id) = ts := List.map_id ts

/-- The next token of the program lies among `ts`, or what follows them decides. -/
theorem significant?_cases (ts : List Token) :
    IsGap ts ∨ (∀ f us, significant? (ts.map (move f) ++ us) = none) ∨
      ∃ (t : Token) (rest : List Token), ∀ f us,
        significant? (ts.map (move f) ++ us) = some (t.move f :: (rest.map (move f) ++ us)) := by
  induction ts with
  | nil => exact .inl (by simp [IsGap])
  | cons t ts ih =>
    by_cases hgap : t.lexeme.isGap = true
    · have hmoved : ∀ f, (t.move f).lexeme.isGap = true := fun f => hgap
      simp only [List.map_cons, List.cons_append, significant?_gap (hmoved _)]
      exact ih.imp_left fun h => List.forall_mem_cons.mpr ⟨hgap, h⟩
    · right
      by_cases hopen : ∃ s, t.lexeme = .openComment s
      · obtain ⟨s, hs⟩ := hopen
        have hmoved : ∀ f, (t.move f).lexeme = .openComment s := fun f => hs
        exact .inl fun f us => significant?_openComment (hmoved f) _
      · have hmoved : ∀ f, (t.move f).lexeme.isGap = false := fun f => Bool.eq_false_iff.mpr hgap
        exact .inr ⟨t, ts, fun f us => significant?_token (hmoved f) (not_exists.mp hopen) _⟩

theorem significant?_move_cases (f : Position → Position) (ts : List Token) :
    IsGap ts ∨
      (∀ us, significant? (ts ++ us) = none ∧ significant? (ts.map (move f) ++ us) = none) ∨
      ∃ t rest, (∀ us, significant? (ts ++ us) = some (t :: (rest ++ us))) ∧
        ∀ us, significant? (ts.map (move f) ++ us) =
          some (t.move f :: (rest.map (move f) ++ us)) := by
  rcases significant?_cases ts with hts | hnone | ⟨t, rest, hrest⟩
  · exact .inl hts
  · exact .inr (.inl fun us => ⟨map_move_id ts ▸ hnone id us, hnone f us⟩)
  · exact .inr (.inr ⟨t, rest, fun us => map_move_id ts ▸ map_move_id rest ▸ hrest id us,
      hrest f⟩)

theorem balanced?_move {opener close : UInt16} {depth : Nat} :
    balanced? opener close depth (ts.map (move f)) =
      (balanced? opener close depth ts).map fun (inside, after) =>
        (inside.map (move f), after.map (move f)) := by
  induction ts generalizing depth with
  | nil => rfl
  | cons t ts ih =>
    obtain ⟨l, p⟩ := t
    cases l with
    | openComment s => rfl
    | openString s => rfl
    | symbol u =>
      rw [List.map_cons, balanced?.eq_def, balanced?.eq_def]
      simp only [move, ih]
      split
      · cases depth with
        | zero => rfl
        | succ depth => simp [Option.map_map, Function.comp_def, move]
      · simp [Option.map_map, Function.comp_def, move]
    | _ =>
      rw [List.map_cons, balanced?.eq_def, balanced?.eq_def]
      simp [ih, Option.map_map, Function.comp_def, move]

/-- A bracket that is closed before trailing blanks is closed at the same place, whatever follows in
their stead. -/
theorem balanced?_trailing {opener close : UInt16} {inside after : List Token}
    (f : Position → Position) (hgap : IsGap gap)
    (h : balanced? opener close 0 (ts ++ gap) = some (inside, after)) :
    ∃ left, after = left ++ gap ∧ ∀ us, balanced? opener close 0 (ts.map (move f) ++ us) =
      some (inside.map (move f), left.map (move f) ++ us) := by
  obtain ⟨p, hsplit, _, hbefore⟩ := balanced?_eq_some h
  have hclose : (⟨.symbol close, p⟩ : Token) ∉ gap := fun hmem => by cases hgap _ hmem
  obtain ⟨left, hts, rfl⟩ : ∃ left, ts = inside ++ ⟨.symbol close, p⟩ :: left ∧
      after = left ++ gap := by
    rcases List.append_eq_append_iff.mp hsplit with ⟨more, _, hmore⟩ | ⟨more, hmore, hrest⟩
    · exact absurd (hmore ▸ List.mem_append_right _ List.mem_cons_self) hclose
    · cases more with
      | nil =>
        rw [List.nil_append] at hrest
        exact absurd (hrest ▸ List.mem_cons_self) hclose
      | cons t left =>
        obtain ⟨rfl, hleft⟩ := List.cons.inj hrest
        exact ⟨left, hmore, hleft⟩
  have hmoved : balanced? opener close 0 (List.map (move f) (inside ++ [⟨.symbol close, p⟩])) =
      some (inside.map (move f), []) := by
    rw [balanced?_move, hbefore []]
    rfl
  rw [List.map_append] at hmoved
  obtain ⟨q, hq, _, hmore⟩ := balanced?_eq_some hmoved
  have hlast := (List.cons.inj (List.append_cancel_left hq)).1
  refine ⟨left, rfl, fun us => ?_⟩
  rw [hts, List.map_append, List.map_cons, hlast, List.append_assoc, List.cons_append]
  exact hmore _

theorem head?_source_iff (hus : (source us).head? ≠ some equals) :
    (source (ts ++ us)).head? = some equals ↔ (source ts).head? = some equals := by
  rw [source_append]
  cases source ts with
  | nil => simpa using hus
  | cons u rest => rfl

theorem Inert.significant?_append (hus : Inert us) (hgap : IsGap gap) :
    ∃ vs, significant? (gap ++ us) = some vs ∧
      ∀ t ∈ vs.head?, ∃ w, t.lexeme = .word w ∧ w ≠ "require" := by
  rw [Token.significant?_append hgap]
  exact hus.word

end Token

namespace RequireSite

open Token (significant? balanced? restOfLine source move IsGap IsTrailing Inert)

/-- The site at another place. -/
def moved (f : Position → Position) (site : RequireSite) : RequireSite :=
  { site with position := f site.position }

variable {f : Position → Position} {ts us gap : List Token}

theorem isAssigned_iff_of_significant? {t : Token} {rest : List Token}
    (h : significant? ts = some (t :: rest)) :
    IsAssigned ts ↔ t.lexeme = .symbol equals ∧ (source rest).head? ≠ some equals := by
  constructor
  · rintro ⟨q, rest', hrest, hne⟩
    obtain ⟨rfl, rfl⟩ := List.cons.inj (Option.some.inj (h.symm.trans hrest))
    exact ⟨rfl, hne⟩
  · rintro ⟨ht, hne⟩
    exact ⟨t.position, rest, by rw [h, ← ht], hne⟩

theorem not_isAssigned_of_word {vs : List Token} (h : significant? ts = some vs)
    (hword : ∀ t ∈ vs.head?, ∃ w, t.lexeme = .word w ∧ w ≠ "require") : ¬IsAssigned ts := by
  refine not_isAssigned h fun t ht he => ?_
  obtain ⟨w, hw, _⟩ := hword t ht
  rw [he] at hw
  cases hw

theorem isAssigned_move_iff (f : Position → Position) (hts : ¬IsGap ts)
    (hus : (source us).head? ≠ some equals) (hgap : (source gap).head? ≠ some equals) :
    IsAssigned (ts.map (move f) ++ us) ↔ IsAssigned (ts ++ gap) := by
  rcases Token.significant?_move_cases f ts with hall | hnone | ⟨t, rest, hrest, hmoved⟩
  · exact absurd hall hts
  · have hmoved : ¬IsAssigned (ts.map (move f) ++ us) := by
      rintro ⟨q, rest, hrest, _⟩
      rw [(hnone us).2] at hrest
      cases hrest
    have hsame : ¬IsAssigned (ts ++ gap) := by
      rintro ⟨q, rest, hrest, _⟩
      rw [(hnone gap).1] at hrest
      cases hrest
    exact iff_of_false hmoved hsame
  · rw [isAssigned_iff_of_significant? (hmoved us), isAssigned_iff_of_significant? (hrest gap),
      Ne, Ne, Token.head?_source_iff hus, Token.head?_source_iff hgap, Token.source_move]
    rfl

/-- Reading that takes the same of tokens wherever they stand and whatever follows them in the stead
of trailing blanks. -/
def TakesSame (f : Position → Position) (read : Position → List Token → Use) : Prop :=
  ∀ {p ts gap site after}, IsGap gap → read p (ts ++ gap) = ⟨site, some after⟩ →
    ∃ left, after = left ++ gap ∧ ∀ us,
      read (f p) (ts.map (move f) ++ us) =
        ⟨site.map (moved f), some (left.map (move f) ++ us)⟩

theorem takesSame_readComputed (f : Position → Position) : TakesSame f readComputed := by
  intro p ts gap site after hgap h
  rw [readComputed] at h
  split at h
  · rename_i inside after' hinside
    obtain ⟨left, rfl, hsame⟩ := Token.balanced?_trailing f hgap hinside
    obtain ⟨rfl, hafter⟩ := Use.mk.inj h
    refine ⟨left, (Option.some.inj hafter).symm, fun us => ?_⟩
    rw [readComputed, hsame us]
    simp only [Token.source_move]
    rfl
  · cases (Use.mk.inj h).2

theorem significant?_trailing {x : Token} {rest : List Token} (f : Position → Position)
    (hgap : IsGap gap) (h : significant? (ts ++ gap) = some (x :: rest)) :
    ∃ left, rest = left ++ gap ∧ ∀ us, significant? (ts.map (move f) ++ us) =
      some (x.move f :: (left.map (move f) ++ us)) := by
  rcases Token.significant?_move_cases f ts with hts | hnone | ⟨t, left, hleft, hmoved⟩
  · rw [Token.significant?_append hts, hgap.significant?_eq] at h
    cases h
  · rw [(hnone gap).1] at h
    cases h
  · obtain ⟨rfl, rfl⟩ := List.cons.inj (Option.some.inj (h.symm.trans (hleft gap)))
    exact ⟨left, rfl, hmoved⟩

section Arguments

variable {protectedCall : Bool} {p : Position} {site : Option RequireSite}

theorem mem_close_of_readComputed {after : List Token} (hgap : IsGap gap)
    (h : readComputed p (ts ++ gap) = ⟨site, some after⟩) :
    ∃ q, ⟨.symbol rightParen, q⟩ ∈ ts := by
  rw [readComputed] at h
  split at h
  · rename_i hinside
    obtain ⟨q, hsplit, _⟩ := Token.balanced?_eq_some hinside
    have hmem : ⟨.symbol rightParen, q⟩ ∈ ts ++ gap := by simp [hsplit]
    refine ⟨q, (List.mem_append.mp hmem).resolve_right fun hmem => ?_⟩
    cases hgap _ hmem
  · cases (Use.mk.inj h).2

/-- Arguments that are read up to their parenthesis are read so anywhere. -/
theorem readArguments_eq_readComputed {vs : List Token} {q : Position}
    (hclose : ⟨.symbol rightParen, q⟩ ∈ ts) (hts : significant? (ts ++ gap) = some vs)
    (hopen : ∀ t ∈ vs.head?, ∀ s, t.lexeme ≠ .openString s)
    (hliteral : ∀ x rest, vs = x :: rest → (literal? x.lexeme).isSome → ∀ u q after,
      significant? rest = some (⟨.symbol u, q⟩ :: after) →
        u ≠ rightParen ∧ ¬(protectedCall = true ∧ u = comma)) (us : List Token) :
    readArguments p protectedCall (ts.map (move f) ++ us) =
      readComputed p (ts.map (move f) ++ us) := by
  rcases Token.significant?_move_cases f ts with hall | hnone | ⟨t, rest, hrest, hmoved⟩
  · cases hall _ hclose
  · rw [(hnone gap).1] at hts
    cases hts
  · obtain rfl := Option.some.inj (hts.symm.trans (hrest gap))
    refine readArguments_to_close (Option.isSome_of_eq_some (hmoved us)) ?_ ?_
    · intro s q' rest' hfirst
      rw [hmoved us] at hfirst
      have ht := (List.cons.inj (Option.some.inj hfirst)).1
      exact hopen t rfl s (congrArg Token.lexeme ht)
    · intro x rest' u q' after hfirst hx hafter
      rw [hmoved us] at hfirst
      obtain ⟨rfl, rfl⟩ := List.cons.inj (Option.some.inj hfirst)
      rcases Token.significant?_move_cases f rest with hall | hnone | ⟨t', rest', hrest', hmoved'⟩
      · -- The parenthesis would stand before the literal, or be it.
        obtain ⟨gap', hgap', hsplit, _⟩ := Token.significant?_eq_some (hrest [])
        rw [List.append_nil, List.append_nil] at hsplit
        rw [hsplit] at hclose
        rcases List.mem_append.mp hclose with hmem | hmem
        · cases hgap' _ hmem
        · rcases List.mem_cons.mp hmem with rfl | hmem
          · cases hx
          · cases hall _ hmem
      · rw [(hnone us).2] at hafter
        cases hafter
      · rw [hmoved' us] at hafter
        have ht' : t'.lexeme = .symbol u :=
          congrArg Token.lexeme (List.cons.inj (Option.some.inj hafter)).1
        have hnext : significant? (rest ++ gap) =
            some (⟨.symbol u, t'.position⟩ :: (rest' ++ gap)) := by rw [hrest' gap, ← ht']
        exact hliteral t _ rfl hx u _ _ hnext

theorem takesSame_readArguments (f : Position → Position) (protectedCall : Bool) :
    TakesSame f fun p ts => readArguments p protectedCall ts := by
  intro p ts gap site after hgap h
  have hread := argumentsRead p protectedCall (ts ++ gap)
  simp only at h ⊢
  generalize hargs : readArguments p protectedCall (ts ++ gap) = use at h hread
  cases hread with
  | unread => cases (Use.mk.inj h).2
  | openString => cases (Use.mk.inj h).2
  | literal hts hx hrest =>
    obtain ⟨rfl, hafter⟩ := Use.mk.inj h
    obtain ⟨left, rfl, hmoved⟩ := significant?_trailing f hgap hts
    obtain ⟨left', rfl, hmoved'⟩ := significant?_trailing f hgap hrest
    refine ⟨left', (Option.some.inj hafter).symm, fun us => ?_⟩
    rw [readArguments_of_literal (hmoved us) rfl hx, hmoved' us]
    rfl
  | first hts hx hrest hprotected =>
    obtain ⟨rfl, hafter⟩ := Use.mk.inj h
    obtain ⟨left, rfl, hmoved⟩ := significant?_trailing f hgap hts
    obtain ⟨left', rfl, hmoved'⟩ := significant?_trailing f hgap hrest
    refine ⟨left, (Option.some.inj hafter).symm, fun us => ?_⟩
    rw [readArguments_of_literal (hmoved us) rfl hx, hmoved' us, hprotected]
    rfl
  | computed hts hopen hliteral =>
    obtain ⟨q, hclose⟩ := mem_close_of_readComputed hgap h
    obtain ⟨left, rfl, hsame⟩ := takesSame_readComputed f hgap h
    refine ⟨left, rfl, fun us => ?_⟩
    rw [readArguments_eq_readComputed hclose hts hopen hliteral]
    exact hsame us

/-- A call that does not start with what follows is read up to trailing blanks as it is anywhere. -/
theorem readCall_trailing {after : List Token} (f : Position → Position) (hts : ¬IsGap ts)
    (hgap : IsTrailing gap) (h : readCall p (ts ++ gap) = ⟨site, some after⟩) :
    ∃ left, after = left ++ gap ∧ ∀ us, (source us).head? ≠ some equals →
      readCall (f p) (ts.map (move f) ++ us) =
        ⟨site.map (moved f), some (left.map (move f) ++ us)⟩ := by
  have hread := callRead p (ts ++ gap)
  generalize hcall : readCall p (ts ++ gap) = use at h hread
  cases hread with
  | unread => cases (Use.mk.inj h).2
  | openString => cases (Use.mk.inj h).2
  | openTable => cases (Use.mk.inj h).2
  | assigned hassigned =>
    obtain ⟨rfl, hafter⟩ := Use.mk.inj h
    refine ⟨ts, (Option.some.inj hafter).symm, fun us hus => ?_⟩
    obtain ⟨q, rest, hrest, hne⟩ := (isAssigned_move_iff f hts hus hgap.head).mpr hassigned
    rw [readCall_symbol hrest, if_neg (by decide), if_neg (by decide), if_pos ⟨rfl, hne⟩]
    rfl
  | bare hnext hopens hassigned =>
    obtain ⟨rfl, hafter⟩ := Use.mk.inj h
    refine ⟨ts, (Option.some.inj hafter).symm, fun us hus => ?_⟩
    have hnot := fun ha => hassigned ((isAssigned_move_iff f hts hus hgap.head).mp ha)
    rcases Token.significant?_move_cases f ts with hall | hnone | ⟨t, rest, hrest, hmoved⟩
    · exact absurd hall hts
    · rw [(hnone gap).1] at hnext
      cases hnext
    · obtain rfl := Option.some.inj (hnext.symm.trans (hrest gap))
      refine (readCall_bare (hmoved us) (fun t' ht' => ?_) hnot).trans rfl
      obtain rfl := Option.some.inj ht'
      exact hopens t rfl
  | arguments hnext =>
    obtain ⟨left, rfl, hmoved⟩ := significant?_trailing f hgap.gap hnext
    obtain ⟨left', rfl, hsame⟩ := takesSame_readArguments f false hgap.gap h
    refine ⟨left', rfl, fun us _ => ?_⟩
    rw [readCall_symbol (hmoved us), if_pos rfl]
    exact hsame us
  | table hnext hinside =>
    obtain ⟨rfl, hafter⟩ := Use.mk.inj h
    obtain ⟨left, rfl, hmoved⟩ := significant?_trailing f hgap.gap hnext
    obtain ⟨left', rfl, hsame⟩ := Token.balanced?_trailing f hgap.gap hinside
    refine ⟨left', (Option.some.inj hafter).symm, fun us _ => ?_⟩
    rw [readCall_symbol (hmoved us), if_neg (by decide), if_pos rfl, hsame us]
    simp only [Token.source_move]
    rfl
  | literal hnext hx =>
    obtain ⟨rfl, hafter⟩ := Use.mk.inj h
    obtain ⟨left, rfl, hmoved⟩ := significant?_trailing f hgap.gap hnext
    refine ⟨left, (Option.some.inj hafter).symm, fun us _ => ?_⟩
    rw [readCall_literal (hmoved us) hx]
    rfl

/-- Nothing but a gap before tokens that go on with no use. -/
theorem readCall_inert (hts : IsGap ts) (hus : Inert us) :
    readCall p (ts ++ us) = ⟨some (computed p []), some (ts ++ us)⟩ := by
  obtain ⟨vs, hvs, hword⟩ := hus.significant?_append hts
  refine readCall_bare hvs (fun t ht => ?_) (not_isAssigned_of_word hvs hword)
  obtain ⟨w, hw, _⟩ := hword t ht
  rw [hw]
  rfl

theorem readProtected?_eq {q r position : Position} {parens names commas : List Token}
    (hparens : significant? ts = some (⟨.symbol leftParen, q⟩ :: parens))
    (hnames : significant? parens = some (⟨.word "require", position⟩ :: names))
    (hcommas : significant? names = some (⟨.symbol comma, r⟩ :: commas)) :
    readProtected? ts = some (readArguments position true commas) := by
  rw [readProtected?, hparens]
  simp only [if_true, hnames, hcommas]

theorem readProtected?_eq_none (h : ∀ q parens position names r commas,
    significant? ts = some (⟨.symbol leftParen, q⟩ :: parens) →
    significant? parens = some (⟨.word "require", position⟩ :: names) →
    significant? names = some (⟨.symbol comma, r⟩ :: commas) → False) :
    readProtected? ts = none := by
  by_contra hsome
  obtain ⟨use, huse⟩ := Option.ne_none_iff_exists'.mp hsome
  obtain ⟨q, position, r, parens, names, commas, hparens, hnames, hcommas, _⟩ :=
    readProtected?_eq_some huse
  exact h q parens position names r commas hparens hnames hcommas

/-- A token that goes on with a use is the next one of `ts`, or it is not the next one at all. -/
theorem significant?_expect (ts : List Token) {l : Lexeme}
    (hl : ∀ w, l = .word w → w = "require") :
    (∀ f us q rest, Inert us → significant? (ts.map (move f) ++ us) ≠ some (⟨l, q⟩ :: rest)) ∨
      ∃ (p : Position) (rest : List Token), ∀ f us, significant? (ts.map (move f) ++ us) =
        some (⟨l, f p⟩ :: (rest.map (move f) ++ us)) := by
  rcases Token.significant?_cases ts with hts | hnone | ⟨⟨l', p⟩, rest, hrest⟩
  · refine .inl fun f us q rest hus h => ?_
    obtain ⟨vs, hvs, hword⟩ := hus.significant?_append (hts.move (f := f))
    rw [hvs] at h
    obtain ⟨w, hw, hne⟩ := hword ⟨l, q⟩ (by rw [Option.some.inj h]; rfl)
    exact hne (hl w hw)
  · refine .inl fun f us q rest _ h => ?_
    rw [hnone f us] at h
    cases h
  · by_cases he : l' = l
    · subst he
      exact .inr ⟨p, rest, hrest⟩
    · refine .inl fun f us q rest' _ h => he ?_
      rw [hrest f us] at h
      exact congrArg Token.lexeme (List.cons.inj (Option.some.inj h)).1

/-- Whether a call is a protected call of `require` shows in the tokens that are read. -/
theorem readProtected?_cases (ts : List Token) :
    (∀ f us, Inert us → readProtected? (ts.map (move f) ++ us) = none) ∨
      ∃ (position : Position) (commas : List Token), ∀ f us,
        readProtected? (ts.map (move f) ++ us) =
          some (readArguments (f position) true (commas.map (move f) ++ us)) := by
  rcases significant?_expect ts (l := .symbol leftParen) (by simp) with hne | ⟨p, parens, hparens⟩
  · exact .inl fun f us hus => readProtected?_eq_none fun _ _ _ _ _ _ h _ _ => hne f us _ _ hus h
  rcases significant?_expect parens (l := .word "require") (by simp) with hne | ⟨q, names, hnames⟩
  · refine .inl fun f us hus => readProtected?_eq_none fun _ _ _ _ _ _ h h' _ => ?_
    obtain ⟨_, rfl⟩ := List.cons.inj (Option.some.inj ((hparens f us).symm.trans h))
    exact hne f us _ _ hus h'
  rcases significant?_expect names (l := .symbol comma) (by simp) with hne | ⟨r, commas, hcommas⟩
  · refine .inl fun f us hus => readProtected?_eq_none fun _ _ _ _ _ _ h h' h'' => ?_
    obtain ⟨_, rfl⟩ := List.cons.inj (Option.some.inj ((hparens f us).symm.trans h))
    obtain ⟨_, rfl⟩ := List.cons.inj (Option.some.inj ((hnames f us).symm.trans h'))
    exact hne f us _ _ hus h''
  exact .inr ⟨q, commas, fun f us => readProtected?_eq (hparens f us) (hnames f us) (hcommas f us)⟩

end Arguments

section Step

variable {h g : History} {w : Text} {p : Position}

theorem use?_eq_none_elsewhere (hh : h.precedesGlobal = g.precedesGlobal)
    (hu : use? h w p (ts ++ gap) = none) (hus : Inert us) :
    use? g w (f p) (ts.map (move f) ++ us) = none := by
  rw [use?] at hu ⊢
  rw [← hh]
  split at hu
  · cases hu
  · rename_i hw
    rw [if_neg hw]
    split at hu
    · rename_i hpcall
      rw [if_pos hpcall]
      rcases readProtected?_cases ts with hnone | ⟨position, commas, hsome⟩
      · exact hnone f us hus
      · have hsame := hsome id gap
        rw [Token.map_move_id, hu] at hsame
        cases hsame
    · rename_i hpcall
      rw [if_neg hpcall]

/-- A use that is read up to trailing blanks is read so before anything that does not go on with the
last token. -/
theorem use?_trailing {site : Option RequireSite} {after : List Token} (f : Position → Position)
    (hh : h.precedesGlobal = g.precedesGlobal) (hts : ¬IsGap ts) (hgap : IsTrailing gap)
    (hu : use? h w p (ts ++ gap) = some ⟨site, some after⟩) :
    ∃ left, after = left ++ gap ∧ ∀ us, (source us).head? ≠ some equals →
      use? g w (f p) (ts.map (move f) ++ us) =
        some ⟨site.map (moved f), some (left.map (move f) ++ us)⟩ := by
  simp only [use?, ← hh] at hu ⊢
  split at hu
  · rename_i hw
    obtain ⟨left, hleft, hsame⟩ := readCall_trailing f hts hgap (Option.some.inj hu)
    exact ⟨left, hleft, fun us hus => by rw [if_pos hw, hsame us hus]⟩
  · rename_i hw
    split at hu
    · rename_i hpcall
      rcases readProtected?_cases ts with hnone | ⟨position, commas, hsome⟩
      · have hsame := hnone id gap hgap.inert
        rw [Token.map_move_id, hu] at hsame
        cases hsame
      · have hread := hsome id gap
        rw [Token.map_move_id, Token.map_move_id, hu] at hread
        obtain ⟨left, hleft, hsame⟩ :=
          takesSame_readArguments f true hgap.gap (Option.some.inj hread).symm
        refine ⟨left, hleft, fun us _ => ?_⟩
        rw [if_neg hw, if_pos hpcall, hsome f us]
        exact congrArg some (hsame us)
    · cases hu

/-- The same where nothing but a gap is read: then no use may begin in what follows. -/
theorem use?_elsewhere {site : Option RequireSite} {after : List Token} (f : Position → Position)
    (hh : h.precedesGlobal = g.precedesGlobal) (hgap : IsTrailing gap)
    (hu : use? h w p (ts ++ gap) = some ⟨site, some after⟩) :
    ∃ left, after = left ++ gap ∧ ∀ us, Inert us → use? g w (f p) (ts.map (move f) ++ us) =
      some ⟨site.map (moved f), some (left.map (move f) ++ us)⟩ := by
  by_cases hts : IsGap ts
  · rw [use?] at hu
    split at hu
    · rename_i hw
      rw [readCall_inert hts hgap.inert] at hu
      obtain ⟨rfl, hafter⟩ := Use.mk.inj (Option.some.inj hu)
      refine ⟨ts, (Option.some.inj hafter).symm, fun us hus => ?_⟩
      rw [use?, if_pos (hh ▸ hw), readCall_inert hts.move hus]
      rfl
    · split at hu
      · rw [readProtected?, Token.significant?_append hts, hgap.gap.significant?_eq] at hu
        cases hu
      · cases hu
  · obtain ⟨left, hleft, hsame⟩ := use?_trailing f hh hts hgap hu
    exact ⟨left, hleft, fun us hus => hsame us hus.head⟩

/-- Histories that tell the same of all that follows. -/
structure Alike (h g : History) : Prop extends Tracks h g where
  require : h.last = .word "require" ↔ g.last = .word "require"

theorem Alike.refl (h : History) : Alike h h := ⟨.refl h, .rfl⟩

theorem Alike.push (ha : Alike h g) (m : Mark) : Alike (h.push m) (g.push m) where
  last := .inl rfl
  dot := fun _ => by
    rcases ha.last with hlast | ⟨⟨_, hh, _⟩, _, hg, _⟩
    · change h.last = _ ↔ g.last = _
      rw [hlast]
    · exact iff_of_false hh hg
  equals := fun _ => ha.require
  require := .rfl

theorem made_moved (ha : Alike h g) (site : RequireSite) :
    made g (moved f site) = (made h site).map (moved f) := by
  have hkeeps : keepsName g (moved f site) = keepsName h site := by
    rw [keepsName, keepsName, ha.assignsRequire_eq]
    rfl
  rw [made, made, hkeeps]
  split <;> rfl

theorem made_map_moved (f : Position → Position) (ha : Alike h g) (site : Option RequireSite) :
    (site.map (moved f)).elim [] (made g) = (site.elim [] (made h)).map (moved f) := by
  cases site with
  | none => rfl
  | some site => exact made_moved ha site

theorem markOf_moved (f : Position → Position) (w : Text) (site : Option RequireSite)
    (rest rest' : Option (List Token)) :
    markOf w ⟨site.map (moved f), rest'⟩ = markOf w ⟨site, rest⟩ := by
  simp only [markOf, Option.isSome_map]

/-- A step that leaves trailing blanks is a step anywhere. -/
theorem Step.elsewhere {sites : List RequireSite} {h' : History} {after : List Token}
    (f : Position → Position) (ha : Alike h g) (hgap : IsTrailing gap) (hts : ts ≠ [])
    (hs : Step h (ts ++ gap) sites h' after) :
    ∃ left g', after = left ++ gap ∧ Alike h' g' ∧ ∀ us, Inert us →
      Step g (ts.map (move f) ++ us) (sites.map (moved f)) g' (left.map (move f) ++ us) := by
  obtain ⟨t, ts, rfl⟩ := List.exists_cons_of_ne_nil hts
  have hglobal := ha.precedesGlobal_eq
  cases hs with
  | gap ht => exact ⟨ts, g, rfl, ha, fun us _ => .gap ht⟩
  | mark hm hword =>
    refine ⟨ts, _, rfl, ha.push _, fun us hus => .mark hm fun w hw => ?_⟩
    exact use?_eq_none_elsewhere hglobal (hword w hw) hus
  | @use w p _ _ site hu =>
    obtain ⟨left, rfl, hsame⟩ := use?_elsewhere f hglobal hgap hu
    refine ⟨left, g.push (markOf w ⟨site, some (left ++ gap)⟩), rfl, ha.push _, fun us hus => ?_⟩
    rw [← made_map_moved f ha, ← markOf_moved f w site (some (left ++ gap))]
    exact .use (hsame us hus)

theorem Step.of_gap {sites : List RequireSite} {h' : History} {ts' : List Token} (hts : IsGap ts)
    (hs : Step h ts sites h' ts') : sites = [] ∧ h' = h ∧ IsGap ts' := by
  cases hs with
  | gap => exact ⟨rfl, rfl, fun t ht => hts t (List.mem_cons_of_mem _ ht)⟩
  | @mark t _ m hm =>
    have hgap := hts t List.mem_cons_self
    cases hl : t.lexeme <;> simp_all [mark?, Lexeme.isGap]
  | use => cases hts _ List.mem_cons_self

theorem Steps.of_gap {sites : List RequireSite} {h' : History} {ts' : List Token} (hts : IsGap ts)
    (hs : Steps h ts sites h' ts') : sites = [] ∧ h' = h := by
  induction hs with
  | refl => exact ⟨rfl, rfl⟩
  | step hstep _ ih =>
    obtain ⟨rfl, rfl, hgap⟩ := hstep.of_gap hts
    exact ih hgap

/-- A scan that comes to the end of a source finds the same anywhere. -/
theorem Steps.elsewhere {sites : List RequireSite} {h' : History} (f : Position → Position)
    (ha : Alike h g) (hgap : IsTrailing gap) (hs : Steps h (ts ++ gap) sites h' []) :
    ∃ g', ∀ us, Inert us → Steps g (ts.map (move f) ++ us) (sites.map (moved f)) g' us := by
  generalize hxs : ts ++ gap = xs at hs
  generalize hend : ([] : List Token) = ys at hs
  induction hs generalizing ts g with
  | refl =>
    obtain rfl : ts = [] := (List.append_eq_nil_iff.mp (hxs.trans hend.symm)).1
    exact ⟨g, fun us _ => .refl⟩
  | @step h h₁ h' xs xs₁ ys found sites hstep hrest ih =>
    by_cases hts : ts = []
    · subst hts hxs
      obtain ⟨hsites, _⟩ := (Steps.step hstep hrest).of_gap hgap.gap
      exact ⟨g, fun us _ => by rw [hsites]; exact .refl⟩
    · subst hxs
      obtain ⟨left, g₁, rfl, ha₁, hsame⟩ := hstep.elsewhere f ha hgap hts
      obtain ⟨g', hsteps⟩ := ih ha₁ rfl hend
      refine ⟨g', fun us hus => ?_⟩
      rw [List.map_append]
      exact .step (hsame us hus) (hsteps us hus)

end Step

end RequireSite

end LuaBundle
