import LuaBundle.Proofs.Source.History

/-! A scan as a run over pieces: it reads a piece, or it takes the pieces of a use. Every scan of
tokens whose calls are closed is such a run. -/

namespace LuaBundle

open Text

namespace RequireSite

open Lua

/-- What stands before the program in a source: a first line that starts with `#`. -/
def prologue (t : Text) : Text :=
  if t.head? = some hash then firstLine t ++ (t.dropWhile (· != lineFeed)).take 1 else []

/-- The program in a source. -/
def program (t : Text) : Text := if t.head? = some hash then afterFirstLine t else t

theorem tokens_eq (t : Text) :
    tokens t = Token.place (Position.start.after (prologue t)) (lexemes (program t)) := by
  unfold tokens prologue program
  split <;> rfl

section Scan

variable {h : History} {p : Position} {w : Text} {ts after : List Token}

theorem scanTokens_word (hu : use? h w p ts = none) :
    scanTokens h (⟨.word w, p⟩ :: ts) = scanTokens (h.push (.word w)) ts := by
  rw [scanTokens]
  simp only
  split
  · rfl
  · rename_i hu'
    rw [hu] at hu'
    cases hu'

theorem scanTokens_use {site : Option RequireSite} (hu : use? h w p ts = some ⟨site, some after⟩) :
    scanTokens h (⟨.word w, p⟩ :: ts) =
      (site.filter fun site => !keepsName h site).toList ++
        scanTokens (h.push (markOf w ⟨site, some after⟩)) after := by
  rw [scanTokens]
  simp only
  split
  · rename_i hu'
    rw [hu] at hu'
    cases hu'
  · rename_i use hu'
    rw [hu] at hu'
    obtain rfl := Option.some.inj hu'
    rfl

theorem scanTokens_place {ls : List Lexeme}
    (hopen : ∀ l ∈ ls, ∀ t, l ≠ .openComment t ∧ l ≠ .openString t)
    (hword : ∀ w : Text, .word w ∈ ls → w ≠ "require" ∧ w ≠ "pcall") (h : History) (p : Position)
    (ts : List Token) :
    scanTokens h (Token.place p ls ++ ts) = scanTokens (h.pushAll ls) ts := by
  induction ls generalizing h p with
  | nil => rfl
  | cons l ls ih =>
    obtain ⟨ho, hopen⟩ := List.forall_mem_cons.mp hopen
    have hrest := fun h p => ih hopen (fun w hw => hword w (List.mem_cons_of_mem _ hw)) h p
    rw [Token.place, List.cons_append]
    cases l with
    | openComment t => exact absurd rfl (ho t).1
    | openString t => exact absurd rfl (ho t).2
    | word w =>
      obtain ⟨hrequire, hpcall⟩ := hword w (by simp)
      have hu : use? h w p (Token.place (p.after w) ls ++ ts) = none := by
        rw [use?, if_neg fun hw => hrequire hw.1, if_neg hpcall]
      refine (scanTokens_word hu).trans ?_
      rw [History.pushAll_cons rfl, ← hrest]
    | _ =>
      rw [scanTokens]
      exact hrest _ _

end Scan

/-- A name that is neither a field or method nor declared. -/
def NamesGlobal (before : List Piece) : Prop :=
  ¬Preceded [.operator [colon]] before ∧ ¬BeforeField before ∧ ¬Preceded [.name "local"] before ∧
    ¬Preceded [.name "function"] before

/-- Every call of the global `require` is closed, also where `pcall` makes it. -/
def CallsClosed (ps : List Piece) : Prop :=
  ∀ before after, ps = before ++ .name "require" :: after → NamesGlobal before →
    IsClosed after ∧ (Preceded [.name "pcall", .operator [leftParen]] before →
      ∀ more, fromToken after = .operator [comma] :: more →
        (balanced? leftParen rightParen 0 more).isSome)

/-- No equality sign stands directly before another: the two are one token. -/
def EqualsApart (ps : List Piece) : Prop :=
  ∀ before after, ps = before ++ .operator [equals] :: after → (source after).head? ≠ some equals

/-- What a scan takes at a use after `done`: the pieces up to `require`, and those of the call. -/
structure Region (origin : Position) (done : List Piece) (site : RequireSite)
    (lead taken left : List Piece) : Prop where
  position : site.position = origin.after (source (done ++ lead))
  leads : lead = [] ∨ tokensIn lead = [.name "pcall", .operator [leftParen]]
  ends : taken = [] ∧ (fromToken left).head? ≠ some (.operator [equals]) ∨
    ∃ front x, taken = front ++ [x] ∧ endsCall x = true
  holds : ∀ front back, taken = front ++ .name "require" :: back →
    Holds site "require" front (back ++ left)
  empty : (site.moduleName = none ∧ site.rawArgument = []) ↔
    lead = [] ∧ ((∀ x ∈ (fromToken (taken ++ left)).head?, x.opensCall = false) ∨
      OpensEmpty leftParen (taken ++ left)) ∨
    lead ≠ [] ∧ OpensEmpty comma (taken ++ left)

theorem keepsName_iff {h : History} {site : RequireSite} :
    keepsName h site = true ↔
      (site.moduleName = none ∧ site.rawArgument = []) ∧ h.assignsRequire = true := by
  simp [keepsName]

/-- The sites that a use makes: none where the name is given its own value. -/
def made (h : History) (site : RequireSite) : List RequireSite :=
  if keepsName h site then [] else [site]

theorem mem_made {h : History} {site s : RequireSite} :
    s ∈ made h site ↔ keepsName h site = false ∧ s = site := by
  cases hkeeps : keepsName h site <;> simp [made, hkeeps]

/-- A scan that has read `done` and comes to the pieces of the second list. -/
inductive Run (origin : Position) :
    List Piece → List Piece → History → List RequireSite → Prop
  | nil {done : List Piece} {h : History} : Run origin done [] h []
  | pass {done rest : List Piece} {x : Piece} {h : History} {sites : List RequireSite}
    (hs : Synced h done (x :: rest))
    (hrequire : x = .name "require" →
      h.precedesGlobal = false ∨ (fromToken rest).head? = some (.operator [equals]))
    (hrest : Run origin (done ++ [x]) rest (h.pushAll x.lexemes) sites) :
    Run origin done (x :: rest) h sites
  | use {done lead taken left : List Piece} {h h' : History} {site : RequireSite}
    {sites : List RequireSite} (hs : Synced h done (lead ++ .name "require" :: (taken ++ left)))
    (hregion : Region origin done site lead taken left)
    (hglobal : lead = [] → h.precedesGlobal = true)
    (hrest : Run origin (done ++ (lead ++ .name "require" :: taken)) left h' sites) :
    Run origin done (lead ++ .name "require" :: (taken ++ left)) h
      (made h site ++ sites)

/-! What a scan of tokens does at one piece. -/

section Step

variable {h : History} {p : Position} {rest : List Piece}

theorem readCall_assigned (hvalid : ∀ y ∈ rest, y.Valid)
    (hnext : (fromToken rest).head? = some (.operator [equals])) (hequals : EqualsApart rest)
    (q : Position) : readCall p (tokensOf q rest) = ⟨none, some (tokensOf q rest)⟩ := by
  have hclosed : IsClosed rest := by
    constructor <;> intro more hmore <;> rw [hmore] at hnext <;>
      exact absurd (Option.some.inj hnext) (by decide)
  have happart : ∀ more, fromToken rest = .operator [equals] :: more →
      (source more).head? ≠ some equals := fun more hmore => hequals _ _ (eq_gap_append hmore)
  obtain ⟨site, taken, left, hcall, hread⟩ := readCall_tokensOf p hvalid hclosed
    happart q
  cases hcall with
  | assigned _ => exact hread
  | bare hne _ => exact absurd hnext hne
  | literal name raw hx hps =>
    rw [hps] at hnext
    obtain rfl := Option.some.inj hnext
    cases hx
  | arguments hps _ =>
    rw [hps] at hnext
    exact absurd (Option.some.inj hnext) (by decide)
  | table hps _ =>
    rw [hps] at hnext
    exact absurd (Option.some.inj hnext) (by decide)

theorem scanTokens_pass {x : Piece} (hx : x.Valid) (hvalid : ∀ y ∈ rest, y.Valid)
    (hequals : EqualsApart rest)
    (hrequire : x = .name "require" →
      h.precedesGlobal = false ∨ (fromToken rest).head? = some (.operator [equals]))
    (hpcall : x = .name "pcall" → ¬IsProtected rest) (p : Position) :
    scanTokens h (tokensOf p (x :: rest)) =
      scanTokens (h.pushAll x.lexemes) (tokensOf (p.after x.text) rest) := by
  rw [tokensOf_cons]
  by_cases hname : ∃ w, x = .name w
  · obtain ⟨w, rfl⟩ := hname
    change scanTokens h (⟨.word w, p⟩ :: tokensOf (p.after w) rest) =
      scanTokens (h.push (.word w)) (tokensOf (p.after w) rest)
    by_cases hw : w = "require" ∧ h.precedesGlobal = true
    · obtain ⟨rfl, hglobal⟩ := hw
      have hnext := (hrequire rfl).resolve_left (by simp [hglobal])
      have hu : use? h "require" p (tokensOf (p.after "require") rest) =
          some ⟨none, some (tokensOf (p.after "require") rest)⟩ := by
        rw [use?, if_pos ⟨rfl, hglobal⟩, readCall_assigned hvalid hnext hequals]
      rw [scanTokens_use hu, markOf, if_neg (by simp)]
      rfl
    · refine scanTokens_word ?_
      rw [use?, if_neg hw]
      by_cases hw' : w = "pcall"
      · rw [if_pos hw']
        by_contra hsome
        obtain ⟨use, huse⟩ := Option.ne_none_iff_exists'.mp hsome
        exact hpcall (by rw [hw']) (isProtected_of_readProtected? hvalid huse)
      · rw [if_neg hw']
  · refine scanTokens_place (lexemes_ne_open hx) (fun w hw => ?_) h p _
    constructor <;> rintro rfl <;> exact hname ⟨_, eq_name_of_word_mem hx (by decide) hw⟩

theorem scanTokens_call (hvalid : ∀ y ∈ rest, y.Valid) (hclosed : IsClosed rest)
    (hequals : EqualsApart rest) (hglobal : h.precedesGlobal = true)
    (hnext : (fromToken rest).head? ≠ some (.operator [equals])) (p : Position) :
    ∃ site taken left, Call p rest (some site) taken left ∧
      scanTokens h (tokensOf p (.name "require" :: rest)) =
        made h site ++ scanTokens (h.push (.symbol rightParen))
          (tokensOf (p.after (source (.name "require" :: taken))) left) := by
  obtain ⟨site, taken, left, hcall, hread⟩ := readCall_tokensOf p hvalid hclosed
    (fun more hmore => hequals _ _ (eq_gap_append hmore)) (p.after "require")
  have hsome : ∃ s, site = some s := by
    cases hcall with
    | assigned hassigned => exact absurd hassigned hnext
    | _ => exact ⟨_, rfl⟩
  obtain ⟨site, rfl⟩ := hsome
  refine ⟨site, taken, left, hcall, ?_⟩
  rw [tokensOf_cons]
  have hu : use? h "require" p (tokensOf (p.after "require") rest) =
      some ⟨some site, some (tokensOf ((p.after "require").after (source taken)) left)⟩ := by
    rw [use?, if_pos ⟨rfl, hglobal⟩, hread]
  refine (scanTokens_use hu).trans ?_
  rw [markOf, if_pos ⟨rfl, rfl⟩, source_cons, Position.after_append]
  cases hkeeps : keepsName h site <;> simp [made, hkeeps, Piece.text, Option.filter]

theorem scanTokens_protected (hvalid : ∀ y ∈ rest, y.Valid) (hprotected : IsProtected rest)
    (hclosed : ∀ opening after more, rest = opening ++ .name "require" :: after →
      tokensIn opening = [.operator [leftParen]] → fromToken after = .operator [comma] :: more →
      (balanced? leftParen rightParen 0 more).isSome) (h : History) (p : Position) :
    ∃ site opening taken left,
      Protected (p.after "pcall") rest site opening taken left ∧
        scanTokens h (tokensOf p (.name "pcall" :: rest)) =
          made h site ++ scanTokens (h.push (.word "pcall")) (tokensOf (p.after (source
            (.name "pcall" :: (opening ++ .name "require" :: taken)))) left) := by
  obtain ⟨site, opening, taken, left, huse, hread⟩ :=
    readProtected?_tokensOf hvalid hprotected hclosed (p.after "pcall")
  refine ⟨site, opening, taken, left, huse, ?_⟩
  rw [tokensOf_cons]
  have hne : ("pcall" : Text) ≠ "require" := by decide
  have hu : use? h "pcall" p (tokensOf (p.after "pcall") rest) = some ⟨some site,
      some (tokensOf ((p.after "pcall").after (source (opening ++ .name "require" :: taken)))
        left)⟩ := by
    rw [use?, if_neg fun hw => hne hw.1, if_pos rfl, hread]
  refine (scanTokens_use hu).trans ?_
  rw [markOf, if_neg fun hw => hne hw.1, source_cons, Position.after_append]
  cases hkeeps : keepsName h site <;> simp [made, hkeeps, Piece.text, Option.filter]

end Step

/-! What the scan takes at a use, whoever makes the call. -/

section Region

variable {origin : Position} {done rest taken left : List Piece} {site : RequireSite}

theorem Region.of_call (hvalid : ∀ y ∈ rest, y.Valid)
    (h : Call (origin.after (source done)) rest (some site) taken left) :
    Region origin done site [] taken left where
  position := by rw [h.position_eq, List.append_nil]
  leads := .inl rfl
  ends := h.ends
  holds := fun front back htaken => h.holds htaken
  empty := by
    rw [h.empty_iff hvalid, h.split]
    simp

theorem Region.of_protected {opening : List Piece} (hvalid : ∀ y ∈ rest, y.Valid)
    (h : Protected ((origin.after (source done)).after "pcall") rest site opening taken left) :
    Region origin done site (.name "pcall" :: opening) taken left where
  position := by
    rw [h.position_eq]
    simp only [source_append, source_cons, Position.after_append, Piece.text]
  leads := .inr (by rw [tokensIn, List.filter_cons_of_pos rfl, ← tokensIn, h.opening_eq])
  ends := .inr h.ends
  holds := fun front back htaken => h.holds htaken
  empty := by
    rw [h.empty_iff hvalid]
    simp

theorem isToken_of_endsCall {x : Piece} (h : endsCall x = true) : x.isToken = true := by
  cases x <;> first | rfl | cases h

/-- What is read up to the end of a use leaves the scan in step. -/
theorem Region.synced {lead : List Piece} {h : History} {m : Mark}
    (hregion : Region origin done site lead taken left)
    (hm : m = .symbol rightParen ∨ m = .word "pcall") :
    Synced (h.push m) (done ++ (lead ++ .name "require" :: taken)) left := by
  rcases hregion.ends with ⟨rfl, hnext⟩ | ⟨front, x, rfl, hx⟩
  · have hlast : tokensIn (done ++ (lead ++ [.name "require"])) =
        tokensIn (done ++ lead) ++ [.name "require"] := by
      simp [tokensIn, Piece.isToken]
    exact Synced.leave hm hlast (.inl ⟨rfl, hnext⟩)
  · have hlast : tokensIn (done ++ (lead ++ .name "require" :: (front ++ [x]))) =
        tokensIn (done ++ (lead ++ .name "require" :: front)) ++ [x] := by
      rw [← List.cons_append, ← List.append_assoc, ← List.append_assoc, tokensIn_append]
      simp [tokensIn, isToken_of_endsCall hx]
    exact Synced.leave hm hlast (.inr hx)

end Region

theorem namesGlobal_of_precedesGlobal {h : History} {done ps : List Piece}
    (hdone : ∀ x ∈ done, x.Valid) (hs : Synced h done ps) (hg : h.precedesGlobal = true) :
    NamesGlobal done := by
  have hlooks : ¬LooksQualified done := by
    rw [hs.looksQualified_iff hdone, hg]
    exact Bool.noConfusion
  simp only [LooksQualified, not_or] at hlooks
  obtain ⟨hcolon, _, hfield, _, hlocal, hfunction⟩ := hlooks
  exact ⟨hcolon, hfield, hlocal, hfunction⟩

theorem namesGlobal_of_parenthesis {before past : List Piece}
    (h : tokensIn before = past ++ [.operator [leftParen]]) : NamesGlobal before := by
  refine ⟨?_, ?_, ?_, ?_⟩
  · rw [preceded_iff h]
    decide
  · rintro ⟨front, hfront, _⟩
    rw [h] at hfront
    exact absurd (List.cons.inj (List.append_inj' hfront rfl).2).1 (by decide)
  · rw [preceded_iff h]
    decide
  · rw [preceded_iff h]
    decide

theorem CallsClosed.argument {done rest opening after more : List Piece}
    (hclosed : CallsClosed (done ++ .name "pcall" :: rest))
    (hrest : rest = opening ++ .name "require" :: after)
    (hopening : tokensIn opening = [.operator [leftParen]])
    (hmore : fromToken after = .operator [comma] :: more) :
    (balanced? leftParen rightParen 0 more).isSome := by
  have hbefore : tokensIn (done ++ .name "pcall" :: opening) =
      (tokensIn done ++ [.name "pcall"]) ++ [.operator [leftParen]] := by
    rw [tokensIn_append, List.append_assoc, ← hopening]
    rfl
  have hpcall : Preceded [.name "pcall", .operator [leftParen]]
      (done ++ .name "pcall" :: opening) := by
    rw [Preceded, hbefore, List.append_assoc]
    exact List.suffix_append _ _
  have hsplit : done ++ .name "pcall" :: rest =
      (done ++ .name "pcall" :: opening) ++ .name "require" :: after := by simp [hrest]
  exact (hclosed _ after hsplit (namesGlobal_of_parenthesis hbefore)).2 hpcall more hmore

theorem EqualsApart.suffix {ps qs : List Piece} (h : EqualsApart (ps ++ qs)) : EqualsApart qs := by
  rintro before after rfl
  exact h (ps ++ before) after (by simp)

/-- A scan of tokens whose calls are closed is a run over their pieces. -/
theorem run_scanTokens (origin : Position) {done ps : List Piece} {h : History}
    (hdone : ∀ x ∈ done, x.Valid) (hvalid : ∀ x ∈ ps, x.Valid) (hclosed : CallsClosed (done ++ ps))
    (hequals : EqualsApart ps) (hs : Synced h done ps) :
    Run origin done ps h (scanTokens h (tokensOf (origin.after (source done)) ps)) := by
  induction hlength : ps.length using Nat.strong_induction_on generalizing done ps h with
  | _ n ih =>
    subst hlength
    -- What a step leaves is a shorter list, scanned from where the step ends.
    have step : ∀ {before left : List Piece} {h' : History}, ps = before ++ left → before ≠ [] →
        Synced h' (done ++ before) left → Run origin (done ++ before) left h'
          (scanTokens h' (tokensOf ((origin.after (source done)).after (source before)) left)) := by
      rintro before left h' rfl hne hs'
      have hlt : left.length < (before ++ left).length := by
        have := List.length_pos_iff.mpr hne
        rw [List.length_append]
        omega
      rw [← Position.after_append, ← source_append]
      refine ih _ hlt ?_ (fun x hx => hvalid x (by simp [hx])) ?_ hequals.suffix hs' rfl
      · intro x hx
        rcases List.mem_append.mp hx with hx | hx
        · exact hdone x hx
        · exact hvalid x (by simp [hx])
      · rwa [List.append_assoc]
    cases ps with
    | nil =>
      change Run origin done [] h (scanTokens h [])
      rw [scanTokens]
      exact .nil
    | cons x rest =>
      obtain ⟨hx, hrest⟩ := List.forall_mem_cons.mp hvalid
      have happart : EqualsApart rest := @EqualsApart.suffix [x] rest hequals
      by_cases hcall : x = .name "require" ∧ h.precedesGlobal = true ∧
          (fromToken rest).head? ≠ some (.operator [equals])
      · obtain ⟨rfl, hglobal, hnext⟩ := hcall
        have hnames := namesGlobal_of_precedesGlobal hdone hs hglobal
        obtain ⟨site, taken, left, hcall, hscan⟩ := scanTokens_call hrest
          (hclosed done rest rfl hnames).1 happart hglobal hnext (origin.after (source done))
        have hregion := Region.of_call hrest hcall
        obtain rfl := hcall.split
        rw [hscan]
        exact Run.use hs hregion (fun _ => hglobal)
          (step rfl (List.cons_ne_nil _ _) (hregion.synced (.inl rfl)))
      · by_cases hpcall : x = .name "pcall" ∧ IsProtected rest
        · obtain ⟨rfl, hprotected⟩ := hpcall
          obtain ⟨site, opening, taken, left, huse, hscan⟩ :=
            scanTokens_protected hrest hprotected (fun _ _ _ => hclosed.argument) h
              (origin.after (source done))
          have hregion := Region.of_protected hrest huse
          obtain rfl := huse.split
          have hsplit : Piece.name "pcall" :: (opening ++ .name "require" :: (taken ++ left)) =
              .name "pcall" :: (opening ++ .name "require" :: taken) ++ left := by simp
          rw [hscan]
          exact Run.use hs hregion (fun hnil => absurd hnil (List.cons_ne_nil _ _))
            (step hsplit (List.cons_ne_nil _ _) (hregion.synced (.inr rfl)))
        · have hrequire : x = .name "require" →
              h.precedesGlobal = false ∨ (fromToken rest).head? = some (.operator [equals]) := by
            intro hname
            by_contra hne
            rw [not_or, Bool.not_eq_false] at hne
            exact hcall ⟨hname, hne⟩
          have hprotected : x = .name "pcall" → ¬IsProtected rest := fun hname hp =>
            hpcall ⟨hname, hp⟩
          have hstep := @step [x] rest _ rfl (List.cons_ne_nil _ _) (hs.pass hx hprotected)
          rw [source_cons, source_nil, List.append_nil] at hstep
          rw [scanTokens_pass hx hrest happart hrequire hprotected]
          exact Run.pass hs hrequire hstep

theorem Run.upTo {origin : Position} {done ps : List Piece} {h : History}
    {sites : List RequireSite} (hrun : Run origin done ps h sites) :
    ∀ site ∈ sites, (origin.after (source done)).UpTo site.position := by
  induction hrun with
  | nil => simp
  | pass _ _ _ ih =>
    intro site hsite
    refine .trans ?_ (ih site hsite)
    rw [source_append, Position.after_append]
    exact Position.upTo_after _ _
  | @use done lead taken left h h' site sites _ hregion _ _ ih =>
    intro s hsite
    rcases List.mem_append.mp hsite with hmade | hlater
    · obtain ⟨_, rfl⟩ := mem_made.mp hmade
      rw [hregion.position, source_append, Position.after_append]
      exact Position.upTo_after _ _
    · refine .trans ?_ (ih s hlater)
      rw [source_append, Position.after_append]
      exact Position.upTo_after _ _

end RequireSite

end LuaBundle
