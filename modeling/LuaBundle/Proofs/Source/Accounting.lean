import LuaBundle.Proofs.Source.Run

/-! Which uses of `require` a scan accounts for. A use is found at its place or lies in the argument
of a site, but for four kinds that the scan takes for something else: a use after a label, whose
colons look like a method; one after a numeral that ends in a dot, which looks like a field; and a
call without an argument, by itself or through `pcall`, whose value is assigned to `require`. -/

namespace LuaBundle

open Text

namespace RequireSite

open Lua

/-- The name `require` between these pieces is a use: no field or method, not declared, no label,
not assigned to, and not the value that keeps its own name. -/
structure IsUse (before after : List Piece) : Prop where
  field : ¬Preceded [.operator [dot]] before
  method : ¬Preceded [.operator [colon]] before
  unbound : ¬Preceded [.name "local"] before
  undefined : ¬Preceded [.name "function"] before
  label : ¬(Preceded [.operator [colon, colon]] before ∧
    (fromToken after).head? = some (.operator [colon, colon]))
  assigned : (fromToken after).head? ≠ some (.operator [equals])
  rebound : Preceded [.name "require", .operator [equals]] before →
    ∃ x ∈ (fromToken after).head?, x.opensCall = true

/-- The uses that a scan misses. -/
def Missed (before after : List Piece) : Prop :=
  Preceded [.operator [colon, colon]] before ∨ AfterNumeralDot before ∨
    Preceded [.name "require", .operator [equals]] before ∧ OpensEmpty leftParen after ∨
    Preceded [.name "require", .operator [equals], .name "pcall", .operator [leftParen]] before ∧
      OpensEmpty comma after

/-- A site stands after these pieces. -/
def StandsAfter (origin : Position) (sites : List RequireSite) (before : List Piece) : Prop :=
  ∃ site ∈ sites, site.position = origin.after (source before)

/-- The name `require` between these pieces lies in the argument of a site. -/
def InArgument (origin : Position) (sites : List RequireSite) (before after : List Piece) : Prop :=
  ∃ site ∈ sites, ∃ callee front, before = callee ++ .name "require" :: front ∧
    site.position = origin.after (source callee) ∧ Holds site "require" front after

variable {origin : Position} {done ps : List Piece} {h : History} {sites : List RequireSite}

theorem missed_of_looksQualified {before after : List Piece} (huse : IsUse before after)
    (h : LooksQualified before) : Missed before after := by
  rcases h with hcolon | hlabel | ⟨past, hpast, _⟩ | hnumeral | hlocal | hfunction
  · exact absurd hcolon huse.method
  · exact .inl hlabel
  · exact absurd ⟨past, hpast.symm⟩ huse.field
  · exact .inr (.inl hnumeral)
  · exact absurd hlocal huse.unbound
  · exact absurd hfunction huse.undefined

theorem opensEmpty_tokensIn {u : UInt16} {ps : List Piece} (h : OpensEmpty u ps) :
    [.operator [u]] <+: tokensIn ps := by
  obtain ⟨rest, hps, _⟩ := h
  rw [tokensIn_of_fromToken hps]
  exact ⟨tokensIn rest, rfl⟩

theorem Holds.rawArgument_ne_nil {site : RequireSite} {front back : List Piece}
    (h : Holds site "require" front back) : site.rawArgument ≠ [] := by
  obtain ⟨_, left, right, _, _, _, _, hraw⟩ := h
  rw [hraw, Ne, trim_collapseBlanks_eq_nil_iff]
  intro hall
  have hr : unit 'r' ∈ ("require" : Text) := by decide
  have := hall 'r' (by
    rw [source_append]
    exact List.mem_append_right _ (List.mem_append_left _ hr))
  exact absurd this (by decide)

/-- Where the scan takes the name for a global that no protected call is given, it misses a call of
nothing whose value is assigned to the name. -/
theorem missed_iff_of_global {after : List Piece} (hlooks : ¬LooksQualified done)
    (hs : Synced h done (.name "require" :: after)) :
    Missed done after ↔
      Preceded [.name "require", .operator [equals]] done ∧ OpensEmpty leftParen after := by
  simp only [LooksQualified, not_or] at hlooks
  obtain ⟨_, hlabel, _, hnumeral, _⟩ := hlooks
  constructor
  · rintro (h | h | hbare | ⟨hprotected, hempty⟩)
    · exact absurd h hlabel
    · exact absurd h hnumeral
    · exact hbare
    · have hpcall : Preceded [.name "pcall", .operator [leftParen]] done :=
        .trans ⟨[.name "require", .operator [equals]], rfl⟩ hprotected
      refine absurd ?_ (hs.inside hpcall)
      exact (List.prefix_cons_inj (.name "require")).mpr (opensEmpty_tokensIn hempty)
  · exact fun hbare => .inr (.inr (.inl hbare))

theorem missed_iff_of_protected {lead after : List Piece}
    (hlead : tokensIn lead = [.name "pcall", .operator [leftParen]]) :
    Missed (done ++ lead) after ↔
      Preceded [.name "require", .operator [equals]] done ∧ OpensEmpty comma after := by
  have hbefore : tokensIn (done ++ lead) =
      (tokensIn done ++ [.name "pcall"]) ++ [.operator [leftParen]] := by
    rw [tokensIn_append, hlead, List.append_assoc]
    rfl
  have hassigns : Preceded [.name "require", .operator [equals], .name "pcall",
      .operator [leftParen]] (done ++ lead) ↔
      Preceded [.name "require", .operator [equals]] done := by
    rw [Preceded, tokensIn_append, hlead]
    constructor
    · rintro ⟨front, hfront⟩
      exact ⟨front, List.append_cancel_right (by simpa using hfront)⟩
    · rintro ⟨front, hfront⟩
      exact ⟨front, by rw [← hfront]; simp⟩
  have hlabel : ¬Preceded [.operator [colon, colon]] (done ++ lead) := by
    rw [preceded_iff hbefore]
    decide
  have hnumeral : ¬AfterNumeralDot (done ++ lead) := by
    rintro ⟨n, hn, _⟩
    cases (preceded_iff hbefore _).mp hn
  have hbare : ¬Preceded [.name "require", .operator [equals]] (done ++ lead) := fun hp =>
    absurd ((preceded_pair_iff hbefore _ _).mp hp).1 (by decide)
  simp [Missed, hassigns, hlabel, hnumeral, hbare]

/-- A scan drops the site that it makes at a use where the use is missed. -/
theorem keepsName_iff_missed {site : RequireSite} {lead taken left : List Piece}
    (hvalid : ∀ x ∈ done, x.Valid)
    (hs : Synced h done (lead ++ .name "require" :: (taken ++ left)))
    (hregion : Region origin done site lead taken left)
    (hglobal : lead = [] → h.precedesGlobal = true) (huse : IsUse (done ++ lead) (taken ++ left)) :
    keepsName h site = true ↔ Missed (done ++ lead) (taken ++ left) := by
  rw [keepsName_iff, hs.tracks.assignsRequire_eq, assignsRequire_historyOf hvalid, hregion.empty]
  rcases hregion.leads with rfl | hlead
  · rw [List.append_nil] at huse ⊢
    have hlooks : ¬LooksQualified done := by
      rw [hs.looksQualified_iff hvalid, hglobal rfl]
      exact Bool.noConfusion
    rw [missed_iff_of_global hlooks hs]
    constructor
    · rintro ⟨⟨_, hbare | hempty⟩ | ⟨hne, _⟩, hassigns⟩
      · obtain ⟨x, hx, hcall⟩ := huse.rebound hassigns
        rw [hbare x hx] at hcall
        cases hcall
      · exact ⟨hassigns, hempty⟩
      · exact absurd rfl hne
    · exact fun ⟨hassigns, hempty⟩ => ⟨.inl ⟨rfl, .inr hempty⟩, hassigns⟩
  · have hne : lead ≠ [] := by
      rintro rfl
      cases hlead
    rw [missed_iff_of_protected hlead]
    simp [hne, and_comm]

/-- Where a name stands among the pieces of a use and those after it. -/
theorem append_cons_cases {lead taken left before after : List Piece} {x : Piece} (hx : x ∉ lead)
    (h : lead ++ x :: (taken ++ left) = before ++ x :: after) :
    (before = lead ∧ after = taken ++ left) ∨
      (∃ front back, before = lead ++ x :: front ∧ taken = front ++ x :: back ∧
        after = back ++ left) ∨
      ∃ front, before = lead ++ x :: taken ++ front ∧ left = front ++ x :: after := by
  obtain ⟨front, rfl, hfront⟩ := exists_append_of_not_mem h hx
  cases front with
  | nil => exact .inl ⟨List.append_nil lead, (List.cons.inj hfront).2.symm⟩
  | cons y front =>
    obtain ⟨rfl, hrest⟩ := List.cons.inj hfront
    rcases List.append_eq_append_iff.mp hrest with ⟨more, rfl, hleft⟩ | ⟨more, htaken, hmore⟩
    · exact .inr (.inr ⟨more, by simp, hleft⟩)
    · cases more with
      | nil =>
        refine .inr (.inr ⟨[], by simp [htaken], by simpa using hmore.symm⟩)
      | cons z back =>
        obtain ⟨rfl, rfl⟩ := List.cons.inj hmore
        exact .inr (.inl ⟨front, back, rfl, htaken, rfl⟩)

theorem before_of_append (done : List Piece) {x : Piece} (hx : x.Valid) (more : List Piece) :
    (origin.after (source done)).Before (origin.after (source (done ++ x :: more))) := by
  rw [source_append, Position.after_append]
  refine Position.before_after ?_ _
  rw [source_cons]
  exact List.append_ne_nil_of_left_ne_nil hx.text_ne_nil _

theorem Run.not_standsAfter {more : List Piece} {x : Piece} (hx : x.Valid)
    (hrun : Run origin (done ++ x :: more) ps h sites) : ¬StandsAfter origin sites done := by
  rintro ⟨site, hsite, hposition⟩
  have hlater := (before_of_append done hx more).trans_upTo (hrun.upTo site hsite)
  exact hlater.ne hposition.symm

section Use

variable {site : RequireSite} {lead taken left : List Piece}

theorem Region.require_not_mem (hregion : Region origin done site lead taken left) :
    .name "require" ∉ lead := by
  intro hmem
  have htoken : .name "require" ∈ tokensIn lead := List.mem_filter.mpr ⟨hmem, rfl⟩
  rcases hregion.leads with rfl | hlead
  · cases hmem
  · rw [hlead] at htoken
    exact absurd htoken (by decide)

theorem Region.standsAfter_use (hregion : Region origin done site lead taken left)
    (hlater : ¬StandsAfter origin sites (done ++ lead)) :
    StandsAfter origin (made h site ++ sites) (done ++ lead) ↔ ¬keepsName h site = true := by
  constructor
  · rintro ⟨s, hs, hposition⟩ hkeeps
    rcases List.mem_append.mp hs with hmade | hs
    · have := (mem_made.mp hmade).1
      rw [hkeeps] at this
      cases this
    · exact hlater ⟨s, hs, hposition⟩
  · intro hkeeps
    have hmade : site ∈ made h site := mem_made.mpr ⟨Bool.eq_false_iff.mpr hkeeps, rfl⟩
    exact ⟨site, List.mem_append_left _ hmade, hregion.position⟩

theorem Region.standsAfter_later {before : List Piece}
    (hregion : Region origin done site lead taken left)
    (hbefore : (origin.after (source (done ++ lead))).Before (origin.after (source before))) :
    StandsAfter origin (made h site ++ sites) before ↔ StandsAfter origin sites before := by
  constructor
  · rintro ⟨s, hs, hposition⟩
    rcases List.mem_append.mp hs with hmade | hs
    · obtain ⟨_, rfl⟩ := mem_made.mp hmade
      rw [hregion.position] at hposition
      exact absurd hposition hbefore.ne
    · exact ⟨s, hs, hposition⟩
  · rintro ⟨s, hs, hposition⟩
    exact ⟨s, List.mem_append_right _ hs, hposition⟩

/-- A name among what a use takes lies in its argument, and the use is not dropped. -/
theorem Region.inArgument {front back : List Piece}
    (hregion : Region origin done site lead (front ++ .name "require" :: back) left) :
    InArgument origin (made h site ++ sites) (done ++ (lead ++ .name "require" :: front))
      (back ++ left) := by
  have hholds := hregion.holds front back rfl
  have hkeeps : keepsName h site = false := Bool.eq_false_iff.mpr fun hk =>
    hholds.rawArgument_ne_nil (keepsName_iff.mp hk).1.2
  refine ⟨site, List.mem_append_left _ (mem_made.mpr ⟨hkeeps, rfl⟩), done ++ lead, front, ?_,
    hregion.position, hholds⟩
  rw [List.append_assoc]

end Use

/-- In a run, a use lies in the argument of a site, or a site stands there just where it is not
missed. -/
theorem Run.accounted (hrun : Run origin done ps h sites) (hdone : ∀ x ∈ done, x.Valid)
    (hvalid : ∀ x ∈ ps, x.Valid) {before after : List Piece}
    (hps : ps = before ++ .name "require" :: after) (huse : IsUse (done ++ before) after) :
    InArgument origin sites (done ++ before) after ∨
      (StandsAfter origin sites (done ++ before) ↔ ¬Missed (done ++ before) after) := by
  induction hrun generalizing before with
  | nil => simp at hps
  | @pass done rest x h sites hs hrequire hrest ih =>
    obtain ⟨hx, hvalid⟩ := List.forall_mem_cons.mp hvalid
    cases before with
    | nil =>
      -- The use itself starts no call, so the scan took it for no global.
      obtain ⟨rfl, rfl⟩ := List.cons.inj hps
      rw [List.append_nil] at huse ⊢
      have hlooks : LooksQualified done :=
        (hs.looksQualified_iff hdone).mpr ((hrequire rfl).resolve_right huse.assigned)
      have hmissed : Missed done rest := missed_of_looksQualified huse hlooks
      exact .inr (iff_of_false (hrest.not_standsAfter hx) (not_not_intro hmissed))
    | cons y before =>
      obtain ⟨rfl, hrest'⟩ := List.cons.inj hps
      rw [List.append_cons] at huse ⊢
      exact ih (by simpa [or_imp, forall_and] using ⟨hdone, hx⟩) hvalid hrest' huse
  | @use done lead taken left h h' site sites hs hregion hglobal hrest ih =>
    have hrequire : (Piece.name "require").Valid := hvalid _ (by simp)
    rcases append_cons_cases hregion.require_not_mem hps with ⟨rfl, rfl⟩ |
      ⟨front, back, rfl, rfl, rfl⟩ | ⟨front, rfl, rfl⟩
    · -- It is the use of this step.
      rw [← List.append_assoc] at hrest
      right
      rw [hregion.standsAfter_use (hrest.not_standsAfter hrequire),
        keepsName_iff_missed hdone hs hregion hglobal huse]
    · -- It is among the pieces that this step takes.
      exact .inl hregion.inArgument
    · -- It comes after this step.
      have hdone' : ∀ x ∈ done ++ (lead ++ .name "require" :: taken), x.Valid := by
        intro x hx
        simp only [List.mem_append, List.mem_cons] at hx hvalid
        rcases hx with hx | hx | hx | hx
        · exact hdone x hx
        · exact hvalid x (.inl hx)
        · exact hvalid x (.inr (.inl hx))
        · exact hvalid x (.inr (.inr (.inl hx)))
      have hbefore : (origin.after (source (done ++ lead))).Before
          (origin.after (source (done ++ (lead ++ .name "require" :: taken) ++ front))) := by
        have := @before_of_append origin (done ++ lead) _ hrequire (taken ++ front)
        simpa using this
      rw [← List.append_assoc] at huse ⊢
      rw [hregion.standsAfter_later hbefore]
      rcases ih hdone' (fun x hx => hvalid x (by simp [hx])) rfl huse with
        ⟨later, hmem, hlater⟩ | hiff
      · exact .inl ⟨later, List.mem_append_right _ hmem, hlater⟩
      · exact .inr hiff

theorem exists_read?_of_pieces? {t : Text} {x : Piece} {ps : List Piece}
    (h : pieces? t = some (x :: ps)) :
    ∃ u rest after, read? u rest = some (x, after) ∧ pieces? after = some ps := by
  cases t with
  | nil =>
    rw [pieces?] at h
    cases h
  | cons u rest =>
    rw [pieces?] at h
    split at h
    · cases h
    · rename_i y after hread
      obtain ⟨qs, hqs, he⟩ := Option.map_eq_some_iff.mp h
      obtain ⟨rfl, rfl⟩ := List.cons.inj he
      exact ⟨u, rest, after, hread, hqs⟩

theorem head?_ne_equals {u : UInt16} {rest after : Text}
    (h : read? u rest = some (.operator [equals], after)) : after.head? ≠ some equals := by
  have hread : readOperator? (equals :: after) = some (.operator [equals], after) := by
    have htext := read?_text h
    rcases read?_cases h with ⟨he, _⟩ | hnumeral | ⟨he, _⟩ | ⟨_, he, _⟩ | ⟨_, _, _, hcomment⟩ |
      ⟨_, _, _, he, _⟩ | ⟨hoperator, _⟩
    · cases he
    · obtain ⟨_, he, _⟩ := readNumeral?_eq_some hnumeral
      cases he
    · cases he
    · cases he
    · obtain ⟨_, he, _⟩ := readComment?_eq_some hcomment
      cases he
    · cases he
    · rwa [← htext] at hoperator
  intro hhead
  obtain ⟨more, rfl⟩ : ∃ more, after = equals :: more := by
    cases after with
    | nil => cases hhead
    | cons v more => exact ⟨more, by rw [Option.some.inj hhead]⟩
  have hlonger : readOperator? (equals :: equals :: more) =
      some (.operator [equals, equals], more) := rfl
  rw [hlonger] at hread
  cases hread

/-- An equality sign is a token by itself only where no other follows. -/
theorem equalsApart_of_pieces? {t : Text} {ps : List Piece} (h : pieces? t = some ps) :
    EqualsApart ps := by
  rintro before after rfl
  induction before generalizing t with
  | nil =>
    obtain ⟨u, rest, following, hread, hafter⟩ := exists_read?_of_pieces? h
    rw [pieces?_text hafter]
    exact head?_ne_equals hread
  | cons x before ih =>
    obtain ⟨_, _, _, _, hrest⟩ := exists_read?_of_pieces? h
    exact ih hrest

/-- A use is accounted for: a site stands there, or it lies in the argument of one. -/
def Accounted (t : Text) (before after : List Piece) : Prop :=
  StandsAfter (Position.start.after (prologue t)) (scan t) before ∨
    InArgument (Position.start.after (prologue t)) (scan t) before after

/-- A scan accounts for just those uses that lie in the argument of a site or are not missed. -/
theorem accounted_iff {t : Text} {ps before after : List Piece}
    (hps : pieces? (program t) = some ps) (hclosed : CallsClosed ps)
    (hsplit : ps = before ++ .name "require" :: after) (huse : IsUse before after) :
    Accounted t before after ↔
      InArgument (Position.start.after (prologue t)) (scan t) before after ∨
        ¬Missed before after := by
  have hvalid := valid_of_pieces? hps
  have hrun := @run_scanTokens (Position.start.after (prologue t)) [] ps .empty (by simp) hvalid
    hclosed (equalsApart_of_pieces? hps) (.start ps)
  have hscan : scan t = scanTokens .empty (tokensOf (Position.start.after (prologue t)) ps) := by
    rw [scan, tokens_eq, lexemes_pieces? hps]
    rfl
  rw [source_nil, Position.after_nil, ← hscan] at hrun
  rw [Accounted]
  rcases hrun.accounted (by simp) hvalid hsplit huse with hargument | hiff
  · exact iff_of_true (.inr hargument) (.inl hargument)
  · rw [List.nil_append] at hiff
    rw [← hiff]
    exact or_comm

theorem eq_of_append_cons {before after before' after' : List Piece} {x : Piece}
    (hbefore : x ∉ before) (hafter : x ∉ after)
    (h : before ++ x :: after = before' ++ x :: after') :
    before' = before ∧ after' = after := by
  rw [← List.append_nil after] at h
  rcases append_cons_cases hbefore h with ⟨rfl, rfl⟩ | ⟨front, back, _, rfl, _⟩ | ⟨front, _, hnil⟩
  · exact ⟨rfl, List.append_nil after⟩
  · exact absurd (by simp) hafter
  · simp at hnil

/-- A module that is required after a label, which the scan misses. -/
theorem missed_after_label :
    ∃ before after, pieces? (program "::top:: require('x')") =
        some (before ++ .name "require" :: after) ∧
      CallsClosed (before ++ .name "require" :: after) ∧ IsUse before after ∧
      Missed before after ∧ ¬Accounted "::top:: require('x')" before after := by
  let before : List Piece := [.operator "::", .name "top", .operator "::", .blank space]
  let after : List Piece := [.operator "(", .quoted singleQuote "x", .operator ")"]
  have hpieces : pieces? (program "::top:: require('x')") =
      some (before ++ .name "require" :: after) := by decide +kernel
  have hlast : tokensIn before = [.operator "::", .name "top"] ++ [.operator "::"] := rfl
  have hclosed : CallsClosed (before ++ .name "require" :: after) := by
    intro before' after' hsplit _
    obtain ⟨rfl, rfl⟩ := eq_of_append_cons (by decide) (by decide) hsplit
    refine ⟨⟨fun rest hrest => ?_, fun rest hrest => ?_⟩, fun _ more hmore => ?_⟩
    · rw [← (List.cons.inj hrest).2]
      decide
    · exact absurd (List.cons.inj hrest).1 (by decide)
    · exact absurd (List.cons.inj hmore).1 (by decide)
  have huse : IsUse before after := by
    refine ⟨?_, ?_, ?_, ?_, ?_, by decide, fun hrebound => ?_⟩
    · rw [preceded_iff hlast]
      decide
    · rw [preceded_iff hlast]
      decide
    · rw [preceded_iff hlast]
      decide
    · rw [preceded_iff hlast]
      decide
    · exact fun hlabel => absurd hlabel.2 (by decide)
    · exact absurd ((preceded_pair_iff hlast _ _).mp hrebound).1 (by decide)
  have hmissed : Missed before after := .inl ((preceded_iff hlast _).mpr rfl)
  have hscan : scan "::top:: require('x')" = [] := by decide +kernel
  refine ⟨before, after, hpieces, hclosed, huse, hmissed, ?_⟩
  rw [accounted_iff hpieces hclosed rfl huse]
  rintro (⟨site, hsite, _⟩ | hfound)
  · rw [hscan] at hsite
    cases hsite
  · exact hfound hmissed

end RequireSite

end LuaBundle
