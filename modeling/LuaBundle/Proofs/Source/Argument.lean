import LuaBundle.Proofs.Source.Use
import LuaBundle.Proofs.Text.Blank

/-! The pieces that a use takes: they end in a bracket or a literal, their names lie in the
argument, and the argument is empty where nothing but blanks stands in it. -/

namespace LuaBundle

open Text

namespace RequireSite

open Lua

variable {position : Position}

/-- The tokens that end what a call takes. -/
def endsCall : Piece → Bool
  | .operator op => op == [rightParen] || op == [rightBrace]
  | x => x.isLiteral

/-- Pieces around one of an argument's pieces: those that open the argument, the argument's before
and after the piece, and those from its closing on. -/
def Delimited (opening left right closing : List Piece) : Prop :=
  (tokensIn opening = [.operator [leftParen]] ∨ tokensIn opening = [.operator [comma]]) ∧
      closing.head? = some (.operator [rightParen]) ∨
    tokensIn opening = [] ∧ left.head? = some (.operator [leftBrace]) ∧
      right.getLast? = some (.operator [rightBrace])

/-- A name lies in the argument of a site, given the pieces between `require` and the name and those
after the name. -/
def Holds (site : RequireSite) (w : Text) (front back : List Piece) : Prop :=
  ∃ opening left right closing, front = opening ++ left ∧ back = right ++ closing ∧
    Delimited opening left right closing ∧
    site.rawArgument = trim (collapseBlanks (source (left ++ .name w :: right)))

theorem not_mem_gap {x : Piece} (h : x.isToken = true) (ps : List Piece) : x ∉ gap ps := by
  intro hx
  have := List.all_eq_true.mp (List.all_takeWhile (l := ps)) x hx
  simp [h] at this

theorem Arguments.split {ps taken left : List Piece} {site : RequireSite}
    (h : Arguments position ps site taken left) : ps = taken ++ left := by
  cases h with
  | literal name raw hx hps hrest =>
    have hgap := eq_gap_append hps
    rw [eq_gap_append hrest] at hgap
    simpa using hgap
  | first name raw hx hps => simpa using eq_gap_append hps
  | computed hinside => simpa using balanced?_eq_some hinside

theorem Arguments.position_eq {ps taken left : List Piece} {site : RequireSite}
    (h : Arguments position ps site taken left) : site.position = position := by
  cases h <;> rfl

theorem Arguments.ends {ps taken left : List Piece} {site : RequireSite}
    (h : Arguments position ps site taken left) :
    ∃ front x, taken = front ++ [x] ∧ endsCall x = true := by
  cases h with
  | @literal x rest _ name raw hx hps hrest =>
    exact ⟨gap ps ++ x :: gap rest, .operator [rightParen], by simp, rfl⟩
  | @first x _ name raw hx hps =>
    refine ⟨gap ps, x, rfl, ?_⟩
    cases x <;> first | rfl | cases hx
  | @computed inside _ hinside => exact ⟨inside, .operator [rightParen], rfl, rfl⟩

theorem exists_append_of_ne_last {inside front back : List Piece} {x last : Piece}
    (h : inside ++ [last] = front ++ x :: back) (hne : x ≠ last) :
    ∃ right, back = right ++ [last] ∧ inside = front ++ x :: right := by
  rcases List.eq_nil_or_concat back with rfl | ⟨right, y, rfl⟩
  · have := (List.append_inj' h rfl).2
    exact absurd (List.cons.inj this).1.symm hne
  · rw [List.concat_eq_append, ← List.cons_append, ← List.append_assoc] at h
    obtain ⟨rfl, hy⟩ := List.append_inj' h rfl
    obtain rfl := (List.cons.inj hy).1
    exact ⟨right, List.concat_eq_append, rfl⟩

theorem Arguments.encloses {ps taken left front back : List Piece} {site : RequireSite} {w : Text}
    (h : Arguments position ps site taken left) (htaken : taken = front ++ .name w :: back) :
    ∃ right closing, back ++ left = right ++ closing ∧
      closing.head? = some (.operator [rightParen]) ∧
      site.rawArgument = trim (collapseBlanks (source (front ++ .name w :: right))) := by
  have hmem : .name w ∈ taken := by simp [htaken]
  have hgap : ∀ qs, .name w ∉ gap qs := not_mem_gap rfl
  cases h with
  | literal name raw hx hps hrest =>
    simp only [List.mem_append, List.mem_cons, hgap, false_or] at hmem
    rcases hmem with rfl | hmem
    · cases hx
    · simp at hmem
  | first name raw hx hps =>
    simp only [List.mem_append, List.mem_singleton, hgap, false_or] at hmem
    subst hmem
    cases hx
  | @computed inside _ hinside =>
    obtain ⟨right, rfl, rfl⟩ := exists_append_of_ne_last htaken (by simp)
    exact ⟨right, .operator [rightParen] :: left, by simp, rfl, rfl⟩

theorem isBlank_eq_false_of_isWordUnit {u : UInt16} (h : isWordUnit u = true) :
    Text.isBlank u = false := by
  have : isWordUnit u = true → Text.isBlank u = false := by
    refine of_toNat_lt (toNat_lt_of_isWordUnit h) ?_
    decide +kernel
  exact this h

theorem isWordUnit_eq_false_of_isBlank {u : UInt16} (h : isBlank u = true) :
    isWordUnit u = false := by
  by_contra hword
  rw [Bool.not_eq_false] at hword
  rw [isBlank_eq_false_of_isWordUnit hword] at h
  cases h

theorem exists_not_blank {x : Piece} (hx : x.Valid) (h : x.isBlank = false) :
    ∃ u ∈ x.text, Text.isBlank u = false := by
  cases x with
  | blank u => cases h
  | comment c => exact ⟨dash, List.mem_of_mem_head? hx, by decide⟩
  | name w =>
    obtain ⟨u, rest, rfl, hu⟩ := hx
    exact ⟨u, by simp [Piece.text], isBlank_eq_false_of_isWordUnit hu⟩
  | numeral n =>
    obtain ⟨l, ls, hls⟩ := List.exists_cons_of_ne_nil (lexemes_ne_nil hx)
    have htext := (Piece.numeral n).lexemes_text
    rw [hls, List.flatMap_cons] at htext
    rcases (lexemes_numeral hx.2).2.1 l (by rw [← Piece.lexemes, hls]; simp) with
      ⟨w, rfl, hw, hall⟩ | ⟨u, rfl, hu⟩
    · obtain ⟨u, w, rfl⟩ := List.exists_cons_of_ne_nil hw
      refine ⟨u, by rw [← htext]; simp [Lexeme.text], ?_⟩
      exact isBlank_eq_false_of_isWordUnit (isWordUnit_of_isNumeralUnit (hall u (by simp)))
    · refine ⟨u, by rw [← htext]; simp [Lexeme.text], ?_⟩
      have : u = dot ∨ u = unit '+' ∨ u = dash := by simpa [isSign] using hu
      rcases this with rfl | rfl | rfl <;> decide
  | quoted q body =>
    refine ⟨q, by simp [Piece.text], ?_⟩
    rcases hx with rfl | rfl <;> decide
  | bracketed level body => exact ⟨leftBracket, by simp [Piece.text, Lexeme.opening], by decide⟩
  | operator op =>
    have hall : ∀ op ∈ operators, ∃ u ∈ op, Text.isBlank u = false := by decide +kernel
    exact hall op hx

theorem rawArgument_computed_eq_nil_iff {ps : List Piece} (hvalid : ∀ x ∈ ps, x.Valid) :
    (computed position (source ps)).rawArgument = [] ↔ ∀ x ∈ ps, x.isBlank = true := by
  rw [computed, trim_collapseBlanks_eq_nil_iff]
  constructor
  · intro h x hx
    by_contra hblank
    obtain ⟨u, hu, hne⟩ := exists_not_blank (hvalid x hx) (Bool.eq_false_iff.mpr hblank)
    rw [h u (List.mem_flatMap.mpr ⟨x, hx, hu⟩)] at hne
    cases hne
  · intro h u hu
    obtain ⟨x, hx, hu⟩ := List.mem_flatMap.mp hu
    have hblank := h x hx
    cases x with
    | blank v =>
      obtain rfl := List.mem_singleton.mp hu
      exact isBlank_of_isAsciiBlank (hvalid _ hx)
    | _ => cases hblank

theorem balanced?_blanks {opener close : UInt16} {blanks rest : List Piece}
    (h : ∀ x ∈ blanks, x.isBlank = true) :
    balanced? opener close 0 (blanks ++ .operator [close] :: rest) = some (blanks, rest) := by
  induction blanks with
  | nil => rw [List.nil_append, balanced?.eq_def]; exact if_pos rfl
  | cons x blanks ih =>
    obtain ⟨hx, hblanks⟩ := List.forall_mem_cons.mp h
    have hne : ∀ u, x ≠ .operator [u] := by
      rintro u rfl
      cases hx
    rw [List.cons_append, balanced?.eq_def]
    simp only [if_neg (hne _)]
    rw [ih hblanks]
    rfl

/-- Whether nothing but blanks stands before the closing parenthesis. -/
def IsEmptyArgument (ps : List Piece) : Prop :=
  ∃ blanks rest, ps = blanks ++ .operator [rightParen] :: rest ∧ ∀ x ∈ blanks, x.isBlank = true

theorem fromToken_of_isEmptyArgument {ps : List Piece} (h : IsEmptyArgument ps) :
    (fromToken ps).head? = some (.operator [rightParen]) := by
  obtain ⟨blanks, rest, rfl, hblanks⟩ := h
  have : ∀ x ∈ blanks, (!x.isToken) = true := by
    intro x hx
    have := hblanks x hx
    cases x <;> first | rfl | cases this
  rw [fromToken, List.dropWhile_append_of_pos this]
  rfl

/-- A site has neither a name nor an argument where the argument list is empty. -/
theorem Arguments.empty_iff {ps taken left : List Piece} {site : RequireSite}
    (hvalid : ∀ x ∈ ps, x.Valid) (h : Arguments position ps site taken left) :
    (site.moduleName = none ∧ site.rawArgument = []) ↔ IsEmptyArgument ps := by
  have hliteral : ∀ {x : Piece} {rest}, x.isLiteral = true → fromToken ps = x :: rest →
      ¬IsEmptyArgument ps := by
    intro x rest hx hps hempty
    have := fromToken_of_isEmptyArgument hempty
    rw [hps, List.head?_cons, Option.some.injEq] at this
    subst this
    cases hx
  cases h with
  | literal name raw hx hps hrest => simp [RequireSite.literal, hliteral hx hps]
  | first name raw hx hps => simp [RequireSite.literal, hliteral hx hps]
  | @computed inside left hinside =>
    have hps := balanced?_eq_some hinside
    have hinner : ∀ x ∈ inside, x.Valid := fun x hx => hvalid x (by simp [hps, hx])
    rw [rawArgument_computed_eq_nil_iff hinner]
    constructor
    · exact fun ⟨_, hblank⟩ => ⟨inside, left, hps, hblank⟩
    · rintro ⟨blanks, rest, rfl, hblanks⟩
      rw [balanced?_blanks hblanks] at hinside
      obtain ⟨rfl, rfl⟩ := Prod.mk.inj (Option.some.inj hinside)
      exact ⟨rfl, hblanks⟩

/-- Whether the next token opens an argument list with nothing but blanks in it. -/
def OpensEmpty (opener : UInt16) (ps : List Piece) : Prop :=
  ∃ rest, fromToken ps = .operator [opener] :: rest ∧ IsEmptyArgument rest

theorem Call.split {ps taken left : List Piece} {site : Option RequireSite}
    (h : Call position ps site taken left) : ps = taken ++ left := by
  cases h with
  | assigned hnext => rfl
  | bare hnext hcall => rfl
  | literal name raw hx hps => simpa using eq_gap_append hps
  | arguments hps harguments =>
    have := eq_gap_append hps
    rw [harguments.split] at this
    simpa using this
  | table hps hinside =>
    have := eq_gap_append hps
    rw [balanced?_eq_some hinside] at this
    simpa using this

theorem Call.position_eq {ps taken left : List Piece} {site : RequireSite}
    (h : Call position ps (some site) taken left) : site.position = position := by
  cases h with
  | arguments hps harguments => exact harguments.position_eq
  | _ => rfl

/-- A use takes nothing, and no equality sign follows, or what it takes ends as a call does. -/
theorem Call.ends {ps taken left : List Piece} {site : RequireSite}
    (h : Call position ps (some site) taken left) :
    taken = [] ∧ (fromToken left).head? ≠ some (.operator [equals]) ∨
      ∃ front x, taken = front ++ [x] ∧ endsCall x = true := by
  cases h with
  | bare hnext hcall => exact .inl ⟨rfl, hnext⟩
  | @literal x _ name raw hx hps =>
    refine .inr ⟨gap ps, x, rfl, ?_⟩
    cases x <;> first | rfl | cases hx
  | arguments hps harguments =>
    obtain ⟨front, x, rfl, hx⟩ := harguments.ends
    exact .inr ⟨gap ps ++ .operator [leftParen] :: front, x, by simp, hx⟩
  | @table rest inside _ hps hinside =>
    exact .inr ⟨gap ps ++ .operator [leftBrace] :: inside, .operator [rightBrace], by simp, rfl⟩

theorem exists_append_of_not_mem {pre ps front back : List Piece} {x : Piece}
    (h : pre ++ ps = front ++ x :: back) (hx : x ∉ pre) :
    ∃ front', front = pre ++ front' ∧ ps = front' ++ x :: back := by
  rcases List.append_eq_append_iff.mp h with ⟨front', rfl, hps⟩ | ⟨rest, hpre, hrest⟩
  · exact ⟨front', rfl, hps⟩
  · cases rest with
    | nil => exact ⟨[], by simpa using hpre.symm, by simpa using hrest.symm⟩
    | cons y rest =>
      obtain ⟨rfl, _⟩ := List.cons.inj hrest
      exact absurd (by simp [hpre]) hx

theorem Arguments.holds {ps taken left front back opening : List Piece} {site : RequireSite}
    {w : Text} (h : Arguments position ps site taken left)
    (hopening : tokensIn opening = [.operator [leftParen]] ∨
      tokensIn opening = [.operator [comma]])
    (hname : .name w ∉ opening) (htaken : opening ++ taken = front ++ .name w :: back) :
    Holds site w front (back ++ left) := by
  obtain ⟨before, rfl, htaken'⟩ := exists_append_of_not_mem htaken hname
  obtain ⟨right, closing, hsplit, hclosing, hraw⟩ := h.encloses htaken'
  exact ⟨opening, before, right, closing, rfl, hsplit, .inl ⟨hopening, hclosing⟩, hraw⟩

theorem tokensIn_opening (u : UInt16) (ps : List Piece) :
    tokensIn (gap ps ++ [.operator [u]]) = [.operator [u]] := by
  rw [tokensIn_append, tokensIn_gap]
  rfl

theorem name_not_mem_opening (w : Text) (u : UInt16) (ps : List Piece) :
    .name w ∉ gap ps ++ [.operator [u]] := by
  simp [not_mem_gap (x := .name w) rfl ps]

theorem Call.holds {ps taken left front back : List Piece} {site : RequireSite} {w : Text}
    (h : Call position ps (some site) taken left) (htaken : taken = front ++ .name w :: back) :
    Holds site w front (back ++ left) := by
  have hmem : .name w ∈ taken := by simp [htaken]
  cases h with
  | bare hnext hcall => cases hmem
  | literal name raw hx hps =>
    have hgap : .name w ∉ gap ps := not_mem_gap rfl ps
    simp only [List.mem_append, List.mem_singleton, hgap, false_or] at hmem
    subst hmem
    cases hx
  | @arguments _ taken _ _ hps harguments =>
    refine harguments.holds (.inl (tokensIn_opening leftParen ps)) (name_not_mem_opening w _ ps) ?_
    rw [← htaken, List.append_assoc, List.singleton_append]
  | @table rest inside _ hps hinside =>
    obtain ⟨before, rfl, hbefore⟩ := exists_append_of_not_mem htaken (not_mem_gap rfl ps)
    refine ⟨gap ps, before, back, left, rfl, rfl, .inr ⟨tokensIn_gap ps, ?_, ?_⟩, ?_⟩
    · have := congrArg List.head? hbefore
      cases before with
      | nil => simp at this
      | cons y before => simpa using this.symm
    · rw [← List.cons_append] at hbefore
      obtain ⟨right, rfl, _⟩ := exists_append_of_ne_last hbefore (by simp)
      exact List.getLast?_concat
    · rw [← hbefore]
      rfl

/-- A site has neither a name nor an argument where the use is no call, or a call of nothing. -/
theorem Call.empty_iff {ps taken left : List Piece} {site : RequireSite}
    (hvalid : ∀ x ∈ ps, x.Valid) (h : Call position ps (some site) taken left) :
    (site.moduleName = none ∧ site.rawArgument = []) ↔
      (∀ x ∈ (fromToken ps).head?, x.opensCall = false) ∨ OpensEmpty leftParen ps := by
  cases h with
  | bare hnext hcall => exact ⟨fun _ => .inl hcall, fun _ => ⟨rfl, rfl⟩⟩
  | @literal x left name raw hx hps =>
    have hcall : x.opensCall = true := by cases x <;> first | rfl | cases hx
    have hne : ∀ u, x ≠ .operator [u] := by
      rintro u rfl
      cases hx
    simp [OpensEmpty, hps, hcall, hne, RequireSite.literal]
  | @arguments rest taken left _ hps harguments =>
    rw [harguments.empty_iff (valid_of_fromToken hvalid hps).2]
    simp [OpensEmpty, hps, Piece.opensCall]
  | @table rest inside left hps hinside =>
    have hrest := balanced?_eq_some hinside
    have hinner : ∀ x ∈ Piece.operator [leftBrace] :: (inside ++ [.operator [rightBrace]]),
        x.Valid := by
      intro x hx
      refine hvalid x ?_
      rw [eq_gap_append hps, hrest]
      simp only [List.mem_append, List.mem_cons, List.not_mem_nil, or_false] at hx ⊢
      rcases hx with hx | hx | hx <;> simp [hx]
    rw [rawArgument_computed_eq_nil_iff hinner]
    have hbrace : Piece.isBlank (.operator [leftBrace]) = false := rfl
    have hne : leftBrace ≠ leftParen := by decide
    simp [OpensEmpty, hps, Piece.opensCall, hbrace, hne]

theorem Protected.split {p : Position} {ps opening taken left : List Piece} {site : RequireSite}
    (h : Protected p ps site opening taken left) :
    ps = opening ++ .name "require" :: (taken ++ left) := by
  obtain ⟨hps, _, hrest, harguments⟩ := h
  have hsplit := eq_gap_append hrest
  rw [harguments.split] at hsplit
  rw [hps, List.append_assoc, List.cons_append]
  exact congrArg (opening ++ .name "require" :: ·) hsplit

theorem Protected.position_eq {p : Position} {ps opening taken left : List Piece}
    {site : RequireSite} (h : Protected p ps site opening taken left) :
    site.position = p.after (source opening) := by
  obtain ⟨_, _, _, harguments⟩ := h
  exact harguments.position_eq

theorem Protected.opening_eq {p : Position} {ps opening taken left : List Piece}
    {site : RequireSite} (h : Protected p ps site opening taken left) :
    tokensIn opening = [.operator [leftParen]] := by
  obtain ⟨_, hopening, _, _⟩ := h
  exact hopening

theorem Protected.ends {p : Position} {ps opening taken left : List Piece} {site : RequireSite}
    (h : Protected p ps site opening taken left) :
    ∃ front x, taken = front ++ [x] ∧ endsCall x = true := by
  obtain @⟨_, rest, _, _, _, _, hps, _, hrest, harguments⟩ := h
  obtain ⟨front, x, rfl, hx⟩ := harguments.ends
  exact ⟨gap rest ++ .operator [comma] :: front, x, by simp, hx⟩

theorem Protected.holds {p : Position} {ps opening taken left front back : List Piece}
    {site : RequireSite} {w : Text} (h : Protected p ps site opening taken left)
    (htaken : taken = front ++ .name w :: back) : Holds site w front (back ++ left) := by
  obtain @⟨_, rest, _, taken, _, _, hps, _, hrest, harguments⟩ := h
  refine harguments.holds (.inr (tokensIn_opening comma rest)) (name_not_mem_opening w _ rest) ?_
  rw [← htaken, List.append_assoc, List.singleton_append]

theorem Protected.empty_iff {p : Position} {ps opening taken left : List Piece}
    {site : RequireSite} (hvalid : ∀ x ∈ ps, x.Valid)
    (h : Protected p ps site opening taken left) :
    (site.moduleName = none ∧ site.rawArgument = []) ↔ OpensEmpty comma (taken ++ left) := by
  have hsplit := h.split
  obtain @⟨_, rest, more, taken, _, _, hps, _, hrest, harguments⟩ := h
  have hrest' : gap rest ++ .operator [comma] :: taken ++ left = rest := by
    rw [hps] at hsplit
    exact (List.cons.inj (List.append_cancel_left hsplit)).2.symm
  have hvalid' : ∀ x ∈ rest, x.Valid := fun x hx => hvalid x (by simp [hps, hx])
  rw [harguments.empty_iff (valid_of_fromToken hvalid' hrest).2, hrest', OpensEmpty, hrest]
  simp

end RequireSite

end LuaBundle
