import LuaBundle.Source.RequireSite
import Mathlib.Data.List.Infix

/-! What a scan reads at a use, of any tokens, whether the call is closed or not: each way of
reading it by the tokens that decide it, and the tokens that are taken. -/

namespace LuaBundle

open Text

namespace Lexeme

/-- Whether a literal or a comment is not closed, so that it takes the rest of the text. -/
def isOpen : Lexeme → Bool
  | openComment _ | openString _ => true
  | _ => false

/-- Whether a lexeme is no part of the program: a blank or a comment. -/
def isGap : Lexeme → Bool
  | blank _ | comment _ => true
  | _ => false

/-- Whether a lexeme after a name makes it a call, be it closed or not. -/
def opensCall : Lexeme → Bool
  | quoted _ _ | bracketed _ _ | openString _ => true
  | symbol u => u == leftParen || u == leftBrace
  | _ => false

/-- Whether a lexeme can be the last one of a call. -/
def endsCall : Lexeme → Bool
  | quoted _ _ | bracketed _ _ => true
  | symbol u => u == rightParen || u == rightBrace
  | _ => false

theorem isOpen_of_endsCall {l : Lexeme} (h : l.endsCall = true) : l.isOpen = false := by
  cases l <;> first | rfl | cases h

end Lexeme

namespace Token

/-- Tokens that are passed over on the way to the next token of the program. -/
def IsGap (ts : List Token) : Prop := ∀ t ∈ ts, t.lexeme.isGap = true

/-- Tokens none of which is left open. -/
def AllClosed (ts : List Token) : Prop := ∀ t ∈ ts, t.lexeme.isOpen = false

theorem IsGap.allClosed {ts : List Token} (h : IsGap ts) : AllClosed ts := by
  intro t ht
  have hgap := h t ht
  cases hl : t.lexeme <;> simp_all [Lexeme.isGap, Lexeme.isOpen]

theorem AllClosed.append {ts us : List Token} (h : AllClosed ts) (h' : AllClosed us) :
    AllClosed (ts ++ us) :=
  List.forall_mem_append.mpr ⟨h, h'⟩

theorem significant?_gap {t : Token} (h : t.lexeme.isGap = true) (ts : List Token) :
    significant? (t :: ts) = significant? ts := by
  obtain ⟨l, p⟩ := t
  cases l <;> first | rfl | cases h

theorem significant?_token {t : Token} (hgap : t.lexeme.isGap = false)
    (hopen : ∀ s, t.lexeme ≠ .openComment s) (ts : List Token) :
    significant? (t :: ts) = some (t :: ts) := by
  obtain ⟨l, p⟩ := t
  cases l with
  | openComment s => exact absurd rfl (hopen s)
  | _ => first | rfl | cases hgap

theorem significant?_openComment {t : Token} {s : Text} (h : t.lexeme = .openComment s)
    (ts : List Token) : significant? (t :: ts) = none := by
  obtain ⟨l, p⟩ := t
  obtain rfl := h
  rfl

theorem significant?_append {gap : List Token} (h : IsGap gap) (ts : List Token) :
    significant? (gap ++ ts) = significant? ts := by
  induction gap with
  | nil => rfl
  | cons t gap ih =>
    obtain ⟨ht, hgap⟩ := List.forall_mem_cons.mp h
    rw [List.cons_append, significant?_gap ht, ih hgap]

/-- The next token of the program, and what is passed over before it. -/
theorem significant?_eq_some {ts us : List Token} (h : significant? ts = some us) :
    ∃ gap, IsGap gap ∧ ts = gap ++ us ∧ significant? us = some us := by
  induction ts with
  | nil => exact ⟨[], by simp [IsGap], Option.some.inj h, by rw [← Option.some.inj h]; rfl⟩
  | cons t ts ih =>
    by_cases hgap : t.lexeme.isGap = true
    · rw [significant?_gap hgap] at h
      obtain ⟨gap, hrest, rfl, hus⟩ := ih h
      exact ⟨t :: gap, List.forall_mem_cons.mpr ⟨hgap, hrest⟩, rfl, hus⟩
    · by_cases hopen : ∃ s, t.lexeme = .openComment s
      · obtain ⟨s, hs⟩ := hopen
        rw [significant?_openComment hs] at h
        cases h
      · have hself := significant?_token (Bool.eq_false_iff.mpr hgap) (not_exists.mp hopen) ts
        rw [hself] at h
        obtain rfl := Option.some.inj h
        exact ⟨[], by simp [IsGap], rfl, hself⟩

theorem suffix_of_significant? {ts us : List Token} (h : significant? ts = some us) :
    us <:+ ts := by
  obtain ⟨gap, _, rfl, _⟩ := significant?_eq_some h
  exact List.suffix_append _ _

section Balanced

variable {opener close : UInt16} {depth : Nat} {ts inside after : List Token}

theorem balanced?_close (p : Position) (ts : List Token) :
    balanced? opener close 0 (⟨.symbol close, p⟩ :: ts) = some ([], ts) := by
  simp [balanced?.eq_def]

/-- A token other than a bracket stands inside. -/
theorem balanced?_inside {t : Token} (hopen : t.lexeme.isOpen = false)
    (hclose : t.lexeme ≠ .symbol close) (ts : List Token) :
    balanced? opener close depth (t :: ts) =
      (balanced? opener close (if t.lexeme = .symbol opener then depth + 1 else depth) ts).map
        fun (inside, after) => (t :: inside, after) := by
  obtain ⟨l, p⟩ := t
  cases l with
  | openComment s => cases hopen
  | openString s => cases hopen
  | symbol u =>
    have hne : u ≠ close := fun he => hclose (by rw [he])
    rw [balanced?.eq_def]
    simp [hne]
  | _ => rfl

theorem balanced?_append {gap : List Token} (h : IsGap gap) (ts : List Token) :
    balanced? opener close depth (gap ++ ts) =
      (balanced? opener close depth ts).map fun (inside, after) => (gap ++ inside, after) := by
  induction gap with
  | nil => simp
  | cons t gap ih =>
    obtain ⟨ht, hgap⟩ := List.forall_mem_cons.mp h
    have hsymbol : ∀ u, t.lexeme ≠ .symbol u := fun u he => by rw [he] at ht; cases ht
    rw [List.cons_append, balanced?_inside ((IsGap.allClosed h) t List.mem_cons_self) (hsymbol _),
      if_neg (hsymbol _), ih hgap, Option.map_map]
    rfl

/-- What is found before the bracket that closes depends on nothing after it. -/
theorem balanced?_eq_some (h : balanced? opener close depth ts = some (inside, after)) :
    ∃ p, ts = inside ++ ⟨.symbol close, p⟩ :: after ∧ AllClosed inside ∧
      ∀ more, balanced? opener close depth (inside ++ ⟨.symbol close, p⟩ :: more) =
        some (inside, more) := by
  induction ts generalizing depth inside after with
  | nil => cases h
  | cons t ts ih =>
    by_cases hopen : t.lexeme.isOpen = true
    · have hnone : balanced? opener close depth (t :: ts) = none := by
        obtain ⟨l, p⟩ := t
        cases l with
        | openComment s => rfl
        | openString s => rfl
        | _ => cases hopen
      rw [hnone] at h
      cases h
    rw [Bool.not_eq_true] at hopen
    by_cases hclose : t.lexeme = .symbol close
    · obtain ⟨l, p⟩ := t
      obtain rfl := hclose
      rw [balanced?.eq_def] at h
      simp only [if_true] at h
      cases depth with
      | zero =>
        obtain ⟨rfl, rfl⟩ := Prod.mk.inj (Option.some.inj h)
        refine ⟨p, rfl, by simp [AllClosed], fun more => ?_⟩
        simp [balanced?.eq_def]
      | succ depth =>
        obtain ⟨⟨i, a⟩, hrest, he⟩ := Option.map_eq_some_iff.mp h
        obtain ⟨rfl, rfl⟩ := Prod.mk.inj he
        obtain ⟨q, rfl, hall, hmore⟩ := ih hrest
        refine ⟨q, rfl, List.forall_mem_cons.mpr ⟨hopen, hall⟩, fun more => ?_⟩
        rw [List.cons_append, balanced?.eq_def]
        simp [hmore more]
    · rw [balanced?_inside hopen hclose] at h
      obtain ⟨⟨i, a⟩, hrest, he⟩ := Option.map_eq_some_iff.mp h
      obtain ⟨rfl, rfl⟩ := Prod.mk.inj he
      obtain ⟨q, rfl, hall, hmore⟩ := ih hrest
      refine ⟨q, rfl, List.forall_mem_cons.mpr ⟨hopen, hall⟩, fun more => ?_⟩
      rw [List.cons_append, balanced?_inside hopen hclose, hmore more]
      rfl

end Balanced

end Token

namespace RequireSite

open Token (significant? balanced? restOfLine source AllClosed)

/-- The tokens from the end of a use on, which ends with a literal or a closing bracket. -/
def Takes (ts after : List Token) : Prop :=
  ∃ taken x, ts = taken ++ x :: after ∧ AllClosed taken ∧ x.lexeme.endsCall = true

theorem Takes.suffix {ts after : List Token} (h : Takes ts after) : after <:+ ts := by
  obtain ⟨taken, x, rfl, _⟩ := h
  exact ⟨taken ++ [x], by simp⟩

theorem Takes.of_suffix {ts us after : List Token} (h : Takes us after) {gap : List Token}
    (hgap : AllClosed gap) (hts : ts = gap ++ us) : Takes ts after := by
  obtain ⟨taken, x, rfl, hall, hx⟩ := h
  exact ⟨gap ++ taken, x, by rw [hts, List.append_assoc], hgap.append hall, hx⟩

theorem Takes.of_significant? {ts us after : List Token} {t : Token}
    (hts : significant? ts = some (t :: us)) (ht : t.lexeme.isOpen = false) (h : Takes us after) :
    Takes ts after := by
  obtain ⟨gap, hgap, rfl, _⟩ := Token.significant?_eq_some hts
  have htaken : AllClosed (gap ++ [t]) := hgap.allClosed.append (by simpa [AllClosed] using ht)
  exact h.of_suffix htaken (by simp)

theorem takes_last {ts after : List Token} {t : Token} (hts : significant? ts = some (t :: after))
    (ht : t.lexeme.endsCall = true) : Takes ts after := by
  obtain ⟨gap, hgap, rfl, _⟩ := Token.significant?_eq_some hts
  exact ⟨gap, t, rfl, hgap.allClosed, ht⟩

variable {position : Position} {protectedCall : Bool} {ts after : List Token}

/-- How the arguments of a call are read. -/
inductive ArgumentsRead (position : Position) (protectedCall : Bool) (ts : List Token) : Use → Prop
  | unread (hts : significant? ts = none) :
    ArgumentsRead position protectedCall ts ⟨some (computed position (restOfLine ts)), none⟩
  | openString {s : Text} {q : Position} {rest : List Token}
    (hts : significant? ts = some (⟨.openString s, q⟩ :: rest)) :
    ArgumentsRead position protectedCall ts
      ⟨some (computed position (restOfLine (⟨.openString s, q⟩ :: rest))), none⟩
  | literal {x : Token} {rest after : List Token} {name raw : Text} {q : Position}
    (hts : significant? ts = some (x :: rest)) (hx : literal? x.lexeme = some (name, raw))
    (hrest : significant? rest = some (⟨.symbol rightParen, q⟩ :: after)) :
    ArgumentsRead position protectedCall ts ⟨some (.literal position name raw), some after⟩
  | first {x : Token} {rest after : List Token} {name raw : Text} {q : Position}
    (hts : significant? ts = some (x :: rest)) (hx : literal? x.lexeme = some (name, raw))
    (hrest : significant? rest = some (⟨.symbol comma, q⟩ :: after))
    (hprotected : protectedCall = true) :
    ArgumentsRead position protectedCall ts ⟨some (.literal position name raw), some rest⟩
  | computed {us : List Token} (hts : significant? ts = some us)
    (hopen : ∀ t ∈ us.head?, ∀ s, t.lexeme ≠ .openString s)
    (hliteral : ∀ x rest, us = x :: rest → (literal? x.lexeme).isSome → ∀ u q after,
      significant? rest = some (⟨.symbol u, q⟩ :: after) →
        u ≠ rightParen ∧ ¬(protectedCall = true ∧ u = comma)) :
    ArgumentsRead position protectedCall ts (readComputed position ts)

theorem eq_quoted_or_bracketed {l : Lexeme} (h : (literal? l).isSome) :
    (∃ q body, l = .quoted q body) ∨ ∃ level body, l = .bracketed level body := by
  cases l with
  | quoted q body => exact .inl ⟨q, body, rfl⟩
  | bracketed level body => exact .inr ⟨level, body, rfl⟩
  | _ => cases h

theorem readArguments_of_literal {us rest : List Token} {x : Token} {name raw : Text}
    (hts : significant? ts = some us) (hus : us = x :: rest)
    (hx : literal? x.lexeme = some (name, raw)) :
    readArguments position protectedCall ts =
      match significant? rest with
      | some (⟨.symbol u, _⟩ :: after) =>
        if u = rightParen then ⟨some (literal position name raw), some after⟩
        else if protectedCall ∧ u = comma then ⟨some (literal position name raw), some rest⟩
        else readComputed position ts
      | _ => readComputed position ts := by
  obtain ⟨l, q⟩ := x
  unfold readArguments
  generalize significant? ts = found at hts ⊢
  subst hts hus
  rcases eq_quoted_or_bracketed (Option.isSome_of_eq_some hx) with ⟨_, _, rfl⟩ | ⟨_, _, rfl⟩
  all_goals
    cases hx
    rfl

theorem readArguments_of_no_literal {us : List Token} (hts : significant? ts = some us)
    (hopen : ∀ t ∈ us.head?, ∀ s, t.lexeme ≠ .openString s)
    (hliteral : ∀ t ∈ us.head?, literal? t.lexeme = none) :
    readArguments position protectedCall ts = readComputed position ts := by
  rw [readArguments, hts]
  cases us with
  | nil => rfl
  | cons t rest =>
    have ho := hopen t rfl
    have hl := hliteral t rfl
    obtain ⟨l, q⟩ := t
    cases l with
    | openString s => exact absurd rfl (ho s)
    | _ => simp only [hl]

theorem argumentsRead (position : Position) (protectedCall : Bool) (ts : List Token) :
    ArgumentsRead position protectedCall ts (readArguments position protectedCall ts) := by
  cases hts : significant? ts with
  | none =>
    rw [readArguments, hts]
    exact .unread hts
  | some us =>
    by_cases hopen : ∃ s q rest, us = ⟨.openString s, q⟩ :: rest
    · obtain ⟨s, q, rest, rfl⟩ := hopen
      rw [readArguments, hts]
      exact .openString hts
    have hopen' : ∀ t ∈ us.head?, ∀ s, t.lexeme ≠ .openString s := by
      rintro ⟨l, q⟩ ht s rfl
      obtain ⟨rest, rfl⟩ := List.head?_eq_some_iff.mp ht
      exact hopen ⟨s, q, rest, rfl⟩
    by_cases hliteral : ∃ x rest name raw, us = x :: rest ∧ literal? x.lexeme = some (name, raw)
    · obtain ⟨x, rest, name, raw, rfl, hx⟩ := hliteral
      rw [readArguments_of_literal hts rfl hx]
      split
      · rename_i u q after hrest
        split
        · rename_i hu
          exact .literal hts hx (hu ▸ hrest)
        · rename_i hne
          split
          · rename_i hcomma
            exact .first hts hx (hcomma.2 ▸ hrest) hcomma.1
          · rename_i hcomma
            refine .computed hts hopen' fun x' rest' he _ v q' after' hrest' => ?_
            obtain ⟨rfl, rfl⟩ := List.cons.inj he
            rw [hrest] at hrest'
            obtain ⟨he, rfl⟩ := List.cons.inj (Option.some.inj hrest')
            obtain rfl := Lexeme.symbol.inj (Token.mk.inj he).1
            exact ⟨hne, hcomma⟩
      · rename_i hrest
        refine .computed hts hopen' fun x' rest' he _ v q' after' hrest' => ?_
        obtain ⟨rfl, rfl⟩ := List.cons.inj he
        exact absurd hrest' (hrest v q' after')
    · have hnone : ∀ t ∈ us.head?, literal? t.lexeme = none := by
        intro t ht
        obtain ⟨rest, rfl⟩ := List.head?_eq_some_iff.mp ht
        by_contra hsome
        obtain ⟨⟨name, raw⟩, hx⟩ := Option.ne_none_iff_exists'.mp hsome
        exact hliteral ⟨t, rest, name, raw, rfl, hx⟩
      rw [readArguments_of_no_literal hts hopen' hnone]
      refine .computed hts hopen' fun x rest he hx => ?_
      subst he
      rw [hnone x rfl] at hx
      cases hx

/-- Arguments that begin with no open string, and with no literal that ends them, are read up to
their parenthesis. -/
theorem readArguments_to_close (hts : (significant? ts).isSome)
    (hopen : ∀ s q rest, significant? ts ≠ some (⟨.openString s, q⟩ :: rest))
    (hliteral : ∀ x rest u q after, significant? ts = some (x :: rest) →
      (literal? x.lexeme).isSome → significant? rest = some (⟨.symbol u, q⟩ :: after) →
        u ≠ rightParen ∧ ¬(protectedCall = true ∧ u = comma)) :
    readArguments position protectedCall ts = readComputed position ts := by
  have hread := argumentsRead position protectedCall ts
  generalize readArguments position protectedCall ts = use at hread ⊢
  cases hread with
  | unread hnone =>
    rw [hnone] at hts
    cases hts
  | openString hfirst => exact absurd hfirst (hopen _ _ _)
  | literal hfirst hx hrest =>
    exact absurd rfl (hliteral _ _ _ _ _ hfirst (Option.isSome_of_eq_some hx) hrest).1
  | first hfirst hx hrest hprotected =>
    have hends := (hliteral _ _ _ _ _ hfirst (Option.isSome_of_eq_some hx) hrest).2
    exact absurd ⟨hprotected, rfl⟩ hends
  | computed => rfl

theorem exists_site_readArguments (position : Position) (protectedCall : Bool) (ts : List Token) :
    ∃ site, (readArguments position protectedCall ts).site = some site := by
  have hread := argumentsRead position protectedCall ts
  generalize readArguments position protectedCall ts = use at hread
  cases hread with
  | computed =>
    unfold readComputed
    split <;> exact ⟨_, rfl⟩
  | _ => exact ⟨_, rfl⟩

/-- The next token is an equality sign that assigns. -/
def IsAssigned (ts : List Token) : Prop :=
  ∃ q rest, significant? ts = some (⟨.symbol equals, q⟩ :: rest) ∧
    (source rest).head? ≠ some equals

/-- How a use of `require` is read. -/
inductive CallRead (position : Position) (ts : List Token) : Use → Prop
  | unread (hts : significant? ts = none) :
    CallRead position ts ⟨some (computed position []), none⟩
  | openString {s : Text} {q : Position} {rest : List Token}
    (hts : significant? ts = some (⟨.openString s, q⟩ :: rest)) :
    CallRead position ts
      ⟨some (computed position (restOfLine (⟨.openString s, q⟩ :: rest))), none⟩
  | assigned (hassigned : IsAssigned ts) : CallRead position ts ⟨none, some ts⟩
  | bare {us : List Token} (hts : significant? ts = some us)
    (hcall : ∀ t ∈ us.head?, t.lexeme.opensCall = false) (hassigned : ¬IsAssigned ts) :
    CallRead position ts ⟨some (computed position []), some ts⟩
  | arguments {q : Position} {rest : List Token}
    (hts : significant? ts = some (⟨.symbol leftParen, q⟩ :: rest)) :
    CallRead position ts (readArguments position false rest)
  | table {q : Position} {rest inside after : List Token}
    (hts : significant? ts = some (⟨.symbol leftBrace, q⟩ :: rest))
    (hinside : balanced? leftBrace rightBrace 0 rest = some (inside, after)) :
    CallRead position ts
      ⟨some (computed position (leftBrace :: source inside ++ [rightBrace])), some after⟩
  | openTable {q : Position} {rest : List Token}
    (hts : significant? ts = some (⟨.symbol leftBrace, q⟩ :: rest))
    (hinside : balanced? leftBrace rightBrace 0 rest = none) :
    CallRead position ts
      ⟨some (computed position (source (⟨.symbol leftBrace, q⟩ :: rest))), none⟩
  | literal {x : Token} {rest : List Token} {name raw : Text}
    (hts : significant? ts = some (x :: rest)) (hx : literal? x.lexeme = some (name, raw)) :
    CallRead position ts ⟨some (.literal position name raw), some rest⟩

theorem readCall_symbol {u : UInt16} {q : Position} {rest : List Token}
    (hts : significant? ts = some (⟨.symbol u, q⟩ :: rest)) :
    readCall position ts =
      if u = leftParen then readArguments position false rest
      else if u = leftBrace then
        match balanced? leftBrace rightBrace 0 rest with
        | some (inside, after) =>
          ⟨some (computed position (leftBrace :: source inside ++ [rightBrace])), some after⟩
        | none => ⟨some (computed position (source (⟨.symbol u, q⟩ :: rest))), none⟩
      else if u = equals ∧ (source rest).head? ≠ some equals then ⟨none, some ts⟩
      else ⟨some (computed position []), some ts⟩ := by
  unfold readCall
  generalize significant? ts = found at hts ⊢
  subst hts
  rfl

theorem readCall_literal {x : Token} {rest : List Token} {name raw : Text}
    (hts : significant? ts = some (x :: rest)) (hx : literal? x.lexeme = some (name, raw)) :
    readCall position ts = ⟨some (literal position name raw), some rest⟩ := by
  obtain ⟨l, q⟩ := x
  rw [readCall, hts]
  rcases eq_quoted_or_bracketed (Option.isSome_of_eq_some hx) with ⟨_, _, rfl⟩ | ⟨_, _, rfl⟩ <;>
    simp only [hx]

theorem readCall_bare {us : List Token} (hts : significant? ts = some us)
    (hcall : ∀ t ∈ us.head?, t.lexeme.opensCall = false)
    (hassigned : ¬IsAssigned ts) :
    readCall position ts = ⟨some (computed position []), some ts⟩ := by
  cases us with
  | nil => rw [readCall, hts]
  | cons t rest =>
    have hcall := hcall t rfl
    obtain ⟨l, q⟩ := t
    cases l with
    | symbol u =>
      simp only [Lexeme.opensCall, Bool.or_eq_false_iff, beq_eq_false_iff_ne] at hcall
      rw [readCall_symbol hts, if_neg hcall.1, if_neg hcall.2, if_neg]
      rintro ⟨rfl, hne⟩
      exact hassigned ⟨q, rest, hts, hne⟩
    | _ =>
      first
      | rw [readCall, hts]; rfl
      | cases hcall

theorem not_isAssigned {us : List Token} (hts : significant? ts = some us)
    (hus : ∀ t ∈ us.head?, t.lexeme ≠ .symbol equals) : ¬IsAssigned ts := by
  rintro ⟨q, rest, hrest, _⟩
  rw [hts] at hrest
  rw [Option.some.inj hrest] at hus
  exact hus _ rfl rfl

theorem callRead (position : Position) (ts : List Token) :
    CallRead position ts (readCall position ts) := by
  cases hts : significant? ts with
  | none =>
    rw [readCall, hts]
    exact .unread hts
  | some us =>
    cases us with
    | nil =>
      have hassigned := not_isAssigned hts (by simp)
      rw [readCall_bare hts (by simp) hassigned]
      exact .bare hts (by simp) hassigned
    | cons t rest =>
      obtain ⟨l, q⟩ := t
      cases l with
      | openString s =>
        rw [readCall, hts]
        exact .openString hts
      | quoted quote body =>
        rw [readCall_literal hts rfl]
        exact .literal hts rfl
      | bracketed level body =>
        rw [readCall_literal hts rfl]
        exact .literal hts rfl
      | symbol u =>
        rw [readCall_symbol hts]
        split
        · rename_i hu
          exact .arguments (hu ▸ hts)
        · rename_i hparen
          split
          · rename_i hu
            subst hu
            cases hinside : balanced? leftBrace rightBrace 0 rest with
            | none => exact .openTable hts hinside
            | some found => exact .table hts hinside
          · rename_i hbrace
            split
            · rename_i hassigned
              exact .assigned ⟨q, rest, hassigned.1 ▸ hts, hassigned.2⟩
            · rename_i hassigned
              refine .bare hts (by simp [Lexeme.opensCall, hparen, hbrace]) ?_
              rintro ⟨q', rest', hrest, hne⟩
              obtain ⟨hu, rfl⟩ := List.cons.inj (Option.some.inj (hts.symm.trans hrest))
              exact hassigned ⟨Lexeme.symbol.inj (Token.mk.inj hu).1, hne⟩
      | _ =>
        have hassigned := not_isAssigned hts (by simp)
        rw [readCall_bare hts (by simp [Lexeme.opensCall]) hassigned]
        exact .bare hts (by simp [Lexeme.opensCall]) hassigned

/-- Only an assignment has no site. -/
theorem site_readCall_eq_none_iff : (readCall position ts).site = none ↔ IsAssigned ts := by
  constructor
  · intro h
    have hread := callRead position ts
    generalize readCall position ts = use at h hread
    cases hread with
    | assigned hassigned => exact hassigned
    | arguments =>
      obtain ⟨site, hsite⟩ := exists_site_readArguments position false _
      rw [hsite] at h
      cases h
    | _ => cases h
  · rintro ⟨q, rest, hts, hne⟩
    rw [readCall_symbol hts, if_neg (by decide), if_neg (by decide), if_pos ⟨rfl, hne⟩]

theorem takes_readComputed (h : (readComputed position ts).rest = some after) :
    Takes ts after := by
  unfold readComputed at h
  split at h
  · rename_i inside after' hinside
    obtain rfl := Option.some.inj h
    obtain ⟨p, rfl, hall, _⟩ := Token.balanced?_eq_some hinside
    exact ⟨inside, _, rfl, hall, rfl⟩
  · cases h

theorem endsCall_of_literal? {l : Lexeme} (h : (literal? l).isSome) : l.endsCall = true := by
  cases l <;> first | rfl | cases h

/-- Arguments end with a literal or a parenthesis. -/
theorem takes_readArguments (h : (readArguments position protectedCall ts).rest = some after) :
    Takes ts after := by
  have hread := argumentsRead position protectedCall ts
  generalize readArguments position protectedCall ts = use at h hread
  cases hread with
  | unread => cases h
  | openString => cases h
  | literal hts hx hrest =>
    obtain rfl := Option.some.inj h
    have hends := endsCall_of_literal? (Option.isSome_of_eq_some hx)
    exact .of_significant? hts (Lexeme.isOpen_of_endsCall hends) (takes_last hrest rfl)
  | first hts hx =>
    obtain rfl := Option.some.inj h
    exact takes_last hts (endsCall_of_literal? (Option.isSome_of_eq_some hx))
  | computed => exact takes_readComputed h

/-- A use takes nothing of what follows, or the whole of a call. -/
theorem takes_readCall (h : (readCall position ts).rest = some after) :
    after = ts ∨ Takes ts after := by
  have hread := callRead position ts
  generalize readCall position ts = use at h hread
  cases hread with
  | unread => cases h
  | openString => cases h
  | assigned => exact .inl (Option.some.inj h).symm
  | bare => exact .inl (Option.some.inj h).symm
  | arguments hts => exact .inr (.of_significant? hts rfl (takes_readArguments h))
  | table hts hinside =>
    obtain rfl := Option.some.inj h
    obtain ⟨p, rfl, hall, _⟩ := Token.balanced?_eq_some hinside
    exact .inr (.of_significant? hts rfl ⟨_, _, rfl, hall, rfl⟩)
  | openTable => cases h
  | literal hts hx =>
    obtain rfl := Option.some.inj h
    exact .inr (takes_last hts (endsCall_of_literal? (Option.isSome_of_eq_some hx)))

theorem takes_readProtected? {use : Use} (hu : readProtected? ts = some use)
    (h : use.rest = some after) : Takes ts after := by
  obtain ⟨_, _, _, parens, names, commas, hparens, hnames, hcommas, rfl⟩ :=
    readProtected?_eq_some hu
  exact .of_significant? hparens rfl (.of_significant? hnames rfl
    (.of_significant? hcommas rfl (takes_readArguments h)))

end RequireSite

end LuaBundle
