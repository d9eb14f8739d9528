import LuaBundle.Proofs.Graph.Discovery
import Mathlib.Data.Rat.Cast.Order

/-! Two searches of one workspace in lockstep. Where the second follows each site that the first
follows, or else fails at it in a known way, its run ends as the run of the first does, or fails in
that way. How many visits a run may make does not matter as long as they are enough, and for a
limit that is a number they are. -/

namespace LuaBundle

theorem Number.isBelow_ofNat (m count : Nat) : (ofNat m).isBelow count = decide (m < count) :=
  decide_eq_decide.mpr Nat.cast_lt

theorem Number.cap_ofNat (m : Nat) : (ofNat m).cap = m := by
  change ((m : Nat) : Rat).floor.toNat = m
  rw [← Rat.intCast_natCast, Rat.floor_intCast, Int.toNat_natCast]

theorem ResolvedModule.find_ne_exhausted {w : Workspace} {roots : List Text}
    {requiredBy name : Text} : find w roots requiredBy name ≠ .error .exhausted := by
  intro h
  unfold find at h
  split at h
  · cases h
  · simp only at h
    split at h
    · split at h <;> cases h
    · split at h <;> cases h

namespace Discovery

variable {d d' d'' : Discovery} {current name target path : Text} {depth : Nat}

/-- The name that a script was required by first. -/
def firstName? (d : Discovery) (path : Text) : Option Text := (d.names.get? path).bind List.head?

/-- `d'` came after `d`: the scripts that were met are still the first ones, under the same first
names. -/
structure Grows (d d' : Discovery) : Prop where
  met : d.met <+: d'.met
  firstName : ∀ {path name}, d.firstName? path = some name → d'.firstName? path = some name

theorem Grows.refl (d : Discovery) : Grows d d := ⟨List.prefix_refl _, id⟩

theorem Grows.trans (h : Grows d d') (h' : Grows d' d'') : Grows d d'' :=
  ⟨h.met.trans h'.met, fun hname => h'.firstName (h.firstName hname)⟩

/-- What a script is called later does not become its first name. -/
theorem firstName?_require (d : Discovery) (current name target path : Text) :
    (d.require current name target).firstName? path =
      if target = path then some ((d.firstName? path).getD name) else d.firstName? path := by
  have hnames : (d.require current name target).names = d.names.addTo target name := rfl
  simp only [firstName?, hnames, OrderedMap.get?_addTo]
  by_cases htarget : target = path
  · subst htarget
    simp only [if_pos, Option.bind_some]
    cases d.names.get? target with
    | none => rfl
    | some earlier =>
      cases earlier with
      | nil => rfl
      | cons first rest =>
        simp only [Option.getD_some, Option.bind_some, List.head?_cons]
        split <;> rfl
  · rw [if_neg htarget, if_neg htarget]

theorem grows_meet (d : Discovery) (target : Text) (depth : Nat) : Grows d (d.meet target depth) :=
  ⟨List.prefix_append _ _, id⟩

theorem grows_require (d : Discovery) (current name target : Text) :
    Grows d (d.require current name target) := by
  refine ⟨List.prefix_refl _, fun {path first} hfirst => ?_⟩
  rw [firstName?_require, hfirst]
  split <;> rfl

end Discovery

namespace Search

open Discovery

variable {s s' : Search} {current : Text} {depth visits visits' m : Nat} {d d' : Discovery}
  {site : RequireSite} {failure : Failure AnalysisError}

/-! What every step keeps holds at the end. -/

section Invariant

variable {P : Discovery → Prop}

theorem followAll_invariant {sites : List RequireSite}
    (hfollow : ∀ {d d' site}, P d → s.follow current depth d site = .ok d' → P d') (hd : P d)
    (h : s.followAll current depth d sites = (.ok (), d')) : P d' := by
  induction sites generalizing d with
  | nil =>
    obtain ⟨_, rfl⟩ := Prod.mk.inj h
    exact hd
  | cons site sites ih =>
    rw [followAll] at h
    split at h
    · cases h
    · rename_i hnext
      exact ih (hfollow hd hnext) h

theorem run_invariant
    (hvisiting : ∀ {d pending current depth text}, P d →
      P (({ d with pending := pending } : Discovery).visiting current depth text))
    (hfollow : ∀ {current depth d d' site}, P d → s.follow current depth d site = .ok d' → P d')
    (hd : P d) (h : s.run visits d = (.ok (), d')) : P d' := by
  induction visits generalizing d with
  | zero =>
    rw [run] at h
    split at h
    · obtain ⟨_, rfl⟩ := Prod.mk.inj h
      exact hd
    · cases h
  | succ visits ih =>
    rw [run] at h
    split at h
    · obtain ⟨_, rfl⟩ := Prod.mk.inj h
      exact hd
    · simp only at h
      split at h
      · cases h
      · rename_i hvisit
        obtain ⟨text, _, hall⟩ := visit_eq_ok hvisit
        exact ih (followAll_invariant hfollow (hvisiting hd) hall) h

end Invariant

/-- Only a visit adds to the scripts that were visited. -/
theorem followAll_visited {sites : List RequireSite}
    (h : s.followAll current depth d sites = (.ok (), d')) : d'.visited = d.visited := by
  refine followAll_invariant (P := fun last => last.visited = d.visited) ?_ rfl h
  intro d₁ d₂ site hd hnext
  obtain ⟨name, _, ⟨_, rfl⟩ | ⟨target, _, _, ⟨_, rfl⟩ | ⟨_, _, rfl⟩⟩⟩ := follow_eq_ok hnext
  all_goals exact hd

theorem follow_grows (h : s.follow current depth d site = .ok d') : Grows d d' := by
  obtain ⟨name, _, ⟨_, rfl⟩ | ⟨target, _, _, ⟨_, rfl⟩ | ⟨_, _, rfl⟩⟩⟩ := follow_eq_ok h
  · exact ⟨List.prefix_refl _, id⟩
  · exact grows_require d current name target
  · exact (grows_meet d target (depth + 1)).trans (grows_require _ current name target)

theorem followAll_grows {sites : List RequireSite}
    (h : s.followAll current depth d sites = (.ok (), d')) : Grows d d' :=
  followAll_invariant (P := Grows d) (fun hd hnext => hd.trans (follow_grows hnext)) (.refl d) h

theorem run_grows (h : s.run visits d = (.ok (), d')) : Grows d d' :=
  run_invariant (P := Grows d) (fun hd => ⟨hd.met, hd.firstName⟩)
    (fun hd hnext => hd.trans (follow_grows hnext)) (.refl d) h

/-! A search that follows what another follows. -/

/-- What `s` follows from a state of which `I` holds, `s'` follows as well, and `I` holds again, or
`s'` fails with a failure that `E` ties to the state that `s` is then in and to all later ones. -/
structure Shadows (s s' : Search) (I : Discovery → Prop)
    (E : Failure AnalysisError → Discovery → Prop) : Prop where
  workspace : s'.workspace = s.workspace
  visiting : ∀ {d pending current depth text}, I d →
    I (({ d with pending := pending } : Discovery).visiting current depth text)
  follow : ∀ {current depth d d' site}, I d → s.follow current depth d site = .ok d' →
    (I d' ∧ s'.follow current depth d site = .ok d') ∨
      ∃ failure, s'.follow current depth d site = .error failure ∧ E failure d'
  later : ∀ {failure d d'}, E failure d → Grows d d' → E failure d'

section Shadows

variable {I : Discovery → Prop} {E : Failure AnalysisError → Discovery → Prop}
  (h : Shadows s s' I E)

include h

theorem Shadows.followAll {sites : List RequireSite} (hd : I d)
    (hall : s.followAll current depth d sites = (.ok (), d')) :
    (I d' ∧ s'.followAll current depth d sites = (.ok (), d')) ∨
      ∃ failure last, s'.followAll current depth d sites = (.error failure, last) ∧
        E failure d' := by
  induction sites generalizing d with
  | nil =>
    obtain ⟨_, rfl⟩ := Prod.mk.inj hall
    exact .inl ⟨hd, rfl⟩
  | cons site sites ih =>
    rw [Search.followAll] at hall
    split at hall
    · cases hall
    · rename_i next hnext
      rw [Search.followAll]
      rcases h.follow hd hnext with ⟨hinv, hsame⟩ | ⟨failure, hfails, hE⟩
      · rw [hsame]
        exact ih hinv hall
      · rw [hfails]
        exact .inr ⟨failure, d, rfl, h.later hE (followAll_grows hall)⟩

theorem Shadows.visit {pending : List (Text × Nat)} (hd : I d)
    (hvisit : s.visit current depth { d with pending := pending } = (.ok (), d')) :
    (I d' ∧ s'.visit current depth { d with pending := pending } = (.ok (), d')) ∨
      ∃ failure last,
        s'.visit current depth { d with pending := pending } = (.error failure, last) ∧
          E failure d' := by
  obtain ⟨text, hread, hall⟩ := visit_eq_ok hvisit
  have hsame : s'.visit current depth { d with pending := pending } = s'.followAll current depth
      (({ d with pending := pending } : Discovery).visiting current depth text)
      (RequireSite.scan text) := by
    rw [Search.visit, h.workspace, hread]
    rfl
  rw [hsame]
  exact h.followAll (h.visiting hd) hall

/-- A run of the first search that ends well is one of the second, or the second fails. -/
theorem Shadows.run (hd : I d) (hrun : s.run visits d = (.ok (), d')) :
    (I d' ∧ s'.run visits d = (.ok (), d')) ∨
      ∃ failure last, s'.run visits d = (.error failure, last) ∧ E failure d' := by
  induction visits generalizing d with
  | zero =>
    rw [Search.run] at hrun ⊢
    split at hrun
    · obtain ⟨_, rfl⟩ := Prod.mk.inj hrun
      exact .inl ⟨hd, rfl⟩
    · cases hrun
  | succ visits ih =>
    rw [Search.run] at hrun ⊢
    split at hrun
    · obtain ⟨_, rfl⟩ := Prod.mk.inj hrun
      exact .inl ⟨hd, rfl⟩
    · simp only at hrun ⊢
      split at hrun
      · cases hrun
      · rename_i next hvisit
        rcases h.visit hd hvisit with ⟨hinv, hsame⟩ | ⟨failure, last, hfails, hE⟩
        · rw [hsame]
          exact ih hinv hrun
        · rw [hfails]
          exact .inr ⟨failure, last, rfl, h.later hE (run_grows hrun)⟩

end Shadows

/-! The number of visits. -/

/-- A run that had enough visits is the same with more. -/
theorem run_mono (hle : visits ≤ visits') (h : (s.run visits d).1 ≠ .error .exhausted) :
    s.run visits' d = s.run visits d := by
  induction visits generalizing d visits' with
  | zero =>
    cases hpending : d.pending with
    | nil =>
      rw [run, run, hpending]
    | cons next pending =>
      rw [run, hpending] at h
      exact absurd rfl h
  | succ visits ih =>
    obtain ⟨more, rfl⟩ := Nat.exists_eq_add_of_le' (Nat.succ_pos visits |>.trans_le hle)
    rw [run] at h ⊢
    rw [run]
    split
    · rfl
    · rename_i current depth pending hpending
      simp only [hpending] at h ⊢
      split
      · rfl
      · rename_i hvisit
        rw [hvisit] at h
        exact ih (Nat.le_of_succ_le_succ hle) h

/-- Runs that both had enough visits are the same. -/
theorem run_eq_run (h : (s.run visits d).1 ≠ .error .exhausted)
    (h' : (s.run visits' d).1 ≠ .error .exhausted) : s.run visits' d = s.run visits d := by
  rcases Nat.le_total visits visits' with hle | hle
  · exact run_mono hle h
  · exact (run_mono hle h').symm

theorem follow_ne_exhausted : s.follow current depth d site ≠ .error .exhausted := by
  intro h
  unfold follow at h
  split at h
  · cases h
  · split at h
    · rename_i hfailed
      rw [Except.error.inj h] at hfailed
      exact ResolvedModule.find_ne_exhausted hfailed
    · cases h
    · split at h
      · cases h
      · split at h
        · cases h
        · split at h <;> cases h

theorem visit_ne_exhausted : (s.visit current depth d).1 ≠ .error .exhausted := by
  have hall : ∀ sites d, (s.followAll current depth d sites).1 ≠ .error .exhausted := by
    intro sites
    induction sites with
    | nil =>
      intro d
      simp [followAll]
    | cons site sites ih =>
      intro d
      rw [followAll]
      split
      · rename_i hfailed
        intro h
        rw [Except.error.inj h] at hfailed
        exact follow_ne_exhausted hfailed
      · exact ih _
  unfold visit
  simp only
  split
  · simp
  · exact hall _ _

/-- A search that may meet `m` scripts meets no more. -/
theorem follow_le (hlimit : s.limit = .ofNat m) (hd : d.met.length ≤ m)
    (h : s.follow current depth d site = .ok d') : d'.met.length ≤ m := by
  obtain ⟨name, _, ⟨_, rfl⟩ | ⟨target, _, _, ⟨_, rfl⟩ | ⟨_, hbelow, rfl⟩⟩⟩ := follow_eq_ok h
  · exact hd
  · exact hd
  · rw [hlimit] at hbelow
    have hmet : ((d.meet target (depth + 1)).require current name target).met =
        d.met ++ [target] := rfl
    rw [Number.isBelow_ofNat, decide_eq_false_iff_not] at hbelow
    rw [hmet, List.length_append, List.length_singleton]
    exact Nat.le_of_not_lt hbelow

/-- A search that may meet `m` scripts needs no more visits. -/
theorem run_ne_exhausted {entry : Text} (hlimit : s.limit = .ofNat m) (inv : s.Holds entry d)
    (hd : d.met.length ≤ m) (hvisits : m ≤ d.visited.length + visits) :
    (s.run visits d).1 ≠ .error .exhausted := by
  induction visits generalizing d with
  | zero =>
    have hqueue := congrArg List.length inv.queue
    rw [List.length_append, List.length_map, List.length_map] at hqueue
    have hnone : d.pending = [] := List.length_eq_zero_iff.mp (by omega)
    rw [run, hnone]
    simp
  | succ visits ih =>
    rw [run]
    split
    · simp
    · rename_i current depth pending hpending
      simp only
      split
      · rename_i hvisit
        intro h
        refine visit_ne_exhausted (congrArg Prod.fst hvisit |>.trans ?_)
        exact h
      · rename_i next hvisit
        obtain ⟨text, _, hall⟩ := visit_eq_ok hvisit
        let started := ({ d with pending := pending } : Discovery).visiting current depth text
        have hbound : next.met.length ≤ m :=
          followAll_invariant (P := fun d => d.met.length ≤ m) (follow_le hlimit)
            (show started.met.length ≤ m from hd) hall
        have hcount : next.visited.length = d.visited.length + 1 := by
          have hstarted : started.visited.length = d.visited.length + 1 := List.length_append
          rw [followAll_visited hall]
          exact hstarted
        exact ih (visit_holds inv hpending hvisit) hbound (by omega)

end Search

end LuaBundle
