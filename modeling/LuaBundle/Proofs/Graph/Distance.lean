import LuaBundle.Proofs.Graph.Discovery
import Mathlib.Order.Bounds.Basic

/-! The depth of a script is its distance from the entry. While the sites of a script of depth `k`
are followed, the scripts stand in the order of their depths, and none of them is deeper than
`k + 1`: a script that is met then, or was met before, is at most one deeper than the script that
requires it. Hence no way to a script is shorter than the one by which it was met. -/

namespace LuaBundle

/-- A way of `n` steps from `a` to another element. -/
inductive Way {α : Type} (step : α → α → Prop) (a : α) : Nat → α → Prop
  | start : Way step a 0 a
  | step {n : Nat} {b c : α} : Way step a n b → step b c → Way step a (n + 1) c

namespace Way

variable {α : Type} {step step' : α → α → Prop} {a b : α} {n : Nat} {depth : α → Nat}

theorem mono (hstep : ∀ {b c}, step b c → step' b c) (h : Way step a n b) : Way step' a n b := by
  induction h with
  | start => exact .start
  | step _ hlast ih => exact ih.step (hstep hlast)

theorem depth_le (hstep : ∀ b c, step b c → depth c ≤ depth b + 1) (h : Way step a n b) :
    depth b ≤ depth a + n := by
  induction h with
  | start => exact Nat.le_refl _
  | step _ hlast ih =>
    have := hstep _ _ hlast
    omega

/-- Depths that grow by at most one along a step are distances where they are attained. -/
theorem isLeast_depth (hzero : depth a = 0) (hstep : ∀ b c, step b c → depth c ≤ depth b + 1)
    (h : Way step a (depth b) b) : IsLeast {n | Way step a n b} (depth b) := by
  refine ⟨h, fun n hn => ?_⟩
  have := depth_le hstep hn
  omega

end Way

namespace Discovery

variable {entry : Text} {depth : Text → Nat} {log : List Requirement} {k : Nat} {d : Discovery}

/-- The depths of the scripts met so far, while the sites of a script of depth `k` are followed: the
requirements `log` lead to each script in so many steps, and none of them skips a depth. -/
structure Levels (entry : Text) (depth : Text → Nat) (log : List Requirement) (k : Nat)
    (d : Discovery) : Prop where
  zero : depth entry = 0
  pending : ∀ e ∈ d.pending, e.1 ∈ d.met ∧ e.2 = depth e.1
  sorted : (d.met.map depth).Pairwise (· ≤ ·)
  near : ∀ path ∈ d.met, depth path ≤ k + 1
  ways : ∀ path ∈ d.met, Way (Requirement.Leads log) entry (depth path) path
  short : ∀ r ∈ log, depth r.target ≤ depth r.requiredBy + 1

theorem Levels.congr (h : Levels entry depth log k d) {d' : Discovery} (hmet : d'.met = d.met)
    (hpending : d'.pending ⊆ d.pending) : Levels entry depth log k d' where
  zero := h.zero
  pending e he := hmet ▸ h.pending e (hpending he)
  sorted := hmet ▸ h.sorted
  near := hmet ▸ h.near
  ways := hmet ▸ h.ways
  short := h.short

theorem Levels.mono (h : Levels entry depth log k d) {m : Nat} (hk : k ≤ m) :
    Levels entry depth log m d where
  zero := h.zero
  pending := h.pending
  sorted := h.sorted
  near path hpath := by
    have := h.near path hpath
    omega
  ways := h.ways
  short := h.short

/-- One more requirement of a script of depth `k` to a script that was met. -/
theorem Levels.concat (h : Levels entry depth log k d) {r : Requirement}
    (hsource : depth r.requiredBy = k) (htarget : r.target ∈ d.met) :
    Levels entry depth (log ++ [r]) k d where
  zero := h.zero
  pending := h.pending
  sorted := h.sorted
  near := h.near
  ways path hpath := (h.ways path hpath).mono fun hl => Requirement.leads_concat.mpr (.inl hl)
  short q hq := by
    rcases List.mem_append.mp hq with hold | hnew
    · exact h.short q hold
    · obtain rfl := List.mem_singleton.mp hnew
      rw [hsource]
      exact h.near _ htarget

/-- A script that is met from one of depth `k` is one deeper, and the last of all. -/
theorem Levels.meet (h : Levels entry depth log k d) (hlog : Follows entry log d)
    {r : Requirement} (hsource : depth r.requiredBy = k) (hmet : r.requiredBy ∈ d.met)
    (hnew : r.target ∉ d.met) :
    Levels entry (Function.update depth r.target (k + 1)) (log ++ [r]) k
      (d.meet r.target (k + 1)) := by
  have hold : ∀ path ∈ d.met, Function.update depth r.target (k + 1) path = depth path := by
    intro path hpath
    apply Function.update_of_ne
    rintro rfl
    exact hnew hpath
  have hsame : d.met.map (Function.update depth r.target (k + 1)) = d.met.map depth :=
    List.map_congr_left hold
  have hlast : Function.update depth r.target (k + 1) r.target = k + 1 := Function.update_self ..
  refine ⟨?_, ?_, ?_, ?_, ?_, ?_⟩
  · rw [hold entry hlog.entry_met, h.zero]
  · intro e he
    rcases List.mem_append.mp he with he | he
    · obtain ⟨hmem, hdepth⟩ := h.pending e he
      exact ⟨List.mem_append_left _ hmem, by rw [hold _ hmem, hdepth]⟩
    · obtain rfl := List.mem_singleton.mp he
      exact ⟨List.mem_append_right _ (List.mem_singleton_self _), hlast.symm⟩
  · change ((d.met ++ [r.target]).map _).Pairwise _
    rw [List.map_append, hsame, List.pairwise_append]
    refine ⟨h.sorted, List.pairwise_singleton _ _, fun m hm n hn => ?_⟩
    obtain ⟨path, hpath, rfl⟩ := List.mem_map.mp hm
    obtain rfl := List.mem_singleton.mp hn
    rw [hlast]
    exact h.near path hpath
  · intro path hpath
    rcases List.mem_append.mp hpath with hpath | hpath
    · rw [hold path hpath]
      exact h.near path hpath
    · rw [List.mem_singleton.mp hpath, hlast]
  · intro path hpath
    have hway : ∀ path ∈ d.met, Way (Requirement.Leads (log ++ [r])) entry (depth path) path :=
      fun path hpath =>
        (h.ways path hpath).mono fun hl => Requirement.leads_concat.mpr (.inl hl)
    rcases List.mem_append.mp hpath with hpath | hpath
    · rw [hold path hpath]
      exact hway path hpath
    · rw [List.mem_singleton.mp hpath, hlast, ← hsource]
      exact (hway _ hmet).step (Requirement.leads_concat.mpr (.inr ⟨rfl, rfl⟩))
  · intro q hq
    rcases List.mem_append.mp hq with hq | hq
    · rw [hold _ (hlog.target_met hq), hold _ (hlog.sources q hq)]
      exact h.short q hq
    · obtain rfl := List.mem_singleton.mp hq
      rw [hlast, hold _ hmet, hsource]

end Discovery

namespace Search

open Discovery

variable {s : Search} {entry current : Text} {depth depth' : Text → Nat} {log : List Requirement}
  {k visits : Nat} {d d' : Discovery} {site : RequireSite}

theorem follow_levels (hlog : Follows entry log d) (hmet : current ∈ d.met)
    (hcurrent : depth current = k) (h : Levels entry depth log k d)
    (hfollow : s.follow current k d site = .ok d') :
    ∃ depth', (∀ path ∈ d.met, depth' path = depth path) ∧
      Levels entry depth'
        (log ++ (Requirement.ofSite? s.workspace s.roots current site).toList) k d' := by
  obtain ⟨name, hname, ⟨hfind, rfl⟩ | ⟨target, hfind, _, hd⟩⟩ := follow_eq_ok hfollow
  · have hnone : Requirement.ofSite? s.workspace s.roots current site = none := by
      simp [Requirement.ofSite?, hname, hfind]
    rw [hnone, Option.toList_none, List.append_nil]
    exact ⟨depth, fun _ _ => rfl, h.congr rfl (List.Subset.refl _)⟩
  · have hsome : Requirement.ofSite? s.workspace s.roots current site =
        some ⟨current, name, target⟩ := Requirement.ofSite?_eq_some.mpr ⟨rfl, hname, hfind⟩
    rw [hsome, Option.toList_some]
    rcases hd with ⟨htarget, rfl⟩ | ⟨htarget, _, rfl⟩
    · refine ⟨depth, fun _ _ => rfl, ?_⟩
      exact (h.concat (r := ⟨current, name, target⟩) hcurrent htarget).congr rfl
        (List.Subset.refl _)
    · refine ⟨Function.update depth target (k + 1), fun path hpath => ?_, ?_⟩
      · apply Function.update_of_ne
        rintro rfl
        exact htarget hpath
      · exact (h.meet hlog (r := ⟨current, name, target⟩) hcurrent hmet htarget).congr rfl
          (List.Subset.refl _)

theorem followAll_levels {sites : List RequireSite} (hlog : Follows entry log d)
    (hmet : current ∈ d.met) (hcurrent : depth current = k) (h : Levels entry depth log k d)
    (hall : s.followAll current k d sites = (.ok (), d')) :
    ∃ depth', (∀ path ∈ d.met, depth' path = depth path) ∧
      Levels entry depth'
        (log ++ sites.filterMap (Requirement.ofSite? s.workspace s.roots current)) k d' := by
  induction sites generalizing d log depth with
  | nil =>
    obtain ⟨_, rfl⟩ := Prod.mk.inj hall
    exact ⟨depth, fun _ _ => rfl, by simpa using h⟩
  | cons site sites ih =>
    rw [followAll] at hall
    split at hall
    · cases hall
    · rename_i next hnext
      obtain ⟨hlog', hext, _⟩ := follow_follows hlog hmet hnext
      obtain ⟨depth₁, hsame, hlevels⟩ := follow_levels hlog hmet hcurrent h hnext
      have hcurrent' : depth₁ current = k := (hsame current hmet).trans hcurrent
      obtain ⟨depth₂, hsame', hlevels'⟩ := ih hlog' (hext.mem hmet) hcurrent' hlevels hall
      refine ⟨depth₂, fun path hpath => ?_, ?_⟩
      · rw [hsame' path (hext.mem hpath), hsame path hpath]
      · rw [List.append_assoc] at hlevels'
        convert hlevels' using 2
        cases ho : Requirement.ofSite? s.workspace s.roots current site <;> simp [ho]

/-- The depths between two visits: no pending script is above the one that was visited last. -/
def Leveled (s : Search) (entry : Text) (depth : Text → Nat) (d : Discovery) : Prop :=
  ∃ k, Levels entry depth (d.visited.flatMap (SourceFile.requirements s.workspace s.roots)) k d ∧
    ∀ e ∈ d.pending, k ≤ e.2

theorem leveled_start (s : Search) (entry : Text) :
    s.Leveled entry (fun _ => 0) (.start entry) := by
  refine ⟨0, ⟨rfl, ?_, ?_, ?_, ?_, ?_⟩, fun _ _ => Nat.zero_le _⟩
  · intro e he
    obtain rfl := List.mem_singleton.mp he
    exact ⟨List.mem_singleton_self _, rfl⟩
  · exact List.pairwise_singleton _ _
  · exact fun _ _ => Nat.zero_le _
  · intro path hpath
    obtain rfl := List.mem_singleton.mp hpath
    exact .start
  · exact fun r hr => absurd hr List.not_mem_nil

/-- Scripts that are pending are not above those that were visited. -/
theorem Holds.depth_le (inv : s.Holds entry d) (h : Levels entry depth log k d) {file : SourceFile}
    (hfile : file ∈ d.visited) {e : Text × Nat} (he : e ∈ d.pending) : depth file.path ≤ e.2 := by
  have hsorted := h.sorted
  rw [inv.queue, List.map_append, List.pairwise_append] at hsorted
  rw [(h.pending e he).2]
  apply hsorted.2.2
  · exact List.mem_map_of_mem (List.mem_map_of_mem hfile)
  · exact List.mem_map_of_mem (List.mem_map_of_mem he)

/-- A script is visited at its depth, and the depths stay as they are. -/
theorem visit_leveled {pending : List (Text × Nat)} (inv : s.Holds entry d)
    (h : s.Leveled entry depth d) (hpending : d.pending = (current, k) :: pending)
    (hvisit : s.visit current k { d with pending := pending } = (.ok (), d')) :
    ∃ depth', (∀ path ∈ d.met, depth' path = depth path) ∧ depth' current = k ∧
      s.Leveled entry depth' d' := by
  obtain ⟨m, hlevels, hbelow⟩ := h
  obtain ⟨text, _, hall⟩ := visit_eq_ok hvisit
  obtain ⟨hmet, hcurrent⟩ := hlevels.pending (current, k) (hpending ▸ List.mem_cons_self)
  have hk : m ≤ k := hbelow (current, k) (hpending ▸ List.mem_cons_self)
  have hstarted : Levels entry depth _ k
      (({ d with pending := pending } : Discovery).visiting current k text) :=
    (hlevels.mono hk).congr rfl (hpending ▸ List.subset_cons_self _ _)
  have hlog : Follows entry _
      (({ d with pending := pending } : Discovery).visiting current k text) :=
    inv.follows.congr rfl rfl rfl
  obtain ⟨depth', hsame, hlevels'⟩ := followAll_levels hlog hmet hcurrent.symm hstarted hall
  obtain ⟨_, hext, _⟩ := followAll_follows hlog hmet hall
  have hvisited : d'.visited = d.visited ++ [⟨current, text, RequireSite.scan text⟩] := hext.visited
  have hcurrent' : depth' current = k := (hsame current hmet).trans hcurrent.symm
  refine ⟨depth', hsame, hcurrent', k, ?_, fun e he => ?_⟩
  · rw [hvisited, List.flatMap_append]
    simpa [SourceFile.requirements] using hlevels'
  · have hmem : ⟨current, text, RequireSite.scan text⟩ ∈ d'.visited := by
      rw [hvisited]
      exact List.mem_append_right _ (List.mem_singleton_self _)
    have hle := (visit_holds inv hpending hvisit).depth_le hlevels' hmem he
    rwa [hcurrent'] at hle

end Search

end LuaBundle
