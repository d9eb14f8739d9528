import LuaBundle.Graph.Discovery
import LuaBundle.Proofs.Graph.Requirement
import Mathlib.Data.List.Nodup

/-! What the breadth-first search for the modules of a program keeps true. `Discovery.Follows` ties
its edges, names and met scripts to the requirements followed so far; `Search.Holds` says that
these are the requirements of the visited scripts, and that the other met scripts are pending. -/

namespace LuaBundle

open Relation

/-- Whether a site of a script names a module that can be found. -/
def RequireSite.Resolves (w : Workspace) (roots : List Text) (path : Text) (site : RequireSite) :
    Prop :=
  ∃ name m, site.moduleName = some name ∧ ResolvedModule.find w roots path name = .ok m

namespace Discovery

/-- `d'` was reached from `d` without a visit: scripts that were met on the way are pending. -/
structure Extends (d d' : Discovery) : Prop where
  visited : d'.visited = d.visited
  met : ∃ new : List (Text × Nat),
    d'.met = d.met ++ new.map (·.1) ∧ d'.pending = d.pending ++ new

theorem Extends.refl (d : Discovery) : Extends d d := ⟨rfl, [], by simp, by simp⟩

theorem Extends.trans {d d' d'' : Discovery} (h : Extends d d') (h' : Extends d' d'') :
    Extends d d'' := by
  obtain ⟨new, hmet, hpending⟩ := h.met
  obtain ⟨more, hmet', hpending'⟩ := h'.met
  refine ⟨h'.visited.trans h.visited, new ++ more, ?_, ?_⟩
  · rw [hmet', hmet, List.map_append, List.append_assoc]
  · rw [hpending', hpending, List.append_assoc]

theorem Extends.mem {d d' : Discovery} (h : Extends d d') {path : Text} (hp : path ∈ d.met) :
    path ∈ d'.met := by
  obtain ⟨new, hmet, _⟩ := h.met
  rw [hmet]
  exact List.mem_append_left _ hp

/-- The requirements `log` were followed, and nothing else: `d` has their edges and names, and has
met the entry and the scripts to which they lead from there. They form no cycle. -/
structure Follows (entry : Text) (log : List Requirement) (d : Discovery) : Prop where
  edges : d.edges = Requirement.edges log
  names : d.names = Requirement.names log
  met : d.met = Manifest.distinct (entry :: log.map (·.target))
  sources : ∀ r ∈ log, r.requiredBy ∈ d.met
  reached : ∀ path ∈ d.met, ReflTransGen (Requirement.Leads log) entry path
  acyclic : Requirement.Acyclic log

variable {entry : Text} {log : List Requirement} {d : Discovery}

theorem Follows.congr (h : Follows entry log d) {d' : Discovery} (hedges : d'.edges = d.edges)
    (hnames : d'.names = d.names) (hmet : d'.met = d.met) : Follows entry log d' where
  edges := hedges.trans h.edges
  names := hnames.trans h.names
  met := hmet.trans h.met
  sources := hmet ▸ h.sources
  reached := hmet ▸ h.reached
  acyclic := h.acyclic

theorem Follows.nodup (h : Follows entry log d) : d.met.Nodup := h.met ▸ Manifest.nodup_distinct _

theorem Follows.entry_met (h : Follows entry log d) : entry ∈ d.met := by
  rw [h.met, Manifest.mem_distinct]
  exact List.mem_cons_self

theorem Follows.target_met (h : Follows entry log d) {r : Requirement} (hr : r ∈ log) :
    r.target ∈ d.met := by
  rw [h.met, Manifest.mem_distinct]
  exact List.mem_cons_of_mem _ (List.mem_map_of_mem hr)

/-- Since all scripts are reached from it, no requirement leads to the entry. -/
theorem Follows.target_ne_entry (h : Follows entry log d) {r : Requirement} (hr : r ∈ log) :
    r.target ≠ entry := fun he =>
  h.acyclic r hr (he ▸ h.reached _ (h.sources r hr))

/-- The state in which the sites of a visited script are followed. -/
def visiting (d : Discovery) (path : Text) (depth : Nat) (text : Text) : Discovery :=
  { d.report (.visit path (.ofNat depth)) with
    visited := d.visited ++ [⟨path, text, RequireSite.scan text⟩] }

/-- One more requirement that closes no cycle, to a script that may be new. -/
theorem Follows.require (h : Follows entry log d) {r : Requirement} {met : List Text}
    (hsource : r.requiredBy ∈ d.met) (hcycle : d.edges.cycle? r.requiredBy r.target = none)
    (hmet : met = if r.target ∈ d.met then d.met else d.met ++ [r.target]) :
    Follows entry (log ++ [r]) ({ d with met := met }.require r.requiredBy r.name r.target) := by
  have hmem : ∀ path, path ∈ met ↔ path ∈ d.met ∨ path = r.target := by
    intro path
    rw [hmet]
    split
    · rename_i htarget
      exact ⟨.inl, fun hp => hp.elim id fun he => he ▸ htarget⟩
    · simp
  refine ⟨?_, ?_, ?_, ?_, ?_, ?_⟩
  · rw [Requirement.edges_concat, ← h.edges]
    rfl
  · rw [Requirement.names_concat, ← h.names]
    rfl
  · have hlog : entry :: (log ++ [r]).map (·.target) =
        (entry :: log.map (·.target)) ++ [r.target] := by simp
    have hnew : r.target ∈ entry :: log.map (·.target) ↔ r.target ∈ d.met := by
      rw [h.met, Manifest.mem_distinct]
    rw [hlog, Manifest.distinct_concat, ← h.met]
    simp only [hnew]
    exact hmet
  · intro q hq
    rcases List.mem_append.mp hq with hold | hnew
    · exact (hmem _).mpr (.inl (h.sources q hold))
    · obtain rfl := List.mem_singleton.mp hnew
      exact (hmem _).mpr (.inl hsource)
  · intro path hpath
    rcases (hmem path).mp hpath with hold | rfl
    · exact Requirement.reaches_mono (h.reached path hold)
    · exact (Requirement.reaches_mono (h.reached _ hsource)).tail
        (Requirement.leads_concat.mpr (.inr ⟨rfl, rfl⟩))
  · refine h.acyclic.concat fun hback => Edges.cycle?_eq_none hcycle ?_
    rw [h.edges]
    exact ReflTransGen.mono (fun _ _ hl => (Requirement.leads_edges log _ _).mpr hl) _ _ hback

end Discovery

namespace Search

open Discovery

variable {s : Search} {current : Text} {depth : Nat} {d d' : Discovery} {site : RequireSite}

theorem follow_eq_ok (h : s.follow current depth d site = .ok d') :
    ∃ name, site.moduleName = some name ∧
      ((ResolvedModule.find s.workspace s.roots current name = .ok (.builtin name) ∧
          d' = d.report (.skipBuiltin name current)) ∨
        ∃ target, ResolvedModule.find s.workspace s.roots current name = .ok (.script name target) ∧
          d.edges.cycle? current target = none ∧
          ((target ∈ d.met ∧ d' = d.require current name target) ∨
            (target ∉ d.met ∧ s.limit.isBelow (d.met.length + 1) = false ∧
              d' = (d.meet target (depth + 1)).require current name target))) := by
  unfold follow at h
  split at h
  · cases h
  · rename_i name hname
    refine ⟨name, hname, ?_⟩
    split at h
    · cases h
    · rename_i found hfind
      cases h
      rcases ResolvedModule.find_eq_ok hfind with ⟨_, hm⟩ | ⟨_, _, hm⟩
      · cases hm
        exact .inl ⟨hfind, rfl⟩
      · cases hm
    · rename_i found target hfind
      obtain rfl := ResolvedModule.name_eq_of_find hfind
      split at h
      · cases h
      · rename_i hcycle
        refine .inr ⟨target, hfind, hcycle, ?_⟩
        split at h
        · rename_i hmem
          cases h
          exact .inl ⟨hmem, rfl⟩
        · rename_i hmem
          split at h
          · cases h
          · rename_i hlimit
            cases h
            exact .inr ⟨hmem, by simpa using hlimit, rfl⟩

variable {entry : Text} {log : List Requirement}

theorem follow_follows (inv : Follows entry log d) (hcurrent : current ∈ d.met)
    (h : s.follow current depth d site = .ok d') :
    Follows entry (log ++ (Requirement.ofSite? s.workspace s.roots current site).toList) d' ∧
      Extends d d' ∧ site.Resolves s.workspace s.roots current := by
  obtain ⟨name, hname, ⟨hfind, rfl⟩ | ⟨target, hfind, hcycle, hd⟩⟩ := follow_eq_ok h
  · have hnone : Requirement.ofSite? s.workspace s.roots current site = none := by
      simp [Requirement.ofSite?, hname, hfind]
    rw [hnone, Option.toList_none, List.append_nil]
    exact ⟨inv.congr rfl rfl rfl, ⟨rfl, [], by simp [report], by simp [report]⟩, name, _, hname,
      hfind⟩
  · have hsome : Requirement.ofSite? s.workspace s.roots current site =
        some ⟨current, name, target⟩ := Requirement.ofSite?_eq_some.mpr ⟨rfl, hname, hfind⟩
    rw [hsome, Option.toList_some]
    rcases hd with ⟨hmem, rfl⟩ | ⟨hmem, _, rfl⟩
    · exact ⟨inv.require (r := ⟨current, name, target⟩) hcurrent hcycle (if_pos hmem).symm,
        ⟨rfl, [], by simp [require, report], by simp [require, report]⟩, name, _, hname, hfind⟩
    · have met : Follows entry log { d with pending := d.pending ++ [(target, depth + 1)] } :=
        inv.congr rfl rfl rfl
      exact ⟨met.require (r := ⟨current, name, target⟩) hcurrent hcycle (if_neg hmem).symm,
        ⟨rfl, [(target, depth + 1)], rfl, rfl⟩, name, _, hname, hfind⟩

/-- Following sites one by one follows the requirements that they make. -/
theorem followAll_follows {sites : List RequireSite} (inv : Follows entry log d)
    (hcurrent : current ∈ d.met) (h : s.followAll current depth d sites = (.ok (), d')) :
    Follows entry (log ++ sites.filterMap (Requirement.ofSite? s.workspace s.roots current)) d' ∧
      Extends d d' ∧ ∀ site ∈ sites, site.Resolves s.workspace s.roots current := by
  induction sites generalizing d log with
  | nil =>
    simp only [followAll, Prod.mk.injEq, true_and] at h
    subst h
    exact ⟨by simpa using inv, .refl d, by simp⟩
  | cons site sites ih =>
    simp only [followAll] at h
    split at h
    · cases h
    · rename_i next hnext
      obtain ⟨inv', hext, hsite⟩ := follow_follows inv hcurrent hnext
      obtain ⟨inv'', hext', hsites⟩ := ih inv' (hext.mem hcurrent) h
      refine ⟨?_, hext.trans hext', List.forall_mem_cons.mpr ⟨hsite, hsites⟩⟩
      rw [List.append_assoc] at inv''
      convert inv'' using 2
      cases ho : Requirement.ofSite? s.workspace s.roots current site <;> simp [ho]

theorem visit_eq_ok (h : s.visit current depth d = (.ok (), d')) :
    ∃ text, s.workspace.readText current = .ok text ∧
      s.followAll current depth (d.visiting current depth text) (RequireSite.scan text) =
        (.ok (), d') := by
  unfold visit at h
  split at h
  · cases h
  · rename_i text hread
    exact ⟨text, hread, h⟩

/-- The state between two visits: the visited scripts were read and scanned and all their sites
followed, and the scripts met besides them are pending. -/
structure Holds (s : Search) (entry : Text) (d : Discovery) : Prop where
  queue : d.met = d.visited.map (·.path) ++ d.pending.map (·.1)
  follows : Follows entry (d.visited.flatMap (SourceFile.requirements s.workspace s.roots)) d
  scanned : ∀ file ∈ d.visited,
    s.workspace.readText file.path = .ok file.text ∧ file.requires = RequireSite.scan file.text
  resolved : ∀ file ∈ d.visited, ∀ site ∈ file.requires,
    site.Resolves s.workspace s.roots file.path

theorem holds_start (s : Search) (entry : Text) : s.Holds entry (.start entry) where
  queue := rfl
  follows :=
    { edges := rfl
      names := rfl
      met := rfl
      sources := by simp [start]
      reached := by
        intro path hpath
        obtain rfl := List.mem_singleton.mp hpath
        exact .refl
      acyclic := by simp [Requirement.Acyclic, start] }
  scanned := by simp [start]
  resolved := by simp [start]

theorem visit_holds {pending : List (Text × Nat)} (inv : s.Holds entry d)
    (hpending : d.pending = (current, depth) :: pending)
    (h : s.visit current depth { d with pending := pending } = (.ok (), d')) :
    s.Holds entry d' := by
  obtain ⟨text, hread, hall⟩ := visit_eq_ok h
  have hcurrent : current ∈ d.met := by
    rw [inv.queue, hpending]
    simp
  have started : Follows entry _
      (({ d with pending := pending } : Discovery).visiting current depth text) :=
    inv.follows.congr rfl rfl rfl
  obtain ⟨hfollows, hext, hsites⟩ := followAll_follows started hcurrent hall
  have hvisited : d'.visited = d.visited ++ [⟨current, text, RequireSite.scan text⟩] :=
    hext.visited
  obtain ⟨new, hmet, hnew⟩ := hext.met
  refine ⟨?_, ?_, ?_, ?_⟩
  · rw [hmet, hnew, hvisited]
    simp [visiting, report, inv.queue, hpending]
  · rw [hvisited, List.flatMap_append]
    simpa [SourceFile.requirements] using hfollows
  · rw [hvisited]
    intro file hfile
    rcases List.mem_append.mp hfile with hold | hlast
    · exact inv.scanned file hold
    · obtain rfl := List.mem_singleton.mp hlast
      exact ⟨hread, rfl⟩
  · rw [hvisited]
    intro file hfile
    rcases List.mem_append.mp hfile with hold | hlast
    · exact inv.resolved file hold
    · obtain rfl := List.mem_singleton.mp hlast
      exact hsites

/-- A run that does not fail ends in a state of the search in which nothing is pending. -/
theorem run_holds {visits : Nat} (inv : s.Holds entry d) (h : s.run visits d = (.ok (), d')) :
    s.Holds entry d' ∧ d'.pending = [] := by
  induction visits generalizing d with
  | zero =>
    unfold run at h
    split at h
    · rename_i hnil
      cases h
      exact ⟨inv, hnil⟩
    · cases h
  | succ visits ih =>
    unfold run at h
    split at h
    · rename_i hnil
      cases h
      exact ⟨inv, hnil⟩
    · rename_i hpending
      simp only at h
      split at h
      · cases h
      · rename_i hvisit
        exact ih (visit_holds inv hpending hvisit) h

end Search

end LuaBundle
