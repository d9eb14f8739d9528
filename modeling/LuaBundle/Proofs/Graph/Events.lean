import LuaBundle.Proofs.Graph.Distance
import LuaBundle.Proofs.Graph.Lockstep
import LuaBundle.Proofs.Graph.Program

/-! What a search reports when it finds a program: script after script the visit, with the depth of
the script, and then each of its sites. The depth is the number of edges on a shortest way from the
entry, and the scripts stand in the order of their depths. -/

namespace LuaBundle

theorem Number.ofNat_injective : Function.Injective Number.ofNat :=
  fun _ _ h => Nat.cast_injective (Number.finite.inj h)

/-- The event by which a site of a script is reported, if it names a module that can be found. -/
def RequireSite.event? (w : Workspace) (roots : List Text) (path : Text) (site : RequireSite) :
    Option Event :=
  match site.moduleName with
  | none => none
  | some name =>
    match ResolvedModule.find w roots path name with
    | .ok (.builtin name) => some (.skipBuiltin name path)
    | .ok (.script name target) => some (.resolve name path target)
    | .error _ => none

/-- The events by which a script of a given depth is reported. -/
def SourceFile.events (w : Workspace) (roots : List Text) (depth : Nat) (file : SourceFile) :
    List (Option Event) :=
  some (.visit file.path (.ofNat depth)) :: file.requires.map (·.event? w roots file.path)

/-- The depth of a script that is visited. -/
def Event.depth? : Event → Option Number
  | visit _ depth => some depth
  | _ => none

namespace Search

open Discovery

variable {s : Search} {entry current : Text} {depth : Text → Nat} {k visits : Nat}
  {d d' : Discovery} {site : RequireSite}

theorem follow_events (h : s.follow current k d site = .ok d') :
    d'.events.map some = d.events.map some ++ [site.event? s.workspace s.roots current] := by
  obtain ⟨name, hname, ⟨hfind, rfl⟩ | ⟨target, hfind, _, ⟨_, rfl⟩ | ⟨_, _, rfl⟩⟩⟩ := follow_eq_ok h
  all_goals
    rw [RequireSite.event?, hname]
    simp only [hfind]
    exact List.map_append

theorem followAll_events {sites : List RequireSite}
    (h : s.followAll current k d sites = (.ok (), d')) : d'.events.map some =
      d.events.map some ++ sites.map (·.event? s.workspace s.roots current) := by
  induction sites generalizing d with
  | nil =>
    obtain ⟨_, rfl⟩ := Prod.mk.inj h
    exact (List.append_nil _).symm
  | cons site sites ih =>
    rw [followAll] at h
    split at h
    · cases h
    · rename_i next hnext
      rw [ih h, follow_events hnext, List.append_assoc]
      rfl

/-- The state between two visits, with what was reported of the visited scripts. -/
structure Reports (s : Search) (entry : Text) (depth : Text → Nat) (d : Discovery) : Prop where
  holds : s.Holds entry d
  leveled : s.Leveled entry depth d
  events : d.events.map some =
    d.visited.flatMap fun file => file.events s.workspace s.roots (depth file.path)

theorem reports_start (s : Search) (entry : Text) : s.Reports entry (fun _ => 0) (.start entry) :=
  ⟨holds_start s entry, leveled_start s entry, rfl⟩

theorem visit_reports {pending : List (Text × Nat)} (inv : s.Reports entry depth d)
    (hpending : d.pending = (current, k) :: pending)
    (h : s.visit current k { d with pending := pending } = (.ok (), d')) :
    ∃ depth', s.Reports entry depth' d' := by
  obtain ⟨depth', hsame, hcurrent, hleveled⟩ := visit_leveled inv.holds inv.leveled hpending h
  have hold : ∀ file ∈ d.visited, depth' file.path = depth file.path := by
    intro file hfile
    apply hsame
    rw [inv.holds.queue]
    exact List.mem_append_left _ (List.mem_map_of_mem hfile)
  refine ⟨depth', visit_holds inv.holds hpending h, hleveled, ?_⟩
  obtain ⟨text, _, hall⟩ := visit_eq_ok h
  have hvisited : d'.visited = d.visited ++ [⟨current, text, RequireSite.scan text⟩] :=
    followAll_visited hall
  have hstarted : (({ d with pending := pending } : Discovery).visiting current k text).events.map
      some = d.events.map some ++ [some (.visit current (.ofNat k))] := List.map_append
  have hearlier : (d.visited.flatMap fun file =>
        file.events s.workspace s.roots (depth' file.path)) = d.events.map some := by
    rw [inv.events]
    exact List.flatMap_congr fun file hfile => by rw [hold file hfile]
  rw [followAll_events hall, hstarted, hvisited, List.flatMap_append, hearlier,
    List.flatMap_singleton, SourceFile.events, hcurrent, List.append_assoc]
  rfl

/-- What a run that does not fail has reported. -/
theorem run_reports (inv : s.Reports entry depth d) (h : s.run visits d = (.ok (), d')) :
    ∃ depth', s.Reports entry depth' d' := by
  induction visits generalizing d depth with
  | zero =>
    rw [run] at h
    split at h
    · obtain ⟨_, rfl⟩ := Prod.mk.inj h
      exact ⟨depth, inv⟩
    · cases h
  | succ visits ih =>
    rw [run] at h
    split at h
    · obtain ⟨_, rfl⟩ := Prod.mk.inj h
      exact ⟨depth, inv⟩
    · rename_i hpending
      simp only at h
      split at h
      · cases h
      · rename_i hvisit
        obtain ⟨depth', inv'⟩ := visit_reports inv hpending hvisit
        exact ih inv' h

end Search

namespace ModuleGraph

variable {w : Workspace} {entryPath : Text} {limit : Number} {searchRoots : List Text}
  {g : ModuleGraph} {events : List Event}

/-- The depths of the scripts of a program: distances from its entry along its edges, which do not
decrease in the order of the scripts. -/
structure Depths (g : ModuleGraph) (depth : Text → Nat) : Prop where
  distance : ∀ path ∈ g.paths, IsLeast {n | Way g.edges.Leads g.entry n path} (depth path)
  sorted : (g.paths.map depth).Pairwise (· ≤ ·)

/-- A search that finds a program reports its scripts one after the other, each by a visit, with the
depth of the script, and then all of its sites. -/
theorem ofProgram_events (h : ofProgram w entryPath limit searchRoots = (.ok g, events)) :
    ∃ depth, g.Depths depth ∧ (∀ file ∈ g.files, file.requires = RequireSite.scan file.text) ∧
      events.map some = g.files.flatMap fun file =>
        file.events w (rootsOf w g.entry searchRoots) (depth file.path) := by
  obtain ⟨_, _, d, hrun, hg, rfl⟩ := ofProgram_eq_ok h
  obtain ⟨depth, inv⟩ := Search.run_reports (Search.reports_start _ _) hrun
  obtain ⟨_, hdone⟩ := Search.run_holds (Search.holds_start _ _) hrun
  obtain ⟨k, hlevels, _⟩ := inv.leveled
  have hpaths : g.paths = d.met := hg ▸ (met_eq_paths inv.holds hdone).symm
  have hleads : ∀ a b, g.edges.Leads a b ↔ Requirement.Leads _ a b := fun a b => by
    rw [hg]
    change d.edges.Leads a b ↔ _
    rw [inv.holds.follows.edges]
    exact Requirement.leads_edges _ a b
  refine ⟨depth, ⟨fun path hpath => ?_, ?_⟩, fun file hfile => ?_, ?_⟩
  · apply Way.isLeast_depth hlevels.zero
    · intro b c hbc
      obtain ⟨r, hr, rfl, rfl⟩ := (hleads b c).mp hbc
      exact hlevels.short r hr
    · exact (hlevels.ways path (hpaths ▸ hpath)).mono fun hl => (hleads _ _).mpr hl
  · rw [hpaths]
    exact hlevels.sorted
  · rw [hg] at hfile
    exact (inv.holds.scanned file hfile).2
  · rw [inv.events, hg]
    rfl

/-- The depths that were reported, in the order of the visits. -/
theorem filterMap_depth? {roots : List Text} {depth : Text → Nat}
    (h : events.map some = g.files.flatMap fun file => file.events w roots (depth file.path)) :
    events.filterMap Event.depth? = g.paths.map fun path => .ofNat (depth path) := by
  have hsite : ∀ path (site : RequireSite),
      (site.event? w roots path).bind Event.depth? = none := by
    intro path site
    rw [RequireSite.event?]
    split
    · rfl
    · split <;> rfl
  have hfile : ∀ file : SourceFile, (file.events w roots (depth file.path)).filterMap
      (·.bind Event.depth?) = [.ofNat (depth file.path)] := by
    intro file
    rw [SourceFile.events, List.filterMap_cons, List.filterMap_map, List.filterMap_eq_nil_iff.mpr]
    · rfl
    · exact fun site _ => hsite file.path site
  calc events.filterMap Event.depth?
    _ = (events.map some).filterMap (·.bind Event.depth?) := by
      rw [List.filterMap_map]
      rfl
    _ = g.files.flatMap fun file => [.ofNat (depth file.path)] := by
      rw [h, List.filterMap_flatMap]
      exact List.flatMap_congr fun file _ => hfile file
    _ = g.paths.map fun path => .ofNat (depth path) := by
      rw [paths, List.map_map, List.map_eq_flatMap]
      rfl

set_option maxRecDepth 100000 in
theorem events_diamond :
    ∃ g events depth, ofProgram diamond "main.lua" defaultLimit [] = (.ok g, events) ∧
      g.Depths depth ∧ g.paths.map depth = [0, 1, 1, 2] := by
  have hrun : (ofProgram diamond "main.lua" defaultLimit []).1.toOption.map paths =
      some (["/p/main.lua", "/p/left.lua", "/p/right.lua", "/p/base.lua"] : List Text) := by
    decide +kernel
  have hdepths : (ofProgram diamond "main.lua" defaultLimit []).2.filterMap Event.depth? =
      [.ofNat 0, .ofNat 1, .ofNat 1, .ofNat 2] := by
    decide +kernel
  obtain ⟨g, events, h, hpaths⟩ := exists_ok hrun
  obtain ⟨depth, hdepth, _, hevents⟩ := ofProgram_events h
  refine ⟨g, events, depth, h, hdepth, ?_⟩
  rw [h, filterMap_depth? hevents, ← Function.comp_def, ← List.map_map] at hdepths
  exact Number.ofNat_injective.list_map hdepths

end ModuleGraph

end LuaBundle
