import LuaBundle.Proofs.Graph.Discovery
import Mathlib.Order.Bounds.Basic

/-! The graph that a successful search returns is the one of the program: its scripts are the least
set that holds the entry and whatever its members require, and its edges and names are what the
sites of these scripts record. -/

namespace LuaBundle.ModuleGraph

open Relation Text

/-- The directories that the names of a program are looked for in. -/
def rootsOf (w : Workspace) (entry : Text) (searchRoots : List Text) : List Text :=
  Path.parent entry :: searchRoots.map w.absolute

/-- Whether the text of a script has a literal site whose name stands for the script `target`. -/
def Requires (w : Workspace) (roots : List Text) (path target : Text) : Prop :=
  ∃ text, w.readText path = .ok text ∧ ∃ site ∈ RequireSite.scan text, ∃ name,
    site.moduleName = some name ∧
      ResolvedModule.find w roots path name = .ok (.script name target)

/-- The sets of scripts that hold the entry and whatever their members require. -/
def closedSets (w : Workspace) (roots : List Text) (entry : Text) : Set (Set Text) :=
  {scripts | entry ∈ scripts ∧
    ∀ path ∈ scripts, ∀ target, Requires w roots path target → target ∈ scripts}

def paths (g : ModuleGraph) : List Text := g.files.map (·.path)

/-- The requirements of the scripts of a graph, script after script. -/
def requirements (w : Workspace) (roots : List Text) (g : ModuleGraph) : List Requirement :=
  g.files.flatMap (SourceFile.requirements w roots)

/-- `g` is the graph of the program that starts at its entry. -/
structure IsProgram (w : Workspace) (roots : List Text) (g : ModuleGraph) : Prop where
  least : IsLeast (closedSets w roots g.entry) {path | path ∈ g.paths}
  /-- The scripts stand in the order in which they are met: the entry, then those that it requires,
  then those that these require, each where it is required first. -/
  order : g.paths =
    Manifest.distinct (g.entry :: (g.requirements w roots).map (·.target))
  scanned : ∀ file ∈ g.files,
    w.readText file.path = .ok file.text ∧ file.requires = RequireSite.scan file.text
  literal : ∀ file ∈ g.files, ∀ site ∈ file.requires, site.isLiteral = true
  /-- Under each script stand those it requires, each where it is required first. -/
  edges : ∀ file ∈ g.files, g.edges.get? file.path =
    OrderedMap.recorded ((file.requirements w roots).map (·.target))
  edges_outside : ∀ path ∉ g.paths, g.edges.get? path = none
  /-- Under each script stand the names it is required by, each where it is used first. -/
  names : ∀ path, g.names.get? path = OrderedMap.recorded
    (((g.requirements w roots).filter fun r => r.target = path).map (·.name))

variable {w : Workspace} {entryPath : Text} {limit : Number} {searchRoots : List Text}
  {g : ModuleGraph} {events : List Event}

theorem ofProgram_eq_ok (h : ofProgram w entryPath limit searchRoots = (.ok g, events)) :
    scriptPath w entryPath = .ok g.entry ∧ limit.isBelow 1 = false ∧ ∃ d,
      Search.run ⟨w, rootsOf w g.entry searchRoots, limit⟩ limit.cap (.start g.entry) =
        (.ok (), d) ∧ g = d.graph g.entry ∧ events = d.events := by
  unfold ofProgram at h
  split at h
  · cases h
  · rename_i entry hentry
    split at h
    · cases h
    · rename_i hlimit
      simp only at h
      split at h
      · cases h
      · rename_i d hrun
        cases h
        exact ⟨hentry, by simpa using hlimit, d, hrun, rfl, rfl⟩

/-- A program is not found since its entry cannot be read, the limit allows no script at all, or the
search fails. -/
theorem ofProgram_eq_error {failure : Failure AnalysisError}
    (h : ofProgram w entryPath limit searchRoots = (.error failure, events)) :
    scriptPath w entryPath = .error failure ∨ ∃ entry, scriptPath w entryPath = .ok entry ∧
      (failure = .reported (.limitExceeded limit (.ofNat 1) (ModuleKey.ofEntry entry)) ∨
        ∃ d, Search.run ⟨w, rootsOf w entry searchRoots, limit⟩ limit.cap (.start entry) =
          (.error failure, d)) := by
  unfold ofProgram at h
  split at h
  · rename_i hentry
    obtain rfl := Except.error.inj (Prod.mk.inj h).1
    exact .inl hentry
  · rename_i entry hentry
    refine .inr ⟨entry, hentry, ?_⟩
    split at h
    · exact .inl (Except.error.inj (Prod.mk.inj h).1).symm
    · simp only at h
      split at h
      · rename_i hrun
        obtain rfl := Except.error.inj (Prod.mk.inj h).1
        exact .inr ⟨_, hrun⟩
      · cases h

theorem ofProgram_run (hentry : scriptPath w entryPath = .ok g.entry)
    (hlimit : limit.isBelow 1 = false) : ofProgram w entryPath limit searchRoots =
      match Search.run ⟨w, rootsOf w g.entry searchRoots, limit⟩ limit.cap (.start g.entry) with
      | (.error failure, d) => (.error failure, d.events)
      | (.ok (), d) => (.ok (d.graph g.entry), d.events) := by
  rw [ofProgram, hentry]
  simp only [hlimit]
  rfl

theorem scriptPath_eq_ok {path entry : Text} (h : scriptPath w path = .ok entry) :
    w.isReadable (w.absolute path) = true ∧ w.canonical (w.absolute path) = .ok entry := by
  unfold scriptPath at h
  split at h
  · rename_i hreadable
    cases hc : w.canonical (w.absolute path) with
    | ok found =>
      rw [hc] at h
      exact ⟨hreadable, by simpa [Except.mapError] using h⟩
    | error error =>
      rw [hc] at h
      cases h
  · cases h

theorem scriptPath_eq_error {path : Text} {error : AnalysisError}
    (h : scriptPath w path = .error (.reported error)) : error = .scriptNotFound path := by
  unfold scriptPath at h
  split at h
  · cases hc : w.canonical (w.absolute path) <;> rw [hc] at h <;> cases h
  · cases h
    rfl

variable {roots : List Text}

theorem mem_requirements {file : SourceFile} {r : Requirement} :
    r ∈ file.requirements w roots ↔
      r.requiredBy = file.path ∧ ∃ site ∈ file.requires, site.moduleName = some r.name ∧
        ResolvedModule.find w roots file.path r.name = .ok (.script r.name r.target) := by
  simp only [SourceFile.requirements, List.mem_filterMap, Requirement.ofSite?_eq_some]
  constructor
  · rintro ⟨site, hsite, hby, hname, hfind⟩
    exact ⟨hby, site, hsite, hname, hfind⟩
  · rintro ⟨hby, site, hsite, hname, hfind⟩
    exact ⟨site, hsite, hby, hname, hfind⟩

section Finished

variable {s : Search} {entry : Text} {d : Discovery} (inv : s.Holds entry d)
  (hdone : d.pending = [])

include inv hdone

theorem met_eq_paths : d.met = (d.graph entry).paths := by
  rw [inv.queue, hdone]
  simp [paths, Discovery.graph]

theorem requires_mem_paths {path target : Text} (hpath : path ∈ (d.graph entry).paths)
    (h : Requires s.workspace s.roots path target) : target ∈ (d.graph entry).paths := by
  obtain ⟨file, hfile, rfl⟩ := List.mem_map.mp hpath
  obtain ⟨text, hread, site, hsite, name, hname, hfind⟩ := h
  obtain ⟨hread', hscan⟩ := inv.scanned file hfile
  rw [hread, Except.ok.injEq] at hread'
  have hr : (⟨file.path, name, target⟩ : Requirement) ∈
      (d.graph entry).requirements s.workspace s.roots := by
    refine List.mem_flatMap.mpr ⟨file, hfile, mem_requirements.mpr ⟨rfl, site, ?_, hname, hfind⟩⟩
    rw [hscan, ← hread']
    exact hsite
  rw [← met_eq_paths inv hdone]
  exact inv.follows.target_met hr

/-- Every set of scripts that holds the entry and is closed holds what was visited. -/
theorem paths_subset_closed {scripts : Set Text}
    (h : scripts ∈ closedSets s.workspace s.roots entry) {path : Text}
    (hpath : path ∈ (d.graph entry).paths) : path ∈ scripts := by
  rw [← met_eq_paths inv hdone] at hpath
  induction inv.follows.reached path hpath with
  | refl => exact h.1
  | tail _ hlast ih =>
    obtain ⟨r, hr, rfl, rfl⟩ := hlast
    obtain ⟨file, hfile, hmem⟩ := List.mem_flatMap.mp hr
    obtain ⟨hby, site, hsite, hname, hfind⟩ := mem_requirements.mp hmem
    obtain ⟨hread, hscan⟩ := inv.scanned file hfile
    refine h.2 r.requiredBy (ih (inv.follows.sources r hr)) _ ?_
    rw [hby]
    exact ⟨file.text, hread, site, hscan ▸ hsite, r.name, hname, hfind⟩

theorem requirements_filter {file : SourceFile} (hfile : file ∈ d.visited) :
    ((d.graph entry).requirements s.workspace s.roots).filter (fun r => r.requiredBy = file.path) =
      file.requirements s.workspace s.roots := by
  have hnodup : (d.visited.map (·.path)).Nodup := by
    have := inv.follows.nodup
    rwa [met_eq_paths inv hdone] at this
  obtain ⟨before, after, hsplit⟩ := List.append_of_mem hfile
  have others : ∀ other : SourceFile, other.path ≠ file.path →
      (other.requirements s.workspace s.roots).filter (fun r => r.requiredBy = file.path) = [] := by
    intro other hne
    refine List.filter_eq_nil_iff.mpr fun r hr => ?_
    simpa [(mem_requirements.mp hr).1] using hne
  have own : (file.requirements s.workspace s.roots).filter (fun r => r.requiredBy = file.path) =
      file.requirements s.workspace s.roots :=
    List.filter_eq_self.mpr fun r hr => by simpa using (mem_requirements.mp hr).1
  rw [hsplit, List.map_append, List.map_cons, List.nodup_append] at hnodup
  have hbefore : ∀ other ∈ before, other.path ≠ file.path := fun other hother =>
    hnodup.2.2 _ (List.mem_map_of_mem hother) _ List.mem_cons_self
  have hafter : ∀ other ∈ after, other.path ≠ file.path := fun other hother he =>
    (List.nodup_cons.mp hnodup.2.1).1 (he ▸ List.mem_map_of_mem hother)
  change ((d.visited.flatMap _).filter _) = _
  rw [hsplit, List.flatMap_append, List.flatMap_cons, List.filter_append, List.filter_append, own,
    List.filter_flatMap, List.filter_flatMap,
    List.flatMap_eq_nil_iff.mpr fun other hother => others other (hbefore other hother),
    List.flatMap_eq_nil_iff.mpr fun other hother => others other (hafter other hother),
    List.nil_append, List.append_nil]

theorem isProgram_of_holds : (d.graph entry).IsProgram s.workspace s.roots where
  least := by
    refine ⟨⟨?_, fun path hpath target h => requires_mem_paths inv hdone hpath h⟩,
      fun scripts h path hpath => paths_subset_closed inv hdone h hpath⟩
    exact met_eq_paths inv hdone ▸ inv.follows.entry_met
  order := met_eq_paths inv hdone ▸ inv.follows.met
  scanned := inv.scanned
  literal file hfile site hsite := by
    obtain ⟨name, _, hname, _⟩ := inv.resolved file hfile site hsite
    simp [RequireSite.isLiteral, hname]
  edges file hfile := by
    change d.edges.get? file.path = _
    rw [inv.follows.edges, Requirement.get?_edges, ← requirements_filter inv hdone hfile]
    rfl
  edges_outside path hpath := by
    change d.edges.get? path = _
    rw [inv.follows.edges, Requirement.get?_edges, List.filter_eq_nil_iff.mpr]
    · rfl
    · intro r hr he
      refine hpath ?_
      rw [← met_eq_paths inv hdone, ← of_decide_eq_true he]
      exact inv.follows.sources r hr
  names path := by
    change d.names.get? path = _
    rw [inv.follows.names, Requirement.get?_names]
    rfl

end Finished

theorem holds_of_ofProgram (h : ofProgram w entryPath limit searchRoots = (.ok g, events)) :
    ∃ d : Discovery, Search.Holds ⟨w, rootsOf w g.entry searchRoots, limit⟩ g.entry d ∧
      d.pending = [] ∧ g = d.graph g.entry := by
  obtain ⟨_, _, d, hrun, hg, _⟩ := ofProgram_eq_ok h
  obtain ⟨inv, hdone⟩ := Search.run_holds (Search.holds_start _ _) hrun
  exact ⟨d, inv, hdone, hg⟩

theorem isProgram_of_ofProgram (h : ofProgram w entryPath limit searchRoots = (.ok g, events)) :
    g.IsProgram w (rootsOf w g.entry searchRoots) := by
  obtain ⟨d, inv, hdone, hg⟩ := holds_of_ofProgram h
  rw [hg]
  exact isProgram_of_holds inv hdone

/-- A search that succeeds returns the graph of the program whose entry is the canonical path of
the given one. -/
theorem ofProgram_isProgram (h : ofProgram w entryPath limit searchRoots = (.ok g, events)) :
    w.canonical (w.absolute entryPath) = .ok g.entry ∧
      g.IsProgram w (rootsOf w g.entry searchRoots) :=
  ⟨(scriptPath_eq_ok (ofProgram_eq_ok h).1).2, isProgram_of_ofProgram h⟩

/-- The file of a script. -/
def scriptFile (source : String) : Node := .file (Utf8.encode (ofString source)) 0o644

/-- Two scripts that require a third, one of them through a link. -/
def diamond : Workspace where
  base := "/p"
  entries :=
    [(["p"], .directory),
      (["p", "main.lua"], scriptFile "require 'left' require 'right'"),
      (["p", "left.lua"], scriptFile "return require('base')"),
      (["p", "right.lua"], scriptFile "return require './link'"),
      (["p", "base.lua"], scriptFile "local s = require 'string'"),
      (["p", "link.lua"], .link "base.lua")]

/-- What a computation that can be evaluated returns. -/
theorem exists_ok {ε α β γ : Type} {r : Except ε α × β} {f : α → γ} {c : γ}
    (h : r.1.toOption.map f = some c) : ∃ a b, r = (.ok a, b) ∧ f a = c := by
  obtain ⟨_ | a, b⟩ := r
  · simp [Except.toOption] at h
  · exact ⟨a, b, rfl, by simpa [Except.toOption] using h⟩

set_option maxRecDepth 100000 in
theorem diamond_isProgram :
    ∃ g events, ofProgram diamond "main.lua" defaultLimit [] = (.ok g, events) ∧
      g.paths = ["/p/main.lua", "/p/left.lua", "/p/right.lua", "/p/base.lua"] ∧
      g.IsProgram diamond (rootsOf diamond g.entry []) := by
  have hrun : (ofProgram diamond "main.lua" defaultLimit []).1.toOption.map paths =
      some (["/p/main.lua", "/p/left.lua", "/p/right.lua", "/p/base.lua"] : List Text) := by
    decide +kernel
  obtain ⟨g, events, h, hpaths⟩ := exists_ok hrun
  exact ⟨g, events, h, hpaths, (ofProgram_isProgram h).2⟩

end LuaBundle.ModuleGraph
