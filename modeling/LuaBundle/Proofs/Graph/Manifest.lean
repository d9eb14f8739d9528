import LuaBundle.Proofs.Bundle.Grouping
import LuaBundle.Proofs.Graph.Program

/-! The manifest of a program: its entries are the requirements of its scripts and, last, the entry
of the program, which no script requires. -/

namespace LuaBundle.ModuleGraph

open Relation

variable {w : Workspace} {entryPath : Text} {limit : Number} {searchRoots : List Text}
  {g : ModuleGraph} {events : List Event}

theorem mem_dependencies {path : Text} :
    path ∈ g.dependencies ↔ path ∈ g.paths ∧ path ≠ g.entry := by
  simp [dependencies, withoutEntry, paths]

theorem mem_manifest {e : ManifestEntry} :
    e ∈ g.manifest ↔ (e.path ∈ g.dependencies ∧ e.key ∈ (g.names.get? e.path).getD []) ∨
      e = ⟨ModuleKey.ofEntry g.entry, g.entry⟩ := by
  obtain ⟨key, path⟩ := e
  simp only [manifest, List.mem_append, List.mem_flatMap, List.mem_map, List.mem_singleton,
    ManifestEntry.mk.injEq]
  constructor
  · rintro (⟨file, hfile, name, hname, rfl, rfl⟩ | h)
    · exact .inl ⟨hfile, hname⟩
    · exact .inr h
  · rintro (⟨hfile, hname⟩ | h)
    · exact .inl ⟨path, hfile, key, hname, rfl, rfl⟩
    · exact .inr h

theorem getLast?_manifest (g : ModuleGraph) :
    g.manifest.getLast? = some ⟨ModuleKey.ofEntry g.entry, g.entry⟩ := by
  simp [manifest]

section Program

variable (h : ofProgram w entryPath limit searchRoots = (.ok g, events))

include h

theorem target_mem_dependencies {r : Requirement}
    (hr : r ∈ g.requirements w (rootsOf w g.entry searchRoots)) : r.target ∈ g.dependencies := by
  obtain ⟨d, inv, hdone, hg⟩ := holds_of_ofProgram h
  rw [hg] at hr ⊢
  refine mem_dependencies.mpr ⟨?_, inv.follows.target_ne_entry hr⟩
  exact met_eq_paths inv hdone ▸ inv.follows.target_met hr

theorem nodup_paths : g.paths.Nodup := by
  rw [(isProgram_of_ofProgram h).order]
  exact Manifest.nodup_distinct _

theorem entry_mem_paths : g.entry ∈ g.paths := (isProgram_of_ofProgram h).least.1.1

/-- A site that does not name a module of the host stands for a script of the program. -/
theorem exists_target {file : SourceFile} {site : RequireSite} {name : Text}
    (hfile : file ∈ g.files) (hsite : site ∈ file.requires) (hname : site.moduleName = some name)
    (hbuiltin : ModuleName.isBuiltin name = false) : ∃ target ∈ g.files,
      ⟨file.path, name, target.path⟩ ∈ g.requirements w (rootsOf w g.entry searchRoots) ∧
      ResolvedModule.find w (rootsOf w g.entry searchRoots) file.path name =
        .ok (.script name target.path) := by
  have hresolves : site.Resolves w (rootsOf w g.entry searchRoots) file.path := by
    obtain ⟨d, inv, _, hg⟩ := holds_of_ofProgram h
    rw [hg] at hfile
    exact inv.resolved file hfile site hsite
  obtain ⟨name', m, hname', hfind⟩ := hresolves
  obtain rfl := Option.some.inj (hname.symm.trans hname')
  rcases ResolvedModule.find_eq_ok hfind with ⟨hb, _⟩ | ⟨_, path, rfl⟩
  · rw [hbuiltin] at hb
    cases hb
  · have hr : ⟨file.path, name, path⟩ ∈ g.requirements w (rootsOf w g.entry searchRoots) :=
      List.mem_flatMap.mpr ⟨file, hfile, mem_requirements.mpr ⟨rfl, site, hsite, hname, hfind⟩⟩
    have hpath : path ∈ g.paths := (mem_dependencies.mp (target_mem_dependencies h hr)).1
    obtain ⟨target, htarget, rfl⟩ := List.mem_map.mp hpath
    exact ⟨target, htarget, hr, hfind⟩

/-- The entries of the manifest are the requirements, and the entry of the program. -/
theorem mem_manifest_iff {e : ManifestEntry} :
    e ∈ g.manifest ↔
      (∃ r ∈ g.requirements w (rootsOf w g.entry searchRoots), e = ⟨r.name, r.target⟩) ∨
        e = ⟨ModuleKey.ofEntry g.entry, g.entry⟩ := by
  have hnames : ∀ key path, key ∈ (g.names.get? path).getD [] ↔
      ∃ r ∈ g.requirements w (rootsOf w g.entry searchRoots), r.name = key ∧ r.target = path := by
    intro key path
    rw [(isProgram_of_ofProgram h).names, OrderedMap.recorded_getD, Manifest.mem_distinct]
    simp only [List.mem_map, List.mem_filter, decide_eq_true_eq]
    exact ⟨fun ⟨r, ⟨hr, ht⟩, hk⟩ => ⟨r, hr, hk, ht⟩, fun ⟨r, hr, hk, ht⟩ => ⟨r, ⟨hr, ht⟩, hk⟩⟩
  rw [mem_manifest]
  refine or_congr_left ?_
  constructor
  · rintro ⟨_, hkey⟩
    obtain ⟨r, hr, hname, htarget⟩ := (hnames e.key e.path).mp hkey
    exact ⟨r, hr, by rw [hname, htarget]⟩
  · rintro ⟨r, hr, rfl⟩
    exact ⟨target_mem_dependencies h hr, (hnames r.name r.target).mpr ⟨r, hr, rfl, rfl⟩⟩

theorem exists_requirement {path : Text} (hpath : path ∈ g.dependencies) :
    ∃ r ∈ g.requirements w (rootsOf w g.entry searchRoots), r.target = path := by
  obtain ⟨d, inv, hdone, hg⟩ := holds_of_ofProgram h
  obtain ⟨hmem, hne⟩ := mem_dependencies.mp hpath
  have hmet : path ∈ d.met := by
    rw [met_eq_paths inv hdone, ← hg]
    exact hmem
  rcases (inv.follows.reached path hmet).cases_tail with heq | ⟨_, _, r, hr, _, htarget⟩
  · exact absurd heq hne
  · refine ⟨r, ?_, htarget⟩
    rw [hg]
    exact hr

theorem mem_files_manifest {path : Text} : path ∈ Manifest.files g.manifest ↔ path ∈ g.paths := by
  simp only [Manifest.mem_files, mem_manifest_iff h, ManifestEntry.mk.injEq]
  constructor
  · rintro ⟨key, ⟨r, hr, _, rfl⟩ | ⟨_, rfl⟩⟩
    · exact (mem_dependencies.mp (target_mem_dependencies h hr)).1
    · exact entry_mem_paths h
  · intro hpath
    by_cases he : path = g.entry
    · exact ⟨_, .inr ⟨rfl, he⟩⟩
    · obtain ⟨r, hr, htarget⟩ := exists_requirement h (mem_dependencies.mpr ⟨hpath, he⟩)
      exact ⟨r.name, .inl ⟨r, hr, rfl, htarget.symm⟩⟩

end Program

set_option maxRecDepth 100000 in
theorem manifest_diamond :
    ∃ g events, ofProgram diamond "main.lua" defaultLimit [] = (.ok g, events) ∧
      g.manifest = [⟨"left", "/p/left.lua"⟩, ⟨"right", "/p/right.lua"⟩, ⟨"base", "/p/base.lua"⟩,
        ⟨"./link", "/p/base.lua"⟩, ⟨"main", "/p/main.lua"⟩] :=
  exists_ok (by decide +kernel)

end LuaBundle.ModuleGraph
