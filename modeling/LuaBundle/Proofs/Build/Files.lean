import LuaBundle.Proofs.Build.Reports
import LuaBundle.Proofs.Build.Sources
import LuaBundle.Proofs.Graph.Manifest
import LuaBundle.Proofs.Results
import LuaBundle.Proofs.Workspace.Canonical

/-! The files of a build: those that the program requires, in the order of their discovery, then
the explicit ones that are new, each where it is named first, and the entry. A file counts by its
canonical path, so that naming one again in another way changes nothing. -/

namespace LuaBundle

open LuaBundle.Task Workspace

namespace Manifest

variable {m : Manifest} {base entry : Text} {explicit xs ys : List Text} {x : Text}

theorem distinct_append (xs ys : List Text) :
    distinct (xs ++ ys) = distinct xs ++ (distinct ys).filter fun y => y ∉ xs := by
  induction xs with
  | nil => simp [distinct]
  | cons x xs ih =>
    rw [List.cons_append, distinct, ih, distinct, List.filter_append, List.filter_filter,
      List.cons_append]
    congr 2
    refine List.filter_congr fun y _ => ?_
    by_cases hy : y = x <;> simp [hy]

theorem distinct_of_nodup (h : xs.Nodup) : distinct xs = xs := by
  induction xs with
  | nil => rfl
  | cons x xs ih =>
    obtain ⟨hx, hxs⟩ := List.nodup_cons.mp h
    rw [distinct, ih hxs, List.filter_eq_self.mpr]
    intro y hy
    exact bne_iff_ne.mpr fun he => hx (he ▸ hy)

/-- A list that holds one value alone has it once. -/
theorem distinct_eq_singleton (hne : xs ≠ []) (h : ∀ y ∈ xs, y = x) : distinct xs = [x] := by
  obtain ⟨y, rest, rfl⟩ := List.exists_cons_of_ne_nil hne
  obtain ⟨rfl, hrest⟩ := List.forall_mem_cons.mp h
  rw [distinct, List.filter_eq_nil_iff.mpr]
  intro z hz
  rw [hrest z (mem_distinct.mp hz)]
  simp

theorem distinct_flatMap {f : Text → List Text} (hxs : xs.Nodup)
    (hf : ∀ x ∈ xs, f x ≠ [] ∧ ∀ y ∈ f x, y = x) : distinct (xs.flatMap f) = xs := by
  induction xs with
  | nil => rfl
  | cons x xs ih =>
    obtain ⟨hx, hxs⟩ := List.nodup_cons.mp hxs
    obtain ⟨⟨hne, hsame⟩, hf⟩ := List.forall_mem_cons.mp hf
    rw [List.flatMap_cons, distinct_append, distinct_eq_singleton hne hsame, ih hxs hf,
      List.filter_eq_self.mpr]
    · rfl
    · intro y hy
      exact decide_eq_true fun hmem => hx (hsame y hmem ▸ hy)

/-- A value that occurred before may be left out. -/
theorem distinct_again (hx : x ∈ xs) (ys : List Text) :
    distinct (xs ++ x :: ys) = distinct (xs ++ ys) := by
  rw [distinct_append, distinct_append, distinct, List.filter_cons_of_neg (by simpa using hx),
    List.filter_filter]
  congr 1
  refine List.filter_congr fun y _ => ?_
  by_cases hy : y ∈ xs
  · simp [hy]
  · have hne : y ≠ x := fun he => hy (he ▸ hx)
    simp [hy, hne]

/-- The files of a manifest but for its entry. -/
def filesBefore (m : Manifest) (entry : Text) : List Text :=
  distinct ((m.filter fun e => e.path != entry).map (·.path))

/-- The explicit files that are new beside others and the entry, each where it is named first. -/
def added (known : List Text) (entry : Text) (explicit : List Text) : List Text :=
  (distinct explicit).filter fun file => !known.contains file && file != entry

theorem mem_filesBefore {file : Text} :
    file ∈ m.filesBefore entry ↔ file ∈ m.map (·.path) ∧ file ≠ entry := by
  simp only [filesBefore, mem_distinct, List.mem_map, List.mem_filter, bne_iff_ne]
  constructor
  · rintro ⟨e, ⟨he, hne⟩, rfl⟩
    exact ⟨⟨e, he, rfl⟩, hne⟩
  · rintro ⟨⟨e, he, rfl⟩, hne⟩
    exact ⟨e, ⟨he, hne⟩, rfl⟩

section Merge

variable (hentry : entry ∈ m.map (·.path))

include hentry

theorem newFiles_eq (explicit : List Text) :
    m.newFiles explicit = added (m.filesBefore entry) entry explicit := by
  refine List.filter_congr fun file _ => ?_
  have hknown : file ∉ m.map (·.path) ↔ file ∉ m.filesBefore entry ∧ file ≠ entry := by
    rw [mem_filesBefore]
    by_cases he : file = entry
    · simp [he, hentry]
    · simp [he]
  rw [Bool.eq_iff_iff, Bool.and_eq_true, bne_iff_ne]
  simpa only [Bool.not_eq_true', ← Bool.not_eq_true, List.contains_iff_mem] using hknown

/-- The files of a manifest with further files: those before the entry, the new ones, and the entry
at the end alone. -/
theorem files_merge (base : Text) (explicit : List Text) :
    (m.merge base entry (m.newFiles explicit)).files =
      m.filesBefore entry ++ m.newFiles explicit ++ [entry] := by
  have hnew : ∀ file ∈ m.newFiles explicit, file ∉ m.map (·.path) := by
    intro file hfile hmem
    have hkept := (List.mem_filter.mp hfile).2
    simp only [List.contains_iff_mem.mpr hmem] at hkept
    cases hkept
  have hends : distinct ((m.filter fun e => e.path == entry).map (·.path)) = [entry] := by
    obtain ⟨e, he, rfl⟩ := List.mem_map.mp hentry
    refine distinct_eq_singleton ?_ ?_
    · exact List.ne_nil_of_mem (List.mem_map_of_mem (List.mem_filter.mpr ⟨he, beq_self_eq_true _⟩))
    · intro path hpath
      obtain ⟨e', he', rfl⟩ := List.mem_map.mp hpath
      exact beq_iff_eq.mp (List.mem_filter.mp he').2
  have hnodup : (m.newFiles explicit).Nodup := (nodup_distinct explicit).filter _
  have hpaths : (m.merge base entry (m.newFiles explicit)).map (·.path) =
      ((m.filter fun e => e.path != entry).map (·.path) ++ m.newFiles explicit) ++
        (m.filter fun e => e.path == entry).map (·.path) := by
    rw [merge, List.map_append, List.map_append, List.map_map]
    congr 2
    exact List.map_id _
  have hlast : entry ∉ (m.filter fun e => e.path != entry).map (·.path) ++ m.newFiles explicit := by
    rw [List.mem_append, not_or]
    refine ⟨?_, fun hmem => hnew entry hmem hentry⟩
    intro hmem
    obtain ⟨e, he, hpath⟩ := List.mem_map.mp hmem
    exact bne_iff_ne.mp (List.mem_filter.mp he).2 hpath
  rw [files, hpaths, distinct_append, hends, distinct_append, distinct_of_nodup hnodup,
    List.filter_cons_of_pos (by simpa using hlast), List.filter_nil, filesBefore]
  congr 2
  refine List.filter_eq_self.mpr fun file hfile => decide_eq_true fun hmem => ?_
  exact hnew file hfile (List.map_subset _ (List.filter_subset_self m) hmem)

end Merge

end Manifest

namespace ModuleGraph

variable {w : Workspace} {path other entry : Text} {limit : Number} {searchRoots : List Text}
  {g : ModuleGraph} {events : List Event}

/-- A program is found by the script at its entry path. -/
theorem ofProgram_congr (hpath : scriptPath w path = .ok entry)
    (hother : scriptPath w other = .ok entry) (limit : Number) (searchRoots : List Text) :
    ofProgram w path limit searchRoots = ofProgram w other limit searchRoots := by
  rw [ofProgram, ofProgram, hpath, hother]

theorem names_ne_nil (h : ofProgram w path limit searchRoots = (.ok g, events)) {file : Text}
    (hfile : file ∈ g.dependencies) : (g.names.get? file).getD [] ≠ [] := by
  obtain ⟨r, hr, rfl⟩ := exists_requirement h hfile
  rcases mem_manifest.mp ((mem_manifest_iff h).mpr (.inl ⟨r, hr, rfl⟩)) with ⟨_, hkey⟩ | hentry
  · exact List.ne_nil_of_mem hkey
  · exact absurd (congrArg ManifestEntry.path hentry) (mem_dependencies.mp hfile).2

/-- A file that is required under several names counts once. -/
theorem filesBefore_manifest (h : ofProgram w path limit searchRoots = (.ok g, events)) :
    Manifest.filesBefore g.manifest g.entry = g.dependencies := by
  have hkept : (g.manifest.filter fun e => e.path != g.entry).map (·.path) =
      g.dependencies.flatMap fun file => ((g.names.get? file).getD []).map fun _ => file := by
    rw [manifest, List.filter_append, List.filter_cons_of_neg (by simp), List.filter_nil,
      List.append_nil, List.filter_eq_self.mpr, List.map_flatMap]
    · refine congrArg (g.dependencies.flatMap ·) (funext fun file => ?_)
      rw [List.map_map]
      rfl
    · intro e he
      obtain ⟨file, hfile, hmem⟩ := List.mem_flatMap.mp he
      obtain ⟨name, _, rfl⟩ := List.mem_map.mp hmem
      exact bne_iff_ne.mpr (mem_dependencies.mp hfile).2
  rw [Manifest.filesBefore, hkept]
  refine Manifest.distinct_flatMap ((nodup_paths h).filter _) fun file hfile => ⟨?_, ?_⟩
  · exact fun hnil => names_ne_nil h hfile (List.map_eq_nil_iff.mp hnil)
  · intro y hy
    obtain ⟨_, _, rfl⟩ := List.mem_map.mp hy
    rfl

end ModuleGraph

/-- Two paths of one script that can be read. -/
structure SameScript (w : Workspace) (path other : Text) : Prop where
  readable : w.isReadable (w.absolute path) = true
  same : w.canonical (w.absolute path) = w.canonical (w.absolute other)

theorem SameScript.scriptPath_eq {w : Workspace} {path other file : Text}
    (h : SameScript w path other) (hother : w.canonical (w.absolute other) = .ok file) :
    ModuleGraph.scriptPath w path = .ok file := by
  rw [ModuleGraph.scriptPath, if_pos h.readable, h.same, hother]
  rfl

namespace BuildRequest

open Manifest

variable {r : BuildRequest} {t : Toolchain} {s s' : Session} {w : Workspace} {m : Manifest}
  {path entry file : Text} {explicit : List Text}

theorem script_eq_ok : script w path = .ok file ↔ ModuleGraph.scriptPath w path = .ok file := by
  rw [script]
  cases ModuleGraph.scriptPath w path with
  | ok found => exact ⟨fun h => congrArg _ (Except.ok.inj h), fun h => congrArg _ (Except.ok.inj h)⟩
  | error failure =>
    constructor
    · intro h
      cases h
    · intro h
      cases h

/-- The rest of making a manifest once the entry and the explicit files are known. -/
def assemble (r : BuildRequest) (w : Workspace) (entry : Text) (explicit : List Text) :
    Task BuildError Manifest := do
  let found ← r.foundManifest entry
  let added := found.newFiles explicit
  Task.reportAll (added.map .mergeExplicit)
  return found.merge w.base entry added

theorem runFrom_manifest (hentry : script s.workspace r.entryPath = .ok entry)
    (hexplicit : r.explicitRequires.mapM (script s.workspace) = .ok explicit) :
    r.manifest.runFrom s = (r.assemble s.workspace entry explicit).runFrom s := by
  rw [manifest, runFrom_bind, runFrom_workspace]
  dsimp only
  rw [hentry, hexplicit]
  rfl

theorem manifest_eq_ok (h : r.manifest.runFrom s = (.ok m, s')) :
    ∃ entry explicit, script s.workspace r.entryPath = .ok entry ∧
      r.explicitRequires.mapM (script s.workspace) = .ok explicit := by
  rw [manifest, runFrom_bind, runFrom_workspace] at h
  dsimp only at h
  cases hentry : script s.workspace r.entryPath with
  | error failure =>
    rw [hentry] at h
    cases h
  | ok entry =>
    cases hexplicit : r.explicitRequires.mapM (script s.workspace) with
    | error failure =>
      rw [hentry, hexplicit] at h
      cases h
    | ok explicit => exact ⟨entry, explicit, rfl, rfl⟩

/-- The manifest of a program is that of its graph, or in manual mode the entry alone. -/
theorem foundManifest_eq_ok (h : (r.foundManifest entry).runFrom s = (.ok m, s')) :
    (r.manualMode = true ∧ m = [⟨ModuleKey.ofEntry entry, entry⟩] ∧ s' = s) ∨
    (r.manualMode = false ∧ ∃ g events, ModuleGraph.ofProgram s.workspace entry
      (r.maxNodes.getD ModuleGraph.defaultLimit) r.searchRoots = (.ok g, events) ∧
      m = g.manifest ∧ s' = { s with events := s.events ++ events }) := by
  rw [foundManifest] at h
  cases hmanual : r.manualMode with
  | true =>
    rw [hmanual, if_pos rfl] at h
    obtain ⟨hm, rfl⟩ := Prod.mk.inj h
    exact .inl ⟨rfl, (Except.ok.inj hm).symm, rfl⟩
  | false =>
    rw [hmanual, if_neg (by simp), runFrom_bind, runFrom_workspace] at h
    dsimp only at h
    cases hprogram : ModuleGraph.ofProgram s.workspace entry
      (r.maxNodes.getD ModuleGraph.defaultLimit) r.searchRoots with
    | mk result events =>
      rw [hprogram] at h
      cases result with
      | error failure => cases h
      | ok g =>
        obtain ⟨hm, rfl⟩ := Prod.mk.inj h
        exact .inr ⟨rfl, g, events, rfl, (Except.ok.inj hm).symm, rfl⟩

theorem assemble_eq_ok (h : (r.assemble s.workspace entry explicit).runFrom s = (.ok m, s')) :
    ∃ found s₁, (r.foundManifest entry).runFrom s = (.ok found, s₁) ∧
      m = found.merge s.workspace.base entry (found.newFiles explicit) ∧
      s' = { s₁ with events := s₁.events ++ (found.newFiles explicit).map .mergeExplicit } := by
  obtain ⟨found, s₁, hfound, hrest⟩ := runFrom_bind_eq_ok h
  obtain ⟨hm, rfl⟩ := Prod.mk.inj hrest
  exact ⟨found, s₁, hfound, (Except.ok.inj hm).symm, rfl⟩

/-- The files that make up a build: its entry, the explicit files as they were named, and what the
program requires, which is found from any path of the entry. -/
structure Collects (r : BuildRequest) (w : Workspace) (entry : Text) (explicit found : List Text) :
    Prop where
  entry : w.canonical (w.absolute r.entryPath) = .ok entry
  explicit : List.Forall₂ (fun path file => w.canonical (w.absolute path) = .ok file)
    r.explicitRequires explicit
  manual : r.manualMode = true → found = []
  required : r.manualMode = false → ∀ path, SameScript w path r.entryPath →
    (ModuleGraph.dependenciesOf w path (r.maxNodes.getD ModuleGraph.defaultLimit)
      r.searchRoots).1 = .ok found

/-- What is found of a program: its entry, and before it the files that it requires. -/
theorem foundManifest_files (hentry : ModuleGraph.scriptPath w r.entryPath = .ok entry)
    (hw : w = s.workspace) (h : (r.foundManifest entry).runFrom s = (.ok m, s')) :
    entry ∈ m.map (·.path) ∧ addedFiles s'.events = addedFiles s.events ∧
      (r.manualMode = true → m.filesBefore entry = []) ∧
      (r.manualMode = false → ∀ path, SameScript w path r.entryPath →
        (ModuleGraph.dependenciesOf w path (r.maxNodes.getD ModuleGraph.defaultLimit)
          r.searchRoots).1 = .ok (m.filesBefore entry)) := by
  subst hw
  obtain ⟨hreadable, hcanonical⟩ := ModuleGraph.scriptPath_eq_ok hentry
  rcases foundManifest_eq_ok h with ⟨hmanual, rfl, rfl⟩ | ⟨hmanual, g, events, hprogram, rfl, rfl⟩
  · refine ⟨List.mem_singleton_self _, rfl, fun _ => ?_, fun hfalse => ?_⟩
    · rw [filesBefore, List.filter_cons_of_neg (by simp)]
      rfl
    · rw [hmanual] at hfalse
      cases hfalse
  · have hsame : ModuleGraph.scriptPath s.workspace entry = .ok g.entry :=
      (ModuleGraph.ofProgram_eq_ok hprogram).1
    -- The entry is found again from its canonical path, which is its own.
    obtain ⟨habsolute, hagain⟩ := canonical_canonical hcanonical
    obtain rfl : entry = g.entry := by
      have hfound := (ModuleGraph.scriptPath_eq_ok hsame).2
      rw [habsolute, hagain] at hfound
      exact Except.ok.inj hfound
    refine ⟨List.mem_map_of_mem (ModuleGraph.mem_manifest.mpr (.inr rfl)), ?_, fun htrue => ?_,
      fun _ path hpath => ?_⟩
    · rw [addedFiles_append, ModuleGraph.addedFiles_ofProgram hprogram, List.append_nil]
    · rw [hmanual] at htrue
      cases htrue
    · rw [ModuleGraph.dependenciesOf, ModuleGraph.ofProgram_congr (hpath.scriptPath_eq hcanonical)
        hsame, hprogram, ModuleGraph.filesBefore_manifest hprogram]
      rfl

/-- Once the manifest is made, no more files are added. -/
theorem run_eq_ok {result : BuildResult} (h : (r.run t).runFrom s = (.ok result, s')) :
    ∃ m s₁, r.manifest.runFrom s = (.ok m, s₁) ∧ result.files = m.files ∧
      addedFiles s'.events = addedFiles s₁.events := by
  have hrest : ∀ m, Unseen addedFiles (r.engine t >>= r.packaged t m) := fun m =>
    (looks_engine r t).unseen.bind fun e =>
      (Engine.unseen_invoke e t _).bind fun _ => (looks_pure _).unseen
  rw [run_eq] at h
  obtain ⟨m, s₁, hm, hlast⟩ := runFrom_bind_eq_ok h
  refine ⟨m, s₁, hm, ?_, ?_⟩
  · obtain ⟨e, s₂, _, hlast⟩ := runFrom_bind_eq_ok hlast
    obtain ⟨output, s₃, _, hlast⟩ := runFrom_bind_eq_ok hlast
    obtain ⟨hresult, _⟩ := Prod.mk.inj hlast
    rw [← Except.ok.inj hresult]
  · have hsame := (hrest m).same s₁
    rwa [hlast] at hsame

/-- A file that is named again changes nothing. -/
theorem runFrom_again {before after : List Text} {again : Text}
    (hm : r.manifest.runFrom s = (.ok m, s')) (hsplit : r.explicitRequires = before ++ after)
    (hagain : again ∈ before) (hsame : SameScript s.workspace path again) :
    ({ r with explicitRequires := before ++ path :: after } : BuildRequest).manifest.runFrom s =
      r.manifest.runFrom s := by
  obtain ⟨entry, explicit, hentry, hexplicit⟩ := manifest_eq_ok hm
  have hall := hexplicit
  rw [hsplit, mapM_eq_ok_iff] at hall
  obtain ⟨front, back, file, rfl, hfile, hmore⟩ := forall₂_again hall hagain fun file hfile =>
    script_eq_ok.mpr (hsame.scriptPath_eq (ModuleGraph.scriptPath_eq_ok (script_eq_ok.mp hfile)).2)
  let r' : BuildRequest := { r with explicitRequires := before ++ path :: after }
  have hmore' : r'.manifest.runFrom s =
      (r'.assemble s.workspace entry (front ++ file :: back)).runFrom s :=
    runFrom_manifest hentry (mapM_eq_ok_iff.mpr hmore)
  have hnew : ∀ found : Manifest,
      found.newFiles (front ++ file :: back) = found.newFiles (front ++ back) := by
    intro found
    rw [newFiles, newFiles, distinct_again hfile]
  have hassemble : r'.assemble s.workspace entry (front ++ file :: back) =
      r.assemble s.workspace entry (front ++ back) := by
    simp only [assemble, hnew]
    rfl
  rw [hmore', hassemble, runFrom_manifest hentry hexplicit]

/-- The files of a build that succeeds: those that the program requires, the explicit ones that are
new, and the entry. The new ones alone are reported as added. Naming an explicit file again, by any
path of it, changes neither the manifest nor the build. -/
theorem run_files {result : BuildResult} (h : (r.run t).runFrom s = (.ok result, s')) :
    ∃ entry explicit found, r.Collects s.workspace entry explicit found ∧
      result.files.Nodup ∧
      result.files = found ++ added found entry explicit ++ [entry] ∧
      addedFiles s'.events = addedFiles s.events ++ added found entry explicit ∧
      ∀ before after path again, r.explicitRequires = before ++ after → again ∈ before →
        SameScript s.workspace path again →
        let r' : BuildRequest := { r with explicitRequires := before ++ path :: after }
        r'.manifest.runFrom s = r.manifest.runFrom s ∧
          (r'.run t).runFrom s = (r.run t).runFrom s := by
  obtain ⟨m, s₁, hm, hfiles, hevents⟩ := run_eq_ok h
  obtain ⟨entry, explicit, hentry, hexplicit⟩ := manifest_eq_ok hm
  have hassembled := hm
  rw [runFrom_manifest hentry hexplicit] at hassembled
  obtain ⟨found, s₀, hfound, rfl, rfl⟩ := assemble_eq_ok hassembled
  have hentry' := script_eq_ok.mp hentry
  obtain ⟨hmem, hearlier, hmanual, hrequired⟩ := foundManifest_files hentry' rfl hfound
  refine ⟨entry, explicit, found.filesBefore entry, ⟨?_, ?_, hmanual, hrequired⟩, ?_, ?_, ?_, ?_⟩
  · exact (ModuleGraph.scriptPath_eq_ok hentry').2
  · refine (mapM_eq_ok_iff.mp hexplicit).imp fun path file hfile => ?_
    exact (ModuleGraph.scriptPath_eq_ok (script_eq_ok.mp hfile)).2
  · rw [hfiles]
    exact nodup_distinct _
  · rw [hfiles, files_merge hmem, newFiles_eq hmem]
  · rw [hevents, addedFiles_append, addedFiles_mergeExplicit, hearlier, newFiles_eq hmem]
  · intro before after path again hsplit hagain hsame
    have hmanifest := runFrom_again hm hsplit hagain hsame
    refine ⟨hmanifest, ?_⟩
    rw [run, runFrom_bind, hmanifest, run, runFrom_bind]
    rfl

/-- The program of two scripts that require a third, with one more file and a link to the entry. -/
def linkedDiamond : Workspace :=
  (ModuleGraph.diamond.put ["p", "extra.lua"] (ModuleGraph.scriptFile "return 1")).put
    ["p", "start.lua"] (.link "main.lua")

/-- A request that names the entry by a link, a file that the program requires already, and the
entry itself. -/
def linkedRequest (explicitRequires : List Text) : BuildRequest where
  entryPath := "start.lua"
  explicitRequires
  maxNodes := none
  outputPath := "app"
  manualMode := false
  engineName := some "luastatic"
  searchRoots := []
  engineArguments := []

/-- A host whose compiler leaves a program beside `main.lua`. -/
def compiling : Toolchain :=
  Session.host fun w => w.put ["p", "main"] (.file [127] executableMode)

set_option maxRecDepth 100000 in
theorem run_linkedDiamond : ∃ result s',
    ((linkedRequest ["extra.lua", "link.lua", "main.lua"]).run compiling).runFrom
      (.start linkedDiamond) = (.ok result, s') ∧
    result.files.Nodup ∧
    result.files =
      ["/p/left.lua", "/p/right.lua", "/p/base.lua", "/p/extra.lua", "/p/main.lua"] ∧
    addedFiles s'.events = ["/p/extra.lua"] ∧
    ((linkedRequest ["extra.lua", "/p/../p/extra.lua", "link.lua", "main.lua"]).run
      compiling).runFrom (.start linkedDiamond) = (.ok result, s') := by
  have hrun : (((linkedRequest ["extra.lua", "link.lua", "main.lua"]).run compiling).runFrom
      (.start linkedDiamond)).1.toOption.map (·.files) =
      some (["/p/left.lua", "/p/right.lua", "/p/base.lua", "/p/extra.lua", "/p/main.lua"] :
        List Text) := by
    decide +kernel
  have hadded : addedFiles (((linkedRequest ["extra.lua", "link.lua", "main.lua"]).run
      compiling).runFrom (.start linkedDiamond)).2.events = ["/p/extra.lua"] := by
    decide +kernel
  have hsame : SameScript linkedDiamond "/p/../p/extra.lua" "extra.lua" :=
    ⟨by decide +kernel, by decide +kernel⟩
  obtain ⟨result, s', h, hfiles⟩ := ModuleGraph.exists_ok hrun
  obtain ⟨_, _, _, _, hnodup, _, _, hagain⟩ := run_files h
  rw [h] at hadded
  refine ⟨result, s', h, hnodup, hfiles, hadded, ?_⟩
  have hmore := hagain ["extra.lua"] ["link.lua", "main.lua"] "/p/../p/extra.lua" "extra.lua" rfl
    (List.mem_singleton_self _) hsame
  exact hmore.2.trans h

end BuildRequest

end LuaBundle
