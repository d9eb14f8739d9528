import LuaBundle.Bundle.Basic
import LuaBundle.Proofs.Graph.Manifest
import LuaBundle.Proofs.Results

/-! Which programs can be bundled. All their scripts can be read, since they were read before, so
that nothing but their names can stand in the way: a name that is a path from the requiring file and
means two files in two directories, or a name that is the key of the entry. -/

namespace LuaBundle

open LuaBundle.Bundle

namespace Bundle

theorem mapM_register {w : Workspace} {modules : List EmbeddedModule} {source : Text → Text}
    (hread : ∀ m ∈ modules, w.readText m.path = .ok (source m.path)) :
    modules.mapM (fun m => return register m (← readSource w m)) =
      (.ok (modules.map fun m => register m (source m.path)) : Except BundleError _) := by
  induction modules with
  | nil => rfl
  | cons first rest ih =>
    obtain ⟨hfirst, hrest⟩ := List.forall_mem_cons.mp hread
    have hsource : readSource w first = .ok (source first.path) := by
      simp [readSource, hfirst, Except.mapError]
    rw [List.mapM_cons, ih hrest, hsource]
    rfl

/-- The statements for modules with the given sources, and the one that runs the entry. -/
def registered (source : Text → Text) (modules : List EmbeddedModule) (entry : ManifestEntry) :
    List Statement :=
  (modules.flatMap fun m => register m (source m.path)) ++ [runEntry modules entry]

theorem statements_eq_ok {w : Workspace} {m : Manifest} {entry : ManifestEntry}
    {modules : List EmbeddedModule} {source : Text → Text} (hentry : m.getLast? = some entry)
    (hmodules : EmbeddedModule.ofManifest m = .ok modules)
    (hread : ∀ m ∈ modules, w.readText m.path = .ok (source m.path)) :
    statements w m = .ok (registered source modules entry) := by
  simp only [statements, Manifest.entryPoint?, hentry, hmodules]
  change (modules.mapM (fun m => return register m (← readSource w m)) >>=
    fun registered => return registered.flatten ++ [runEntry modules entry] : Except _ _) = _
  rw [mapM_register hread, registered, List.flatMap_def]
  rfl

theorem statements_eq_error {w : Workspace} {m : Manifest} {entry : ManifestEntry}
    {error : BundleError} (hentry : m.getLast? = some entry)
    (hmodules : EmbeddedModule.ofManifest m = .error error) :
    statements w m = .error error := by
  simp only [statements, Manifest.entryPoint?, hentry, hmodules]
  rfl

theorem readText_of_statements {w : Workspace} {manifest : Manifest} {entry : ManifestEntry}
    {modules : List EmbeddedModule} {ss : List Statement} (hentry : manifest.getLast? = some entry)
    (hmodules : EmbeddedModule.ofManifest manifest = .ok modules)
    (h : statements w manifest = .ok ss) : ∀ m ∈ modules, ∃ t, w.readText m.path = .ok t := by
  simp only [statements, Manifest.entryPoint?, hentry, hmodules] at h
  change (modules.mapM (fun m => return register m (← readSource w m)) >>=
    fun registered => return registered.flatten ++ [runEntry modules entry] : Except _ _) = _ at h
  intro m hm
  cases hmap : (modules.mapM (fun m => return register m (← readSource w m)) : Except _ _) with
  | error e =>
    rw [hmap] at h
    cases h
  | ok registered =>
    obtain ⟨_, _, hsource⟩ := exists_mem_of_forall₂ (mapM_eq_ok_iff.mp hmap) hm
    cases hread : w.readText m.path with
    | error e =>
      rw [readSource, hread] at hsource
      cases hsource
    | ok t => exact ⟨t, rfl⟩

theorem exists_source {w : Workspace} {manifest : Manifest} {entry : ManifestEntry}
    {modules : List EmbeddedModule} {ss : List Statement} (hentry : manifest.getLast? = some entry)
    (hmodules : EmbeddedModule.ofManifest manifest = .ok modules)
    (h : statements w manifest = .ok ss) :
    ∃ source : Text → Text, ∀ m ∈ modules, w.readText m.path = .ok (source m.path) := by
  refine ⟨fun path => (w.readText path).toOption.getD [], fun m hm => ?_⟩
  obtain ⟨t, ht⟩ := readText_of_statements hentry hmodules h m hm
  simp [ht, Except.toOption]

/-- A bundle that is made has read all the files of its manifest, and no key stands for two of
them. -/
theorem exists_registered {w : Workspace} {manifest : Manifest} {version text : Text}
    (h : ofManifest w version manifest = .ok text) :
    ∃ modules entry source, manifest.getLast? = some entry ∧ manifest.Consistent ∧
      EmbeddedModule.Groups manifest modules ∧
      (∀ m ∈ modules, w.readText m.path = .ok (source m.path)) ∧
      statements w manifest = .ok (registered source modules entry) ∧
      text = render version manifest (registered source modules entry) := by
  obtain ⟨ss, hstatements, rfl⟩ : ∃ ss, statements w manifest = .ok ss ∧
      render version manifest ss = text := by
    rw [ofManifest] at h
    cases hss : statements w manifest with
    | error e => rw [hss] at h; cases h
    | ok ss => rw [hss] at h; exact ⟨ss, rfl, Except.ok.inj h⟩
  cases hentry : manifest.getLast? with
  | none =>
    rw [statements, Manifest.entryPoint?, hentry] at hstatements
    cases hstatements
  | some entry =>
    rcases EmbeddedModule.ofManifest_cases manifest with
      ⟨modules, hmodules, hconsistent, hgroups⟩ | ⟨_, _, _, herror, _⟩
    · obtain ⟨source, hread⟩ := exists_source hentry hmodules hstatements
      have hss := statements_eq_ok hentry hmodules hread
      obtain rfl := Except.ok.inj (hstatements.symm.trans hss)
      exact ⟨modules, entry, source, rfl, hconsistent, hgroups, hread, hss, rfl⟩
    · rw [statements_eq_error hentry herror] at hstatements
      cases hstatements

end Bundle

namespace ResolvedModule

/-- What a name stands for depends on the requiring file through the directories that it is looked
for in alone. -/
theorem find_eq_ok_of_rootsFor {w : Workspace} {roots : List Text} {by₁ by₂ name : Text}
    {m : ResolvedModule} (hroots : rootsFor roots by₁ name = rootsFor roots by₂ name)
    (h : find w roots by₁ name = .ok m) : find w roots by₂ name = .ok m := by
  simp only [find, hroots] at h ⊢
  split at h
  · rename_i hb
    simpa [hb] using h
  · rename_i hb
    rw [if_neg hb]
    split at h
    · rename_i hfind
      simpa only [hfind] using h
    · split at h <;> cases h

end ResolvedModule

namespace ModuleGraph

/-- The two ways in which the names of a program can be ambiguous in a bundle. -/
def Ambiguous (w : Workspace) (roots : List Text) (g : ModuleGraph) : Prop :=
  (∃ r ∈ g.requirements w roots, ∃ r' ∈ g.requirements w roots,
    ModuleName.isRelative r.name = true ∧ r.name = r'.name ∧
      Path.parent r.requiredBy ≠ Path.parent r'.requiredBy ∧ r.target ≠ r'.target) ∨
    ∃ r ∈ g.requirements w roots, r.name = ModuleKey.ofEntry g.entry

variable {w : Workspace} {entryPath : Text} {limit : Number} {searchRoots : List Text}
  {g : ModuleGraph} {events : List Event}

/-- Requirements of one name lead to one script, unless it is a path from their files and these
stand in two directories. -/
theorem ambiguous_of_target_ne {roots : List Text} {r r' : Requirement}
    (hr : r ∈ g.requirements w roots) (hr' : r' ∈ g.requirements w roots)
    (hname : r.name = r'.name) (hne : r.target ≠ r'.target) : Ambiguous w roots g := by
  have found : ∀ q ∈ g.requirements w roots,
      ResolvedModule.find w roots q.requiredBy q.name = .ok (.script q.name q.target) := by
    intro q hq
    obtain ⟨file, _, hmem⟩ := List.mem_flatMap.mp hq
    obtain ⟨hby, _, _, _, hfind⟩ := mem_requirements.mp hmem
    rw [hby]
    exact hfind
  have hroots : ResolvedModule.rootsFor roots r.requiredBy r.name ≠
      ResolvedModule.rootsFor roots r'.requiredBy r.name := by
    intro hsame
    have h₁ := ResolvedModule.find_eq_ok_of_rootsFor hsame (found r hr)
    have h₂ := found r' hr'
    rw [← hname, h₁] at h₂
    exact hne (ResolvedModule.script.inj (Except.ok.inj h₂)).2
  cases hrelative : ModuleName.isRelative r.name with
  | false => simp [ResolvedModule.rootsFor, hrelative] at hroots
  | true =>
    refine .inl ⟨r, hr, r', hr', hrelative, hname, fun hparent => hroots ?_, hne⟩
    rw [ResolvedModule.rootsFor, ResolvedModule.rootsFor, hparent]

section Program

variable (h : ofProgram w entryPath limit searchRoots = (.ok g, events))

include h

theorem consistent_manifest_iff :
    Manifest.Consistent g.manifest ↔ ¬Ambiguous w (rootsOf w g.entry searchRoots) g := by
  constructor
  · rintro hc (⟨r, hr, r', hr', _, hname, _, hne⟩ | ⟨r, hr, hname⟩)
    · exact hne (hc ⟨r.name, r.target⟩ ((mem_manifest_iff h).mpr (.inl ⟨r, hr, rfl⟩))
        ⟨r'.name, r'.target⟩ ((mem_manifest_iff h).mpr (.inl ⟨r', hr', rfl⟩)) hname)
    · exact (mem_dependencies.mp (target_mem_dependencies h hr)).2
        (hc ⟨r.name, r.target⟩ ((mem_manifest_iff h).mpr (.inl ⟨r, hr, rfl⟩))
          ⟨_, g.entry⟩ ((mem_manifest_iff h).mpr (.inr rfl)) hname)
  · intro hclear e he e' he' hkey
    rcases (mem_manifest_iff h).mp he with ⟨r, hr, rfl⟩ | rfl <;>
      rcases (mem_manifest_iff h).mp he' with ⟨r', hr', rfl⟩ | rfl
    · by_contra hne
      exact hclear (ambiguous_of_target_ne hr hr' hkey hne)
    · exact absurd (.inr ⟨r, hr, hkey⟩) hclear
    · exact absurd (.inr ⟨r', hr', hkey.symm⟩) hclear
    · rfl

theorem exists_source : ∃ source : Text → Text,
    ∀ file ∈ g.files, w.readText file.path = .ok file.text ∧ source file.path = file.text := by
  refine ⟨fun path => (w.readText path).toOption.getD [], fun file hfile => ?_⟩
  have hread := ((isProgram_of_ofProgram h).scanned file hfile).1
  exact ⟨hread, by simp [hread, Except.toOption]⟩

/-- The statements of the bundle of a program, where its modules can be gathered. -/
theorem statements_manifest {modules : List EmbeddedModule}
    (hmodules : EmbeddedModule.ofManifest g.manifest = .ok modules)
    (hgroups : EmbeddedModule.Groups g.manifest modules) :
    ∃ source : Text → Text, (∀ file ∈ g.files, source file.path = file.text) ∧
      statements w g.manifest =
        .ok (registered source modules ⟨ModuleKey.ofEntry g.entry, g.entry⟩) := by
  obtain ⟨source, hsource⟩ := exists_source h
  refine ⟨source, fun file hfile => (hsource file hfile).2, ?_⟩
  refine statements_eq_ok (getLast?_manifest g) hmodules fun m hm => ?_
  have hpath : m.path ∈ g.paths :=
    (mem_files_manifest h).mp (hgroups.paths ▸ List.mem_map_of_mem hm)
  obtain ⟨file, hfile, hp⟩ := List.mem_map.mp hpath
  obtain ⟨hread, hs⟩ := hsource file hfile
  rw [← hp, hread, hs]

/-- A program that was analysed can be bundled while its files are unchanged, unless its names are
ambiguous; then the bundle fails, for a name that stands for two files and is named by the
error. -/
theorem bundle_ofProgram (version : Text) :
    (¬Ambiguous w (rootsOf w g.entry searchRoots) g →
      ∃ text, ofManifest w version g.manifest = .ok text) ∧
    (Ambiguous w (rootsOf w g.entry searchRoots) g →
      ∃ key first second, ofManifest w version g.manifest =
          .error (.duplicateKey key first second) ∧
        first ≠ second ∧ ⟨key, first⟩ ∈ g.manifest ∧ ⟨key, second⟩ ∈ g.manifest) := by
  rcases EmbeddedModule.ofManifest_cases g.manifest with
    ⟨modules, hmodules, hc, hgroups⟩ | ⟨key, first, second, herror, hclash⟩
  · refine ⟨fun _ => ?_, fun hambiguous => absurd hambiguous ((consistent_manifest_iff h).mp hc)⟩
    obtain ⟨source, _, hstatements⟩ := statements_manifest h hmodules hgroups
    exact ⟨_, by rw [ofManifest, hstatements]; rfl⟩
  · refine ⟨fun hclear =>
      absurd ((consistent_manifest_iff h).mpr hclear) hclash.not_consistent, fun _ => ?_⟩
    have hstatements := statements_eq_error (w := w) (getLast?_manifest g) herror
    refine ⟨key, first, second, by rw [ofManifest, hstatements]; rfl, ?_⟩
    obtain ⟨before, after, hm, _, hfirst, hdiff⟩ := hclash
    rw [hm]
    exact ⟨hdiff, List.mem_append_left _ hfirst, by simp⟩

end Program

theorem bundle_diamond :
    ∃ g events text, ofProgram diamond "main.lua" defaultLimit [] = (.ok g, events) ∧
      ¬Ambiguous diamond (rootsOf diamond g.entry []) g ∧
      ofManifest diamond version g.manifest = .ok text := by
  obtain ⟨g, events, h, hmanifest⟩ := manifest_diamond
  have hclear : ¬Ambiguous diamond (rootsOf diamond g.entry []) g := by
    rw [← consistent_manifest_iff h, hmanifest]
    unfold Manifest.Consistent
    decide +kernel
  obtain ⟨text, htext⟩ := (bundle_ofProgram h version).1 hclear
  exact ⟨g, events, text, h, hclear, htext⟩

/-- Two scripts that mean two others by `./x`. -/
def namesakes : Workspace where
  base := "/p"
  entries :=
    [(["p"], .directory), (["p", "a"], .directory), (["p", "b"], .directory),
      (["p", "main.lua"], scriptFile "require 'a.m' require 'b.m'"),
      (["p", "a", "m.lua"], scriptFile "require './x'"),
      (["p", "a", "x.lua"], scriptFile "return 1"),
      (["p", "b", "m.lua"], scriptFile "require './x'"),
      (["p", "b", "x.lua"], scriptFile "return 2")]

/-- A script that requires another by the key that its own file name gives it. -/
def selfNamed : Workspace where
  base := "/p"
  entries :=
    [(["p"], .directory), (["p", "a"], .directory),
      (["p", "a.b.lua"], scriptFile "require 'a.b'"),
      (["p", "a", "b.lua"], scriptFile "return 1")]

set_option maxRecDepth 100000 in
/-- Programs that are analysed and cannot be bundled, one for each way to be ambiguous. -/
theorem bundle_fails_ambiguous :
    (∃ g events, ofProgram namesakes "main.lua" defaultLimit [] = (.ok g, events) ∧
      ofManifest namesakes version g.manifest =
        .error (.duplicateKey "./x" "/p/a/x.lua" "/p/b/x.lua")) ∧
    ∃ g events, ofProgram selfNamed "a.b.lua" defaultLimit [] = (.ok g, events) ∧
      ofManifest selfNamed version g.manifest =
        .error (.duplicateKey "a.b" "/p/a/b.lua" "/p/a.b.lua") := by
  have hnamesakes : (ofProgram namesakes "main.lua" defaultLimit []).1.toOption.map manifest =
      some [⟨"a.m", "/p/a/m.lua"⟩, ⟨"b.m", "/p/b/m.lua"⟩, ⟨"./x", "/p/a/x.lua"⟩,
        ⟨"./x", "/p/b/x.lua"⟩, ⟨"main", "/p/main.lua"⟩] := by decide +kernel
  have hself : (ofProgram selfNamed "a.b.lua" defaultLimit []).1.toOption.map manifest =
      some [⟨"a.b", "/p/a/b.lua"⟩, ⟨"a.b", "/p/a.b.lua"⟩] := by decide +kernel
  obtain ⟨g, events, h, hm⟩ := exists_ok hnamesakes
  obtain ⟨g', events', h', hm'⟩ := exists_ok hself
  refine ⟨⟨g, events, h, ?_⟩, g', events', h', ?_⟩
  · rw [hm]
    rfl
  · rw [hm']
    rfl

end ModuleGraph

end LuaBundle
