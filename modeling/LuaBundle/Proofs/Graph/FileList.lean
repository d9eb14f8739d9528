import LuaBundle.Bundle.Write
import LuaBundle.Proofs.Build.Files
import LuaBundle.Proofs.Graph.SearchRoots
import LuaBundle.Proofs.Module.Key

/-! A program as the list of its files. Where all modules have dotted names and stand below the
directory of the entry, the key of a file, made from its path alone, is the name that the program
requires it by, so that a bundle of the files is the bundle of the program. -/

namespace LuaBundle.ModuleGraph

open Text LuaBundle.Task

variable {w : Workspace} {entryPath : Text} {limit : Number} {searchRoots : List Text}
  {g : ModuleGraph} {events : List Event}

/-- Whether a name is found in the directory of the entry, at a path that goes through no link. -/
def FoundBeside (w : Workspace) (entry name : Text) : Prop :=
  ∃ found, (ModuleName.scriptCandidates w.base name [Path.parent entry]).find? w.isReadable =
    some found ∧ w.canonical found = .ok found

/-- A program whose modules all have dotted names and are found in the directory of its entry, which
is a script with a name of its own. -/
structure IsPlain (w : Workspace) (g : ModuleGraph) : Prop where
  names : ∀ file ∈ g.files, ∀ site ∈ file.requires, ∀ name, site.moduleName = some name →
    ModuleName.isBuiltin name = false → ModuleName.IsDotted name ∧ FoundBeside w g.entry name
  entry : ∃ stem : Text, Path.lastPart g.entry = stem ++ ".lua" ∧ stem ≠ [] ∧ stem ≠ [dot] ∧
    backslash ∉ stem

/-- A name that is found in the first directory stands for what is found there. -/
theorem FoundBeside.find_eq {entry name : Text} (h : FoundBeside w entry name)
    (hname : ModuleName.IsDotted name) (hbuiltin : ModuleName.isBuiltin name = false)
    (more : List Text) (requiredBy : Text) :
    ∃ found ∈ ModuleName.scriptCandidates w.base name [Path.parent entry],
      w.canonical found = .ok found ∧
        ResolvedModule.find w (Path.parent entry :: more) requiredBy name =
          .ok (.script name found) := by
  obtain ⟨found, hfirst, hcanonical⟩ := h
  refine ⟨found, List.mem_of_find?_eq_some hfirst, hcanonical, ?_⟩
  have hroots : ResolvedModule.rootsFor (Path.parent entry :: more) requiredBy name =
      [Path.parent entry] ++ more := by
    rw [ResolvedModule.rootsFor, hname.not_isRelative]
    rfl
  have hfound : (ModuleName.scriptCandidates w.base name
      ([Path.parent entry] ++ more)).find? w.isReadable = some found := by
    rw [ModuleName.scriptCandidates_append, List.find?_append, hfirst]
    rfl
  rw [ResolvedModule.find, hbuiltin, hroots]
  simp only [Bool.false_eq_true, if_false, hfound, hcanonical]

section Plain

variable (h : ofProgram w entryPath limit searchRoots = (.ok g, events)) (hplain : g.IsPlain w)

include h

/-- The entry of a program stands in a directory. -/
theorem exists_entry_names (hplain : g.IsPlain w) : ∃ (dir : List Text) (stem : Text),
    Path.IsNames (dir ++ [stem ++ ".lua"]) ∧ g.entry = Path.render (dir ++ [stem ++ ".lua"]) ∧
      stem ≠ [] ∧ stem ≠ [dot] ∧ backslash ∉ stem := by
  obtain ⟨stem, hlast, hstem, hdot, hbackslash⟩ := hplain.entry
  obtain ⟨names, hstraight, hentry⟩ := Workspace.straight_of_canonical (ofProgram_isProgram h).1
  rw [hentry] at hlast
  rcases List.eq_nil_or_concat names with rfl | ⟨dir, name, rfl⟩
  · have hnone : stem ++ (".lua" : Text) = [] := hlast.symm
    exact absurd (List.append_eq_nil_iff.mp hnone).1 hstem
  · rw [List.concat_eq_append] at hstraight hentry hlast
    have hname := hstraight.isNames name (by simp)
    rw [Path.render_concat, Path.lastPart_append hname] at hlast
    subst hlast
    exact ⟨dir, stem, hstraight.isNames, hentry, hstem, hdot, hbackslash⟩

include hplain

/-- The key of a module that is required is the name it is required by. -/
theorem keyBeside_target {r : Requirement}
    (hr : r ∈ g.requirements w (rootsOf w g.entry searchRoots)) :
    w.absolute r.target = r.target ∧ Manifest.keyBeside w.base g.entry r.target = r.name := by
  obtain ⟨dir, stem, hnames, hentry, _⟩ := exists_entry_names h hplain
  obtain ⟨file, hfile, hmem⟩ := List.mem_flatMap.mp hr
  obtain ⟨_, site, hsite, hname, hfind⟩ := mem_requirements.mp hmem
  have hbuiltin : ModuleName.isBuiltin r.name = false := by
    rcases ResolvedModule.find_eq_ok hfind with ⟨_, hm⟩ | ⟨hb, _⟩
    · cases hm
    · exact hb
  obtain ⟨hdotted, hbeside⟩ := hplain.names file hfile site hsite r.name hname hbuiltin
  obtain ⟨found, hcandidate, hcanonical, hfound⟩ :=
    hbeside.find_eq hdotted hbuiltin (searchRoots.map w.absolute) file.path
  obtain rfl : r.target = found := by
    have hsame := hfind.symm.trans hfound
    simpa using hsame
  refine ⟨(Workspace.canonical_canonical hcanonical).1, ?_⟩
  have hdir : Path.IsNames dir := fun n hn => hnames n (List.mem_append_left _ hn)
  exact ModuleKey.keyBeside_script hdotted hdir (hentry ▸ Path.parent_render hnames) hcandidate

/-- A module is required by its key, and by no other name. -/
theorem names_dependency {path : Text} (hpath : path ∈ g.dependencies) :
    (g.names.get? path).getD [] = [Manifest.keyBeside w.base g.entry path] := by
  rw [(isProgram_of_ofProgram h).names, OrderedMap.recorded_getD]
  apply Manifest.distinct_eq_singleton
  · obtain ⟨r, hr, rfl⟩ := exists_requirement h hpath
    exact List.ne_nil_of_mem (List.mem_map_of_mem (List.mem_filter.mpr ⟨hr, decide_eq_true rfl⟩))
  · intro name hname
    obtain ⟨r, hr, rfl⟩ := List.mem_map.mp hname
    obtain ⟨hmem, htarget⟩ := List.mem_filter.mp hr
    rw [← of_decide_eq_true htarget]
    exact (keyBeside_target h hplain hmem).2.symm

theorem ofFiles_eq_manifest :
    Manifest.ofFiles w.base (g.dependencies ++ [g.entry]) = g.manifest := by
  obtain ⟨dir, stem, hnames, hentry, hstem, hdot, hbackslash⟩ := exists_entry_names h hplain
  have habsolute : ∀ path ∈ g.dependencies ++ [g.entry], w.absolute path = path := by
    intro path hpath
    rcases List.mem_append.mp hpath with hpath | hpath
    · obtain ⟨r, hr, rfl⟩ := exists_requirement h hpath
      exact (keyBeside_target h hplain hr).1
    · rw [List.mem_singleton.mp hpath]
      exact (Workspace.canonical_canonical (ofProgram_isProgram h).1).1
  have hresolved : (g.dependencies ++ [g.entry]).map (fun file => Path.resolve w.base [file]) =
      g.dependencies ++ [g.entry] := (List.map_congr_left habsolute).trans (List.map_id' _)
  have hlast : Manifest.keyBeside w.base g.entry g.entry = ModuleKey.ofEntry g.entry := by
    rw [hentry]
    exact ModuleKey.keyBeside_entry hnames hstem hdot hbackslash
  have hkeys : (g.dependencies.flatMap fun file =>
      ((g.names.get? file).getD []).map fun name => (⟨name, file⟩ : ManifestEntry)) =
      g.dependencies.map fun file => ⟨Manifest.keyBeside w.base g.entry file, file⟩ := by
    rw [List.map_eq_flatMap]
    refine List.flatMap_congr fun file hfile => ?_
    rw [names_dependency h hplain hfile]
    rfl
  rw [Manifest.ofFiles, hresolved]
  simp only [List.getLast?_concat]
  rw [List.map_append, manifest, hkeys, List.map_singleton, hlast]

end Plain

/-- The files of a plain program, the entry last, make the manifest of the program: every file has
the one name that it is required by as its key, and the bundle of the files is written as the one of
the program. -/
theorem files_eq_manifest (h : ofProgram w entryPath limit searchRoots = (.ok g, events))
    (hplain : g.IsPlain w) :
    Manifest.ofFiles w.base (g.dependencies ++ [g.entry]) = g.manifest ∧
      (∀ r ∈ g.requirements w (rootsOf w g.entry searchRoots),
        ∀ e ∈ Manifest.ofFiles w.base (g.dependencies ++ [g.entry]),
          e.path = r.target → e.key = r.name) ∧
      ∀ version output s, s.workspace.base = w.base →
        (Bundle.writeFiles version (g.dependencies ++ [g.entry]) output).runFrom s =
          (Bundle.write version g.manifest output).runFrom s := by
  have hsame := ofFiles_eq_manifest h hplain
  refine ⟨hsame, fun r hr e he hpath => ?_, fun version output s hbase => ?_⟩
  · rw [hsame] at he
    rcases mem_manifest.mp he with ⟨hdependency, hkey⟩ | rfl
    · rw [names_dependency h hplain hdependency, List.mem_singleton] at hkey
      rw [hkey, hpath]
      exact (keyBeside_target h hplain hr).2
    · exact absurd hpath.symm (mem_dependencies.mp (target_mem_dependencies h hr)).2
  · rw [Bundle.writeFiles, runFrom_bind, runFrom_workspace]
    dsimp only
    rw [hbase, hsame]

/-- A script that requires one below its directory, and a directory of scripts. -/
def tools : Workspace where
  base := "/p"
  entries :=
    [(["p"], .directory),
      (["p", "main.lua"], scriptFile "local u = require 'lib.util' require 'pkg'"),
      (["p", "lib"], .directory),
      (["p", "lib", "util.lua"], scriptFile "return require('string')"),
      (["p", "pkg"], .directory),
      (["p", "pkg", "init.lua"], scriptFile "return require 'lib.util'")]

set_option maxRecDepth 100000 in
theorem files_tools :
    ∃ g events, ofProgram tools "main.lua" defaultLimit [] = (.ok g, events) ∧ g.IsPlain tools ∧
      Manifest.ofFiles "/p" ["/p/lib/util.lua", "/p/pkg/init.lua", "/p/main.lua"] =
        g.manifest := by
  have hrun : (ofProgram tools "main.lua" defaultLimit []).1.toOption.map (fun g =>
      (g.entry, g.dependencies, g.files.flatMap fun file =>
        file.requires.filterMap RequireSite.moduleName)) =
      some ((("/p/main.lua", ["/p/lib/util.lua", "/p/pkg/init.lua"],
        ["lib.util", "pkg", "string", "lib.util"]) : Text × List Text × List Text)) := by
    decide +kernel
  obtain ⟨g, events, h, hg⟩ := exists_ok hrun
  simp only [Prod.mk.injEq] at hg
  obtain ⟨hentry, hdependencies, hnames⟩ := hg
  have hplain : g.IsPlain tools := by
    refine ⟨fun file hfile site hsite name hname hbuiltin => ?_, ?_⟩
    · have hmem : name ∈ g.files.flatMap fun file =>
          file.requires.filterMap RequireSite.moduleName :=
        List.mem_flatMap.mpr ⟨file, hfile, List.mem_filterMap.mpr ⟨site, hsite, hname⟩⟩
      rw [hnames] at hmem
      have hutil : ModuleName.IsDotted "lib.util" ∧ FoundBeside tools "/p/main.lua" "lib.util" :=
        ⟨⟨by decide, by decide⟩, "/p/lib/util.lua", by decide +kernel, by decide +kernel⟩
      have hpkg : ModuleName.IsDotted "pkg" ∧ FoundBeside tools "/p/main.lua" "pkg" :=
        ⟨⟨by decide, by decide⟩, "/p/pkg/init.lua", by decide +kernel, by decide +kernel⟩
      simp only [List.mem_cons, List.not_mem_nil, or_false] at hmem
      rw [hentry]
      rcases hmem with rfl | rfl | rfl | rfl
      · exact hutil
      · exact hpkg
      · exact absurd hbuiltin (by decide)
      · exact hutil
    · rw [hentry]
      exact ⟨"main", by decide, by decide, by decide, by decide⟩
  refine ⟨g, events, h, hplain, ?_⟩
  have hsame := (files_eq_manifest h hplain).1
  rw [hentry, hdependencies] at hsame
  exact hsame

end LuaBundle.ModuleGraph
