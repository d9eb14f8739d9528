import LuaBundle.Build.Error
import LuaBundle.Proofs.Diagnostic
import LuaBundle.Proofs.Graph.Cycle
import LuaBundle.Proofs.Source.Site
import LuaBundle.Proofs.Workspace.Names

/-! Which errors of a search are shown on one line. Where the names of files are on one line, so is
all that a search says of files, and the argument of a dynamic require has spaces for its blanks.
The name of a module, however, is what the escapes of a literal stand for; it is shown as it is. -/

namespace LuaBundle

open Text Relation

namespace AnalysisError

/-- The name of the module that an error is about. -/
def moduleName? : AnalysisError → Option Text
  | limitExceeded _ _ moduleName => some moduleName
  | moduleNotFound moduleName _ _ => some moduleName
  | nativeModule moduleName _ _ => some moduleName
  | scriptNotFound _ => none
  | circularDependency _ => none
  | dynamicRequire _ _ => none

theorem mem_texts_of_moduleName? {e : AnalysisError} {name : Text} (h : e.moduleName? = some name) :
    name ∈ e.texts := by
  cases e <;> simp_all [moduleName?, texts]

end AnalysisError

namespace Text

theorem dropSuffix_subset (suffix t : Text) : dropSuffix suffix t ⊆ t := by
  unfold dropSuffix
  split
  · exact List.take_subset _ t
  · exact List.Subset.refl t

end Text

namespace Path

theorem withoutTrailing_subset (p : Text) : withoutTrailing p ⊆ p := fun _ hu =>
  List.mem_reverse.mp ((List.dropWhile_sublist _).subset (List.mem_reverse.mp hu))

theorem lastPart_subset (p : Text) : lastPart p ⊆ p := fun _ hu =>
  withoutTrailing_subset p
    (List.mem_reverse.mp ((List.takeWhile_sublist _).subset (List.mem_reverse.mp hu)))

theorem baseName_subset (suffix p : Text) : baseName suffix p ⊆ p := by
  have hlast := lastPart_subset p
  unfold baseName
  dsimp only
  split
  · exact hlast
  split
  · exact List.nil_subset p
  split
  · exact List.append_subset.mpr ⟨hlast, List.drop_subset _ p⟩
  split
  · exact hlast
  · exact fun _ hu => hlast (dropSuffix_subset suffix _ hu)

end Path

namespace ModuleName

variable {name base : Text} {roots : List Text}

theorem unbroken_relativePath (h : Unbroken name) : Unbroken (relativePath name) := by
  refine .ite ?_ ?_
  · exact h.of_subset (dropSuffix_subset _ _)
  · refine List.forall_mem_map.mpr fun u hu => ?_
    split
    · decide
    · exact h u hu

/-- The files that a name on one line may stand for have paths on one line. -/
theorem unbroken_candidates (hname : Unbroken name)
    (hroots : ∀ root ∈ roots, Path.isAbsolute root = true ∧ Unbroken root) :
    (∀ path ∈ scriptCandidates base name roots, Unbroken path) ∧
      ∀ path ∈ nativeCandidates base name roots, Unbroken path := by
  have hrelative := unbroken_relativePath hname
  have hscripts : Unbroken (ofString ".lua") ∧ Unbroken (ofString "init.lua") := by decide
  have hnatives : ∀ ending ∈ nativeEndings, Unbroken ending := by decide
  constructor
  · refine List.forall_mem_flatMap.mpr fun root hroot => ?_
    obtain ⟨habsolute, hroot⟩ := hroots root hroot
    have hresolve := fun ps hps => @Path.unbroken_resolve root ps habsolute hroot hps base
    simp only [List.forall_mem_cons, List.not_mem_nil, false_implies, implies_true, and_true]
    constructor
    · refine hresolve _ (List.forall_mem_singleton.mpr ?_)
      exact unbroken_append.mpr ⟨hrelative, hscripts.1⟩
    · refine hresolve _ (List.forall_mem_cons.mpr ⟨hrelative, List.forall_mem_singleton.mpr ?_⟩)
      exact hscripts.2
  · refine List.forall_mem_flatMap.mpr fun root hroot =>
      List.forall_mem_map.mpr fun ending hend => ?_
    obtain ⟨habsolute, hroot⟩ := hroots root hroot
    refine Path.unbroken_resolve habsolute hroot (List.forall_mem_singleton.mpr ?_) base
    exact unbroken_append.mpr ⟨hrelative, hnatives ending hend⟩

end ModuleName

namespace ModuleGraph

variable {w : Workspace} {entry path entryPath : Text} {roots searchRoots : List Text}

theorem isPlain_of_reached (hw : w.NamesUnbroken) (hentry : Path.IsPlain entry)
    (h : ReflTransGen (Requires w roots) entry path) : Path.IsPlain path := by
  cases h with
  | refl => exact hentry
  | tail _ hlast =>
    obtain ⟨_, _, _, _, _, _, hfind⟩ := hlast
    obtain ⟨_, hcanonical⟩ := ResolvedModule.canonical_of_find hfind
    exact Workspace.isPlain_of_canonical hw hcanonical

/-- The directories that names are looked for in, if those that are given are on one line. -/
theorem unbroken_rootsOf (hentry : Path.IsPlain entry)
    (hroots : ∀ root ∈ searchRoots, Unbroken (w.absolute root)) :
    ∀ root ∈ rootsOf w entry searchRoots, Path.isAbsolute root = true ∧ Unbroken root := by
  refine List.forall_mem_cons.mpr ⟨⟨hentry.parent.isAbsolute, hentry.parent.unbroken⟩, ?_⟩
  exact List.forall_mem_map.mpr fun root hroot => ⟨Path.isAbsolute_render _, hroots root hroot⟩

end ModuleGraph

namespace Search

variable {s : Search} {entry current : Text} {depth : Nat} {site : RequireSite}
  {log : List Requirement} {d : Discovery} {error : AnalysisError}

/-- A module that is not found is reported with paths on one line, if its name is on one line. -/
theorem unbroken_texts_of_find {name : Text} (hcurrent : Path.IsPlain current)
    (hroots : ∀ root ∈ s.roots, Path.isAbsolute root = true ∧ Unbroken root)
    (h : ResolvedModule.find s.workspace s.roots current name = .error (.reported error))
    (hname : Unbroken name) : ∀ t ∈ error.texts, Unbroken t := by
  have hsearched : ∀ root ∈ ResolvedModule.rootsFor s.roots current name,
      Path.isAbsolute root = true ∧ Unbroken root := by
    unfold ResolvedModule.rootsFor
    split
    · exact List.forall_mem_singleton.mpr ⟨hcurrent.parent.isAbsolute, hcurrent.parent.unbroken⟩
    · exact hroots
  obtain ⟨hscripts, hnatives⟩ :=
    @ModuleName.unbroken_candidates name s.workspace.base _ hname hsearched
  rcases ResolvedModule.find_eq_error h with ⟨found, hfound, rfl⟩ | rfl
  · simp [AnalysisError.texts, hname, hcurrent.unbroken, hnatives found hfound]
  · simp only [AnalysisError.texts, List.forall_mem_cons]
    exact ⟨hname, hcurrent.unbroken, hscripts⟩

/-- A search that fails at a site of a script reports what is on one line, and the name that the
site has. -/
theorem unbroken_texts_of_failsAt (hw : s.workspace.NamesUnbroken) (hentry : Path.IsPlain entry)
    (hroots : ∀ root ∈ s.roots, Path.isAbsolute root = true ∧ Unbroken root)
    (h : s.FailsAt entry current depth site log d (.reported error)) :
    (error.moduleName? = none ∨ error.moduleName? = site.moduleName) ∧
      ((∀ name ∈ error.moduleName?, Unbroken name) → ∀ t ∈ error.texts, Unbroken t) := by
  have hcurrent : Path.IsPlain current :=
    ModuleGraph.isPlain_of_reached hw hentry (ModuleGraph.reached_of_meets h.toMeets)
  obtain ⟨source, _, hsite⟩ := h.read
  rcases follow_eq_error h.failing with
    ⟨hname, rfl⟩ | ⟨name, hname, hfind | ⟨_, _, ⟨cycle, _, rfl⟩ | rfl⟩⟩
  · -- The argument has been brought on one line.
    obtain ⟨_, hstands⟩ := (RequireSite.scan_stands source).1 site hsite
    refine ⟨.inl rfl, fun _ => ?_⟩
    simp [AnalysisError.texts, SourceLocation.ofPosition, hcurrent.unbroken,
      (hstands.neat hname).unbroken]
  · have hsame : error.moduleName? = some name := by
      rcases ResolvedModule.find_eq_error hfind with ⟨_, _, rfl⟩ | rfl <;> rfl
    refine ⟨.inr (hsame.trans hname.symm), fun hunbroken => ?_⟩
    exact unbroken_texts_of_find hcurrent hroots hfind (hunbroken name hsame)
  · have hcycle := ModuleGraph.isCycle_of_failsAt h
    refine ⟨.inl rfl, fun _ path hpath => ?_⟩
    exact (ModuleGraph.isPlain_of_reached hw hentry (hcycle.reached path hpath)).unbroken
  · refine ⟨.inr hname.symm, fun hunbroken => ?_⟩
    exact List.forall_mem_singleton.mpr (hunbroken name rfl)

end Search

namespace ModuleGraph

variable {w : Workspace} {entryPath : Text} {limit : Number} {searchRoots : List Text}
  {error : AnalysisError} {events : List Event}

/-- What the errors of a search take over is on one line, but for the name of a module; a name that
is not is the one of a literal. -/
theorem unbroken_texts_of_ofProgram (hw : w.NamesUnbroken) (hentry : Unbroken entryPath)
    (hroots : ∀ root ∈ searchRoots, Unbroken (w.absolute root))
    (h : ofProgram w entryPath limit searchRoots = (.error (.reported error), events)) :
    ((∀ name ∈ error.moduleName?, Unbroken name) → ∀ t ∈ error.texts, Unbroken t) ∧
      ∀ name ∈ error.moduleName?, Unbroken name ∨
        ∃ path source, w.readText path = .ok source ∧
          ∃ site ∈ RequireSite.scan source, site.moduleName = some name := by
  rcases ofProgram_eq_error h with hscript | ⟨entry, hscript, hlimit | ⟨d, hrun⟩⟩
  · obtain rfl := scriptPath_eq_error hscript
    exact ⟨fun _ => List.forall_mem_singleton.mpr hentry, by simp [AnalysisError.moduleName?]⟩
  all_goals have hplain := Workspace.isPlain_of_canonical hw (scriptPath_eq_ok hscript).2
  · cases hlimit
    have hkey : Unbroken (ModuleKey.ofEntry entry) :=
      hplain.unbroken.of_subset (Path.baseName_subset _ entry)
    refine ⟨fun _ => List.forall_mem_singleton.mpr hkey, ?_⟩
    rintro _ ⟨rfl⟩
    exact .inl hkey
  · have hsearched := unbroken_rootsOf hplain hroots
    obtain hexhausted | ⟨current, log, before, hmeets, hmissing⟩ |
      ⟨current, depth, site, log, hfails⟩ := Search.run_fails (Search.holds_start _ _) hrun
    · cases hexhausted
    · cases hmissing
      have hcurrent := isPlain_of_reached hw hplain (reached_of_meets hmeets)
      exact ⟨fun _ => List.forall_mem_singleton.mpr hcurrent.unbroken,
        by simp [AnalysisError.moduleName?]⟩
    · obtain ⟨hname, htexts⟩ := Search.unbroken_texts_of_failsAt hw hplain hsearched hfails
      obtain ⟨source, hread, hsite⟩ := hfails.read
      refine ⟨htexts, fun name hmem => .inr ⟨current, source, hread, site, hsite, ?_⟩⟩
      rcases hname with hnone | hsame
      · rw [hnone] at hmem
        cases hmem
      · exact hsame.symm.trans hmem

/-- Where the names of files and the paths that a search is given are on one line, an error of the
search is shown on one line just if the name of the module in it is on one line. A name that is not
is what a literal in a script stands for. -/
theorem unbroken_text_of_ofProgram (hw : w.NamesUnbroken) (hentry : Unbroken entryPath)
    (hroots : ∀ root ∈ searchRoots, Unbroken (w.absolute root))
    (h : ofProgram w entryPath limit searchRoots = (.error (.reported error), events)) :
    (Unbroken (BuildError.analysis error).diagnostic.text ↔
      ∀ name ∈ error.moduleName?, Unbroken name) ∧
    (¬Unbroken (BuildError.analysis error).diagnostic.text →
      ∃ path source, w.readText path = .ok source ∧ ∃ site ∈ RequireSite.scan source,
        ∃ name, site.moduleName = some name ∧ error.moduleName? = some name ∧ ¬Unbroken name) := by
  obtain ⟨htexts, hnames⟩ := unbroken_texts_of_ofProgram hw hentry hroots h
  have htext : Unbroken (BuildError.analysis error).diagnostic.text ↔
      ∀ name ∈ error.moduleName?, Unbroken name := by
    rw [BuildError.diagnostic, AnalysisError.unbroken_text]
    exact ⟨fun hall name hname => hall name (AnalysisError.mem_texts_of_moduleName? hname), htexts⟩
  refine ⟨htext, fun hbroken => ?_⟩
  rw [htext] at hbroken
  obtain ⟨name, hname, hbroken⟩ : ∃ name, error.moduleName? = some name ∧ ¬Unbroken name := by
    simpa using hbroken
  obtain ⟨path, source, hread, site, hsite, hsame⟩ := (hnames name hname).resolve_left hbroken
  exact ⟨path, source, hread, site, hsite, name, hsame, hname, hbroken⟩

/-- A script that requires a module by a name on two lines, and one that computes a name on two. -/
def broken : Workspace where
  base := "/p"
  entries :=
    [(["p"], .directory), (["p", "main.lua"], scriptFile "require 'a\\nb'"),
      (["p", "other.lua"], scriptFile "require(prefix ..\n  name)")]

set_option maxRecDepth 100000 in
theorem unbroken_text_broken :
    broken.NamesUnbroken ∧ Unbroken (ofString "main.lua") ∧ Unbroken (ofString "other.lua") ∧
      (∃ error events, ofProgram broken "main.lua" defaultLimit [] =
          (.error (.reported error), events) ∧ error.moduleName? = some (ofString "a\nb") ∧
        ¬Unbroken (BuildError.analysis error).diagnostic.text) ∧
      ∃ error events, ofProgram broken "other.lua" defaultLimit [] =
          (.error (.reported error), events) ∧ error.moduleName? = none ∧
        Unbroken (BuildError.analysis error).diagnostic.text := by
  have hw : broken.NamesUnbroken := by decide +kernel
  have hmain : Unbroken (ofString "main.lua") := by decide
  have hother : Unbroken (ofString "other.lua") := by decide
  have hroots : ∀ root ∈ ([] : List Text), Unbroken (broken.absolute root) := by simp
  obtain ⟨events, hnamed⟩ : ∃ events, ofProgram broken "main.lua" defaultLimit [] =
      (.error (.reported (.moduleNotFound "a\nb" "/p/main.lua" ["/p/a\nb.lua",
        "/p/a\nb/init.lua"])), events) := exists_error (by decide +kernel)
  obtain ⟨events', hcomputed⟩ : ∃ events, ofProgram broken "other.lua" defaultLimit [] =
      (.error (.reported (.dynamicRequire ⟨"/p/other.lua", (1 : Nat), (1 : Nat)⟩
        "prefix .. name")), events) := exists_error (by decide +kernel)
  refine ⟨hw, hmain, hother, ⟨_, events, hnamed, rfl, fun htext => ?_⟩,
    ⟨_, events', hcomputed, rfl, ?_⟩⟩
  · have hname := (unbroken_text_of_ofProgram hw hmain hroots hnamed).1.mp htext _ rfl
    exact absurd hname (by decide)
  · exact (unbroken_text_of_ofProgram hw hother hroots hcomputed).1.mpr
      fun _ hname => by cases hname

end ModuleGraph

end LuaBundle
