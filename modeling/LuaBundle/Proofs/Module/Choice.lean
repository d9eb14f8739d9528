import LuaBundle.Module.Resolve
import LuaBundle.Proofs.Workspace.Reading
import Mathlib.Data.Prod.Lex
import Mathlib.Order.Bounds.Basic

/-! Which file a name stands for, out of all that it may. Candidates are ordered by the number of
their root, then by their form below it; the least of those that are readable files is the one that
counts. Scripts come before native libraries, under whatever roots these stand. -/

namespace LuaBundle

namespace Workspace

theorem isReadable_eq (w : Workspace) : (w.isReadable · = true) = w.LeadsToReadable :=
  funext fun _ => propext isReadable_iff

end Workspace

namespace ModuleName

/-- The scripts that a name may stand for under one root, the first choice first. -/
def scriptsUnder (base name root : Text) : List Text :=
  [Path.resolve base [root, relativePath name ++ ".lua"],
    Path.resolve base [root, relativePath name, "init.lua"]]

/-- The native libraries that a name may stand for under one root, the first choice first. -/
def nativesUnder (base name root : Text) : List Text :=
  nativeEndings.map fun ending => Path.resolve base [root, relativePath name ++ ending]

/-- The candidate of a form under a root, both given by their numbers. -/
def candidateAt (forms : Text → List Text) (roots : List Text) (place : ℕ ×ₗ ℕ) : Option Text :=
  roots[(ofLex place).1]?.bind fun root => (forms root)[(ofLex place).2]?

/-- Whether a path is the least candidate with a property, by its root and then by its form. -/
def IsFirst (forms : Text → List Text) (roots : List Text) (p : Text → Prop) (path : Text) : Prop :=
  ∃ place, candidateAt forms roots place = some path ∧
    IsLeast {other | ∃ c ∈ candidateAt forms roots other, p c} place

section First

variable {forms : Text → List Text} {roots : List Text} {p : Text → Bool} {path path' : Text}

theorem candidateAt_zero (root : Text) (rest : List Text) (k : ℕ) :
    candidateAt forms (root :: rest) (toLex (0, k)) = (forms root)[k]? := rfl

theorem candidateAt_succ (root : Text) (rest : List Text) (i k : ℕ) :
    candidateAt forms (root :: rest) (toLex (i + 1, k)) = candidateAt forms rest (toLex (i, k)) :=
  rfl

theorem IsFirst.unique {q : Text → Prop} (h : IsFirst forms roots q path)
    (h' : IsFirst forms roots q path') : path = path' := by
  obtain ⟨place, hplace, hleast⟩ := h
  obtain ⟨place', hplace', hleast'⟩ := h'
  rw [hleast.unique hleast', hplace'] at hplace
  exact (Option.some.inj hplace).symm

theorem IsFirst.mem {q : Text → Prop} (h : IsFirst forms roots q path) :
    path ∈ roots.flatMap forms ∧ q path := by
  obtain ⟨place, hplace, ⟨c, hc, hq⟩, _⟩ := h
  obtain rfl := Option.some.inj (hplace.symm.trans hc)
  obtain ⟨root, hroot, hpath⟩ := Option.bind_eq_some_iff.mp hplace
  exact ⟨List.mem_flatMap.mpr ⟨root, List.mem_of_getElem? hroot, List.mem_of_getElem? hpath⟩, hq⟩

/-- A candidate under the first root comes before all that stand under others. -/
theorem isFirst_head {root : Text} (h : (forms root).find? p = some path) (rest : List Text) :
    IsFirst forms (root :: rest) (p · = true) path := by
  obtain ⟨hp, k, hk, rfl, hbefore⟩ := List.find?_eq_some_iff_getElem.mp h
  refine ⟨toLex (0, k), List.getElem?_eq_getElem hk, ⟨_, List.getElem?_eq_getElem hk, hp⟩, ?_⟩
  rintro other ⟨c, hc, hpc⟩
  obtain ⟨⟨i, j⟩, rfl⟩ := toLex.surjective other
  rw [Prod.Lex.toLex_le_toLex]
  cases i with
  | succ i => exact .inl i.succ_pos
  | zero =>
    refine .inr ⟨rfl, le_of_not_gt fun hlt : j < k => ?_⟩
    rw [candidateAt_zero] at hc
    obtain ⟨hj, rfl⟩ := List.getElem?_eq_some_iff.mp hc
    exact absurd hpc (by simpa using hbefore j hlt)

/-- Where nothing is found under the first root, the others decide. -/
theorem IsFirst.cons {root : Text} (hnone : (forms root).find? p = none)
    (h : IsFirst forms roots (p · = true) path) :
    IsFirst forms (root :: roots) (p · = true) path := by
  obtain ⟨place, hplace, hmem, hleast⟩ := h
  obtain ⟨⟨i, k⟩, rfl⟩ := toLex.surjective place
  refine ⟨toLex (i + 1, k), (candidateAt_succ root roots i k).trans hplace, hmem, ?_⟩
  rintro other ⟨c, hc, hpc⟩
  obtain ⟨⟨j, l⟩, rfl⟩ := toLex.surjective other
  cases j with
  | zero =>
    rw [candidateAt_zero] at hc
    exact absurd hpc (List.find?_eq_none.mp hnone c (List.mem_of_getElem? hc))
  | succ j =>
    rw [candidateAt_succ] at hc
    have hle : toLex (i, k) ≤ toLex (j, l) := hleast ⟨c, hc, hpc⟩
    rw [Prod.Lex.toLex_le_toLex] at hle ⊢
    simpa using hle

/-- The search finds the least candidate. -/
theorem find?_eq_some_iff_isFirst :
    (roots.flatMap forms).find? p = some path ↔ IsFirst forms roots (p · = true) path := by
  have hfirst : ∀ {path}, (roots.flatMap forms).find? p = some path →
      IsFirst forms roots (p · = true) path := by
    induction roots with
    | nil => intro path h; cases h
    | cons root rest ih =>
      intro path h
      rw [List.flatMap_cons, List.find?_append] at h
      cases hroot : (forms root).find? p with
      | some found =>
        rw [hroot] at h
        exact Option.some.inj h ▸ isFirst_head hroot rest
      | none =>
        rw [hroot] at h
        exact (ih h).cons hroot
  refine ⟨hfirst, fun h => ?_⟩
  cases hfind : (roots.flatMap forms).find? p with
  | none => exact absurd h.mem.2 (List.find?_eq_none.mp hfind path h.mem.1)
  | some found => rw [(hfirst hfind).unique h]

end First

end ModuleName

namespace ResolvedModule

open ModuleName

/-- What becomes of a name that is looked for under roots. -/
inductive Outcome (w : Workspace) (roots : List Text) (requiredBy name : Text) :
    Except (Failure AnalysisError) ResolvedModule → Prop
  /-- The first script counts, by its canonical path. -/
  | script {found path : Text}
    (hfirst : IsFirst (scriptsUnder w.base name) roots w.LeadsToReadable found)
    (hcanonical : w.canonical found = .ok path) :
    Outcome w roots requiredBy name (.ok (.script name path))
  /-- The file system lets a script be read and does not tell its canonical path. -/
  | interrupted {found : Text} {error : FileError}
    (hfirst : IsFirst (scriptsUnder w.base name) roots w.LeadsToReadable found)
    (hcanonical : w.canonical found = .error error) :
    Outcome w roots requiredBy name (.error (.interrupted error))
  | native {found : Text}
    (hscripts : ∀ c ∈ scriptCandidates w.base name roots, ¬w.LeadsToReadable c)
    (hfirst : IsFirst (nativesUnder w.base name) roots w.LeadsToReadable found) :
    Outcome w roots requiredBy name (.error (.reported (.nativeModule name requiredBy found)))
  | notFound (hscripts : ∀ c ∈ scriptCandidates w.base name roots, ¬w.LeadsToReadable c)
    (hnatives : ∀ c ∈ nativeCandidates w.base name roots, ¬w.LeadsToReadable c) :
    Outcome w roots requiredBy name (.error (.reported
      (.moduleNotFound name requiredBy (scriptCandidates w.base name roots))))

section Find

variable {w : Workspace} {roots : List Text} {requiredBy name path : Text}

theorem find?_scripts : (scriptCandidates w.base name roots).find? w.isReadable = some path ↔
    IsFirst (scriptsUnder w.base name) roots w.LeadsToReadable path := by
  rw [← w.isReadable_eq]
  exact find?_eq_some_iff_isFirst

theorem find?_natives : (nativeCandidates w.base name roots).find? w.isReadable = some path ↔
    IsFirst (nativesUnder w.base name) roots w.LeadsToReadable path := by
  rw [← w.isReadable_eq]
  exact find?_eq_some_iff_isFirst

theorem find?_eq_none_iff {candidates : List Text} :
    candidates.find? w.isReadable = none ↔ ∀ c ∈ candidates, ¬w.LeadsToReadable c := by
  simp only [← Workspace.isReadable_iff, List.find?_eq_none]

theorem outcome_find (hbuiltin : isBuiltin name = false) :
    Outcome w (rootsFor roots requiredBy name) requiredBy name
      (find w roots requiredBy name) := by
  rw [find, hbuiltin]
  simp only [Bool.false_eq_true, if_false]
  split
  · rename_i found hfound
    have hfirst := find?_scripts.mp hfound
    split
    · exact .script hfirst ‹_›
    · exact .interrupted hfirst ‹_›
  · rename_i hscripts
    have hscripts := find?_eq_none_iff.mp hscripts
    split
    · exact .native hscripts (find?_natives.mp ‹_›)
    · exact .notFound hscripts (find?_eq_none_iff.mp ‹_›)

/-- A name that has an outcome is answered with it. -/
theorem Outcome.find_eq {r : Except (Failure AnalysisError) ResolvedModule}
    (h : Outcome w (rootsFor roots requiredBy name) requiredBy name r)
    (hbuiltin : isBuiltin name = false) : find w roots requiredBy name = r := by
  rw [find, hbuiltin]
  simp only [Bool.false_eq_true, if_false]
  cases h with
  | script hfirst hcanonical => simp only [find?_scripts.mpr hfirst, hcanonical]
  | interrupted hfirst hcanonical => simp only [find?_scripts.mpr hfirst, hcanonical]
  | native hscripts hfirst =>
    simp only [find?_eq_none_iff.mpr hscripts, find?_natives.mpr hfirst]
  | notFound hscripts hnatives =>
    simp only [find?_eq_none_iff.mpr hscripts, find?_eq_none_iff.mpr hnatives]

/-- What is returned for a name that is not the host's is its outcome and nothing else. Where the
name is a path from the requiring file, the search roots have no part in it. -/
theorem find_eq_iff_outcome (hbuiltin : isBuiltin name = false) :
    (isRelative name = false → ∀ r, find w roots requiredBy name = r ↔
      Outcome w roots requiredBy name r) ∧
    (isRelative name = true → ∀ r, find w roots requiredBy name = r ↔
      Outcome w [Path.parent requiredBy] requiredBy name r) := by
  have hiff : ∀ r, find w roots requiredBy name = r ↔
      Outcome w (rootsFor roots requiredBy name) requiredBy name r := fun r =>
    ⟨fun h => h ▸ outcome_find hbuiltin, fun h => h.find_eq hbuiltin⟩
  constructor
  · intro hrelative
    rwa [rootsFor, hrelative, if_neg Bool.false_ne_true] at hiff
  · intro hrelative
    rwa [rootsFor, hrelative, if_pos rfl] at hiff

/-- Three search roots. Under the first, the script that is looked for first may not be read. Under
the next, a directory has its name, and a link stands for the second; the last has a script of the
first name. -/
def shelves : Workspace where
  base := "/p"
  entries :=
    [(["p"], .directory),
      (["p", "locked"], .directory),
      (["p", "locked", "net.lua"], .file [] { bits := 0, readable := false }),
      (["p", "a"], .directory),
      (["p", "a", "net.lua"], .directory),
      (["p", "a", "net.so"], .file [] 0o644),
      (["p", "a", "net"], .directory),
      (["p", "a", "net", "init.lua"], .link "../../core.lua"),
      (["p", "b"], .directory),
      (["p", "b", "net.lua"], .file [] 0o644),
      (["p", "core.lua"], .file [] 0o644)]

theorem outcome_shelves :
    isBuiltin "net" = false ∧ isRelative "net" = false ∧
      Outcome shelves ["locked", "/p/a", "b"] "/p/b/main.lua" "net"
        (.ok (.script "net" "/p/core.lua")) ∧
      isBuiltin "./net" = false ∧ isRelative "./net" = true ∧
      Outcome shelves ["/p/b"] "/p/b/main.lua" "./net" (.ok (.script "./net" "/p/b/net.lua")) := by
  have hdotted : isBuiltin "net" = false := by decide +kernel
  have hbeside : isBuiltin "./net" = false := by decide +kernel
  have hno : isRelative "net" = false := by decide +kernel
  have hyes : isRelative "./net" = true := by decide +kernel
  refine ⟨hdotted, hno, ?_, hbeside, hyes, ?_⟩
  · exact ((find_eq_iff_outcome hdotted).1 hno _).mp (by decide +kernel)
  · have hparent : Path.parent "/p/b/main.lua" = "/p/b" := by decide +kernel
    rw [← hparent]
    exact ((@find_eq_iff_outcome _ ["/p/a"] _ _ hbeside).2 hyes _).mp (by decide +kernel)

end Find

end ResolvedModule

end LuaBundle
