import LuaBundle.Graph.Basic
import LuaBundle.Module.Resolve
import LuaBundle.Proofs.Graph.Path
import LuaBundle.Proofs.Recorded

/-! Requirements: the sites of a program that stand for scripts. The edges and the names of a
module graph are what its requirements record, one after the other. -/

namespace LuaBundle

open Relation

/-- A script requires another under a name. -/
structure Requirement where
  requiredBy : Text
  name : Text
  target : Text
  deriving DecidableEq

namespace ResolvedModule

variable {w : Workspace} {roots : List Text} {requiredBy name : Text}

theorem find_eq_ok {m : ResolvedModule} (h : find w roots requiredBy name = .ok m) :
    (ModuleName.isBuiltin name = true ∧ m = .builtin name) ∨
      (ModuleName.isBuiltin name = false ∧ ∃ path, m = .script name path) := by
  simp only [find] at h
  split at h
  · rename_i hb
    cases h
    exact .inl ⟨hb, rfl⟩
  · rename_i hb
    refine .inr ⟨by simpa using hb, ?_⟩
    split at h
    · split at h
      · cases h
        exact ⟨_, rfl⟩
      · cases h
    · split at h <;> cases h

/-- A name that stands for no module is reported with the paths that were tried, or with the native
library that it stands for. -/
theorem find_eq_error {error : AnalysisError}
    (h : find w roots requiredBy name = .error (.reported error)) :
    (∃ found ∈ ModuleName.nativeCandidates w.base name (rootsFor roots requiredBy name),
        error = .nativeModule name requiredBy found) ∨
      error = .moduleNotFound name requiredBy
        (ModuleName.scriptCandidates w.base name (rootsFor roots requiredBy name)) := by
  simp only [find] at h
  split at h
  · cases h
  · split at h
    · split at h <;> cases h
    · split at h
      · rename_i found hfound
        cases h
        exact .inl ⟨found, List.mem_of_find?_eq_some hfound, rfl⟩
      · cases h
        exact .inr rfl

theorem canonical_of_find {name' target : Text}
    (h : find w roots requiredBy name = .ok (.script name' target)) :
    ∃ found, w.canonical found = .ok target := by
  simp only [find] at h
  split at h
  · cases h
  · split at h
    · rename_i found _
      split at h
      · rename_i path hcanonical
        cases h
        exact ⟨found, hcanonical⟩
      · cases h
    · split at h <;> cases h

theorem name_eq_of_find {name' target : Text}
    (h : find w roots requiredBy name = .ok (.script name' target)) : name' = name := by
  rcases find_eq_ok h with ⟨_, hm⟩ | ⟨_, path, hm⟩
  · cases hm
  · cases hm
    rfl

end ResolvedModule

namespace Requirement

/-- The requirement that a site of a script makes; a site that names a module of the host makes
none. -/
def ofSite? (w : Workspace) (roots : List Text) (path : Text) (site : RequireSite) :
    Option Requirement :=
  match site.moduleName with
  | none => none
  | some name =>
    match ResolvedModule.find w roots path name with
    | .ok (.script _ target) => some ⟨path, name, target⟩
    | _ => none

theorem ofSite?_eq_some {w : Workspace} {roots : List Text} {path : Text} {site : RequireSite}
    {r : Requirement} :
    ofSite? w roots path site = some r ↔
      r.requiredBy = path ∧ site.moduleName = some r.name ∧
        ResolvedModule.find w roots path r.name = .ok (.script r.name r.target) := by
  obtain ⟨requiredBy, name, target⟩ := r
  unfold ofSite?
  constructor
  · intro h
    split at h
    · cases h
    · rename_i hname
      split at h
      · rename_i hfind
        cases h
        exact ⟨rfl, hname, ResolvedModule.name_eq_of_find hfind ▸ hfind⟩
      · cases h
  · rintro ⟨rfl, hname, hfind⟩
    simp [hname, hfind]

/-- The edges that requirements record. -/
def edges (log : List Requirement) : Edges Text :=
  OrderedMap.collect (log.map fun r => (r.requiredBy, r.target))

/-- The names that requirements record for the scripts they lead to. -/
def names (log : List Requirement) : OrderedMap Text (List Text) :=
  OrderedMap.collect (log.map fun r => (r.target, r.name))

theorem edges_concat (log : List Requirement) (r : Requirement) :
    edges (log ++ [r]) = (edges log).addTo r.requiredBy r.target := by
  simp [edges, OrderedMap.collect_concat]

theorem names_concat (log : List Requirement) (r : Requirement) :
    names (log ++ [r]) = (names log).addTo r.target r.name := by
  simp [names, OrderedMap.collect_concat]

theorem get?_edges (log : List Requirement) (path : Text) :
    (edges log).get? path =
      OrderedMap.recorded ((log.filter fun r => r.requiredBy = path).map (·.target)) := by
  simp [edges, OrderedMap.get?_collect, OrderedMap.valuesOf, List.filter_map, Function.comp_def]

theorem get?_names (log : List Requirement) (path : Text) :
    (names log).get? path =
      OrderedMap.recorded ((log.filter fun r => r.target = path).map (·.name)) := by
  simp [names, OrderedMap.get?_collect, OrderedMap.valuesOf, List.filter_map, Function.comp_def]

/-- Whether requirements lead from one script directly to another. -/
def Leads (log : List Requirement) (a b : Text) : Prop :=
  ∃ r ∈ log, r.requiredBy = a ∧ r.target = b

theorem leads_edges (log : List Requirement) (a b : Text) :
    (edges log).Leads a b ↔ Leads log a b := by
  simp [Edges.Leads, Edges.successors, get?_edges, OrderedMap.recorded_getD,
    Manifest.mem_distinct, Leads, and_assoc]

theorem leads_concat {log : List Requirement} {r : Requirement} {a b : Text} :
    Leads (log ++ [r]) a b ↔ Leads log a b ∨ (a = r.requiredBy ∧ b = r.target) := by
  simp only [Leads, List.mem_append, List.mem_singleton]
  constructor
  · rintro ⟨q, hq | rfl, ha, hb⟩
    · exact .inl ⟨q, hq, ha, hb⟩
    · exact .inr ⟨ha.symm, hb.symm⟩
  · rintro (⟨q, hq, ha, hb⟩ | ⟨rfl, rfl⟩)
    · exact ⟨q, .inl hq, ha, hb⟩
    · exact ⟨r, .inr rfl, rfl, rfl⟩

/-- A way through one more requirement that uses it goes to where it starts and on from where it
leads. -/
theorem reaches_concat {log : List Requirement} {r : Requirement} {a b : Text}
    (h : ReflTransGen (Leads (log ++ [r])) a b) :
    ReflTransGen (Leads log) a b ∨
      (ReflTransGen (Leads log) a r.requiredBy ∧ ReflTransGen (Leads log) r.target b) := by
  induction h with
  | refl => exact .inl .refl
  | tail _ hlast ih =>
    rcases leads_concat.mp hlast with hold | ⟨rfl, rfl⟩
    · rcases ih with hway | ⟨hto, hfrom⟩
      · exact .inl (hway.tail hold)
      · exact .inr ⟨hto, hfrom.tail hold⟩
    · rcases ih with hway | ⟨hto, _⟩
      · exact .inr ⟨hway, .refl⟩
      · exact .inr ⟨hto, .refl⟩

theorem reaches_mono {log : List Requirement} {r : Requirement} {a b : Text}
    (h : ReflTransGen (Leads log) a b) : ReflTransGen (Leads (log ++ [r])) a b :=
  ReflTransGen.mono (fun _ _ hl => leads_concat.mpr (.inl hl)) a b h

/-- No requirement leads back to where it starts. -/
def Acyclic (log : List Requirement) : Prop :=
  ∀ r ∈ log, ¬ReflTransGen (Leads log) r.target r.requiredBy

theorem Acyclic.concat {log : List Requirement} {r : Requirement} (h : Acyclic log)
    (hr : ¬ReflTransGen (Leads log) r.target r.requiredBy) : Acyclic (log ++ [r]) := by
  intro q hq hback
  rcases List.mem_append.mp hq with hold | hnew
  · rcases reaches_concat hback with hway | ⟨hto, hfrom⟩
    · exact h q hold hway
    · exact hr ((hfrom.tail ⟨q, hold, rfl, rfl⟩).trans hto)
  · obtain rfl := List.mem_singleton.mp hnew
    rcases reaches_concat hback with hway | ⟨hway, _⟩
    · exact hr hway
    · exact hr hway

end Requirement

/-- The requirements of a script, in the order of its sites. -/
def SourceFile.requirements (w : Workspace) (roots : List Text) (file : SourceFile) :
    List Requirement :=
  file.requires.filterMap (Requirement.ofSite? w roots file.path)

end LuaBundle
