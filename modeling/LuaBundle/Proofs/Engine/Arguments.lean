import LuaBundle.Engine.Luastatic
import LuaBundle.Proofs.Recorded
import LuaBundle.Proofs.Relative
import Mathlib.Data.Finset.Card

/-! What a compiler is told to embed. Its arguments are ways from the directory of the entry, where
it is started: the first leads to the entry, the others to the other files of the manifest, once
each and in the order in which the manifest names them first. -/

namespace LuaBundle

open Text

namespace Path

/-- An absolute path that resolving leaves as it is, from any place. -/
def IsNormal (p : Text) : Prop := ∀ base, resolve base [p] = p

theorem isNormal_iff {p : Text} : IsNormal p ↔ ∃ names, IsNames names ∧ p = render names := by
  constructor
  · intro h
    obtain ⟨names, hnames, hresolve⟩ := exists_resolve [] p
    exact ⟨names, hnames, (h []).symm.trans hresolve⟩
  · rintro ⟨names, hnames, rfl⟩ base
    rw [resolve, List.foldl_cons, List.foldl_nil, walk_render hnames]

theorem IsNormal.isAbsolute_parent {p : Text} (h : IsNormal p) : isAbsolute (parent p) = true := by
  obtain ⟨names, hnames, rfl⟩ := isNormal_iff.mp h
  rw [parent_render_dropLast hnames]
  exact isAbsolute_render _

end Path

namespace Manifest

/-- The values stand in the order in which they occur first. -/
theorem pairwise_distinct (xs : List Text) :
    (distinct xs).Pairwise fun x y => xs.idxOf x < xs.idxOf y := by
  induction xs with
  | nil => exact .nil
  | cons x xs ih =>
    rw [distinct, List.pairwise_cons]
    have hnext : ∀ y ≠ x, (x :: xs).idxOf y = xs.idxOf y + 1 := fun y hy =>
      List.idxOf_cons_ne xs hy.symm
    constructor
    · intro y hy
      have hne : y ≠ x := bne_iff_ne.mp (List.mem_filter.mp hy).2
      rw [List.idxOf_cons_self, hnext y hne]
      exact Nat.zero_lt_succ _
    · refine (ih.filter _).imp_of_mem fun {y z} hy hz hlt => ?_
      have hy : y ≠ x := bne_iff_ne.mp (List.mem_filter.mp hy).2
      have hz : z ≠ x := bne_iff_ne.mp (List.mem_filter.mp hz).2
      rw [hnext y hy, hnext z hz]
      exact Nat.succ_lt_succ hlt

variable {m : Manifest}

theorem mem_files_iff {p : Text} : p ∈ m.files ↔ p ∈ m.map (·.path) := mem_distinct

/-- The files without one of them. -/
theorem nodup_others (p : Text) : (p :: m.files.filter (· != p)).Nodup := by
  refine List.nodup_cons.mpr ⟨?_, (nodup_distinct _).filter _⟩
  simp

theorem length_others {p : Text} (h : p ∈ m.map (·.path)) :
    (p :: m.files.filter (· != p)).length = (m.map (·.path)).toFinset.card := by
  rw [← List.toFinset_card_of_nodup (nodup_others p)]
  congr 1
  ext q
  by_cases hq : q = p
  · simp [hq, h]
  · simp [hq, mem_files_iff]

end Manifest

namespace Engine

/-- The arguments for a manifest with files: as many as it has distinct paths, before the extra
ones. From the directory of the entry they lead to the entry, and then to each other path once, in
the order of the manifest, wherever it lies. -/
theorem resolve_luastaticArguments {m : Manifest} (hne : m ≠ [])
    (hnormal : ∀ e ∈ m, Path.IsNormal e.path) (base : Text) (extra : List Text) :
    ∃ entry arguments others, m.entryPoint? = some entry ∧
      luastaticArguments base m extra = arguments ++ extra ∧
      arguments.length = (m.map (·.path)).toFinset.card ∧
      (∀ here, arguments.map (fun argument =>
        Path.resolve here [Path.parent entry.path, argument]) = entry.path :: others) ∧
      (∀ p, p ∈ others ↔ p ∈ m.map (·.path) ∧ p ≠ entry.path) ∧
      others.Pairwise fun p q => (m.map (·.path)).idxOf p < (m.map (·.path)).idxOf q := by
  obtain ⟨entry, hpoint⟩ : ∃ entry, m.entryPoint? = some entry :=
    ⟨_, List.getLast?_eq_some_getLast hne⟩
  have hentry : entry ∈ m := List.mem_of_getLast? hpoint
  have hmem : entry.path ∈ m.map (·.path) := List.mem_map_of_mem hentry
  let others := m.files.filter (· != entry.path)
  let arguments := (entry.path :: others).map (Path.relative base (Path.parent entry.path))
  have hnormals : ∀ p ∈ entry.path :: others, Path.IsNormal p := by
    refine List.forall_mem_cons.mpr ⟨hnormal entry hentry, fun p hp => ?_⟩
    obtain ⟨e, he, rfl⟩ := List.mem_map.mp (Manifest.mem_files_iff.mp (List.mem_filter.mp hp).1)
    exact hnormal e he
  refine ⟨entry, arguments, others, hpoint, ?_, ?_, fun here => ?_, fun p => ?_, ?_⟩
  · rw [luastaticArguments, hpoint]
    rfl
  · rw [List.length_map, Manifest.length_others hmem]
  · rw [List.map_map, List.map_congr_left fun p hp => ?_, List.map_id]
    obtain ⟨names, hnames, rfl⟩ := Path.isNormal_iff.mp (hnormals p hp)
    exact Path.resolve_relative hnames (hnormal entry hentry).isAbsolute_parent base here
  · rw [List.mem_filter, Manifest.mem_files_iff, bne_iff_ne]
  · exact (Manifest.pairwise_distinct _).filter _

/-- A manifest that names its entry twice, with a file beside the directory of the entry, which it
names twice as well, and one above it. -/
def scattered : Manifest :=
  [⟨"main", "/p/app/main.lua"⟩, ⟨"a", "/p/lib/a.lua"⟩, ⟨"b", "/b.lua"⟩, ⟨"a2", "/p/lib/a.lua"⟩,
    ⟨"main", "/p/app/main.lua"⟩]

theorem resolve_scattered :
    scattered ≠ [] ∧ (∀ e ∈ scattered, Path.IsNormal e.path) ∧
      luastaticArguments "/p" scattered ["-llua"] =
        [ofString "main.lua", "../lib/a.lua", "../../b.lua"] ++ [ofString "-llua"] ∧
      ∃ (entry : ManifestEntry) (others : List Text), scattered.entryPoint? = some entry ∧
        ∀ here, [ofString "main.lua", "../lib/a.lua", "../../b.lua"].map (fun argument =>
          Path.resolve here [Path.parent entry.path, argument]) = entry.path :: others := by
  have hne : scattered ≠ [] := List.cons_ne_nil _ _
  have hpaths : ∀ e ∈ scattered, Path.IsNames (Path.parts e.path).tail ∧
      e.path = Path.render (Path.parts e.path).tail := by decide +kernel
  have hnormal : ∀ e ∈ scattered, Path.IsNormal e.path := fun e he =>
    Path.isNormal_iff.mpr ⟨_, hpaths e he⟩
  have harguments : luastaticArguments "/p" scattered ["-llua"] =
      [ofString "main.lua", "../lib/a.lua", "../../b.lua"] ++ [ofString "-llua"] := by
    decide +kernel
  obtain ⟨entry, arguments, others, hentry, happend, _, hresolve, _⟩ :=
    resolve_luastaticArguments hne hnormal "/p" ["-llua"]
  obtain rfl := List.append_cancel_right (harguments.symm.trans happend)
  exact ⟨hne, hnormal, harguments, entry, others, hentry, hresolve⟩

end Engine

end LuaBundle
