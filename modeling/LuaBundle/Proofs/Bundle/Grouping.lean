import LuaBundle.Bundle.Embedding
import LuaBundle.Proofs.Recorded

/-! The files of a manifest gathered with their keys. Gathering succeeds where no key stands for two
files, and then each file has the keys it stands with, in the order of the manifest; otherwise it
names the first key that stands for a second file. -/

namespace LuaBundle

namespace Manifest

/-- No key of a manifest stands for two files. -/
def Consistent (m : Manifest) : Prop := ∀ e ∈ m, ∀ e' ∈ m, e.key = e'.key → e.path = e'.path

/-- The keys that a file stands with in a manifest. -/
def keysOf (m : Manifest) (path : Text) : List Text :=
  distinct ((m.filter fun e => e.path = path).map (·.key))

theorem mem_keysOf {m : Manifest} {path key : Text} : key ∈ m.keysOf path ↔ ⟨key, path⟩ ∈ m := by
  simp only [keysOf, mem_distinct, List.mem_map, List.mem_filter, decide_eq_true_eq]
  constructor
  · rintro ⟨⟨k, p⟩, ⟨he, rfl⟩, rfl⟩
    exact he
  · intro he
    exact ⟨_, ⟨he, rfl⟩, rfl⟩

theorem mem_files {m : Manifest} {path : Text} : path ∈ m.files ↔ ∃ key, ⟨key, path⟩ ∈ m := by
  simp only [files, mem_distinct, List.mem_map]
  constructor
  · rintro ⟨⟨key, _⟩, he, rfl⟩
    exact ⟨key, he⟩
  · rintro ⟨key, he⟩
    exact ⟨_, he, rfl⟩

theorem files_concat (m : Manifest) (e : ManifestEntry) :
    files (m ++ [e]) = if e.path ∈ files m then files m else files m ++ [e.path] := by
  rw [files, List.map_append, List.map_singleton, distinct_concat]
  simp [files, mem_distinct]

theorem keysOf_concat_of_ne {m : Manifest} {e : ManifestEntry} {path : Text} (h : e.path ≠ path) :
    keysOf (m ++ [e]) path = keysOf m path := by
  simp [keysOf, h]

theorem keysOf_concat_self (m : Manifest) (e : ManifestEntry) :
    keysOf (m ++ [e]) e.path =
      if e ∈ m then keysOf m e.path else keysOf m e.path ++ [e.key] := by
  have hmem : e.key ∈ ((m.filter fun e' => e'.path = e.path).map (·.key)) ↔ e ∈ m := by
    rw [← mem_distinct]
    exact mem_keysOf
  have hlast : [e].filter (fun e' => e'.path = e.path) = [e] := by simp
  simp only [keysOf, List.filter_append, List.map_append, hlast, List.map_singleton,
    distinct_concat, hmem]

/-- The key that the loader of a file is stored under. -/
def firstKey (m : Manifest) (path : Text) : Text := (m.keysOf path).headD []

theorem mem_of_firstKey {m : Manifest} {key path : Text} (h : ⟨key, path⟩ ∈ m) :
    ⟨m.firstKey path, path⟩ ∈ m := by
  refine mem_keysOf.mp ?_
  rw [firstKey]
  cases hkeys : m.keysOf path with
  | nil => simpa [hkeys] using mem_keysOf.mpr h
  | cons first rest => exact List.mem_cons_self

theorem Consistent.concat {m : Manifest} {e : ManifestEntry} (h : m.Consistent)
    (he : ∀ e' ∈ m, e'.key = e.key → e'.path = e.path) : Consistent (m ++ [e]) := by
  intro a ha b hb hkey
  rcases List.mem_append.mp ha with ha' | ha' <;> rcases List.mem_append.mp hb with hb' | hb'
  · exact h a ha' b hb' hkey
  · obtain rfl := List.mem_singleton.mp hb'
    exact he a ha' hkey
  · obtain rfl := List.mem_singleton.mp ha'
    exact (he b hb' hkey.symm).symm
  · rw [List.mem_singleton.mp ha', List.mem_singleton.mp hb']

end Manifest

namespace EmbeddedModule

open Manifest

/-- `modules` are the files of a manifest, in the order in which they occur first, each with the
keys it stands with. -/
structure Groups (m : Manifest) (modules : List EmbeddedModule) : Prop where
  paths : modules.map (·.path) = m.files
  keys : ∀ e ∈ modules, e.keys = m.keysOf e.path

theorem groups_nil : Groups [] [] := ⟨rfl, by simp⟩

variable {m : Manifest} {modules : List EmbeddedModule} {e : ManifestEntry}

theorem Groups.mem_keys (h : Groups m modules) {key path : Text} :
    (∃ owner ∈ modules, owner.path = path ∧ key ∈ owner.keys) ↔ ⟨key, path⟩ ∈ m := by
  constructor
  · rintro ⟨owner, howner, rfl, hkey⟩
    rw [h.keys owner howner] at hkey
    exact mem_keysOf.mp hkey
  · intro he
    have hpath : path ∈ modules.map (·.path) := h.paths ▸ mem_files.mpr ⟨key, he⟩
    obtain ⟨owner, howner, rfl⟩ := List.mem_map.mp hpath
    exact ⟨owner, howner, rfl, h.keys owner howner ▸ mem_keysOf.mpr he⟩

theorem addKey_eq_append (h : e.path ∉ modules.map (·.path)) :
    addKey e modules = modules ++ [⟨e.path, e.key, []⟩] := by
  induction modules with
  | nil => rfl
  | cons first rest ih =>
    simp only [List.map_cons, List.mem_cons, not_or] at h
    rw [addKey, if_neg (Ne.symm h.1), ih h.2, List.cons_append]

theorem map_path_addKey (h : e.path ∈ modules.map (·.path)) :
    (addKey e modules).map (·.path) = modules.map (·.path) := by
  induction modules with
  | nil => simp at h
  | cons first rest ih =>
    by_cases hp : first.path = e.path
    · simp [addKey, hp]
    · have := ih ((List.mem_cons.mp h).resolve_left (Ne.symm hp))
      simp [addKey, hp, this]

/-- A module after one more key was added: unchanged, or the one of the key's file. -/
theorem mem_addKey {owner : EmbeddedModule} (hnodup : (modules.map (·.path)).Nodup)
    (h : owner ∈ addKey e modules) :
    (owner.path ≠ e.path ∧ owner ∈ modules) ∨
      (owner.path = e.path ∧ e.path ∉ modules.map (·.path) ∧ owner.keys = [e.key]) ∨
        ∃ old ∈ modules, old.path = e.path ∧ owner.path = e.path ∧
          owner.keys = old.keys ++ [e.key] := by
  induction modules with
  | nil =>
    obtain rfl := List.mem_singleton.mp h
    exact .inr (.inl ⟨rfl, by simp, rfl⟩)
  | cons first rest ih =>
    obtain ⟨hfirst, hrest⟩ := List.nodup_cons.mp hnodup
    by_cases hp : first.path = e.path
    · rw [addKey, if_pos hp] at h
      rcases List.mem_cons.mp h with rfl | hin
      · exact .inr (.inr ⟨first, List.mem_cons_self, hp, hp, rfl⟩)
      · refine .inl ⟨fun he => hfirst ?_, List.mem_cons_of_mem _ hin⟩
        have := List.mem_map_of_mem (f := EmbeddedModule.path) hin
        rwa [he, ← hp] at this
    · rw [addKey, if_neg hp] at h
      rcases List.mem_cons.mp h with rfl | hin
      · exact .inl ⟨hp, List.mem_cons_self⟩
      · rcases ih hrest hin with ⟨hne, hmem⟩ | ⟨heq, hnot, hkeys⟩ | ⟨old, hold, hrest⟩
        · exact .inl ⟨hne, List.mem_cons_of_mem _ hmem⟩
        · exact .inr (.inl ⟨heq, by simpa [Ne.symm hp] using hnot, hkeys⟩)
        · exact .inr (.inr ⟨old, List.mem_cons_of_mem _ hold, hrest⟩)

/-- A key that is new is added to the keys of its file. -/
theorem Groups.addKey (h : Groups m modules) (he : ∀ e' ∈ m, e'.key ≠ e.key) :
    Groups (m ++ [e]) (EmbeddedModule.addKey e modules) := by
  have hnew : e ∉ m := fun hin => he e hin rfl
  have hnodup : (modules.map (·.path)).Nodup := h.paths ▸ nodup_distinct _
  constructor
  · rw [files_concat, ← h.paths]
    by_cases hp : e.path ∈ modules.map (·.path)
    · rw [if_pos hp, map_path_addKey hp]
    · rw [if_neg hp, addKey_eq_append hp, List.map_append, List.map_singleton]
  · intro owner howner
    rcases mem_addKey hnodup howner with
      ⟨hne, hin⟩ | ⟨heq, hnot, hkeys⟩ | ⟨old, hold, hop, heq, hkeys⟩
    · rw [keysOf_concat_of_ne (Ne.symm hne), h.keys owner hin]
    · have hnone : keysOf m e.path = [] := by
        refine List.eq_nil_iff_forall_not_mem.mpr fun key hkey => hnot ?_
        rw [h.paths]
        exact mem_files.mpr ⟨key, mem_keysOf.mp hkey⟩
      rw [heq, keysOf_concat_self, if_neg hnew, hnone, hkeys, List.nil_append]
    · rw [heq, keysOf_concat_self, if_neg hnew, hkeys, h.keys old hold, hop]

theorem Groups.of_mem (h : Groups m modules) (he : e ∈ m) : Groups (m ++ [e]) modules := by
  constructor
  · rw [files_concat, if_pos (mem_files.mpr ⟨e.key, he⟩), h.paths]
  · intro owner howner
    by_cases hp : e.path = owner.path
    · rw [← hp, keysOf_concat_self, if_pos he, hp, h.keys owner howner]
    · rw [keysOf_concat_of_ne hp, h.keys owner howner]

/-- The first entry of a manifest whose key stands for another file before it. -/
def FirstClash (m : Manifest) (key first second : Text) : Prop :=
  ∃ before after, m = before ++ ⟨key, second⟩ :: after ∧ Consistent before ∧
    ⟨key, first⟩ ∈ before ∧ first ≠ second

theorem FirstClash.append {key first second : Text} (h : FirstClash m key first second)
    (more : Manifest) : FirstClash (m ++ more) key first second := by
  obtain ⟨before, after, rfl, hbefore⟩ := h
  exact ⟨before, after ++ more, by simp, hbefore⟩

theorem FirstClash.not_consistent {key first second : Text} (h : FirstClash m key first second) :
    ¬Consistent m := by
  obtain ⟨before, after, rfl, _, hfirst, hne⟩ := h
  exact fun hc =>
    hne (hc ⟨key, first⟩ (List.mem_append_left _ hfirst) ⟨key, second⟩ (by simp) rfl)

theorem add_groups (hc : m.Consistent) (h : Groups m modules) (e : ManifestEntry) :
    (∃ modules', add modules e = .ok modules' ∧ Consistent (m ++ [e]) ∧
        Groups (m ++ [e]) modules') ∨
      ∃ first, add modules e = .error (.duplicateKey e.key first e.path) ∧
        FirstClash (m ++ [e]) e.key first e.path := by
  unfold add
  cases hfind : modules.find? fun owner => owner.keys.contains e.key with
  | none =>
    have hnone : ∀ e' ∈ m, e'.key ≠ e.key := by
      rintro ⟨key, path⟩ he' rfl
      obtain ⟨owner, howner, _, hkey⟩ := h.mem_keys.mpr he'
      have := List.find?_eq_none.mp hfind owner howner
      simp [hkey] at this
    exact .inl ⟨_, rfl, hc.concat fun e' he' hkey => absurd hkey (hnone e' he'), h.addKey hnone⟩
  | some owner =>
    have howner := List.mem_of_find?_eq_some hfind
    have hkey : e.key ∈ owner.keys := by simpa using List.find?_some hfind
    have hmem : ⟨e.key, owner.path⟩ ∈ m := h.mem_keys.mp ⟨owner, howner, rfl, hkey⟩
    by_cases hp : owner.path = e.path
    · rw [hp] at hmem
      simp only [hp, if_true]
      exact .inl ⟨_, rfl, hc.concat fun e' he' hk => hc e' he' _ hmem hk, h.of_mem hmem⟩
    · simp only [hp, if_false]
      exact .inr ⟨owner.path, rfl, m, [], rfl, hc, hmem, hp⟩

/-- The two ways in which the files of a manifest are gathered. -/
theorem ofManifest_cases (m : Manifest) :
    (∃ modules, ofManifest m = .ok modules ∧ Consistent m ∧ Groups m modules) ∨
      ∃ key first second, ofManifest m = .error (.duplicateKey key first second) ∧
        FirstClash m key first second := by
  induction m using List.reverseRecOn with
  | nil => exact .inl ⟨[], rfl, by simp [Consistent], groups_nil⟩
  | append_singleton m e ih =>
    have hstep : ofManifest (m ++ [e]) = (ofManifest m).bind fun modules => add modules e := by
      simp only [ofManifest, List.foldlM_append, List.foldlM_cons, List.foldlM_nil, bind_pure]
      rfl
    rcases ih with ⟨modules, hm, hc, hg⟩ | ⟨key, first, second, hm, hclash⟩
    · rw [hstep, hm]
      rcases add_groups hc hg e with hok | ⟨first, herr, hclash⟩
      · exact .inl hok
      · exact .inr ⟨e.key, first, e.path, herr, hclash⟩
    · rw [hstep, hm]
      exact .inr ⟨key, first, second, rfl, hclash.append [e]⟩

end EmbeddedModule

end LuaBundle
