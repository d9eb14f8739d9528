import LuaBundle.Proofs.Text.Unbroken
import LuaBundle.Proofs.Workspace.Canonical
import LuaBundle.Proofs.Workspace.Tree

/-! Paths made of the names of entries. A canonical path is: whatever links and dots the way to a
file goes over, each name of its canonical path is the name of an entry. Where all entries have
names on one line, the path is on one line. -/

namespace LuaBundle

open Text

namespace OrderedMap

theorem mem_of_get?_eq_some {κ ν : Type} [DecidableEq κ] {m : OrderedMap κ ν} {k : κ} {v : ν}
    (h : get? m k = some v) : (k, v) ∈ m := by
  obtain ⟨e, hfind, rfl⟩ := Option.map_eq_some_iff.mp h
  have hkey : e.1 = k := by simpa using List.find?_some hfind
  exact hkey ▸ List.mem_of_find?_eq_some hfind

end OrderedMap

namespace Path

/-- An absolute path in normal form, on one line. -/
def IsPlain (p : Text) : Prop :=
  ∃ names, IsNames names ∧ (∀ name ∈ names, Unbroken name) ∧ p = render names

variable {names dir : List Text} {p : Text}

theorem unbroken_render : Unbroken (render names) ↔ ∀ name ∈ names, Unbroken name := by
  cases names with
  | nil => exact iff_of_true (by decide) (by simp)
  | cons name rest =>
    rw [render_eq (by simp), Unbroken, List.forall_mem_flatMap]
    refine forall₂_congr fun name _ => unbroken_cons.trans (and_iff_right (by decide))

theorem IsPlain.unbroken (h : IsPlain p) : Unbroken p := by
  obtain ⟨names, _, hnames, rfl⟩ := h
  exact unbroken_render.mpr hnames

theorem IsPlain.isAbsolute (h : IsPlain p) : isAbsolute p = true := by
  obtain ⟨names, _, _, rfl⟩ := h
  exact isAbsolute_render names

theorem IsPlain.parent (h : IsPlain p) : IsPlain (parent p) := by
  obtain ⟨names, hnames, hplain, rfl⟩ := h
  exact ⟨names.dropLast, fun name hname => hnames name (List.dropLast_subset _ hname),
    fun name hname => hplain name (List.dropLast_subset _ hname), parent_render_dropLast hnames⟩

theorem unbroken_enter {part : Text} (hdir : ∀ name ∈ dir, Unbroken name) (hpart : Unbroken part) :
    ∀ name ∈ enter dir part, Unbroken name := by
  unfold enter
  split
  · exact hdir
  · split
    · exact fun name hname => hdir name (List.dropLast_subset _ hname)
    · exact List.forall_mem_append.mpr ⟨hdir, List.forall_mem_singleton.mpr hpart⟩

theorem unbroken_parts (h : Unbroken p) : ∀ part ∈ parts p, Unbroken part := by
  intro part hpart
  have hsubset := subset_joinWith [slash] hpart
  rw [parts, joinWith_splitOn] at hsubset
  exact h.of_subset hsubset

/-- Where going by a path keeps names on one line, going by many does. -/
theorem unbroken_foldl {go : List Text → Text → List Text}
    (hgo : ∀ dir p, (∀ name ∈ dir, Unbroken name) → Unbroken p → ∀ name ∈ go dir p, Unbroken name)
    {ps : List Text} (hps : ∀ p ∈ ps, Unbroken p) (hdir : ∀ name ∈ dir, Unbroken name) :
    ∀ name ∈ ps.foldl go dir, Unbroken name := by
  induction ps generalizing dir with
  | nil => exact hdir
  | cons p ps ih =>
    obtain ⟨hp, hps⟩ := List.forall_mem_cons.mp hps
    exact ih hps (hgo dir p hdir hp)

/-- A path on one line leads over names on one line. -/
theorem unbroken_walk (hdir : ∀ name ∈ dir, Unbroken name) (h : Unbroken p) :
    ∀ name ∈ walk dir p, Unbroken name := by
  rw [walk]
  refine unbroken_foldl (fun _ _ => unbroken_enter) (unbroken_parts h) ?_
  split
  · simp
  · exact hdir

theorem unbroken_resolve {root : Text} {ps : List Text} (habsolute : isAbsolute root = true)
    (hroot : Unbroken root) (hps : ∀ p ∈ ps, Unbroken p) (base : Text) :
    Unbroken (resolve base (root :: ps)) := by
  rw [resolve_of_isAbsolute habsolute, unbroken_render]
  exact unbroken_foldl (fun _ _ => unbroken_walk) hps (unbroken_walk (by simp) hroot)

end Path

namespace Workspace

variable {w : Workspace} {links : Nat} {dir l : Location} {parts names : List Text} {n : Node}

/-- Whether no name of an entry holds a line break. -/
def NamesUnbroken (w : Workspace) : Prop := ∀ e ∈ w.entries, ∀ name ∈ e.1, Unbroken name

instance (w : Workspace) : Decidable w.NamesUnbroken :=
  inferInstanceAs (Decidable (∀ e ∈ w.entries, ∀ name ∈ e.1, Unbroken name))

/-- The last name of a path that leads to an entry is the name of the entry, as it is stored. -/
theorem Lookup.last {name : Text} (hname : Path.IsName name)
    (h : Lookup w .inspect links dir (parts ++ [name]) (.taken l n)) :
    ∃ above, l = child above name ∧ w.node? l = some n := by
  generalize hall : parts ++ [name] = all at h
  generalize hplace : Place.taken l n = place at h
  induction h generalizing parts with
  | here => exact absurd hall (by simp)
  | stay hpart _ ih =>
    rcases List.append_eq_cons_iff.mp hall with ⟨rfl, hlast⟩ | ⟨front, rfl, hrest⟩
    · obtain ⟨rfl, _⟩ := List.cons.inj hlast
      exact absurd hpart (not_or.mpr ⟨hname.ne_nil, hname.ne_dot⟩)
    · exact ih hrest.symm hplace
  | up _ ih =>
    rcases List.append_eq_cons_iff.mp hall with ⟨rfl, hlast⟩ | ⟨front, rfl, hrest⟩
    · exact absurd (List.cons.inj hlast).1 hname.ne_dots
    · exact ih hrest.symm hplace
  | free => cases hplace
  | file _ hnode | link _ hnode =>
    rcases List.append_eq_cons_iff.mp hall with ⟨rfl, hlast⟩ | ⟨front, rfl, hrest⟩
    · obtain ⟨rfl, _⟩ := List.cons.inj hlast
      obtain ⟨rfl, rfl⟩ := Place.taken.inj hplace
      exact ⟨_, rfl, hnode⟩
    · exact absurd hrest (by simp)
  | enter _ hnode hlookup ih =>
    rcases List.append_eq_cons_iff.mp hall with ⟨rfl, hlast⟩ | ⟨front, rfl, hrest⟩
    · obtain ⟨rfl, rfl⟩ := List.cons.inj hlast
      cases hlookup
      obtain ⟨rfl, rfl⟩ := Place.taken.inj hplace
      exact ⟨_, rfl, hnode⟩
    · exact ih hrest.symm hplace
  | follow _ _ hgo _ _ ih =>
    rcases List.append_eq_cons_iff.mp hall with ⟨rfl, hlast⟩ | ⟨front, rfl, rfl⟩
    · exact absurd ⟨(List.cons.inj hlast).2.symm, rfl⟩ hgo
    · exact ih (List.append_assoc _ _ _) hplace

/-- The names of a path without links are names of entries. -/
theorem Straight.unbroken (hw : w.NamesUnbroken) (h : Straight w names) :
    ∀ name ∈ names, Unbroken name := by
  intro name hmem
  obtain ⟨front, back, rfl⟩ := List.append_of_mem hmem
  have hfront : front ++ [name] <+: front ++ name :: back := ⟨back, by simp⟩
  have hnames : Path.IsNames (front ++ [name]) := fun n hn => h.isNames n (hfront.subset hn)
  obtain ⟨l, n, hentry, _⟩ := h.entries _ hfront (by simp)
  have hlookup := locate_eq_ok (Path.isAbsolute_render _) (entry_eq_ok_iff.mp hentry)
  rw [Path.parts_render (by simp) hnames, ← List.cons_append] at hlookup
  obtain ⟨above, rfl, hnode⟩ := hlookup.last (h.isNames name hmem)
  have hget : w.entries.get? (child above name) = some n := by
    rwa [node?, if_neg (by simp)] at hnode
  have hstored := hw _ (OrderedMap.mem_of_get?_eq_some hget) (wellFormed name) (by simp)
  exact hstored.of_wellFormed

theorem isPlain_of_canonical (hw : w.NamesUnbroken) {path canonicalPath : Text}
    (h : w.canonical path = .ok canonicalPath) : Path.IsPlain canonicalPath := by
  obtain ⟨names, hstraight, rfl⟩ := straight_of_canonical h
  exact ⟨names, hstraight.isNames, hstraight.unbroken hw, rfl⟩

end Workspace

end LuaBundle
