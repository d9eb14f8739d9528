import LuaBundle.Proofs.Workspace.Reading

/-! What changes leave of all else. Making directories adds nothing but directories on the way, and
removing what a path names takes nothing else away. -/

namespace LuaBundle

/-- Leaving out a key that was not there undoes adding it. -/
theorem OrderedMap.filter_insert {κ ν : Type} [DecidableEq κ] {m : OrderedMap κ ν} (p : κ → Bool)
    {k : κ} (v : ν) (hk : p k = false) (hm : ∀ e ∈ m, p e.1 = true) :
    (m.insert k v).filter (fun e => p e.1) = m := by
  induction m with
  | nil => simp [insert, hk]
  | cons e rest ih =>
    have he : p e.1 = true := hm e List.mem_cons_self
    have hne : e.1 ≠ k := by
      rintro rfl
      rw [hk] at he
      cases he
    rw [insert, if_neg hne, List.filter_cons, if_pos he,
      ih fun e' he' => hm e' (List.mem_cons_of_mem e he')]

namespace Workspace

variable {w w' w'' : Workspace} {l x : Location} {n : Node} {path : Text} {names front : List Text}

/-! What is removed. -/

/-- A path names what stands at a location, or a directory above it. -/
def Within (w : Workspace) (path : Text) (l : Location) : Prop :=
  ∃ x n, w.entry .inspect path = .ok (x, n) ∧ x <+: l

theorem within_iff (h : w.entry .inspect path = .ok (x, n)) : Within w path l ↔ x <+: l := by
  constructor
  · rintro ⟨x', n', h', hl⟩
    obtain ⟨rfl, rfl⟩ := Prod.mk.inj (Except.ok.inj (h.symm.trans h'))
    exact hl
  · exact fun hl => ⟨x, n, h, hl⟩

section RemoveAll

variable (h : w.entry .inspect path = .ok (x, n)) (hx : x ≠ [])

include h hx

theorem node?_removeAll (l : Location) :
    (w.removeAll path).node? l = if x <+: l then none else w.node? l := by
  rw [removeAll, h]
  dsimp only
  rw [node?_erase]
  by_cases hl : l = []
  · subst hl
    rw [if_pos rfl, if_neg fun hnil => hx (List.prefix_nil.mp hnil)]
    rfl
  · rw [if_neg hl]

/-- What a path named is not there any more when it has been removed. -/
theorem entry_removeAll (htree : IsTree w) (habs : Path.isAbsolute path = true)
    (found : Location × Node) : (w.removeAll path).entry .inspect path ≠ .ok found := by
  intro hleft
  obtain ⟨l, m⟩ := found
  obtain ⟨rfl, rfl⟩ := Prod.mk.inj (Except.ok.inj
    (h.symm.trans (entry_extends hleft (extends_removeAll w path))))
  have htree' : IsTree (w.removeAll path) := by
    rw [removeAll, h]
    exact htree.erase x
  have hstands : (w.removeAll path).node? x = some n :=
    found_of_locate htree' habs (entry_eq_ok_iff.mp hleft)
  rw [node?_removeAll h hx, if_pos List.prefix_rfl] at hstands
  cases hstands

end RemoveAll

/-- A directory that has been made and is removed again has left nothing. -/
theorem MadeAt.removeAll_eq (h : MadeAt w w' path x) (htree : IsTree w) :
    w'.removeAll path = w := by
  have habove : ∀ e ∈ w.entries, (!x.isPrefixOf e.1) = true := by
    intro e he
    rw [Bool.not_eq_true', Bool.eq_false_iff, Ne, List.isPrefixOf_iff_prefix]
    intro hx
    have hnil : e.1 ≠ [] := fun hnil => h.ne_nil (List.prefix_nil.mp (hnil ▸ hx))
    have hnone := htree.node?_below h.free hx
    rw [node?, if_neg hnil, OrderedMap.get?, Option.map_eq_none_iff, List.find?_eq_none] at hnone
    exact hnone e he (decide_eq_true rfl)
  have hself : (!x.isPrefixOf x) = false := by
    rw [Bool.not_eq_false']
    exact List.isPrefixOf_iff_prefix.mpr List.prefix_rfl
  have hentries := OrderedMap.filter_insert (fun l => !x.isPrefixOf l) Node.directory hself habove
  rw [removeAll, h.entry, h.put]
  exact congrArg (Workspace.mk w.base) hentries

/-! Directories that are new. -/

/-- What is added is directories. -/
structure AddsDirectories (w w' : Workspace) : Prop where
  base : w'.base = w.base
  only : ∀ l, w'.node? l = w.node? l ∨ w.node? l = none ∧ w'.node? l = some .directory

theorem AddsDirectories.refl (w : Workspace) : AddsDirectories w w := ⟨rfl, fun _ => .inl rfl⟩

theorem MakesOnly.addsDirectories (h : MakesOnly w w' names) : AddsDirectories w w' :=
  ⟨h.base, fun l => (h.only l).imp_right fun ⟨hnone, hdirectory, _⟩ => ⟨hnone, hdirectory⟩⟩

/-! Modes. -/

/-- The file that a path leads to has another mode, or nothing is changed. -/
def SetsMode (w w' : Workspace) (path : Text) (mode : Mode) : Prop :=
  w' = w ∨ ∃ l content old, w.entry .reach path = .ok (l, .file content old) ∧
    w' = w.put l (.file content mode)

/-- A directory has its names also where the mode of a file is set. -/
theorem SetsMode.entry {other : Text} {purpose : Purpose} {mode : Mode}
    (h : SetsMode w w' path mode)
    (hentry : w.entry purpose other = .ok (x, .directory)) :
    w'.entry purpose other = .ok (x, .directory) := by
  rcases h with rfl | ⟨l, content, old, hfile, rfl⟩
  · exact hentry
  · exact (sameBut_put_mode hfile mode).entry_directory hentry

theorem SetsMode.tree {mode : Mode} (h : SetsMode w w' path mode) (htree : IsTree w) :
    IsTree w' := by
  rcases h with rfl | ⟨l, content, old, hfile, rfl⟩
  · exact htree
  · have hl := node?_of_entry hfile (by simp)
    have hnode : w.node? l ≠ some .directory := by simp [hl]
    exact htree.put (htree.inDirectory hl (ne_nil_of_node? hnode)) hnode _

end Workspace

end LuaBundle
