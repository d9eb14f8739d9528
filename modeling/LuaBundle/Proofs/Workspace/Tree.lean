import LuaBundle.Proofs.Path
import LuaBundle.Proofs.Workspace.Lookup

/-! File systems that are trees, and a file that stands in one: what a change must not touch for the
file to stay, and where paths lead after directories have been made for them. -/

namespace LuaBundle

namespace OrderedMap

variable {κ ν : Type} [DecidableEq κ]

theorem get?_filter (m : OrderedMap κ ν) (p : κ → Bool) (k : κ) :
    get? (m.filter fun e => p e.1) k = if p k then get? m k else none := by
  rw [get?, List.find?_filter]
  by_cases hp : p k = true
  · rw [if_pos hp, get?]
    congr 2
    funext e
    by_cases he : e.1 = k <;> simp [he, hp]
  · rw [if_neg hp, List.find?_eq_none.mpr, Option.map_none]
    intro e _
    by_cases he : e.1 = k <;> simp [he, hp]

end OrderedMap

namespace Workspace

/-- The bytes of a file, and whether it is one that may be read. -/
structure Content where
  bytes : Bytes
  readable : Bool

variable {w w' : Workspace} {l x d : Location} {n : Node} {content : Content} {path : Text}

theorem node?_nil (w : Workspace) : w.node? [] = some .directory := rfl

theorem node?_put (hx : x ≠ []) (l : Location) (n : Node) :
    (w.put x n).node? l = if x = l then some n else w.node? l := by
  by_cases hl : l = []
  · subst hl
    rw [if_neg hx]
    rfl
  · rw [node?, if_neg hl, put, OrderedMap.get?_insert, node?, if_neg hl]

theorem node?_erase (w : Workspace) (x l : Location) :
    (w.erase x).node? l = if l = [] then some .directory else if x <+: l then none
      else w.node? l := by
  by_cases hl : l = []
  · rw [node?, if_pos hl, if_pos hl]
  · rw [node?, if_neg hl, erase, OrderedMap.get?_filter w.entries (fun k => !x.isPrefixOf k) l,
      node?, if_neg hl]
    have habove : (!x.isPrefixOf l) = true ↔ ¬x <+: l := by
      rw [Bool.not_eq_true', Bool.eq_false_iff, Ne, List.isPrefixOf_iff_prefix]
    by_cases hx : x <+: l
    · rw [if_neg (fun h => habove.mp h hx), if_neg hl, if_pos hx]
    · rw [if_pos (habove.mpr hx), if_neg hl, if_neg hx]

theorem node?_erase_self (hl : l ≠ []) : (w.erase l).node? l = none := by
  rw [node?_erase, if_neg hl, if_pos (List.prefix_refl l)]

theorem ne_nil_of_node? (h : w.node? x ≠ some .directory) : x ≠ [] := by
  rintro rfl
  exact h rfl

/-- Everything stands in directories. -/
structure IsTree (w : Workspace) : Prop where
  above : ∀ {l n}, w.node? l = some n → ∀ {d}, d <+: l → d ≠ l → w.node? d = some .directory

/-- A file with the given content stands at a location. It may be read if that is asked for. -/
structure Holds (w : Workspace) (l : Location) (content : Content) : Prop where
  file : ∃ mode, w.node? l = some (.file content.bytes mode) ∧
    (content.readable = true → mode.readable = true)
  above : ∀ {d}, d <+: l → d ≠ l → w.node? d = some .directory

theorem IsTree.holds (h : IsTree w) {mode : Mode} (hl : w.node? l = some (.file content.bytes mode))
    (hmode : content.readable = true → mode.readable = true) : Holds w l content :=
  ⟨⟨mode, hl, hmode⟩, h.above hl⟩

/-- Neither the file nor a directory above it stands at a location that is free or another file. -/
theorem Holds.not_prefix (h : Holds w l content) (hx : w.node? x ≠ some .directory) (hne : x ≠ l) :
    ¬x <+: l := fun habove => hx (h.above habove hne)

theorem Holds.put (h : Holds w l content) (hx : w.node? x ≠ some .directory) (hne : x ≠ l)
    (n : Node) : Holds (w.put x n) l content := by
  have hnil := ne_nil_of_node? hx
  obtain ⟨mode, hfile, hmode⟩ := h.file
  refine ⟨⟨mode, ?_, hmode⟩, fun {d} hd hdl => ?_⟩
  · rw [node?_put hnil, if_neg hne, hfile]
  · rw [node?_put hnil, if_neg, h.above hd hdl]
    rintro rfl
    exact hx (h.above hd hdl)

theorem Holds.erase (h : Holds w l content) (hx : ¬x <+: l) : Holds (w.erase x) l content := by
  obtain ⟨mode, hfile, hmode⟩ := h.file
  have hl : l ≠ [] := by
    rintro rfl
    cases hfile
  refine ⟨⟨mode, ?_, hmode⟩, fun {d} hd hdl => ?_⟩
  · rw [node?_erase, if_neg hl, if_neg hx, hfile]
  · rw [node?_erase]
    split
    · rfl
    · rw [if_neg fun hxd => hx (hxd.trans hd), h.above hd hdl]

theorem Holds.extends (h : Holds w l content) (hext : Extends w w') : Holds w' l content := by
  obtain ⟨mode, hfile, hmode⟩ := h.file
  exact ⟨⟨mode, hext.keeps hfile, hmode⟩, fun hd hdl => hext.keeps (h.above hd hdl)⟩

theorem extends_put (hx : w.node? x = none) (n : Node) : Extends w (w.put x n) := by
  refine ⟨rfl, fun {l m} hl => ?_⟩
  rw [node?_put (ne_nil_of_node? (by rw [hx]; simp)), if_neg, hl]
  rintro rfl
  cases hx.symm.trans hl

/-- A location in a directory. -/
def InDirectory (w : Workspace) (x : Location) : Prop :=
  ∃ d name, x = d ++ [name] ∧ w.node? d = some .directory

theorem IsTree.put (h : IsTree w) (hx : InDirectory w x) (hnode : w.node? x ≠ some .directory)
    (n : Node) : IsTree (w.put x n) := by
  obtain ⟨dir, name, rfl, hdir⟩ := hx
  have hput := fun l => @node?_put w (dir ++ [name]) (by simp) l n
  refine ⟨fun {l m} hl {d} hd hdl => ?_⟩
  have hbelow : w.node? d = some .directory := by
    rw [hput] at hl
    split at hl
    · rename_i he
      subst he
      rcases List.prefix_concat_iff.mp hd with he | hd
      · exact absurd he hdl
      · by_cases he : d = dir
        · rw [he, hdir]
        · exact h.above hdir hd he
    · exact h.above hl hd hdl
  rw [hput, if_neg, hbelow]
  rintro rfl
  exact hnode hbelow

theorem IsTree.erase (h : IsTree w) (x : Location) : IsTree (w.erase x) := by
  refine ⟨fun {l n} hl {d} hd hdl => ?_⟩
  have hnil : l ≠ [] := by
    rintro rfl
    exact hdl (List.prefix_nil.mp hd)
  rw [node?_erase, if_neg hnil] at hl
  split at hl
  · cases hl
  · rename_i hx
    rw [node?_erase]
    split
    · rfl
    · rw [if_neg fun hxd => hx (hxd.trans hd), h.above hl hd hdl]

/-- What a place says of a workspace: an entry stands there, or it is a free name in a directory. -/
def Found (w : Workspace) : Place → Prop
  | .taken l n => w.node? l = some n
  | .free l => w.node? l = none ∧ w.InDirectory l

theorem Found.node?_eq {place : Place} (h : w.Found place) :
    w.node? place.location = place.entry? := by
  cases place with
  | taken => exact h
  | free => exact h.1

theorem Lookup.found {purpose : Purpose} {links : Nat} {dir : Location} {parts : List Text}
    {place : Place} (h : Lookup w purpose links dir parts place) (htree : IsTree w)
    (hdir : w.node? dir = some .directory) : w.Found place := by
  induction h with
  | here => exact hdir
  | stay _ _ ih => exact ih hdir
  | @up _ dir _ _ _ ih =>
    refine ih ?_
    by_cases he : dir.dropLast = dir
    · rwa [he]
    · exact htree.above hdir (List.dropLast_prefix dir) he
  | free _ hnode => exact ⟨hnode, _, _, rfl, hdir⟩
  | file _ hnode => exact hnode
  | link _ hnode => exact hnode
  | enter _ hnode _ ih => exact ih hnode
  | @follow _ _ _ target _ _ _ _ _ _ _ ih =>
    refine ih ?_
    unfold originOf
    split
    · rfl
    · exact hdir

/-- What parts lead to stands there, if it is no directory. -/
theorem Lookup.node? {purpose : Purpose} {links : Nat} {dir : Location} {parts : List Text}
    (h : Lookup w purpose links dir parts (.taken l n)) (hn : n ≠ .directory) :
    w.node? l = some n := by
  generalize hplace : Place.taken l n = place at h
  induction h with
  | here => exact absurd (Place.taken.inj hplace).2 hn
  | stay _ _ ih => exact ih hplace
  | up _ ih => exact ih hplace
  | free => cases hplace
  | file _ hnode =>
    obtain ⟨rfl, rfl⟩ := Place.taken.inj hplace
    exact hnode
  | link _ hnode =>
    obtain ⟨rfl, rfl⟩ := Place.taken.inj hplace
    exact hnode
  | enter _ _ _ ih => exact ih hplace
  | follow _ _ _ _ _ ih => exact ih hplace

theorem IsTree.inDirectory (htree : IsTree w) (hl : w.node? l = some n) (hne : l ≠ []) :
    InDirectory w l := by
  obtain ⟨d, name, rfl⟩ := List.eq_nil_or_concat l |>.resolve_left hne
  rw [List.concat_eq_append] at hl ⊢
  exact ⟨d, name, rfl, htree.above hl (List.prefix_append d _) (by simp)⟩

theorem Found.inDirectory {place : Place} (h : w.Found place) (htree : IsTree w)
    (hx : w.node? place.location ≠ some .directory) : InDirectory w place.location := by
  cases place with
  | free => exact h.2
  | taken x m => exact htree.inDirectory (show w.node? x = some m from h) (ne_nil_of_node? hx)

/-! Lookups of whole paths. -/

/-- The directory in which the lookup of a path starts. -/
def startOf (w : Workspace) (path : Text) : Location :=
  if Path.isAbsolute path then [] else Path.walk [] w.base

theorem locate_eq_ok_iff {purpose : Purpose} {place : Place} :
    w.locate purpose path = .ok place ↔
      path ≠ [] ∧ (Utf8.encode path).length ≤ longestPath ∧
        Lookup w purpose mostLinks (w.startOf path) (Path.parts path) place := by
  rw [locate, startOf, ← Nat.not_lt, ← walk_eq_ok_iff]
  by_cases hne : path = []
  · simp [hne]
  · by_cases hlength : longestPath < (Utf8.encode path).length
    · simp [hne, hlength]
    · rw [if_neg hne, if_neg hlength]
      simp [hne, hlength]

theorem locate_eq_ok {purpose : Purpose} {place : Place} (habs : Path.isAbsolute path = true)
    (h : w.locate purpose path = .ok place) :
    Lookup w purpose mostLinks [] (Path.parts path) place := by
  obtain ⟨_, _, hlookup⟩ := locate_eq_ok_iff.mp h
  rwa [startOf, if_pos habs] at hlookup

/-- A path leads in another workspace where its parts lead there. -/
theorem locate_imp {purpose purpose' : Purpose} {place place' : Place} (hbase : w'.base = w.base)
    (himp : ∀ dir, Lookup w purpose mostLinks dir (Path.parts path) place →
      Lookup w' purpose' mostLinks dir (Path.parts path) place')
    (h : w.locate purpose path = .ok place) : w'.locate purpose' path = .ok place' := by
  obtain ⟨hne, hlength, hlookup⟩ := locate_eq_ok_iff.mp h
  refine locate_eq_ok_iff.mpr ⟨hne, hlength, ?_⟩
  rw [startOf, hbase]
  exact himp _ hlookup

theorem locate_reach {purpose : Purpose} {place : Place} (h : w.locate purpose path = .ok place)
    (hlink : place.isLink = false) : w.locate .reach path = .ok place :=
  locate_imp rfl (fun _ hlookup => hlookup.reach hlink) h

theorem entry_eq_ok_iff {purpose : Purpose} :
    w.entry purpose path = .ok (l, n) ↔ w.locate purpose path = .ok (.taken l n) := by
  unfold entry
  split <;> rename_i h <;> simp [h]

theorem entry_extends {purpose : Purpose} (h : w.entry purpose path = .ok (l, n))
    (hext : Extends w w') : w'.entry purpose path = .ok (l, n) :=
  entry_eq_ok_iff.mpr
    (locate_imp hext.base (fun _ hlookup => hlookup.extends hext) (entry_eq_ok_iff.mp h))

theorem node?_of_locate {purpose : Purpose} {place : Place}
    (h : w.locate purpose path = .ok place) (hplace : place.takesFile = true) :
    w.node? place.location = place.entry? := by
  obtain ⟨_, _, hlookup⟩ := locate_eq_ok_iff.mp h
  exact hlookup.node?_eq hplace

theorem found_of_locate {purpose : Purpose} {place : Place} (htree : IsTree w)
    (habs : Path.isAbsolute path = true) (h : w.locate purpose path = .ok place) :
    w.Found place :=
  (locate_eq_ok habs h).found htree (node?_nil w)

/-- Names that lead to a file past no link lead to the file also where all else has changed. -/
theorem Lookup.straight {links : Nat} {dir : Location} {names : List Text} {mode : Mode}
    (h : Lookup w .reach links dir names (.taken l (.file content.bytes mode))) (htree : IsTree w)
    (hnames : Path.IsNames names) (hl : l = dir ++ names.map Text.wellFormed)
    (hholds : Holds w' l content) :
    ∃ mode', Lookup w' .reach links dir names (.taken l (.file content.bytes mode')) ∧
      (content.readable = true → mode'.readable = true) := by
  induction names generalizing dir with
  | nil => cases h
  | cons name rest ih =>
    obtain ⟨hname, hrest⟩ := List.forall_mem_cons.mp hnames
    have hfile : w.node? l = some (.file content.bytes mode) := h.node? (by simp)
    have hchild : child dir name <+: l := by simp [hl]
    cases h with
    | stay hpart => exact absurd hpart (not_or.mpr ⟨hname.ne_nil, hname.ne_dot⟩)
    | up => exact absurd rfl hname.ne_dots
    | file hname' _ =>
      obtain ⟨mode', hfile', hmode⟩ := hholds.file
      exact ⟨mode', .file hname' hfile', hmode⟩
    | enter hname' hnode hlookup =>
      obtain ⟨mode', hlookup', hmode⟩ := ih hlookup hrest (by simp [hl])
      have hne : child dir name ≠ l := by
        rintro he
        rw [he, hfile] at hnode
        cases hnode
      exact ⟨mode', .enter hname' (hholds.above hchild hne) hlookup', hmode⟩
    | follow _ hnode =>
      by_cases he : child dir name = l
      · rw [he, hfile] at hnode
        cases hnode
      · rw [htree.above hfile hchild he] at hnode
        cases hnode

/-- The path that spells the place of a file leads to the file as long as it stands where it
stood. -/
theorem Holds.exists_entry {names : List Text} {mode : Mode} (h : Holds w' l content)
    (htree : IsTree w) (hnames : Path.IsNames names) (hl : l = names.map Text.wellFormed)
    (hfile : w.entry .reach (Path.render names) = .ok (l, .file content.bytes mode)) :
    ∃ mode', w'.entry .reach (Path.render names) = .ok (l, .file content.bytes mode') ∧
      (content.readable = true → mode'.readable = true) := by
  have hne : names ≠ [] := by
    rintro rfl
    have hroot := (locate_eq_ok rfl (entry_eq_ok_iff.mp hfile)).of_stay (.inl rfl)
      |>.of_stay (.inl rfl)
    cases hroot
  have hlookup := (locate_eq_ok (Path.isAbsolute_render names) (entry_eq_ok_iff.mp hfile))
  rw [Path.parts_render hne hnames] at hlookup
  obtain ⟨mode', hlookup', hmode⟩ := (hlookup.of_stay (.inl rfl)).straight htree hnames hl h
  obtain ⟨hempty, hlength, _⟩ := locate_eq_ok_iff.mp (entry_eq_ok_iff.mp hfile)
  refine ⟨mode', entry_eq_ok_iff.mpr (locate_eq_ok_iff.mpr ⟨hempty, hlength, ?_⟩), hmode⟩
  rw [startOf, if_pos (Path.isAbsolute_render names), Path.parts_render hne hnames]
  exact .stay (.inl rfl) hlookup'

end Workspace

end LuaBundle
