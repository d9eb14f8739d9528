import LuaBundle.Workspace.Write

/-! Where paths lead, as a relation with one rule for each kind of part. The entries on the way are
directories and links, so that a lookup stays what it is when files are added or changed elsewhere,
and lookups for different purposes differ at most in a link at the end. -/

namespace LuaBundle

namespace Place

def location : Place → Location
  | taken l _ => l
  | free l => l

def isLink : Place → Bool
  | taken _ (.link _) => true
  | _ => false

/-- The entry at a place, if it is not free. -/
def entry? : Place → Option Node
  | taken _ n => some n
  | free _ => none

/-- Whether a file can be written to a place. -/
def takesFile : Place → Bool
  | free _ => true
  | taken _ (.file _ _) => true
  | taken _ _ => false

/-- The mode of a file that is written to a place: that of the file that is there, if any is. -/
def fileMode : Place → Mode
  | taken _ (.file _ mode) => mode
  | _ => Workspace.newFileMode

end Place

namespace Workspace

variable {w w' : Workspace} {purpose purpose' : Purpose} {links links' : Nat}
  {dir l : Location} {part target : Text} {parts rest : List Text} {place place' : Place}

/-- A part of a path that names an entry, with parts after it. -/
structure Names (purpose : Purpose) (part : Text) (rest : List Text) : Prop where
  plain : ¬(part = [] ∨ part = [Text.dot])
  ne_dots : part ≠ [Text.dot, Text.dot]
  length : ¬longestName < (Utf8.encode part).length
  open_end : ¬(purpose = .write ∧ rest ≠ [] ∧ rest.all (·.isEmpty))

/-- The location of a part in a directory. -/
abbrev child (dir : Location) (part : Text) : Location := dir ++ [Text.wellFormed part]

/-- The directory from which a link in `dir` goes on. -/
def originOf (dir : Location) (target : Text) : Location :=
  if Path.isAbsolute target then [] else dir

/-- The place that parts lead to from a directory over at most so many links. -/
inductive Lookup (w : Workspace) (purpose : Purpose) :
    Nat → Location → List Text → Place → Prop
  | here {links : Nat} {dir : Location} : Lookup w purpose links dir [] (.taken dir .directory)
  | stay {links : Nat} {dir : Location} {part : Text} {rest : List Text} {place : Place}
    (hpart : part = [] ∨ part = [Text.dot]) (hrest : Lookup w purpose links dir rest place) :
    Lookup w purpose links dir (part :: rest) place
  | up {links : Nat} {dir : Location} {rest : List Text} {place : Place}
    (hrest : Lookup w purpose links dir.dropLast rest place) :
    Lookup w purpose links dir ([Text.dot, Text.dot] :: rest) place
  | free {links : Nat} {dir : Location} {part : Text} (hname : Names purpose part [])
    (hnode : w.node? (child dir part) = none) :
    Lookup w purpose links dir [part] (.free (child dir part))
  | file {links : Nat} {dir : Location} {part : Text} {content : Bytes} {mode : Mode}
    (hname : Names purpose part []) (hnode : w.node? (child dir part) = some (.file content mode)) :
    Lookup w purpose links dir [part] (.taken (child dir part) (.file content mode))
  | link {links : Nat} {dir : Location} {part target : Text} (hname : Names purpose part [])
    (hnode : w.node? (child dir part) = some (.link target)) (hpurpose : purpose = .inspect) :
    Lookup w purpose links dir [part] (.taken (child dir part) (.link target))
  | enter {links : Nat} {dir : Location} {part : Text} {rest : List Text} {place : Place}
    (hname : Names purpose part rest) (hnode : w.node? (child dir part) = some .directory)
    (hrest : Lookup w purpose links (child dir part) rest place) :
    Lookup w purpose links dir (part :: rest) place
  | follow {links : Nat} {dir : Location} {part target : Text} {rest : List Text} {place : Place}
    (hname : Names purpose part rest) (hnode : w.node? (child dir part) = some (.link target))
    (hgo : ¬(rest = [] ∧ purpose = .inspect)) (htarget : target ≠ [])
    (hrest : Lookup w purpose links (originOf dir target) (Path.parts target ++ rest) place) :
    Lookup w purpose (links + 1) dir (part :: rest) place

/-- What goes on at a link, over at most so many. -/
def follow (w : Workspace) (purpose : Purpose) :
    Nat → Location → Text → List Text → Except Fault Place
  | 0, _, _, _ => .error .tooManyLinks
  | links + 1, dir, target, rest =>
    if target = [] then .error .noEntry
    else walk w purpose links (originOf dir target) (Path.parts target ++ rest)

theorem walk_eq (w : Workspace) (purpose : Purpose) (links : Nat) :
    walk w purpose links = walkFrom w purpose (follow w purpose links) := by
  cases links <;> rfl

theorem walkFrom_cons (hname : Names purpose part rest)
    (go : Location → Text → List Text → Except Fault Place) :
    walkFrom w purpose go dir (part :: rest) =
      match w.node? (child dir part) with
      | none => if rest = [] then .ok (.free (child dir part)) else .error .noEntry
      | some .directory => walkFrom w purpose go (child dir part) rest
      | some (.file content mode) =>
        if rest = [] then .ok (.taken (child dir part) (.file content mode))
        else .error .notDirectory
      | some (.link target) =>
        if rest = [] ∧ purpose = .inspect then .ok (.taken (child dir part) (.link target))
        else go dir target rest := by
  rw [walkFrom]
  exact ((if_neg hname.plain).trans (if_neg hname.ne_dots)).trans
    ((if_neg hname.length).trans (if_neg hname.open_end))

theorem Lookup.walk_eq_ok (h : Lookup w purpose links dir parts place) :
    walk w purpose links dir parts = .ok place := by
  induction h with
  | here => rw [walk_eq, walkFrom]
  | stay hpart _ ih =>
    rw [walk_eq] at ih ⊢
    rw [walkFrom, if_pos hpart, ih]
  | up _ ih =>
    rw [walk_eq] at ih ⊢
    rw [walkFrom, if_neg (by decide), if_pos rfl, ih]
  | free hname hnode => rw [walk_eq, walkFrom_cons hname, hnode]; rfl
  | file hname hnode => rw [walk_eq, walkFrom_cons hname, hnode]; rfl
  | link hname hnode hpurpose =>
    rw [walk_eq, walkFrom_cons hname, hnode]
    exact if_pos ⟨rfl, hpurpose⟩
  | enter hname hnode _ ih =>
    rw [walk_eq] at ih ⊢
    rw [walkFrom_cons hname, hnode, ← ih]
  | follow hname hnode hgo htarget _ ih =>
    rw [walk_eq, walkFrom_cons hname, hnode]
    simp only [if_neg hgo, Workspace.follow, if_neg htarget, ih]

theorem lookup_of_walkFrom {go : Location → Text → List Text → Except Fault Place}
    (hgo : ∀ {dir part target rest place}, Names purpose part rest →
      w.node? (child dir part) = some (.link target) → ¬(rest = [] ∧ purpose = .inspect) →
      go dir target rest = .ok place → Lookup w purpose links dir (part :: rest) place)
    (h : walkFrom w purpose go dir parts = .ok place) :
    Lookup w purpose links dir parts place := by
  induction parts generalizing dir with
  | nil =>
    rw [walkFrom] at h
    obtain rfl := Except.ok.inj h
    exact .here
  | cons part rest ih =>
    by_cases hplain : part = [] ∨ part = [Text.dot]
    · rw [walkFrom, if_pos hplain] at h
      exact .stay hplain (ih h)
    by_cases hdots : part = [Text.dot, Text.dot]
    · subst hdots
      rw [walkFrom, if_neg hplain, if_pos rfl] at h
      exact .up (ih h)
    by_cases hlength : longestName < (Utf8.encode part).length
    · rw [walkFrom, if_neg hplain, if_neg hdots, if_pos hlength] at h
      cases h
    by_cases hopen : purpose = .write ∧ rest ≠ [] ∧ rest.all (·.isEmpty)
    · rw [walkFrom, if_neg hplain, if_neg hdots, if_neg hlength, if_pos hopen] at h
      cases h
    have hname : Names purpose part rest := ⟨hplain, hdots, hlength, hopen⟩
    rw [walkFrom_cons hname] at h
    cases hnode : w.node? (child dir part) with
    | none =>
      rw [hnode] at h
      by_cases hrest : rest = []
      · subst hrest
        obtain rfl := Except.ok.inj h
        exact .free hname hnode
      · simp only [if_neg hrest] at h
        cases h
    | some node =>
      rw [hnode] at h
      cases node with
      | directory => exact .enter hname hnode (ih h)
      | file content mode =>
        by_cases hrest : rest = []
        · subst hrest
          obtain rfl := Except.ok.inj h
          exact .file hname hnode
        · simp only [if_neg hrest] at h
          cases h
      | link target =>
        by_cases hend : rest = [] ∧ purpose = .inspect
        · obtain ⟨rfl, hpurpose⟩ := hend
          simp only [hpurpose, and_self, if_true] at h
          obtain rfl := Except.ok.inj h
          exact .link hname hnode hpurpose
        · simp only [if_neg hend] at h
          exact hgo hname hnode hend h

theorem lookup_of_walk (h : walk w purpose links dir parts = .ok place) :
    Lookup w purpose links dir parts place := by
  induction links generalizing dir parts place with
  | zero =>
    rw [walk_eq] at h
    exact lookup_of_walkFrom (fun _ _ _ hgo => by cases hgo) h
  | succ links ih =>
    rw [walk_eq] at h
    refine lookup_of_walkFrom (fun {dir part target rest place} hname hnode hend hgo => ?_) h
    by_cases htarget : target = []
    · rw [follow, if_pos htarget] at hgo
      cases hgo
    · rw [follow, if_neg htarget] at hgo
      exact .follow hname hnode hend htarget (ih hgo)

/-- A path leads where its parts lead. -/
theorem walk_eq_ok_iff :
    walk w purpose links dir parts = .ok place ↔ Lookup w purpose links dir parts place :=
  ⟨lookup_of_walk, Lookup.walk_eq_ok⟩

/-! Other purposes and other workspaces. -/

/-- A path leads for every purpose where it leads to be read, unless that is a link. -/
theorem Lookup.reach (h : Lookup w purpose links dir parts place) (hlink : place.isLink = false) :
    Lookup w .reach links dir parts place := by
  have hname : ∀ {part rest}, Names purpose part rest → Names .reach part rest :=
    fun h => ⟨h.plain, h.ne_dots, h.length, by simp⟩
  induction h with
  | here => exact .here
  | stay hpart _ ih => exact .stay hpart (ih hlink)
  | up _ ih => exact .up (ih hlink)
  | free hn hnode => exact .free (hname hn) hnode
  | file hn hnode => exact .file (hname hn) hnode
  | link => cases hlink
  | enter hn hnode _ ih => exact .enter (hname hn) hnode (ih hlink)
  | follow hn hnode _ htarget _ ih => exact .follow (hname hn) hnode (by simp) htarget (ih hlink)

/-- What a path leads to, if not a link, is the entry that it stands for. -/
theorem Lookup.inspect (h : Lookup w .reach links dir parts place) :
    ∃ place', Lookup w .inspect links dir parts place' ∧
      (place'.isLink = false → place' = place) := by
  have hname : ∀ {part rest}, Names .reach part rest → Names .inspect part rest :=
    fun h => ⟨h.plain, h.ne_dots, h.length, by simp⟩
  induction h with
  | here => exact ⟨_, .here, fun _ => rfl⟩
  | stay hpart _ ih =>
    obtain ⟨place', h, hsame⟩ := ih
    exact ⟨place', .stay hpart h, hsame⟩
  | up _ ih =>
    obtain ⟨place', h, hsame⟩ := ih
    exact ⟨place', .up h, hsame⟩
  | free hn hnode => exact ⟨_, .free (hname hn) hnode, fun _ => rfl⟩
  | file hn hnode => exact ⟨_, .file (hname hn) hnode, fun _ => rfl⟩
  | link _ _ hpurpose => cases hpurpose
  | enter hn hnode _ ih =>
    obtain ⟨place', h, hsame⟩ := ih
    exact ⟨place', .enter (hname hn) hnode h, hsame⟩
  | @follow links dir part target rest place hn hnode hgo htarget _ ih =>
    obtain ⟨place', h, hsame⟩ := ih
    by_cases hrest : rest = []
    · subst hrest
      exact ⟨_, .link (hname hn) hnode rfl, fun hlink => by cases hlink⟩
    · exact ⟨place', .follow (hname hn) hnode (fun hend => hrest hend.1) htarget h, hsame⟩

/-- How a lookup goes on at a part that stands for the directory itself. -/
theorem Lookup.of_stay (hpart : part = [] ∨ part = [Text.dot])
    (h : Lookup w purpose links dir (part :: rest) place) :
    Lookup w purpose links dir rest place := by
  cases h with
  | stay _ hrest => exact hrest
  | up => exact absurd hpart (by decide)
  | free hname => exact absurd hpart hname.plain
  | file hname => exact absurd hpart hname.plain
  | link hname => exact absurd hpart hname.plain
  | enter hname => exact absurd hpart hname.plain
  | follow hname => exact absurd hpart hname.plain

theorem Lookup.of_up (h : Lookup w purpose links dir ([Text.dot, Text.dot] :: rest) place) :
    Lookup w purpose links dir.dropLast rest place := by
  cases h with
  | stay hpart => exact absurd hpart (by decide)
  | up hrest => exact hrest
  | free hname => exact absurd rfl hname.ne_dots
  | file hname => exact absurd rfl hname.ne_dots
  | link hname => exact absurd rfl hname.ne_dots
  | enter hname => exact absurd rfl hname.ne_dots
  | follow hname => exact absurd rfl hname.ne_dots

/-- The ways in which a lookup goes on at a name, by the entry that it finds there. -/
theorem Lookup.of_name (hplain : ¬(part = [] ∨ part = [Text.dot]))
    (hdots : part ≠ [Text.dot, Text.dot]) (h : Lookup w purpose links dir (part :: rest) place) :
    (w.node? (child dir part) = none ∧ rest = [] ∧ place = .free (child dir part)) ∨
    (∃ content mode, w.node? (child dir part) = some (.file content mode) ∧ rest = [] ∧
      place = .taken (child dir part) (.file content mode)) ∨
    (∃ target, w.node? (child dir part) = some (.link target) ∧ rest = [] ∧ purpose = .inspect ∧
      place = .taken (child dir part) (.link target)) ∨
    (w.node? (child dir part) = some .directory ∧
      Lookup w purpose links (child dir part) rest place) ∨
    ∃ target links', w.node? (child dir part) = some (.link target) ∧
      ¬(rest = [] ∧ purpose = .inspect) ∧
      Lookup w purpose links' (originOf dir target) (Path.parts target ++ rest) place := by
  cases h with
  | stay hpart => exact absurd hpart hplain
  | up => exact absurd rfl hdots
  | free _ hnode => exact .inl ⟨hnode, rfl, rfl⟩
  | file _ hnode => exact .inr (.inl ⟨_, _, hnode, rfl, rfl⟩)
  | link _ hnode hpurpose => exact .inr (.inr (.inl ⟨_, hnode, rfl, hpurpose, rfl⟩))
  | enter _ hnode hrest => exact .inr (.inr (.inr (.inl ⟨hnode, hrest⟩)))
  | follow _ hnode hgo _ hrest => exact .inr (.inr (.inr (.inr ⟨_, _, hnode, hgo, hrest⟩)))

section Next

variable (hplain : ¬(part = [] ∨ part = [Text.dot])) (hdots : part ≠ [Text.dot, Text.dot])
  (h : Lookup w purpose links dir (part :: rest) place)

include hplain hdots h

theorem Lookup.of_free (hnode : w.node? (child dir part) = none) :
    place = .free (child dir part) := by
  rcases h.of_name hplain hdots with ⟨_, _, hplace⟩ | ⟨_, _, hnode', _⟩ | ⟨_, hnode', _⟩ |
    ⟨hnode', _⟩ | ⟨_, _, hnode', _⟩
  · exact hplace
  all_goals cases hnode.symm.trans hnode'

theorem Lookup.of_file {content : Bytes} {mode : Mode}
    (hnode : w.node? (child dir part) = some (.file content mode)) :
    place = .taken (child dir part) (.file content mode) := by
  rcases h.of_name hplain hdots with ⟨hnode', _⟩ | ⟨_, _, hnode', _, hplace⟩ | ⟨_, hnode', _⟩ |
    ⟨hnode', _⟩ | ⟨_, _, hnode', _⟩
  · cases hnode.symm.trans hnode'
  · rw [hplace, Option.some.inj (hnode.symm.trans hnode')]
  all_goals cases hnode.symm.trans hnode'

theorem Lookup.of_directory (hnode : w.node? (child dir part) = some .directory) :
    Lookup w purpose links (child dir part) rest place := by
  rcases h.of_name hplain hdots with ⟨hnode', _⟩ | ⟨_, _, hnode', _⟩ | ⟨_, hnode', _⟩ |
    ⟨_, hrest⟩ | ⟨_, _, hnode', _⟩
  · cases hnode.symm.trans hnode'
  · cases hnode.symm.trans hnode'
  · cases hnode.symm.trans hnode'
  · exact hrest
  · cases hnode.symm.trans hnode'

theorem Lookup.of_link (hnode : w.node? (child dir part) = some (.link target)) :
    (rest = [] ∧ purpose = .inspect ∧ place.isLink = true) ∨
      ∃ links',
        Lookup w purpose links' (originOf dir target) (Path.parts target ++ rest) place := by
  rcases h.of_name hplain hdots with ⟨hnode', _⟩ | ⟨_, _, hnode', _⟩ |
    ⟨_, _, hrest, hpurpose, rfl⟩ | ⟨hnode', _⟩ | ⟨_, links', hnode', _, hrest⟩
  · cases hnode.symm.trans hnode'
  · cases hnode.symm.trans hnode'
  · exact .inl ⟨hrest, hpurpose, rfl⟩
  · cases hnode.symm.trans hnode'
  · obtain rfl := Node.link.inj (Option.some.inj (hnode.symm.trans hnode'))
    exact .inr ⟨links', hrest⟩

end Next

/-- Lookups of one path, for whatever purposes, find the same unless one of them finds a link. -/
theorem Lookup.unique (h : Lookup w purpose links dir parts place)
    (h' : Lookup w purpose' links' dir parts place') (hlink : place.isLink = false)
    (hlink' : place'.isLink = false) : place = place' := by
  induction h generalizing links' with
  | here =>
    cases h'
    rfl
  | stay hpart _ ih => exact ih (h'.of_stay hpart) hlink
  | up _ ih => exact ih h'.of_up hlink
  | free hname hnode => exact (h'.of_free hname.plain hname.ne_dots hnode).symm
  | file hname hnode => exact (h'.of_file hname.plain hname.ne_dots hnode).symm
  | link => cases hlink
  | enter hname hnode _ ih => exact ih (h'.of_directory hname.plain hname.ne_dots hnode) hlink
  | follow hname hnode _ _ _ ih =>
    rcases h'.of_link hname.plain hname.ne_dots hnode with ⟨_, _, hend⟩ | ⟨_, hrest'⟩
    · rw [hend] at hlink'
      cases hlink'
    · exact ih hrest' hlink

/-- A workspace with all the entries of another. -/
structure Extends (w w' : Workspace) : Prop where
  base : w'.base = w.base
  keeps : ∀ {l n}, w.node? l = some n → w'.node? l = some n

theorem Extends.refl (w : Workspace) : Extends w w := ⟨rfl, id⟩

/-- Where a path leads to an entry, it does so among further entries. -/
theorem Lookup.extends {n : Node} (h : Lookup w purpose links dir parts (.taken l n))
    (hext : Extends w w') : Lookup w' purpose links dir parts (.taken l n) := by
  generalize hplace : Place.taken l n = place at h
  induction h with
  | here => exact .here
  | stay hpart _ ih => exact .stay hpart (ih hplace)
  | up _ ih => exact .up (ih hplace)
  | free => cases hplace
  | file hname hnode => exact .file hname (hext.keeps hnode)
  | link hname hnode hpurpose => exact .link hname (hext.keeps hnode) hpurpose
  | enter hname hnode _ ih => exact .enter hname (hext.keeps hnode) (ih hplace)
  | follow hname hnode hgo htarget _ ih =>
    exact .follow hname (hext.keeps hnode) hgo htarget (ih hplace)

/-- Workspaces that are the same but for one location, which no path goes through. -/
structure SameBut (x : Location) (w w' : Workspace) : Prop where
  base : w'.base = w.base
  same : ∀ {l}, l ≠ x → w'.node? l = w.node? l
  not_directory : w.node? x ≠ some .directory
  not_link : ∀ target, w.node? x ≠ some (.link target)

theorem SameBut.node? {x : Location} {n : Node} (h : SameBut x w w') (hnode : w.node? l = some n)
    (hn : ∀ content mode, n ≠ .file content mode) : w'.node? l = some n := by
  rw [h.same, hnode]
  rintro rfl
  cases n with
  | directory => exact h.not_directory hnode
  | file content mode => exact hn content mode rfl
  | link target => exact h.not_link target hnode

/-- A path that leads to another location, or to a directory, leads there still. -/
theorem Lookup.elsewhere {x : Location} (h : Lookup w purpose links dir parts place)
    (hsame : SameBut x w w') (hx : place.location = x → place.entry? = some .directory) :
    Lookup w' purpose links dir parts place := by
  induction h with
  | here => exact .here
  | stay hpart _ ih => exact .stay hpart (ih hx)
  | up _ ih => exact .up (ih hx)
  | free hname hnode => exact .free hname ((hsame.same fun he => by cases hx he).trans hnode)
  | file hname hnode => exact .file hname ((hsame.same fun he => by cases hx he).trans hnode)
  | link hname hnode hpurpose =>
    exact .link hname ((hsame.same fun he => by cases hx he).trans hnode) hpurpose
  | enter hname hnode _ ih => exact .enter hname (hsame.node? hnode (by simp)) (ih hx)
  | follow hname hnode hgo htarget _ ih =>
    exact .follow hname (hsame.node? hnode (by simp)) hgo htarget (ih hx)

/-- A file, or a free name, stands where a path leads to it. -/
theorem Lookup.node?_eq (h : Lookup w purpose links dir parts place)
    (hplace : place.takesFile = true) : w.node? place.location = place.entry? := by
  induction h with
  | here => cases hplace
  | stay _ _ ih => exact ih hplace
  | up _ ih => exact ih hplace
  | free _ hnode => exact hnode
  | file _ hnode => exact hnode
  | link => cases hplace
  | enter _ _ _ ih => exact ih hplace
  | follow _ _ _ _ _ ih => exact ih hplace

/-- A path that leads to a file or a free name leads to what becomes of it. -/
theorem Lookup.changed (h : Lookup w purpose links dir parts place)
    (hplace : place.takesFile = true) (hsame : SameBut place.location w w')
    (hplace' : place'.takesFile = true) (hlocation : place'.location = place.location)
    (hnode' : w'.node? place.location = place'.entry?) :
    Lookup w' purpose links dir parts place' := by
  have hchild : ∀ {links dir part}, Names purpose part [] →
      w'.node? (child dir part) = place'.entry? → place'.location = child dir part →
      Lookup w' purpose links dir [part] place' := by
    intro links dir part hname hnode hlocation
    cases place' with
    | free =>
      obtain rfl := hlocation
      exact .free hname hnode
    | taken l n =>
      obtain rfl := hlocation
      cases n with
      | file => exact .file hname hnode
      | directory => cases hplace'
      | link => cases hplace'
  induction h with
  | here => cases hplace
  | stay hpart _ ih => exact .stay hpart (ih hplace hsame hlocation hnode')
  | up _ ih => exact .up (ih hplace hsame hlocation hnode')
  | free hname _ => exact hchild hname hnode' hlocation
  | file hname _ => exact hchild hname hnode' hlocation
  | link => cases hplace
  | enter hname hnode _ ih =>
    exact .enter hname (hsame.node? hnode (by simp)) (ih hplace hsame hlocation hnode')
  | follow hname hnode hgo htarget _ ih =>
    exact .follow hname (hsame.node? hnode (by simp)) hgo htarget
      (ih hplace hsame hlocation hnode')

/-- Where a path led to a free name, it leads to the directory that has been made there. -/
theorem Lookup.made {x : Location} (h : Lookup w purpose links dir parts (.free x))
    (hext : Extends w w') (hx : w'.node? x = some .directory) :
    Lookup w' purpose links dir parts (.taken x .directory) := by
  generalize hfree : Place.free x = p at h
  induction h with
  | here => cases hfree
  | stay hpart _ ih => exact .stay hpart (ih hfree)
  | up _ ih => exact .up (ih hfree)
  | free hname _ =>
    obtain rfl := Place.free.inj hfree
    exact .enter hname hx .here
  | file => cases hfree
  | link => cases hfree
  | enter hname hnode _ ih => exact .enter hname (hext.keeps hnode) (ih hfree)
  | follow hname hnode hgo htarget _ ih =>
    exact .follow hname (hext.keeps hnode) hgo htarget (ih hfree)

/-- Where a path led to a free name and a directory has been made, longer paths go on in the
directory. -/
theorem Lookup.past {x : Location} {more : List Text}
    (h : Lookup w .inspect links dir parts (.free x)) (hext : Extends w w')
    (hx : w'.node? x = some .directory)
    (h' : Lookup w' purpose links' dir (parts ++ more) place) :
    ∃ links'', Lookup w' purpose links'' x more place := by
  generalize hfree : Place.free x = p at h
  induction h generalizing links' with
  | here => cases hfree
  | stay hpart _ ih => exact ih (h'.of_stay hpart) hfree
  | up _ ih => exact ih h'.of_up hfree
  | free hname _ =>
    obtain rfl := Place.free.inj hfree
    exact ⟨_, h'.of_directory hname.plain hname.ne_dots hx⟩
  | file => cases hfree
  | link => cases hfree
  | enter hname hnode _ ih =>
    exact ih (h'.of_directory hname.plain hname.ne_dots (hext.keeps hnode)) hfree
  | @follow _ _ _ _ rest _ hname hnode hgo _ _ ih =>
    rcases h'.of_link hname.plain hname.ne_dots (hext.keeps hnode) with ⟨hnil, _⟩ | ⟨_, hrest'⟩
    · exact absurd ⟨(List.append_eq_nil_iff.mp hnil).1, rfl⟩ hgo
    · exact ih (by rw [List.append_assoc]; exact hrest') hfree

/-- A path with a slash at its end leads to no file. -/
theorem Lookup.ne_file (h : Lookup w .reach links dir parts place)
    (hlast : parts.getLast? = some []) {content : Bytes} {mode : Mode} :
    place ≠ .taken l (.file content mode) := by
  -- What is left of the parts still ends with the empty one, unless that was all.
  have hrest : ∀ {part : Text} {rest : List Text}, (part :: rest).getLast? = some [] →
      part ≠ [] → rest.getLast? = some [] := by
    intro part rest hlast hne
    cases rest with
    | nil => exact absurd (Option.some.inj hlast) hne
    | cons => rwa [List.getLast?_cons_cons] at hlast
  induction h with
  | here => simp
  | @stay _ _ _ rest _ _ hlookup ih =>
    cases rest with
    | nil =>
      cases hlookup
      simp
    | cons => exact ih (by rwa [List.getLast?_cons_cons] at hlast)
  | up _ ih => exact ih (hrest hlast (by simp))
  | free => simp
  | file hname => exact absurd (.inl (Option.some.inj hlast)) hname.plain
  | link _ _ hpurpose => cases hpurpose
  | enter hname _ _ ih => exact ih (hrest hlast fun he => hname.plain (.inl he))
  | follow hname _ _ _ _ ih =>
    have hend := hrest hlast fun he => hname.plain (.inl he)
    exact ih (by rw [List.getLast?_append, hend]; rfl)

/-- A path that leads to a file can be written. -/
theorem Lookup.write {content : Bytes} {mode : Mode}
    (h : Lookup w .reach links dir parts (.taken l (.file content mode))) :
    Lookup w .write links dir parts (.taken l (.file content mode)) := by
  generalize hplace : Place.taken l (.file content mode) = p at h
  have hname : ∀ {part : Text} {rest : List Text}, Names .reach part rest →
      (rest.getLast? ≠ some []) → Names .write part rest := by
    intro part rest hname hend
    refine ⟨hname.plain, hname.ne_dots, hname.length, ?_⟩
    rintro ⟨_, hne, hall⟩
    refine hend ?_
    rw [List.getLast?_eq_some_getLast hne]
    exact congrArg _ (List.isEmpty_iff.mp (List.all_eq_true.mp hall _ (List.getLast_mem hne)))
  induction h with
  | here => cases hplace
  | stay hpart _ ih => exact .stay hpart (ih hplace)
  | up _ ih => exact .up (ih hplace)
  | free => cases hplace
  | file hn hnode => exact .file (hname hn (by simp)) hnode
  | link _ _ hpurpose => cases hpurpose
  | enter hn hnode hlookup ih =>
    exact .enter (hname hn fun hend => hlookup.ne_file hend hplace.symm) hnode (ih hplace)
  | follow hn hnode hgo htarget hlookup ih =>
    refine .follow (hname hn fun hend => hlookup.ne_file ?_ hplace.symm) hnode (by simp) htarget
      (ih hplace)
    rw [List.getLast?_append, hend]
    rfl

/-- The parts before the last name of a path that leads somewhere lead to a directory. -/
theorem Lookup.directory {name : Text} (hplain : ¬(name = [] ∨ name = [Text.dot]))
    (hdots : name ≠ [Text.dot, Text.dot])
    (h : Lookup w .reach links dir (parts ++ [name]) place) :
    ∃ d, Lookup w .reach links dir parts (.taken d .directory) := by
  generalize hall : parts ++ [name] = all at h
  induction h generalizing parts with
  | here => exact absurd hall (by simp)
  | stay hpart _ ih =>
    rcases List.append_eq_cons_iff.mp hall with ⟨rfl, hlast⟩ | ⟨front, rfl, hrest⟩
    · exact absurd ((List.cons.inj hlast).1 ▸ hpart) hplain
    · obtain ⟨d, hd⟩ := ih hrest.symm
      exact ⟨d, .stay hpart hd⟩
  | up _ ih =>
    rcases List.append_eq_cons_iff.mp hall with ⟨rfl, hlast⟩ | ⟨front, rfl, hrest⟩
    · exact absurd (List.cons.inj hlast).1 hdots
    · obtain ⟨d, hd⟩ := ih hrest.symm
      exact ⟨d, .up hd⟩
  | free hname | file hname | link hname =>
    rcases List.append_eq_cons_iff.mp hall with ⟨rfl, _⟩ | ⟨front, rfl, hrest⟩
    · exact ⟨_, .here⟩
    · exact absurd hrest (by simp)
  | @enter _ _ _ rest _ hname hnode hlookup ih =>
    rcases List.append_eq_cons_iff.mp hall with ⟨rfl, _⟩ | ⟨front, rfl, hrest⟩
    · exact ⟨_, .here⟩
    · obtain ⟨d, hd⟩ := ih hrest.symm
      exact ⟨d, .enter ⟨hname.plain, hname.ne_dots, hname.length, by simp⟩ hnode hd⟩
  | follow hname hnode _ htarget hlookup ih =>
    rcases List.append_eq_cons_iff.mp hall with ⟨rfl, _⟩ | ⟨front, rfl, rfl⟩
    · exact ⟨_, .here⟩
    · obtain ⟨d, hd⟩ := ih (List.append_assoc _ _ _)
      exact ⟨d, .follow ⟨hname.plain, hname.ne_dots, hname.length, by simp⟩ hnode (by simp)
        htarget hd⟩

end Workspace

end LuaBundle
