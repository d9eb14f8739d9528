import LuaBundle.Proofs.Workspace.Tree

/-! Making directories. Nothing but directories on the way is added, and nothing stands yet in a
directory that has just been made. -/

namespace LuaBundle.Workspace

variable {w w' w'' : Workspace} {l x : Location} {n : Node} {content : Bytes} {path : Text}
  {names front : List Text}

/-- A directory on the way to the one with the given names. -/
def OnWay (w : Workspace) (names : List Text) (l : Location) : Prop :=
  ∃ front, front <+: names ∧ w.entry .reach (Path.render front) = .ok (l, .directory)

theorem OnWay.extends (h : OnWay w names l) (hext : Extends w w') : OnWay w' names l := by
  obtain ⟨front, hfront, hentry⟩ := h
  exact ⟨front, hfront, entry_extends hentry hext⟩

theorem OnWay.mono (h : OnWay w front l) (hfront : front <+: names) : OnWay w names l := by
  obtain ⟨first, hfirst, hentry⟩ := h
  exact ⟨first, hfirst.trans hfront, hentry⟩

/-- All that `w'` has besides what is in `w` is directories on the way to the one with the given
names. -/
structure MakesOnly (w w' : Workspace) (names : List Text) : Prop where
  base : w'.base = w.base
  only : ∀ l, w'.node? l = w.node? l ∨
    w.node? l = none ∧ w'.node? l = some .directory ∧ OnWay w' names l

theorem MakesOnly.refl (w : Workspace) (names : List Text) : MakesOnly w w names :=
  ⟨rfl, fun _ => .inl rfl⟩

theorem MakesOnly.extends (h : MakesOnly w w' names) : Extends w w' := by
  refine ⟨h.base, fun {l n} hl => ?_⟩
  rcases h.only l with hsame | ⟨hnone, _⟩
  · rw [hsame, hl]
  · cases hnone.symm.trans hl

theorem MakesOnly.mono (h : MakesOnly w w' front) (hfront : front <+: names) :
    MakesOnly w w' names := by
  refine ⟨h.base, fun l => (h.only l).imp_right ?_⟩
  exact fun ⟨hnone, hdirectory, hway⟩ => ⟨hnone, hdirectory, hway.mono hfront⟩

theorem MakesOnly.trans (h : MakesOnly w w' names) (h' : MakesOnly w' w'' names) :
    MakesOnly w w'' names := by
  refine ⟨h'.base.trans h.base, fun l => ?_⟩
  rcases h'.only l with hsame' | ⟨hnone, hdirectory, hway⟩
  · rcases h.only l with hsame | ⟨hnone, hdirectory, hway⟩
    · exact .inl (hsame'.trans hsame)
    · exact .inr ⟨hnone, hsame'.trans hdirectory, hway.extends h'.extends⟩
  · rcases h.only l with hsame | ⟨_, hdirectory', _⟩
    · exact .inr ⟨hsame.symm.trans hnone, hdirectory, hway⟩
    · cases hnone.symm.trans hdirectory'

theorem makeDirectory_eq_ok (h : w.makeDirectory path = .ok w') :
    ∃ x, w.locate .inspect path = .ok (.free x) ∧ w' = w.put x .directory := by
  unfold makeDirectory at h
  split at h
  · rename_i x hlocate
    exact ⟨x, hlocate, (Except.ok.inj h).symm⟩
  · cases h
  · cases h

theorem makeDirectory_extends (h : w.makeDirectory path = .ok w') : Extends w w' := by
  obtain ⟨x, hlocate, rfl⟩ := makeDirectory_eq_ok h
  exact extends_put (node?_of_locate hlocate rfl) _

/-- A directory that has been made is one that its path names, where nothing was. -/
structure MadeAt (w w' : Workspace) (path : Text) (x : Location) : Prop where
  locate : w.locate .inspect path = .ok (.free x)
  free : w.node? x = none
  put : w' = w.put x .directory
  entry : w'.entry .inspect path = .ok (x, .directory)

theorem exists_madeAt (h : w.makeDirectory path = .ok w') : ∃ x, MadeAt w w' path x := by
  have hext := makeDirectory_extends h
  obtain ⟨x, hlocate, rfl⟩ := makeDirectory_eq_ok h
  have hfree : w.node? x = none := node?_of_locate hlocate rfl
  have hnil : x ≠ [] := ne_nil_of_node? (w := w) (by simp [hfree])
  have hmade : (w.put x .directory).node? x = some .directory := by
    rw [node?_put hnil, if_pos rfl]
  have hentry := locate_imp hext.base (fun _ hlookup => hlookup.made hext hmade) hlocate
  exact ⟨x, hlocate, hfree, rfl, entry_eq_ok_iff.mpr hentry⟩

theorem MadeAt.ne_nil (h : MadeAt w w' path x) : x ≠ [] :=
  ne_nil_of_node? (w := w) (by simp [h.free])

/-- All else is as it was. -/
theorem MadeAt.node?_eq (h : MadeAt w w' path x) (hl : x ≠ l) : w'.node? l = w.node? l := by
  rw [h.put, node?_put h.ne_nil, if_neg hl]

theorem IsTree.makeDirectory (htree : IsTree w) (habs : Path.isAbsolute path = true)
    (h : w.makeDirectory path = .ok w') : IsTree w' := by
  obtain ⟨x, hlocate, rfl⟩ := makeDirectory_eq_ok h
  obtain ⟨hfree, hin⟩ := found_of_locate htree habs hlocate
  exact htree.put hin (by simp [hfree]) _

/-- Nothing stands at or below a location that is free. -/
theorem IsTree.node?_below (htree : IsTree w) (hx : w.node? x = none) (hl : x <+: l) :
    w.node? l = none := by
  cases hn : w.node? l with
  | none => rfl
  | some n =>
    by_cases he : x = l
    · rw [he, hn] at hx
      cases hx
    · cases hx.symm.trans (htree.above hn hl he)

/-- In a directory that has just been made every name is free. -/
theorem MadeAt.lookup {purpose : Purpose} {links : Nat} {names : List Text} {name : Text}
    {place : Place} (h : MadeAt w w' (Path.render names) x) (htree : IsTree w) (hne : names ≠ [])
    (hnames : Path.IsNames (names ++ [name]))
    (hlookup : Lookup w' purpose links [] (Path.parts (Path.render (names ++ [name]))) place) :
    place = .free (child x name) ∧ w'.node? (child x name) = none := by
  have hstands : w'.node? x = some .directory := by rw [h.put, node?_put h.ne_nil, if_pos rfl]
  have hext : Extends w w' := h.put ▸ extends_put h.free .directory
  rw [Path.parts_render_concat hne hnames] at hlookup
  obtain ⟨_, hrest⟩ :=
    (locate_eq_ok (Path.isAbsolute_render _) h.locate).past hext hstands hlookup
  have hname : Path.IsName name := hnames name (by simp)
  have hchild : w'.node? (child x name) = none := by
    rw [h.node?_eq (by simp)]
    exact htree.node?_below h.free (List.prefix_append x _)
  exact ⟨hrest.of_free (not_or.mpr ⟨hname.ne_nil, hname.ne_dot⟩) hname.ne_dots hchild, hchild⟩

/-- A directory that has just been made at a path. -/
def NewDirectory (w : Workspace) (path : Text) : Prop :=
  ∃ w₀, IsTree w₀ ∧ w₀.makeDirectory path = .ok w

/-- Nothing stands in a directory that has just been made. -/
theorem NewDirectory.lookup {purpose : Purpose} {links : Nat} {names : List Text} {name : Text}
    {place : Place} (h : NewDirectory w (Path.render names)) (hne : names ≠ [])
    (hnames : Path.IsNames (names ++ [name]))
    (hlookup : Lookup w purpose links [] (Path.parts (Path.render (names ++ [name]))) place) :
    w.node? place.location = none := by
  obtain ⟨w₀, htree, hmade⟩ := h
  obtain ⟨x, hmade⟩ := exists_madeAt hmade
  obtain ⟨rfl, hfree⟩ := hmade.lookup htree hne hnames hlookup
  exact hfree

theorem settle_eq_ok {below : Bool} {fault : Fault} (h : w.settle below path fault = .ok ()) :
    ∃ d, w.locate .reach path = .ok (.taken d .directory) := by
  unfold settle at h
  split at h
  · cases h
  · rename_i d hentry
    exact ⟨d, entry_eq_ok_iff.mp hentry⟩
  · cases h

theorem makeDirectory_makesOnly (h : w.makeDirectory (Path.render names) = .ok w') :
    MakesOnly w w' names := by
  have hext := makeDirectory_extends h
  obtain ⟨x, hmade⟩ := exists_madeAt h
  refine ⟨hext.base, fun l => ?_⟩
  by_cases hl : x = l
  · subst hl
    have hreach := entry_eq_ok_iff.mpr (locate_reach (entry_eq_ok_iff.mp hmade.entry) rfl)
    refine .inr ⟨hmade.free, ?_, names, List.prefix_rfl, hreach⟩
    rw [hmade.put, node?_put hmade.ne_nil, if_pos rfl]
  · exact .inl (hmade.node?_eq hl)

theorem makeChain_makesOnly (w : Workspace) (below : Bool) (names : List Text) :
    MakesOnly w (w.makeChain below names).2 names.reverse := by
  induction names generalizing below with
  | nil => exact .refl w _
  | cons name above ih =>
    have habove : above.reverse <+: (name :: above).reverse := by
      rw [List.reverse_cons]
      exact List.prefix_append _ _
    have hchain := (ih true).mono habove
    rw [makeChain]
    split
    · rename_i hmade
      exact makeDirectory_makesOnly hmade
    · exact .refl w _
    · split
      · rename_i hleft
        rwa [hleft] at hchain
      · rename_i hleft
        rw [hleft] at hchain
        split
        · rename_i hmade
          exact hchain.trans (makeDirectory_makesOnly hmade)
        · exact hchain
    · exact .refl w _

theorem makeDirectories_makesOnly (w : Workspace) (path : Text) :
    MakesOnly w (w.makeDirectories path).2 (Path.walk [] path) := by
  unfold makeDirectories
  split
  · have hchain := makeChain_makesOnly w false (Path.walk [] path).reverse
    rwa [List.reverse_reverse] at hchain
  · exact .refl w _

theorem makeDirectories_extends (w : Workspace) (path : Text) :
    Extends w (w.makeDirectories path).2 := (makeDirectories_makesOnly w path).extends

/-- What is left where directories were to be made: either they were there, or the last one is
new. -/
theorem makeChain_spec (htree : IsTree w) (below : Bool) {names : List Text}
    (hnames : Path.IsNames names.reverse) :
    IsTree (w.makeChain below names).2 ∧
      ((w.makeChain below names).1 = .ok () → (w.makeChain below names).2 = w ∨
        names ≠ [] ∧ NewDirectory (w.makeChain below names).2 (Path.render names.reverse)) := by
  induction names generalizing below with
  | nil => exact ⟨htree, fun _ => .inl rfl⟩
  | cons name above ih =>
    have habs := Path.isAbsolute_render (name :: above).reverse
    have hnames' : Path.IsNames above.reverse := fun n hn => hnames n (by
      rw [List.reverse_cons]
      exact List.mem_append_left _ hn)
    obtain ⟨hleft, hresult⟩ := ih true hnames'
    rw [makeChain]
    split
    · rename_i made hmade
      exact ⟨htree.makeDirectory habs hmade, fun _ => .inr ⟨by simp, w, htree, hmade⟩⟩
    · exact ⟨htree, fun _ => .inl rfl⟩
    · split
      · rename_i fault left hchain
        rw [hchain] at hleft
        exact ⟨hleft, fun h => by cases h⟩
      · rename_i left hchain
        rw [hchain] at hleft hresult
        split
        · rename_i made hmade
          exact ⟨hleft.makeDirectory habs hmade,
            fun _ => .inr ⟨by simp, left, hleft, hmade⟩⟩
        · rename_i fault _
          refine ⟨hleft, fun hsettled => ?_⟩
          rcases hresult rfl with rfl | ⟨hne, hnew⟩
          · exact .inl rfl
          · obtain ⟨d, hd⟩ := settle_eq_ok hsettled
            have hnone := hnew.lookup (by simpa using hne) (by simpa using hnames)
              (by simpa using locate_eq_ok habs hd)
            have hsome : left.node? d = some .directory := found_of_locate hleft habs hd
            cases hnone.symm.trans hsome
    · exact ⟨htree, fun _ => .inl rfl⟩

theorem IsTree.makeDirectories (htree : IsTree w) (path : Text) :
    IsTree (w.makeDirectories path).2 := by
  unfold Workspace.makeDirectories
  split
  · have hnames : Path.IsNames (Path.walk [] path).reverse.reverse := by
      rw [List.reverse_reverse]
      exact Path.isNames_walk (by simp [Path.IsNames]) path
    exact (makeChain_spec htree false hnames).1
  · exact htree

/-- A file that a path leads to once the directories above it have been made was there before. -/
theorem locate_of_makeDirectories {names : List Text} {mode : Mode} (htree : IsTree w)
    (hnames : Path.IsNames names)
    (hmade : w.makeDirectories (Path.parent (Path.render names)) = (.ok (), w'))
    (h : w'.locate .write (Path.render names) = .ok (.taken l (.file content mode))) :
    w.locate .reach (Path.render names) = .ok (.taken l (.file content mode)) := by
  have habs := Path.isAbsolute_render names
  have htree' := htree.makeDirectories (Path.parent (Path.render names))
  rw [hmade] at htree'
  rcases List.eq_nil_or_concat names with rfl | ⟨front, name, rfl⟩
  · have hroot := (locate_eq_ok habs h).of_stay (.inl rfl) |>.of_stay (.inl rfl)
    cases hroot
  · rw [List.concat_eq_append] at hmade h hnames habs ⊢
    have hfront : Path.IsNames front := fun n hn => hnames n (List.mem_append_left _ hn)
    rw [Path.parent_render hnames, makeDirectories, Path.walk_render hfront] at hmade
    split at hmade
    · obtain ⟨_, hresult⟩ := @makeChain_spec _ htree false front.reverse
        (by rwa [List.reverse_reverse])
      obtain ⟨hok, rfl⟩ := Prod.mk.inj hmade
      have hdone : (w.makeChain false front.reverse).1 = .ok () := by
        cases hres : (w.makeChain false front.reverse).1 with
        | ok => rfl
        | error fault => rw [hres] at hok; cases hok
      rcases hresult hdone with hsame | ⟨hne, hnew⟩
      · rw [hsame] at h
        exact locate_reach h rfl
      · rw [List.reverse_reverse] at hnew
        have hnone := hnew.lookup (by simpa using hne) hnames (locate_eq_ok habs h)
        have hsome := found_of_locate htree' habs h
        cases hnone.symm.trans hsome
    · cases (Prod.mk.inj hmade).1

end LuaBundle.Workspace
