import LuaBundle.Proofs.Workspace.Directories

/-! What the changes that a run makes leave of a file: writing, copying and removing spare it unless
the path they are given leads to it. -/

namespace LuaBundle.Workspace

variable {w w' : Workspace} {l x d : Location} {n : Node} {content : Content} {path : Text}
  {place : Place}

/-- A path leads to what stands at a location, directly or through links. -/
def LeadsTo (w : Workspace) (path : Text) (l : Location) : Prop :=
  ∃ n, w.entry .reach path = .ok (l, n)

/-- A path is the name of what stands at a location. -/
def StandsAt (w : Workspace) (path : Text) (l : Location) : Prop :=
  ∃ n, w.entry .inspect path = .ok (l, n)

/-- A file that is written at a path is none that stands at `l`. -/
def Avoids (w : Workspace) (path : Text) (l : Location) : Prop :=
  ∀ place, w.locate .write path = .ok place → place.takesFile = true → place.location ≠ l

section TakesFile

variable (hnode : w.node? place.location = place.entry?) (hplace : place.takesFile = true)

include hnode hplace

theorem node?_of_takesFile :
    w.node? place.location = none ∨
      ∃ bytes mode, w.node? place.location = some (.file bytes mode) := by
  cases place with
  | free x => exact .inl hnode
  | taken x n =>
    cases n with
    | file bytes mode => exact .inr ⟨bytes, mode, hnode⟩
    | directory => cases hplace
    | link target => cases hplace

theorem fileMode_of_takesFile :
    w.node? place.location = none ∧ place.fileMode = newFileMode ∨
      ∃ bytes, w.node? place.location = some (.file bytes place.fileMode) := by
  cases place with
  | free x => exact .inl ⟨hnode, rfl⟩
  | taken x n =>
    cases n with
    | file bytes mode => exact .inr ⟨bytes, hnode⟩
    | directory => cases hplace
    | link target => cases hplace

theorem not_directory_of_takesFile : w.node? place.location ≠ some .directory := by
  rcases node?_of_takesFile hnode hplace with h | ⟨_, _, h⟩ <;> simp [h]

theorem sameBut_put (n : Node) : SameBut place.location w (w.put place.location n) := by
  have hx := not_directory_of_takesFile hnode hplace
  refine ⟨rfl, fun {d} hd => ?_, hx, fun target => ?_⟩
  · rw [node?_put (ne_nil_of_node? hx), if_neg hd.symm]
  · rcases node?_of_takesFile hnode hplace with h | ⟨_, _, h⟩ <;> simp [h]

end TakesFile

/-- Before a file was put somewhere everything else was the same. -/
theorem sameBut_of_put (hx : w.node? x ≠ some .directory) (bytes : Bytes) (mode : Mode) :
    SameBut x (w.put x (.file bytes mode)) w := by
  have hnil := ne_nil_of_node? hx
  refine ⟨rfl, fun {d} hd => ?_, ?_, fun target => ?_⟩
  · rw [node?_put hnil, if_neg hd.symm]
  · rw [node?_put hnil, if_pos rfl]
    simp
  · rw [node?_put hnil, if_pos rfl]
    simp

/-- What a path is found to lead to stands there. -/
theorem node?_of_entry {purpose : Purpose} (h : w.entry purpose path = .ok (l, n))
    (hn : n ≠ .directory) : w.node? l = some n := by
  obtain ⟨_, _, hlookup⟩ := locate_eq_ok_iff.mp (entry_eq_ok_iff.mp h)
  exact hlookup.node? hn

/-! A file that stays. -/

/-- A tree in which a file with the given content stands at a location. -/
structure Intact (w : Workspace) (l : Location) (content : Content) : Prop where
  tree : IsTree w
  holds : Holds w l content

theorem Holds.ne_free (h : Holds w l content) (hx : w.node? x = none) : x ≠ l := by
  rintro rfl
  obtain ⟨_, hfile, _⟩ := h.file
  cases hx.symm.trans hfile

theorem Intact.makeDirectories (h : Intact w l content) (path : Text) :
    Intact (w.makeDirectories path).2 l content :=
  ⟨h.tree.makeDirectories path, h.holds.extends (makeDirectories_extends w path)⟩

theorem Intact.put (h : Intact w l content) (hfound : w.Found place)
    (hplace : place.takesFile = true) (hne : place.location ≠ l) (n : Node) :
    Intact (w.put place.location n) l content := by
  have hx := not_directory_of_takesFile hfound.node?_eq hplace
  exact ⟨h.tree.put (hfound.inDirectory h.tree hx) hx n, h.holds.put hx hne n⟩

theorem Intact.erase (h : Intact w l content) (hx : ¬x <+: l) : Intact (w.erase x) l content :=
  ⟨h.tree.erase x, h.holds.erase hx⟩

/-- Once the directories above it have been made, an output still avoids a file that its path did
not lead to. -/
theorem avoids_of_makeDirectories {names : List Text} (h : Intact w l content)
    (hnames : Path.IsNames names) (hleads : ¬LeadsTo w (Path.render names) l)
    (hmade : w.makeDirectories (Path.parent (Path.render names)) = (.ok (), w')) :
    Avoids w' (Path.render names) l := by
  have hafter := h.makeDirectories (Path.parent (Path.render names))
  rw [hmade] at hafter
  intro place hlocate hplace
  have hfound := found_of_locate hafter.tree (Path.isAbsolute_render names) hlocate
  cases place with
  | free x => exact hafter.holds.ne_free hfound.1
  | taken x n =>
    cases n with
    | file bytes mode =>
      rintro rfl
      exact hleads ⟨_, entry_eq_ok_iff.mpr (locate_of_makeDirectories h.tree hnames hmade hlocate)⟩
    | directory => cases hplace
    | link target => cases hplace

/-- Where a file that is written ends up. -/
theorem writeBytes_eq_ok {bytes : Bytes} (h : w.writeBytes path bytes = .ok w') :
    isPath path = true ∧ ∃ place, w.locate .write path = .ok place ∧
      place.takesFile = true ∧ w' = w.put place.location (.file bytes place.fileMode) := by
  unfold writeBytes at h
  split at h
  · rename_i hpath
    refine ⟨hpath, ?_⟩
    split at h
    · rename_i hlocate
      exact ⟨_, hlocate, rfl, (Except.ok.inj h).symm⟩
    · rename_i hlocate
      exact ⟨_, hlocate, rfl, (Except.ok.inj h).symm⟩
    · cases h
    · cases h
  · cases h

theorem Intact.writeText (h : Intact w l content) (habs : Path.isAbsolute path = true)
    (havoids : Avoids w path l) {t : Text} (hw : w.writeText path t = .ok w') :
    Intact w' l content := by
  obtain ⟨_, place, hlocate, hplace, rfl⟩ := writeBytes_eq_ok hw
  exact h.put (found_of_locate h.tree habs hlocate) hplace (havoids place hlocate hplace) _

theorem Intact.put_self (h : Intact w l content) {mode : Mode} (hmode : mode.readable = true) :
    Intact (w.put l (.file content.bytes mode)) l content := by
  obtain ⟨old, hfile, _⟩ := h.holds.file
  have hl : w.node? l ≠ some .directory := by simp [hfile]
  have hnil := ne_nil_of_node? hl
  refine ⟨h.tree.put (h.tree.inDirectory hfile hnil) hl _,
    ⟨mode, by rw [node?_put hnil, if_pos rfl], fun _ => hmode⟩, fun {d} hd hdl => ?_⟩
  rw [node?_put hnil, if_neg hdl.symm, h.holds.above hd hdl]

/-- A change of the mode of what a path leads to: only that of a file is kept. -/
theorem changeMode_eq_ok {mode : Mode} (h : w.changeMode path mode = .ok w') :
    w' = w ∨ ∃ x bytes old, w.locate .reach path = .ok (.taken x (.file bytes old)) ∧
      w' = w.put x (.file bytes mode) := by
  unfold changeMode at h
  split at h
  · split at h
    · rename_i hentry
      exact .inr ⟨_, _, _, entry_eq_ok_iff.mp hentry, (Except.ok.inj h).symm⟩
    · exact .inl (Except.ok.inj h).symm
    · cases h
  · cases h

/-- A file keeps its bytes when the mode of any is changed, and may be read if it could be. -/
theorem Intact.changeMode {mode : Mode} (h : Intact w l content)
    (habs : Path.isAbsolute path = true) (hmode : mode.readable = true)
    (hw : w.changeMode path mode = .ok w') : Intact w' l content := by
  rcases changeMode_eq_ok hw with rfl | ⟨x, bytes, old, hlocate, rfl⟩
  · exact h
  · have hfound := found_of_locate h.tree habs hlocate
    by_cases hxl : x = l
    · subst hxl
      obtain ⟨_, hfile, _⟩ := h.holds.file
      obtain ⟨rfl, _⟩ := Node.file.inj (Option.some.inj (hfile.symm.trans hfound))
      exact h.put_self hmode
    · exact h.put hfound rfl hxl _

/-- Removing what is no directory spares any other file. -/
theorem Intact.removeFile (h : Intact w l content) (hpath : ¬StandsAt w path l)
    (hw : w.removeFile path = .ok w') : Intact w' l content := by
  unfold Workspace.removeFile at hw
  split at hw
  · split at hw
    · cases hw
    · rename_i x n hne hentry
      have hx := node?_of_entry hentry fun he => hne (he ▸ rfl)
      refine Except.ok.inj hw ▸ h.erase (h.holds.not_prefix ?_ fun he => hpath ⟨n, he ▸ hentry⟩)
      rw [hx]
      exact fun he => hne (Option.some.inj he)
    · exact Except.ok.inj hw ▸ h
    · cases hw
  · cases hw

/-- A path that a file has just been written to names neither another file nor a directory above
it. -/
theorem Intact.not_above {bytes : Bytes} {mode : Mode} (h : Intact w l content)
    (habs : Path.isAbsolute path = true) (hlocate : w.locate .write path = .ok place)
    (hplace : place.takesFile = true) (hne : place.location ≠ l)
    (hentry : (w.put place.location (.file bytes mode)).entry .inspect path = .ok (d, n)) :
    ¬d <+: l := by
  intro hd
  have hfound := found_of_locate h.tree habs hlocate
  have hx := not_directory_of_takesFile (node?_of_locate hlocate hplace) hplace
  have hafter := h.put hfound hplace hne (.file bytes mode)
  have hxd : d ≠ place.location := fun he => h.holds.not_prefix hx hne (he ▸ hd)
  have hplain : place.isLink = false := by
    cases place with
    | free => rfl
    | taken _ m => cases m <;> first | rfl | cases hplace
  have hdn : (w.put place.location (.file bytes mode)).node? d = some n :=
    found_of_locate hafter.tree habs (entry_eq_ok_iff.mp hentry)
  have hn : (Place.taken d n).isLink = false := by
    by_cases hdl : d = l
    · obtain ⟨_, hfile, _⟩ := hafter.holds.file
      rw [hdl, hfile] at hdn
      rw [← Option.some.inj hdn]
      rfl
    · rw [hafter.holds.above hd hdl] at hdn
      rw [← Option.some.inj hdn]
      rfl
  have hbefore := (locate_eq_ok habs (entry_eq_ok_iff.mp hentry)).elsewhere
    (sameBut_of_put hx bytes mode) fun he => absurd he hxd
  have hsame := hbefore.unique (locate_eq_ok habs hlocate) hn hplain
  exact hxd (congrArg Place.location hsame)

/-- What is left of a copy: nothing has changed, or the target is written; one that could not be
written to the end is removed again. -/
theorem copyFile_cases (w : Workspace) (source target : Text) :
    (w.copyFile source target).2 = w ∨
    ∃ place bytes mode, w.locate .write target = .ok place ∧ place.takesFile = true ∧
      ((w.copyFile source target).2 = w.put place.location (.file bytes mode) ∨
        (w.copyFile source target).1 ≠ .ok () ∧ (w.copyFile source target).2 =
          (w.put place.location (.file bytes mode)).removeAll target) := by
  unfold Workspace.copyFile
  split
  · exact .inl rfl
  · split
    · exact .inl rfl
    · unfold copyPath
      simp only
      split
      · exact .inl rfl
      · rename_i sourceLocation node _
        split
        · exact .inl rfl
        · exact .inl rfl
        · exact .inl rfl
        · rename_i hlocate
          split
          · split
            · exact .inl rfl
            · exact .inr ⟨_, _, _, hlocate, rfl, .inl rfl⟩
          · exact .inr ⟨_, _, _, hlocate, rfl, .inr ⟨by simp, rfl⟩⟩
        · rename_i hlocate
          split
          · split
            · exact .inl rfl
            · exact .inr ⟨_, _, _, hlocate, rfl, .inl rfl⟩
          · exact .inr ⟨_, _, _, hlocate, rfl, .inr ⟨by simp, rfl⟩⟩

/-- Copying onto a path spares a file that stands elsewhere. -/
theorem Intact.copyFile (h : Intact w l content) {source target : Text}
    (habs : Path.isAbsolute target = true) (havoids : Avoids w target l) :
    Intact (w.copyFile source target).2 l content := by
  rcases copyFile_cases w source target with hsame | ⟨place, bytes, mode, hlocate, hplace, hput⟩
  · rwa [hsame]
  · have hne := havoids place hlocate hplace
    have hafter := h.put (found_of_locate h.tree habs hlocate) hplace hne (.file bytes mode)
    rcases hput with hput | ⟨_, hremoved⟩
    · rwa [hput]
    · rw [hremoved, removeAll]
      split
      · rename_i hentry
        exact hafter.erase (h.not_above habs hlocate hplace hne hentry)
      · exact hafter

/-! Paths that go on to lead where they led. -/

/-- A path that leads to another place leads there still. -/
theorem SameBut.locate {purpose : Purpose} (hsame : SameBut x w w') (hx : place.location ≠ x)
    (h : w.locate purpose path = .ok place) : w'.locate purpose path = .ok place :=
  locate_imp hsame.base (fun _ hlookup => hlookup.elsewhere hsame fun he => absurd he hx) h

/-- A path that leads to a file or a free name leads to what becomes of it. -/
theorem SameBut.locate_changed {purpose : Purpose} {place' : Place}
    (hsame : SameBut place.location w w') (hplace : place.takesFile = true)
    (hplace' : place'.takesFile = true) (hlocation : place'.location = place.location)
    (hnode' : w'.node? place.location = place'.entry?) (h : w.locate purpose path = .ok place) :
    w'.locate purpose path = .ok place' :=
  locate_imp hsame.base
    (fun _ hlookup => hlookup.changed hplace hsame hplace' hlocation hnode') h

theorem SameBut.entry {purpose : Purpose} (hsame : SameBut x w w') (hl : l ≠ x)
    (h : w.entry purpose path = .ok (l, n)) : w'.entry purpose path = .ok (l, n) :=
  entry_eq_ok_iff.mpr (hsame.locate hl (entry_eq_ok_iff.mp h))

/-- A path that leads to a directory leads there still. -/
theorem SameBut.entry_directory {purpose : Purpose} (hsame : SameBut x w w')
    (h : w.entry purpose path = .ok (d, .directory)) :
    w'.entry purpose path = .ok (d, .directory) :=
  entry_eq_ok_iff.mpr (locate_imp hsame.base
    (fun _ hlookup => hlookup.elsewhere hsame fun _ => rfl) (entry_eq_ok_iff.mp h))

/-- A path that leads to a file led to the file that was there before. -/
theorem SameBut.entry_replaced {purpose : Purpose} {bytes old : Bytes} {mode mode' : Mode}
    (hsame : SameBut l w w') (hl : w'.node? l = some (.file old mode'))
    (h : w.entry purpose path = .ok (l, .file bytes mode)) :
    w'.entry purpose path = .ok (l, .file old mode') := by
  have hplace : SameBut (Place.taken l (.file bytes mode)).location w w' := hsame
  exact entry_eq_ok_iff.mpr (hplace.locate_changed rfl rfl rfl hl (entry_eq_ok_iff.mp h))

/-- A path leads where it led while a file stands where the change was. -/
theorem SameBut.exists_entry {purpose : Purpose} {bytes : Bytes} {mode : Mode}
    (hsame : SameBut x w w') (hx : w'.node? x = some (.file bytes mode))
    (h : w.entry purpose path = .ok (l, n)) : ∃ n', w'.entry purpose path = .ok (l, n') := by
  by_cases hl : l = x
  · subst hl
    cases n with
    | directory => exact ⟨_, hsame.entry_directory h⟩
    | file => exact ⟨_, hsame.entry_replaced hx h⟩
    | link target => exact absurd (node?_of_entry h (by simp)) (hsame.not_link target)
  · exact ⟨n, hsame.entry hl h⟩

/-- A path that leads somewhere is the name of something. -/
theorem exists_entry_inspect (h : w.entry .reach path = .ok (l, n)) :
    ∃ d m, w.entry .inspect path = .ok (d, m) := by
  obtain ⟨hne, hlength, hlookup⟩ := locate_eq_ok_iff.mp (entry_eq_ok_iff.mp h)
  obtain ⟨place, hplace, hsame⟩ := hlookup.inspect
  cases place with
  | taken d m => exact ⟨d, m, entry_eq_ok_iff.mpr (locate_eq_ok_iff.mpr ⟨hne, hlength, hplace⟩)⟩
  | free => cases hsame rfl

/-- A path that leads somewhere names what it named when more entries have been added. -/
theorem not_standsAt_of_extends {e : Location × Node} (hexists : w.entry .reach path = .ok e)
    (hext : Extends w w') (h : ¬StandsAt w path l) : ¬StandsAt w' path l := by
  rintro ⟨n, hn⟩
  obtain ⟨d, m, hd⟩ := exists_entry_inspect (l := e.1) (n := e.2) hexists
  obtain ⟨rfl, rfl⟩ := Prod.mk.inj (Except.ok.inj ((entry_extends hd hext).symm.trans hn))
  exact h ⟨_, hd⟩

/-- A path that does not name a file names it neither after something has been copied elsewhere. -/
theorem not_standsAt_of_copyFile {source target : Text} (havoids : Avoids w target l)
    (hcopied : w.copyFile source target = (.ok (), w')) (hpath : ¬StandsAt w path l) :
    ¬StandsAt w' path l := by
  obtain ⟨hok, rfl⟩ := Prod.mk.inj
    (show ((w.copyFile source target).1, (w.copyFile source target).2) = (.ok (), w') from hcopied)
  rcases copyFile_cases w source target with hsame | ⟨place, bytes, mode, hlocate, hplace, hput⟩
  · rwa [hsame]
  · rcases hput with hput | ⟨hfailed, _⟩
    · rintro ⟨n, hn⟩
      have hx := not_directory_of_takesFile (node?_of_locate hlocate hplace) hplace
      rw [hput] at hn
      exact hpath ⟨n, (sameBut_of_put hx bytes mode).entry (havoids place hlocate hplace).symm hn⟩
    · exact absurd hok hfailed

/-- Removing what a path names leaves what stands at `l`. -/
structure Clear (w : Workspace) (path : Text) (l : Location) : Prop where
  not_above : ∀ {d n}, w.entry .inspect path = .ok (d, n) → ¬d <+: l

theorem Intact.removeAll (h : Intact w l content) (hclear : Clear w path l) :
    Intact (w.removeAll path) l content := by
  unfold Workspace.removeAll
  split
  · rename_i hentry
    exact h.erase (hclear.not_above hentry)
  · exact h

/-- Where a file is given another mode, paths lead where they led. -/
theorem Clear.changeMode {other : Text} {mode : Mode} (hclear : Clear w path l)
    (h : Intact w l content) (habs : Path.isAbsolute path = true)
    (habs' : Path.isAbsolute other = true) (hmode : mode.readable = true)
    (hw : w.changeMode other mode = .ok w') : Clear w' path l := by
  rcases changeMode_eq_ok hw with rfl | ⟨x, bytes, old, hlocate, rfl⟩
  · exact hclear
  · refine ⟨fun {d n} hentry hd => ?_⟩
    have hafter := h.changeMode habs' hmode hw
    have hfile : w.node? x = some (.file bytes old) := found_of_locate h.tree habs' hlocate
    have hx : w.node? x ≠ some .directory := by simp [hfile]
    have hsame := sameBut_of_put hx bytes mode
    by_cases hdx : d = x
    · subst hdx
      have hn : (w.put d (.file bytes mode)).node? d = some n :=
        found_of_locate hafter.tree habs (entry_eq_ok_iff.mp hentry)
      rw [node?_put (ne_nil_of_node? hx), if_pos rfl] at hn
      obtain rfl := Option.some.inj hn
      exact hclear.not_above (hsame.entry_replaced hfile hentry) hd
    · exact hclear.not_above (hsame.entry hdx hentry) hd

/-- A path is the name of a directory that is not above what stands at `l`. -/
def Apart (w : Workspace) (path : Text) (l : Location) : Prop :=
  ∃ d, w.entry .inspect path = .ok (d, .directory) ∧ ¬d <+: l

theorem Apart.clear (h : Apart w path l) : Clear w path l := by
  obtain ⟨d, hd, hapart⟩ := h
  refine ⟨fun {d' n} hentry => ?_⟩
  obtain ⟨rfl, _⟩ := Prod.mk.inj (Except.ok.inj (hd.symm.trans hentry))
  exact hapart

theorem Apart.extends (h : Apart w path l) (hext : Extends w w') : Apart w' path l := by
  obtain ⟨d, hd, hapart⟩ := h
  exact ⟨d, entry_extends hd hext, hapart⟩

/-- A directory has its name also after a file has been written. -/
theorem Apart.writeText {other t : Text} (h : Apart w path l) (htree : IsTree w)
    (habs : Path.isAbsolute path = true) (hw : w.writeText other t = .ok w') : Apart w' path l := by
  obtain ⟨d, hd, hapart⟩ := h
  obtain ⟨_, place, hlocate, hplace, rfl⟩ := writeBytes_eq_ok hw
  have hnode := node?_of_locate hlocate hplace
  have hdir : w.node? d = some .directory := found_of_locate htree habs (entry_eq_ok_iff.mp hd)
  have hne : d ≠ place.location := by
    rintro rfl
    exact not_directory_of_takesFile hnode hplace hdir
  exact ⟨d, (sameBut_put hnode hplace _).entry hne hd, hapart⟩

theorem makeTemporary_eq_ok (h : w.makeTemporary path = .ok w') :
    w.makeDirectory path = .ok w' := by
  cases hmade : w.makeDirectory path with
  | ok made =>
    rw [Workspace.makeTemporary, hmade] at h
    exact congrArg _ (Except.ok.inj h)
  | error fault =>
    rw [Workspace.makeTemporary, hmade] at h
    cases h

/-- A new directory is not above a file that was there before it. -/
theorem Intact.makeTemporary (h : Intact w l content) (habs : Path.isAbsolute path = true)
    (hw : w.makeTemporary path = .ok w') :
    Intact w' l content ∧ NewDirectory w' path ∧ Apart w' path l := by
  have hmade := makeTemporary_eq_ok hw
  have hext := makeDirectory_extends hmade
  have htree := h.tree.makeDirectory habs hmade
  obtain ⟨x, hx⟩ := exists_madeAt hmade
  exact ⟨⟨htree, h.holds.extends hext⟩, ⟨w, h.tree, hmade⟩, x, hx.entry,
    h.holds.not_prefix (by simp [hx.free]) (h.holds.ne_free hx.free)⟩

/-- No file that is in a directory has its path when the directory is new. -/
theorem NewDirectory.not_leadsTo {names : List Text} {name : Text}
    (h : NewDirectory w (Path.render names)) (htree : IsTree w) (hne : names ≠ [])
    (hnames : Path.IsNames (names ++ [name])) :
    ¬LeadsTo w (Path.render (names ++ [name])) l := by
  rintro ⟨n, hn⟩
  have habs := Path.isAbsolute_render (names ++ [name])
  have hlocate := entry_eq_ok_iff.mp hn
  have hnone := h.lookup hne hnames (locate_eq_ok habs hlocate)
  have hsome : w.node? l = some n := found_of_locate htree habs hlocate
  cases hnone.symm.trans hsome

end LuaBundle.Workspace
