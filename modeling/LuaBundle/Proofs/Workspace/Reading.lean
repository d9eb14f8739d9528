import LuaBundle.Proofs.Text.Utf8
import LuaBundle.Proofs.Workspace.Change

/-! What is read from a workspace after a change: at a path that was written or copied to, what was
put there, and at any other that still leads somewhere, what was there before. -/

namespace LuaBundle.Workspace

variable {w w' : Workspace} {l x : Location} {n : Node} {content : Bytes} {mode : Mode}
  {path source target : Text} {place : Place}

/-- A path leads to a regular file with the given bytes, which may be read or not. -/
def HasBytes (w : Workspace) (path : Text) (content : Bytes) : Prop :=
  isPath path = true ∧ ∃ l mode, w.entry .reach path = .ok (l, .file content mode)

/-- A file is opened just if it may be read. -/
theorem opened_of_file (h : w.entry .reach path = .ok (l, .file content mode)) : w.opened path =
    if mode.readable then .ok (l, .file content mode) else .error .accessDenied := by
  rw [opened, h]

theorem opened_eq_ok_file : w.opened path = .ok (l, .file content mode) ↔
    w.entry .reach path = .ok (l, .file content mode) ∧ mode.readable = true := by
  unfold opened
  split
  · rename_i hentry
    rw [hentry]
    split
    · rename_i hread
      constructor
      · rintro ⟨⟩
        exact ⟨rfl, hread⟩
      · exact fun h => h.1
    · rename_i hdenied
      constructor
      · rintro ⟨⟩
      · rintro ⟨⟨⟩, hread⟩
        exact absurd hread hdenied
  · rename_i hother
    exact ⟨fun h => absurd h (hother l content mode), fun h => absurd h.1 (hother l content mode)⟩

theorem readBytes_eq_ok : w.readBytes path = .ok content ↔ isPath path = true ∧
    ∃ l mode, w.entry .reach path = .ok (l, .file content mode) ∧ mode.readable = true := by
  simp only [← opened_eq_ok_file]
  unfold readBytes
  split
  · rename_i hpath
    split <;> rename_i hentry <;> simp_all
  · rename_i hpath
    simp [hpath]

/-- A path leads to a regular file that the process may read. -/
def LeadsToReadable (w : Workspace) (path : Text) : Prop :=
  isPath path = true ∧ ∃ l content mode, w.entry .reach path = .ok (l, .file content mode) ∧
    mode.readable = true

theorem isReadable_iff : w.isReadable path = true ↔ w.LeadsToReadable path := by
  rw [isReadable, Bool.and_eq_true, LeadsToReadable]
  refine and_congr_right fun _ => ?_
  constructor
  · intro hread
    split at hread
    · rename_i l content mode hentry
      exact ⟨l, content, mode, hentry, hread⟩
    · cases hread
  · rintro ⟨l, content, mode, hentry, hread⟩
    rw [hentry]
    exact hread

theorem isReadable_of_file (h : w.entry .reach path = .ok (l, .file content mode)) :
    w.isReadable path = (isPath path && mode.readable) := by
  rw [isReadable, h]

/-- The check of a file is right: what passes it can be read, and nothing else can. -/
theorem isReadable_iff_readBytes :
    w.isReadable path = true ↔ ∃ content, w.readBytes path = .ok content := by
  simp only [isReadable_iff, LeadsToReadable, readBytes_eq_ok]
  constructor
  · rintro ⟨hpath, l, content, mode, hfile⟩
    exact ⟨content, hpath, l, mode, hfile⟩
  · rintro ⟨content, hpath, l, mode, hfile⟩
    exact ⟨hpath, l, content, mode, hfile⟩

theorem hasBytes_of_readBytes (h : w.readBytes path = .ok content) : HasBytes w path content := by
  obtain ⟨hpath, l, mode, hentry, _⟩ := readBytes_eq_ok.mp h
  exact ⟨hpath, l, mode, hentry⟩

theorem HasBytes.readBytes (h : HasBytes w path content) (hread : w.isReadable path = true) :
    w.readBytes path = .ok content := by
  obtain ⟨hpath, l, mode, hentry⟩ := h
  obtain ⟨_, l', content', mode', hentry', hmode⟩ := isReadable_iff.mp hread
  obtain ⟨rfl, hfile⟩ := Prod.mk.inj (Except.ok.inj (hentry.symm.trans hentry'))
  obtain ⟨rfl, rfl⟩ := Node.file.inj hfile
  exact readBytes_eq_ok.mpr ⟨hpath, l, mode, hentry, hmode⟩

theorem pathExists_iff : w.pathExists path = true ↔
    isPath path = true ∧ ∃ l n, w.entry .reach path = .ok (l, n) := by
  rw [pathExists, Bool.and_eq_true]
  refine and_congr_right fun _ => ?_
  cases hentry : w.entry .reach path with
  | ok found => exact ⟨fun _ => ⟨found.1, found.2, rfl⟩, fun _ => rfl⟩
  | error fault => simp [Except.toBool]

theorem HasBytes.pathExists (h : HasBytes w path content) : w.pathExists path = true := by
  obtain ⟨hpath, l, mode, hentry⟩ := h
  exact pathExists_iff.mpr ⟨hpath, l, _, hentry⟩

theorem Extends.readBytes (hext : Extends w w') (h : w.readBytes path = .ok content) :
    w'.readBytes path = .ok content := by
  obtain ⟨hpath, l, mode, hentry, hmode⟩ := readBytes_eq_ok.mp h
  exact readBytes_eq_ok.mpr ⟨hpath, l, mode, entry_extends hentry hext, hmode⟩

theorem Extends.readText {text : Text} (hext : Extends w w') (h : w.readText path = .ok text) :
    w'.readText path = .ok text := by
  rw [Workspace.readText] at h ⊢
  cases hread : w.readBytes path with
  | error error =>
    rw [hread] at h
    cases h
  | ok content =>
    rw [hread] at h
    rw [hext.readBytes hread]
    exact h

theorem Extends.pathExists (hext : Extends w w') (h : w.pathExists path = true) :
    w'.pathExists path = true := by
  obtain ⟨hpath, l, n, hentry⟩ := pathExists_iff.mp h
  exact pathExists_iff.mpr ⟨hpath, l, n, entry_extends hentry hext⟩

/-- What is still there where entries have been removed is what was there. -/
theorem Extends.readBytes_of_pathExists (hext : Extends w w') (hexists : w.pathExists path = true)
    (h : w'.readBytes path = .ok content) : w.readBytes path = .ok content := by
  obtain ⟨hpath, l, mode, hentry, hmode⟩ := readBytes_eq_ok.mp h
  obtain ⟨_, l', n, hleft⟩ := pathExists_iff.mp hexists
  obtain ⟨rfl, rfl⟩ := Prod.mk.inj (Except.ok.inj ((entry_extends hleft hext).symm.trans hentry))
  exact readBytes_eq_ok.mpr ⟨hpath, l', mode, hleft, hmode⟩

/-! Written and copied files. -/

/-- A file that has been put where a path leads is what the path leads to. -/
theorem entry_put (hlocate : w.locate .write path = .ok place) (hplace : place.takesFile = true)
    (content : Bytes) (mode : Mode) :
    (w.put place.location (.file content mode)).entry .reach path =
      .ok (place.location, .file content mode) := by
  have hnode := node?_of_locate hlocate hplace
  have hput : (w.put place.location (.file content mode)).node? place.location =
      some (.file content mode) := by
    rw [node?_put (ne_nil_of_node? (not_directory_of_takesFile hnode hplace)), if_pos rfl]
  have hsame := sameBut_put hnode hplace (.file content mode)
  exact entry_eq_ok_iff.mpr (locate_reach (hsame.locate_changed hplace rfl rfl hput hlocate) rfl)

theorem hasBytes_writeBytes (h : w.writeBytes path content = .ok w') :
    HasBytes w' path content := by
  obtain ⟨hpath, place, hlocate, hplace, rfl⟩ := writeBytes_eq_ok h
  exact ⟨hpath, _, _, entry_put hlocate hplace content _⟩

/-- A file that has been written is read as what was written, unless it was there before and may not
be read. -/
theorem readBytes_writeBytes (h : w.writeBytes path content = .ok w')
    (hmode : ∀ place, w.locate .write path = .ok place → place.fileMode.readable = true) :
    w'.readBytes path = .ok content := by
  obtain ⟨hpath, place, hlocate, hplace, rfl⟩ := writeBytes_eq_ok h
  exact readBytes_eq_ok.mpr ⟨hpath, _, _, entry_put hlocate hplace content _, hmode place hlocate⟩

/-- A file that may be read is copied to a place that takes it, or nothing is changed; onto itself
it is not copied. -/
theorem copyFile_of_file (h : w.entry .reach source = .ok (l, .file content mode)) :
    (∃ error, w.copyFile source target = (.error error, w)) ∨
    mode.readable = true ∧ ∃ place, isPath target = true ∧ w.locate .write target = .ok place ∧
      place.takesFile = true ∧ w.copyFile source target = (.ok (),
        if place.location = l then w else w.put place.location (.file content mode)) := by
  unfold copyFile
  split
  · exact .inl ⟨_, rfl⟩
  · split
    · exact .inl ⟨_, rfl⟩
    · rename_i htarget
      rw [copyPath, opened_of_file h]
      by_cases hmode : mode.readable = true
      case neg =>
        rw [if_neg hmode]
        exact .inl ⟨_, rfl⟩
      simp only [if_pos hmode]
      cases hlocate : w.locate .write target with
      | error fault => exact .inl ⟨_, rfl⟩
      | ok place =>
        cases hplace : place.takesFile with
        | false =>
          refine .inl ⟨.failed .isDirectory (.copy source target), ?_⟩
          cases place with
          | free => cases hplace
          | taken _ node =>
            cases node with
            | file => cases hplace
            | directory => rfl
            | link => rfl
        | true =>
          refine .inr ⟨hmode, place, by simpa using htarget, rfl, hplace, ?_⟩
          cases place with
          | free x => by_cases hx : x = l <;> simp [Place.location, hx]
          | taken x node =>
            cases node with
            | file => by_cases hx : x = l <;> simp [Place.location, hx]
            | directory => cases hplace
            | link => cases hplace

/-- A file is not copied onto itself, by whatever path. -/
theorem copyFile_self (hsource : w.entry .reach source = .ok (l, .file content mode))
    (htarget : w.entry .reach target = .ok (l, .file content mode))
    (hmode : mode.readable = true) (hpath : isPath source = true) (hpath' : isPath target = true) :
    w.copyFile source target = (.ok (), w) := by
  have hwrite : w.locate .write target = .ok (.taken l (.file content mode)) :=
    locate_imp rfl (fun _ hlookup => hlookup.write) (entry_eq_ok_iff.mp htarget)
  rw [copyFile, if_neg (by simp [hpath]), if_neg (by simp [hpath']), copyPath]
  simp only [opened_eq_ok_file.mpr ⟨hsource, hmode⟩, hwrite, if_pos]

/-- Only a file that may be read is copied. -/
theorem isReadable_of_copyFile (h : w.copyFile source target = (.ok (), w')) :
    w.isReadable source = true := by
  unfold copyFile copyPath at h
  split at h
  · cases h
  split at h
  · cases h
  rename_i hsource _
  split at h
  · cases h
  rename_i hopened
  split at h
  · cases h
  · cases h
  · cases h
  all_goals
    split at h
    · obtain ⟨hentry, hmode⟩ := opened_eq_ok_file.mp hopened
      exact isReadable_iff.mpr ⟨by simpa using hsource, _, _, _, hentry, hmode⟩
    · cases h

theorem readBytes_copyFile (h : w.copyFile source target = (.ok (), w'))
    (hread : w.readBytes source = .ok content) : w'.readBytes target = .ok content := by
  obtain ⟨_, l, mode, hentry, hmode⟩ := readBytes_eq_ok.mp hread
  rcases @copyFile_of_file _ _ _ _ _ target hentry with ⟨_, hfailed⟩ |
    ⟨_, place, hpath, hlocate, hplace, hcopied⟩
  · cases h.symm.trans hfailed
  · obtain rfl := (Prod.mk.inj (h.symm.trans hcopied)).2
    refine readBytes_eq_ok.mpr ⟨hpath, ?_⟩
    split
    · rename_i hl
      have hnode := node?_of_locate hlocate hplace
      rw [hl, node?_of_entry hentry (by simp)] at hnode
      cases place with
      | free => cases hnode
      | taken x node =>
        obtain rfl : x = l := hl
        obtain rfl := Option.some.inj hnode
        exact ⟨x, mode, entry_eq_ok_iff.mpr (locate_reach hlocate rfl), hmode⟩
    · exact ⟨_, _, entry_put hlocate hplace content mode, hmode⟩

/-! Modes. -/

section Mode

variable {old : Mode} (h : w.entry .reach path = .ok (l, .file content old)) (mode : Mode)

include h

theorem changeMode_of_file (hpath : isPath path = true) :
    w.changeMode path mode = .ok (w.put l (.file content mode)) := by
  rw [changeMode, if_pos hpath, h]

theorem sameBut_put_mode : SameBut l w (w.put l (.file content mode)) :=
  @sameBut_put w (.taken l (.file content old)) (node?_of_entry h (by simp)) rfl _

theorem entry_put_mode :
    (w.put l (.file content mode)).entry .reach path = .ok (l, .file content mode) := by
  have hsame := sameBut_put_mode h mode
  refine hsame.entry_replaced ?_ h
  rw [node?_put (ne_nil_of_node? hsame.not_directory), if_pos rfl]

end Mode

/-- A file that has been given a mode to be read has the bytes that it had before. -/
theorem readBytes_changeMode (h : w.changeMode path mode = .ok w') (hmode : mode.readable = true)
    (hbytes : HasBytes w path content) : w'.readBytes path = .ok content := by
  obtain ⟨hpath, l, old, hentry⟩ := hbytes
  rw [changeMode_of_file hentry mode hpath] at h
  obtain rfl := Except.ok.inj h
  exact readBytes_eq_ok.mpr ⟨hpath, l, mode, entry_put_mode hentry mode, hmode⟩

/-- The mode is changed of what is there, and it is there afterwards. -/
theorem pathExists_changeMode (h : w.changeMode path mode = .ok w') :
    w.pathExists path = true ∧ w'.pathExists path = true := by
  unfold changeMode at h
  split at h
  · rename_i hpath
    split at h
    · rename_i hentry
      obtain rfl := Except.ok.inj h
      exact ⟨pathExists_iff.mpr ⟨hpath, _, _, hentry⟩,
        pathExists_iff.mpr ⟨hpath, _, _, entry_put_mode hentry mode⟩⟩
    · rename_i found _ hentry
      obtain rfl := Except.ok.inj h
      have hexists := pathExists_iff.mpr ⟨hpath, found.1, found.2, hentry⟩
      exact ⟨hexists, hexists⟩
    · cases h
  · cases h

/-! Removed entries. -/

theorem extends_erase (w : Workspace) (x : Location) : Extends (w.erase x) w := by
  refine ⟨rfl, fun {l n} hl => ?_⟩
  rw [node?_erase] at hl
  split at hl
  · rename_i hnil
    rw [hnil]
    exact hl
  · split at hl
    · cases hl
    · exact hl

theorem extends_removeAll (w : Workspace) (path : Text) : Extends (w.removeAll path) w := by
  unfold removeAll
  split
  · exact extends_erase w _
  · exact .refl w

theorem extends_removeFile (h : w.removeFile path = .ok w') : Extends w' w := by
  unfold removeFile at h
  split at h
  · split at h
    · cases h
    · exact Except.ok.inj h ▸ extends_erase w _
    · exact Except.ok.inj h ▸ .refl w
    · cases h
  · cases h

/-- Where a file is left by what is removed, only it has changed still. -/
theorem SameBut.erase {d : Location} (hsame : SameBut x w w') (hx : (w.erase d).node? x ≠ none) :
    (w'.erase d).node? x = w'.node? x ∧ SameBut x (w.erase d) (w'.erase d) := by
  have hnil : x ≠ [] := ne_nil_of_node? hsame.not_directory
  have hd : ¬d <+: x := fun hd => hx (by rw [node?_erase, if_neg hnil, if_pos hd])
  have hold : (w.erase d).node? x = w.node? x := by rw [node?_erase, if_neg hnil, if_neg hd]
  refine ⟨by rw [node?_erase, if_neg hnil, if_neg hd], hsame.base, fun {l} hl => ?_, ?_, ?_⟩
  · rw [node?_erase, node?_erase, hsame.same hl]
  · rw [hold]
    exact hsame.not_directory
  · rw [hold]
    exact hsame.not_link

/-- What is still there once something has been removed is still there once it has another mode and
the same has been removed. -/
theorem pathExists_removeAll_changeMode {other : Text} (hw : w.changeMode path mode = .ok w')
    (h : (w.removeAll other).pathExists path = true) :
    (w'.removeAll other).pathExists path = true := by
  have hafter := (pathExists_changeMode hw).2
  rcases changeMode_eq_ok hw with rfl | ⟨x, bytes, old, hlocate, rfl⟩
  · exact h
  have hnode := node?_of_locate hlocate rfl
  have hsame : SameBut x w (w.put x (.file bytes mode)) :=
    @sameBut_put w (.taken x (.file bytes old)) hnode rfl _
  have hput : (w.put x (.file bytes mode)).node? x = some (.file bytes mode) := by
    rw [node?_put (ne_nil_of_node? hsame.not_directory), if_pos rfl]
  have hback := sameBut_of_put hsame.not_directory bytes mode
  obtain ⟨hpath, l, n, hleft⟩ := pathExists_iff.mp h
  obtain ⟨rfl, rfl⟩ := Prod.mk.inj (Except.ok.inj
    ((entry_extends hleft (extends_removeAll w other)).symm.trans (entry_eq_ok_iff.mpr hlocate)))
  cases hother : w.entry .inspect other with
  | error fault =>
    cases hother' : (w.put l (.file bytes mode)).entry .inspect other with
    | error => rwa [removeAll, hother']
    | ok found =>
      obtain ⟨_, hfound⟩ := hback.exists_entry hnode hother'
      cases hother.symm.trans hfound
  | ok found =>
    obtain ⟨_, hother'⟩ := hsame.exists_entry hput hother
    rw [removeAll, hother] at hleft
    have hl : (w.erase found.1).node? l = some (.file bytes old) := node?_of_entry hleft (by simp)
    have hkept : (w.erase found.1).node? l ≠ none := by simp [hl]
    obtain ⟨hmode, hsame'⟩ := hsame.erase hkept
    rw [removeAll, hother']
    exact pathExists_iff.mpr ⟨hpath, _, _, hsame'.entry_replaced (hmode.trans hput) hleft⟩

/-- Removing a file leaves all else as it is. -/
theorem IsTree.sameBut_erase (htree : IsTree w) (hl : w.node? l = some (.file content mode)) :
    SameBut l w (w.erase l) := by
  refine ⟨rfl, fun {d} hd => ?_, by simp [hl], by simp [hl]⟩
  rw [node?_erase]
  split
  · rename_i hnil
    rw [hnil]
    rfl
  · split
    · rename_i hld
      cases hnode : w.node? d with
      | none => rfl
      | some n => cases hl.symm.trans (htree.above hnode hld hd.symm)
    · rfl

theorem removeFile_of_file (hpath : isPath path = true)
    (h : w.entry .inspect path = .ok (l, .file content mode)) :
    w.removeFile path = .ok (w.erase l) := by
  rw [removeFile, if_pos hpath, h]

/-- The name of a file that has been removed is free. -/
theorem IsTree.locate_erase {purpose : Purpose} (htree : IsTree w)
    (h : w.entry purpose path = .ok (l, .file content mode)) :
    (w.erase l).locate purpose path = .ok (.free l) := by
  have hl := node?_of_entry h (by simp)
  have hsame : SameBut (Place.taken l (.file content mode)).location w (w.erase l) :=
    htree.sameBut_erase hl
  refine hsame.locate_changed rfl rfl rfl ?_ (entry_eq_ok_iff.mp h)
  exact node?_erase_self (ne_nil_of_node? hsame.not_directory)

/-! Directories that are there already. -/

section Parent

variable {front : List Text} {name : Text} {d : Location}

/-- What stands above the end of a path that leads somewhere is a directory. -/
theorem exists_directory (hnames : Path.IsNames (front ++ [name]))
    (h : w.entry .reach (Path.render (front ++ [name])) = .ok (l, n)) :
    ∃ d, w.entry .reach (Path.render front) = .ok (d, .directory) := by
  by_cases hne : front = []
  · subst hne
    exact ⟨[], rfl⟩
  obtain ⟨_, hlength, hlookup⟩ := locate_eq_ok_iff.mp (entry_eq_ok_iff.mp h)
  rw [startOf, if_pos (Path.isAbsolute_render _), Path.parts_render_concat hne hnames] at hlookup
  have hname : Path.IsName name := hnames name (by simp)
  obtain ⟨d, hd⟩ := hlookup.directory (not_or.mpr ⟨hname.ne_nil, hname.ne_dot⟩) hname.ne_dots
  have hshorter : (Utf8.encode (Path.render front)).length ≤ longestPath := by
    have hsplit : Utf8.encode (Path.render front ++ Text.slash :: name) =
        Utf8.encode (Path.render front) ++ 0x2F :: Utf8.encode name :=
      Utf8.encode_append_byte (b := 0x2F) (by decide) _ _
    rw [Path.render_concat, ← Path.render_eq hne, hsplit, List.length_append] at hlength
    exact Nat.le_of_add_right_le hlength
  refine ⟨d, entry_eq_ok_iff.mpr (locate_eq_ok_iff.mpr ⟨?_, hshorter, ?_⟩)⟩
  · intro hempty
    have habs := Path.isAbsolute_render front
    rw [hempty] at habs
    cases habs
  · rwa [startOf, if_pos (Path.isAbsolute_render _)]

theorem makeDirectories_of_directory (hnames : Path.IsNames front)
    (hpath : isPath (Path.render front) = true)
    (h : w.entry .reach (Path.render front) = .ok (d, .directory)) :
    w.makeDirectories (Path.render front) = (.ok (), w) := by
  have hsettle : w.settle false (Path.render front) .fileExists = .ok () := by
    rw [settle, h]
  rw [makeDirectories, if_pos hpath, Path.walk_render hnames]
  rcases List.eq_nil_or_concat front with rfl | ⟨above, last, rfl⟩
  · rfl
  · obtain ⟨l, n, hentry⟩ := exists_entry_inspect h
    have hmade : w.makeDirectory (Path.render (above.concat last)) = .error .fileExists := by
      rw [makeDirectory, entry_eq_ok_iff.mp hentry]
    rw [List.concat_eq_append] at *
    rw [List.reverse_append, List.reverse_singleton, List.singleton_append, makeChain]
    simp only [List.reverse_cons, List.reverse_reverse, hmade, hsettle]
    rfl

/-- Nothing is made above what is there. -/
theorem makeDirectories_of_entry {names : List Text} (hnames : Path.IsNames names)
    (hpath : isPath (Path.render names) = true)
    (h : w.entry .reach (Path.render names) = .ok (l, .file content mode)) :
    w.makeDirectories (Path.parent (Path.render names)) = (.ok (), w) := by
  rcases List.eq_nil_or_concat names with rfl | ⟨front, name, rfl⟩
  · have hroot : w.entry .reach (Path.render []) = .ok ([], .directory) := rfl
    cases hroot.symm.trans h
  · rw [List.concat_eq_append] at hnames hpath h ⊢
    obtain ⟨d, hd⟩ := exists_directory hnames h
    have hfront : isPath (Path.render front) = true := by
      by_cases hne : front = []
      · subst hne
        rfl
      · rw [Path.render_concat, ← Path.render_eq hne] at hpath
        simp only [isPath, List.contains_append, Bool.not_or, Bool.and_eq_true] at hpath
        exact hpath.1
    rw [Path.parent_render hnames]
    exact makeDirectories_of_directory (fun n hn => hnames n (List.mem_append_left _ hn)) hfront hd

end Parent

end LuaBundle.Workspace
