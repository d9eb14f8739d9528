import LuaBundle.Proofs.Bundle.Content
import LuaBundle.Proofs.Text.Unicode

/-! Writing a bundle either stores the whole of it or changes no file. Whatever files there are, the
bundle is made of them as they were before anything was written, also where it takes the place of
one of them; a session that could not store it has at most some new directories on the way. -/

namespace LuaBundle

open Text

namespace Workspace

variable {w w' w'' : Workspace} {path t : Text} {content : Bytes} {l : Location}
  {names : List Text}

theorem OnWay.sameBut {x : Location} (h : OnWay w names l) (hsame : SameBut x w w') :
    OnWay w' names l := by
  obtain ⟨front, hfront, hentry⟩ := h
  exact ⟨front, hfront, hsame.entry_directory hentry⟩

/-- All that `w'` has otherwise than `w` is the file that a path leads to, which may have been there
before and then keeps its mode, and directories on the way. -/
structure WritesOnly (w w' : Workspace) (path : Text) (content : Bytes) (l : Location) : Prop where
  base : w'.base = w.base
  file : ∃ mode, w'.entry .reach path = .ok (l, .file content mode) ∧
    (w.node? l = none ∧ mode = newFileMode ∨ ∃ bytes, w.node? l = some (.file bytes mode))
  only : ∀ l', l' ≠ l → w'.node? l' = w.node? l' ∨ w.node? l' = none ∧
    w'.node? l' = some .directory ∧ OnWay w' (Path.walk [] (Path.parent path)) l'

/-- A file that is written after the directories above it have been made. -/
theorem exists_writesOnly (hmakes : MakesOnly w w' (Path.walk [] (Path.parent path)))
    (h : w'.writeBytes path content = .ok w'') : ∃ l, WritesOnly w w'' path content l := by
  obtain ⟨_, place, hlocate, hplace, rfl⟩ := writeBytes_eq_ok h
  have hnode := node?_of_locate hlocate hplace
  have hsame := sameBut_put hnode hplace (.file content place.fileMode)
  refine ⟨place.location, hmakes.base, ⟨_, entry_put hlocate hplace content _, ?_⟩, ?_⟩
  · rcases hmakes.only place.location with hkept | ⟨_, hdirectory, _⟩
    · rw [← hkept]
      exact fileMode_of_takesFile hnode hplace
    · exact absurd hdirectory (not_directory_of_takesFile hnode hplace)
  · intro l' hl'
    rw [hsame.same hl']
    exact (hmakes.only l').imp_right fun ⟨hnone, hdirectory, hway⟩ =>
      ⟨hnone, hdirectory, hway.sameBut hsame⟩

/-- A text is read as it has been written, apart from surrogates without their partners; a file that
was there before must be one that may be read. -/
theorem WritesOnly.readText (h : WritesOnly w w' path (Utf8.encode t) l)
    (hpath : isPath path = true)
    (hold : ∀ bytes mode, w.node? l = some (.file bytes mode) → mode.readable = true) :
    w'.readText path = .ok t.wellFormed := by
  obtain ⟨mode, hentry, hmode⟩ := h.file
  have hreadable : mode.readable = true := by
    rcases hmode with ⟨_, rfl⟩ | ⟨bytes, hfile⟩
    · rfl
    · exact hold bytes mode hfile
  have hread := readBytes_eq_ok.mpr ⟨hpath, l, mode, hentry, hreadable⟩
  rw [Workspace.readText, hread, ← Utf8.decode_encode]
  rfl

end Workspace

namespace Bundle

open LuaBundle.Task Workspace

section Unicode

variable {t : Text} {m : EmbeddedModule} {entry : ManifestEntry} {manifest : Manifest}
  {version text : Text} {modules : List EmbeddedModule} {w : Workspace}

theorem isUnicode_numeric {u : UInt16} (h : Quoted.isControl u = true) :
    u < 0x80 ∧ IsUnicode (Quoted.numeric u) := by
  have hlt := Quoted.toNat_lt_of_isControl h
  have hall : ∀ n < 128, IsUnicode (Quoted.numeric (UInt16.ofNat n)) := by decide +kernel
  have hu := hall u.toNat hlt
  rw [UInt16.ofNat_toNat] at hu
  exact ⟨hlt, hu⟩

theorem isUnicode_commentText (h : IsUnicode t) : IsUnicode (commentText t) := by
  refine h.flatMap fun u => ?_
  split
  · rename_i hcontrol
    exact .inr (isUnicode_numeric hcontrol)
  · exact .inl rfl

theorem isUnicode_encode (h : IsUnicode t) : IsUnicode (Quoted.encode t) := by
  refine ((h.flatMap fun u => ?_).cons (by decide)).append (by decide)
  unfold Quoted.encodeUnit
  split
  · rename_i hu
    rcases hu with rfl | rfl
    · exact .inr (by decide)
    · exact .inr (by decide)
  split
  · rename_i hu
    exact .inr (hu ▸ by decide)
  split
  · rename_i hu
    exact .inr (hu ▸ by decide)
  split
  · rename_i hu
    exact .inr (hu ▸ by decide)
  split
  · rename_i hcontrol
    exact .inr (isUnicode_numeric hcontrol)
  · exact .inl rfl

theorem isUnicode_element {table : Text} (htable : IsUnicode table) (h : IsUnicode t) :
    IsUnicode (element table t) :=
  (htable.append (h.cons (by decide))).append (by decide)

theorem isUnicode_header (hversion : IsUnicode version)
    (hmanifest : ∀ e ∈ manifest, IsUnicode e.key ∧ IsUnicode e.path) :
    IsUnicode (header version manifest) := by
  refine isUnicode_joinWith (by decide) fun line hline => ?_
  simp only [List.mem_append, List.mem_cons, List.mem_map, List.not_mem_nil, or_false] at hline
  rcases hline with ((rfl | rfl) | ⟨e, he, rfl⟩) | (rfl | rfl)
  · exact (isUnicode_ofString _).append hversion
  · exact isUnicode_ofString _
  · exact ((isUnicode_ofString _).append (isUnicode_commentText (hmanifest e he).1)
      |>.append (isUnicode_ofString _)).append (isUnicode_commentText (hmanifest e he).2)
  · exact isUnicode_ofString _
  · rfl

/-- The texts that a statement is made of. -/
def Statement.texts : Statement → List Text
  | .loader key body => [key, body]
  | .synonym name key => [name, key]
  | .run key => [key]

theorem isUnicode_text {s : Statement} (h : ∀ t ∈ s.texts, IsUnicode t) : IsUnicode s.text := by
  have hkey : ∀ {table t}, IsUnicode table → t ∈ s.texts →
      IsUnicode (element table (Quoted.encode t)) := fun htable ht =>
    isUnicode_element htable (isUnicode_encode (h _ ht))
  have htable : IsUnicode moduleTable := isUnicode_ofString _
  have haliases : IsUnicode aliasTable := isUnicode_ofString _
  cases s with
  | loader key body =>
    have hbody : IsUnicode body := h body (by simp [Statement.texts])
    exact (((hkey htable (by simp [Statement.texts])).append (isUnicode_ofString _)).append
      (isUnicode_ofString _)).append (hbody.cons (by decide)) |>.append (isUnicode_ofString _)
  | synonym name key =>
    have hvalue := isUnicode_encode (h key (by simp [Statement.texts]))
    exact (((hkey haliases (by simp [Statement.texts])).append (isUnicode_ofString _)).append
      hvalue).append (by decide)
  | run key =>
    exact ((isUnicode_ofString _).append (hkey htable (by simp [Statement.texts]))).append
      (isUnicode_ofString _)

/-- What a statement of a bundle is made of. -/
theorem texts_registered {source : Text → Text} {s : Statement}
    (hgroups : EmbeddedModule.Groups manifest modules) (hentry : entry ∈ manifest)
    (hs : s ∈ registered source modules entry) (ht : t ∈ s.texts) :
    (∃ e ∈ manifest, t = e.key) ∨ ∃ m ∈ modules, t = moduleBody (source m.path) := by
  have hkeys : ∀ m ∈ modules, ∀ key ∈ m.keys, ∃ e ∈ manifest, key = e.key := fun m hm key hkey =>
    ⟨⟨key, m.path⟩, hgroups.mem_keys.mp ⟨m, hm, rfl, hkey⟩, rfl⟩
  rcases List.mem_append.mp hs with hs | hs
  · obtain ⟨m, hm, hs⟩ := List.mem_flatMap.mp hs
    rcases List.mem_cons.mp hs with rfl | hs
    · rcases List.mem_pair.mp ht with rfl | rfl
      · exact .inl (hkeys m hm _ List.mem_cons_self)
      · exact .inr ⟨m, hm, rfl⟩
    · obtain ⟨name, hname, rfl⟩ := List.mem_map.mp hs
      rcases List.mem_pair.mp ht with rfl | rfl
      · exact .inl (hkeys m hm _ (List.mem_cons_of_mem _ hname))
      · exact .inl (hkeys m hm _ List.mem_cons_self)
  · obtain rfl := List.mem_singleton.mp hs
    unfold runEntry at ht
    split at ht
    · rename_i m hfind
      rw [List.mem_singleton.mp ht]
      exact .inl (hkeys m (List.mem_of_find?_eq_some hfind) _ List.mem_cons_self)
    · exact .inl ⟨entry, hentry, List.mem_singleton.mp ht⟩

/-- The body of a module is Unicode, whatever bytes its file has. -/
theorem isUnicode_moduleBody {path source : Text} (h : w.readText path = .ok source) :
    IsUnicode (moduleBody source) := by
  rw [readText] at h
  cases hbytes : w.readBytes path with
  | error error =>
    rw [hbytes] at h
    cases h
  | ok bytes =>
    rw [hbytes] at h
    obtain rfl := Except.ok.inj h
    rw [moduleBody_decode]
    exact isUnicode_decode _

theorem isUnicode_ofManifest (hversion : IsUnicode version)
    (hmanifest : ∀ e ∈ manifest, IsUnicode e.key ∧ IsUnicode e.path)
    (h : ofManifest w version manifest = .ok text) : IsUnicode text := by
  obtain ⟨modules, entry, source, hentry, _, hgroups, hread, _, rfl⟩ := exists_registered h
  have hentry := List.mem_of_getLast? hentry
  refine isUnicode_joinWith (by decide) fun part hpart => ?_
  rcases List.mem_cons.mp hpart with rfl | hpart
  · exact isUnicode_header hversion hmanifest
  rcases List.mem_cons.mp hpart with rfl | hpart
  · decide +kernel
  · obtain ⟨s, hs, rfl⟩ := List.mem_map.mp hpart
    refine isUnicode_text fun t ht => ?_
    rcases texts_registered hgroups hentry hs ht with ⟨e, he, rfl⟩ | ⟨m, hm, rfl⟩
    · exact (hmanifest e he).1
    · exact isUnicode_moduleBody (hread m hm)

end Unicode

variable {version output : Text} {manifest : Manifest} {s : Session}

/-- What becomes of a manifest whose bundle is to be written at a path. -/
inductive Outcome (version : Text) (manifest : Manifest) (output : Text) (s : Session) :
    Except (Failure BundleError) Text × Session → Prop
  /-- There is no bundle, and nothing has been done. -/
  | failed {error : BundleError}
    (hbundle : ofManifest s.workspace version manifest = .error error) :
    Outcome version manifest output s (.error (.reported error), s)
  /-- The bundle could not be stored, and no more than directories on the way have been made. -/
  | unwritable {text reason : Text} {w : Workspace}
    (hbundle : ofManifest s.workspace version manifest = .ok text)
    (hmakes : MakesOnly s.workspace w (Path.walk [] (Path.parent (s.workspace.absolute output)))) :
    Outcome version manifest output s
      (.error (.reported (.outputUnwritable (s.workspace.absolute output) reason)),
        { s with workspace := w })
  /-- The bundle is in the file that the path leads to, and one event tells of it. What is read
  there, if the file was not there before or may be read, is the bundle with a mark in the place of
  each surrogate that has no partner; no bundle of Unicode has any. -/
  | stored {text : Text} {w : Workspace} {l : Location}
    (hbundle : ofManifest s.workspace version manifest = .ok text)
    (hwrites : WritesOnly s.workspace w (s.workspace.absolute output) (Utf8.encode text) l)
    (hread : (∀ bytes mode, s.workspace.node? l = some (.file bytes mode) → mode.readable = true) →
      w.readText (s.workspace.absolute output) = .ok text.wellFormed)
    (hexact : IsUnicode version → (∀ e ∈ manifest, IsUnicode e.key ∧ IsUnicode e.path) →
      text.wellFormed = text) :
    Outcome version manifest output s (.ok (s.workspace.absolute output),
      { s with
        workspace := w, events := s.events ++ [.bundleWritten (s.workspace.absolute output)] })

/-- Writing a bundle ends in one of three ways. -/
theorem outcome_write (version : Text) (manifest : Manifest) (output : Text) (s : Session) :
    Outcome version manifest output s ((write version manifest output).runFrom s) := by
  rw [write, runFrom_bind_ok (runFrom_workspace s)]
  cases hbundle : ofManifest s.workspace version manifest with
  | error error => exact .failed hbundle
  | ok text =>
    rw [runFrom_bind_ok (show (ofExcept (.ok text)).runFrom s = (.ok text, s) from rfl)]
    have hmakes := makeDirectories_makesOnly s.workspace
      (Path.parent (s.workspace.absolute output))
    cases hmade : s.workspace.makeDirectories (Path.parent (s.workspace.absolute output)) with
    | mk result w =>
      rw [hmade] at hmakes
      cases result with
      | error error =>
        rw [runFrom_bind_error (runFrom_tryChange_error hmade)]
        exact .unwritable hbundle hmakes
      | ok =>
        rw [runFrom_bind_ok (runFrom_tryChange_ok hmade)]
        cases hwritten : w.writeText (s.workspace.absolute output) text with
        | error error =>
          rw [runFrom_bind_error (runFrom_change_error hwritten)]
          exact .unwritable hbundle hmakes
        | ok w' =>
          obtain ⟨hpath, _⟩ := writeBytes_eq_ok hwritten
          obtain ⟨l, hwrites⟩ := exists_writesOnly hmakes hwritten
          rw [runFrom_bind_ok (runFrom_change_ok hwritten)]
          exact .stored hbundle hwrites (hwrites.readText hpath) fun hversion hmanifest =>
            isUnicode_ofManifest hversion hmanifest hbundle

/-- A bundle is stored and then not read as it is. -/
def Misread (manifest : Manifest) (s : Session) : Prop :=
  ∃ text after, ofManifest s.workspace Bundle.version manifest = .ok text ∧
    (write Bundle.version manifest "out.lua").runFrom s = (.ok "/p/out.lua", after) ∧
    after.workspace.readText "/p/out.lua" ≠ .ok text

theorem misread (hbundle : (ofManifest s.workspace Bundle.version manifest).toOption.isSome = true)
    (hresult : ((write Bundle.version manifest "out.lua").runFrom s).1 = .ok "/p/out.lua")
    (hread : (((write Bundle.version manifest "out.lua").runFrom s).2.workspace.readText
      "/p/out.lua").toOption ≠ (ofManifest s.workspace Bundle.version manifest).toOption) :
    Misread manifest s := by
  cases htext : ofManifest s.workspace Bundle.version manifest with
  | error error =>
    rw [htext] at hbundle
    cases hbundle
  | ok text =>
    rw [htext] at hread
    exact ⟨text, _, htext, Prod.ext hresult rfl, fun h => hread (congrArg Except.toOption h)⟩

/-- A script that requires a name which is a surrogate without its partner. In the file system the
name stands as the mark. -/
def unpairedProject : Session :=
  .start ⟨"/p", [(["p"], .directory),
    (["p", "main.lua"], .file (Utf8.encode "require '\\u\x7bDC80\x7d'") newFileMode),
    (["p", [0xFFFD, '.', 'l', 'u', 'a']], .file [] newFileMode)]⟩

def unpairedManifest : Manifest :=
  [⟨[0xDC80], ['/', 'p', '/', 0xDC80, '.', 'l', 'u', 'a']⟩, ⟨"main", "/p/main.lua"⟩]

/-- A script beside a file that the bundle may be written to and that may not be read. -/
def lockedProject : Session :=
  { latinProject with
    workspace := latinProject.workspace.put ["p", "out.lua"] (.file [] ⟨0o200, false⟩) }

/-- The mark is read in the place of a surrogate, and nothing in a locked file. -/
theorem misread_unpaired_locked :
    Misread unpairedManifest unpairedProject ∧ Misread latinManifest lockedProject :=
  ⟨misread (by decide +kernel) (by decide +kernel) (by decide +kernel),
    misread (by decide +kernel) (by decide +kernel) (by decide +kernel)⟩

/-- A bundle may take the place of a file that it embeds. -/
example : (((write Bundle.version latinManifest "main.lua").runFrom
      latinProject).2.workspace.readBytes "/p/main.lua").toOption =
    (ofManifest latinProject.workspace Bundle.version latinManifest).toOption.map Utf8.encode := by
  decide +kernel

end Bundle

end LuaBundle
