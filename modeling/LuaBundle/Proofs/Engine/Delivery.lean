import LuaBundle.Proofs.Engine.Artifact

/-! Where the file goes that a compiler has left. It is copied to the output path and removed where
it was; a run that reports why it cannot be copied leaves it there. Whether it is there already is
decided by the spelling of the paths alone: where a link makes the output path lead to the file
itself, nothing is copied and the file is removed. -/

namespace LuaBundle

open LuaBundle.Task Workspace

namespace Engine

variable {e : Engine} {t : Toolchain} {job : Job} {s : Session} {source target : Text}
  {l : Location} {content : Bytes} {mode : Mode} {w : Workspace} {names : List Text}

/-- Two paths, spelled differently, of a file that stands at `l` and may be read. -/
structure SameFile (w : Workspace) (source target : Text) (l : Location) : Prop where
  ne : source ≠ target
  readable : w.isReadable source = true
  isPath : isPath target = true
  leads : LeadsTo w target l

theorem not_sameFile {fault : Fault} (h : w.entry .reach target = .error fault) :
    ¬SameFile w source target l := by
  rintro ⟨_, _, _, n, hleads⟩
  cases h.symm.trans hleads

/-- A file that was left at `source` is the program at `target`, and is not at `source` any more if
that is another path. It may be read, unless it stays where and as it was and could not be read
there. -/
structure Moved (t : Toolchain) (source target : Text) (content : Bytes) (mode : Mode)
    (w : Workspace) : Prop where
  bytes : w.HasBytes target content
  reads : source ≠ target ∨ t.platform ≠ windows ∨ mode.readable = true →
    w.readBytes target = .ok content
  executable : t.platform ≠ windows →
    ∃ x, w.entry .reach target = .ok (x, .file content executableMode)
  gone : source ≠ target → w.entry .inspect source = .error .noEntry

/-- What becomes of a file that was left at `source`, which stands at `l`. -/
structure Delivers (t : Toolchain) (source target : Text) (l : Location) (content : Bytes)
    (mode : Mode) (w : Workspace) (last : Except (Failure BuildError) Text × Session) : Prop where
  moved : ¬SameFile w source target l →
    (last.1 = .ok target ∧ Moved t source target content mode last.2.workspace) ∨
    (∃ error, last.1 = .error (.reported error)) ∧
      last.2.workspace.entry .inspect source = .ok (l, .file content mode)
  lost : SameFile w source target l → last.2.workspace.node? l = none ∧
    last.1 = if t.platform = windows then .ok target
      else .error (.interrupted (.failed .noEntry (.changeMode target)))

/-! Moving a file. -/

section Move

variable (hfile : s.workspace.entry .inspect source = .ok (l, .file content mode))
  (hsource : isPath source = true) (hne : source ≠ Path.render names)
  (hnames : Path.IsNames names) (htree : IsTree s.workspace)

include hfile hsource hne hnames htree

/-- A file is removed where it is to be moved onto itself. -/
theorem moveOutput_self (hmode : mode.readable = true) (htarget : isPath (Path.render names) = true)
    (hleads : LeadsTo s.workspace (Path.render names) l) :
    (moveOutput source (Path.render names)).runFrom s =
        (.ok (), { s with workspace := s.workspace.erase l }) ∧
      (s.workspace.erase l).locate .reach (Path.render names) = .ok (.free l) := by
  obtain ⟨n, hleads⟩ := hleads
  have hl : s.workspace.node? l = some (.file content mode) := node?_of_entry hfile (by simp)
  have hn : s.workspace.node? l = some n :=
    found_of_locate htree (Path.isAbsolute_render names) (entry_eq_ok_iff.mp hleads)
  obtain rfl := Option.some.inj (hl.symm.trans hn)
  have hreach := entry_eq_ok_iff.mpr (locate_reach (entry_eq_ok_iff.mp hfile) rfl)
  have hmade := makeDirectories_of_entry hnames htarget hleads
  have hcopied := copyFile_self hreach hleads hmode hsource htarget
  refine ⟨?_, htree.locate_erase hleads⟩
  rw [moveOutput, if_neg hne, prepareDirectory, runFrom_bind_ok (runFrom_tryChange_ok hmade),
    runFrom_bind_ok (runFrom_tryChange_ok hcopied)]
  exact runFrom_change_ok (removeFile_of_file hsource hfile)

/-- A file that is moved elsewhere stands there, or it stands where it was. -/
theorem moveOutput_cases (hapart : mode.readable = true → isPath (Path.render names) = true →
      ¬LeadsTo s.workspace (Path.render names) l) :
    (∃ error after, (moveOutput source (Path.render names)).runFrom s =
        (.error (unwritable (Path.render names) error), after) ∧
      after.workspace.entry .inspect source = .ok (l, .file content mode)) ∨
    ∃ w x, (moveOutput source (Path.render names)).runFrom s =
        (.ok (), { s with workspace := w }) ∧ mode.readable = true ∧
      isPath (Path.render names) = true ∧ x ≠ l ∧
      w.entry .reach (Path.render names) = .ok (x, .file content mode) ∧
      w.locate .inspect source = .ok (.free l) := by
  rw [moveOutput, if_neg hne, prepareDirectory]
  have hext := makeDirectories_extends s.workspace (Path.parent (Path.render names))
  have htree₁ := htree.makeDirectories (Path.parent (Path.render names))
  generalize hmade : s.workspace.makeDirectories (Path.parent (Path.render names)) = made at *
  obtain ⟨result, w₁⟩ := made
  -- Whatever was made of the directories, the file is still there.
  have hfile₁ := entry_extends hfile hext
  cases result with
  | error error =>
    exact .inl ⟨error, _, runFrom_bind_error (runFrom_tryChange_error hmade) _, hfile₁⟩
  | ok =>
    have hreach := entry_eq_ok_iff.mpr (locate_reach (entry_eq_ok_iff.mp hfile₁) rfl)
    rw [runFrom_bind_ok (runFrom_tryChange_ok hmade)]
    rcases @copyFile_of_file w₁ l content mode source (Path.render names) hreach with
      ⟨error, hcopied⟩ | ⟨hmode, place, htarget, hlocate, hplace, hcopied⟩
    · exact .inl ⟨error, _, runFrom_bind_error (runFrom_tryChange_error hcopied) _, hfile₁⟩
    have hfound := found_of_locate htree₁ (Path.isAbsolute_render names) hlocate
    have hintact : Intact s.workspace l ⟨content, false⟩ :=
      ⟨htree, htree.holds (node?_of_entry hfile (by simp)) (by simp)⟩
    have hx : place.location ≠ l :=
      avoids_of_makeDirectories hintact hnames (hapart hmode htarget) hmade place hlocate hplace
    rw [if_neg hx] at hcopied
    -- The copy stands elsewhere, so the file that is removed next is still the one that was left.
    have hnode := not_directory_of_takesFile hfound.node?_eq hplace
    have htree₂ := htree₁.put (hfound.inDirectory htree₁ hnode) hnode (.file content mode)
    have hfile₂ := (sameBut_put hfound.node?_eq hplace (.file content mode)).entry hx.symm hfile₁
    have hgone := htree₂.sameBut_erase (node?_of_entry hfile₂ (by simp))
    refine .inr ⟨_, place.location, ?_, hmode, htarget, hx,
      hgone.entry hx (entry_put hlocate hplace content mode), htree₂.locate_erase hfile₂⟩
    rw [runFrom_bind_ok (runFrom_tryChange_ok hcopied)]
    exact runFrom_change_ok (removeFile_of_file hsource hfile₂)

end Move

/-- The mode of a file that has been made a program, where files have modes. -/
def programMode (t : Toolchain) (mode : Mode) : Mode :=
  if t.platform = windows then mode else executableMode

/-- A file becomes a program, and what is free elsewhere stays so. -/
theorem makeExecutable_of_file {x : Location} (t : Toolchain) (hpath : isPath target = true)
    (h : s.workspace.entry .reach target = .ok (x, .file content mode)) :
    ∃ w, (makeExecutable t target).runFrom s = (.ok (), { s with workspace := w }) ∧
      w.entry .reach target = .ok (x, .file content (programMode t mode)) ∧
      ∀ {path}, x ≠ l → s.workspace.locate .inspect path = .ok (.free l) →
        w.locate .inspect path = .ok (.free l) := by
  by_cases hplatform : t.platform = windows
  · rw [makeExecutable, programMode, if_pos hplatform, if_pos hplatform]
    exact ⟨s.workspace, rfl, h, fun _ hfree => hfree⟩
  · rw [makeExecutable, programMode, if_neg hplatform, if_neg hplatform]
    refine ⟨_, runFrom_change_ok (changeMode_of_file h executableMode hpath),
      entry_put_mode h executableMode, fun hx hfree => ?_⟩
    exact (sameBut_put_mode h executableMode).locate hx.symm hfree

theorem makeExecutable_of_free (t : Toolchain) (hpath : isPath target = true)
    (h : s.workspace.locate .reach target = .ok (.free l)) :
    (makeExecutable t target).runFrom s = (if t.platform = windows then .ok ()
      else .error (.interrupted (.failed .noEntry (.changeMode target))), s) := by
  unfold makeExecutable
  split
  · rfl
  · refine runFrom_change_error ?_
    rw [changeMode, if_pos hpath, entry, h]

/-- The end of a run that has moved what was left. -/
theorem Delivers.of_moved {x : Location} (hsame : ¬SameFile w source target l)
    (hpath : isPath target = true)
    (h : s.workspace.entry .reach target = .ok (x, .file content mode))
    (hgone : source ≠ target → mode.readable = true ∧ x ≠ l ∧
      s.workspace.locate .inspect source = .ok (.free l)) :
    Delivers t source target l content mode w
      ((makeExecutable t target >>= fun _ => pure target).runFrom s) := by
  obtain ⟨w', hrun, hentry, hfree⟩ := makeExecutable_of_file (l := l) t hpath h
  rw [runFrom_bind_ok hrun, runFrom_pure]
  refine ⟨fun _ => .inl ⟨rfl, ⟨hpath, x, _, hentry⟩, ?_, ?_, ?_⟩, fun h => absurd h hsame⟩
  · intro hreads
    refine readBytes_eq_ok.mpr ⟨hpath, x, _, hentry, ?_⟩
    unfold programMode
    split
    · rename_i hplatform
      rcases hreads with hne | hother | hmode
      · exact (hgone hne).1
      · exact absurd hplatform hother
      · exact hmode
    · rfl
  · intro hplatform
    rw [programMode, if_neg hplatform] at hentry
    exact ⟨x, hentry⟩
  · intro hne
    obtain ⟨_, hx, hsource⟩ := hgone hne
    rw [entry, hfree hx hsource]

/-- A file that a command has left is moved to the output path and made a program, or it is still
there and the run reports why; that is, unless the output path is another path of the file. -/
theorem deliver_delivers (e : Engine) (t : Toolchain) (hnames : Path.IsNames names)
    (htree : IsTree s.workspace)
    (hfile : s.workspace.entry .inspect source = .ok (l, .file content mode)) :
    Delivers t source (Path.render names) l content mode s.workspace
      ((e.deliver t source (Path.render names)).runFrom s) := by
  have hreach := entry_eq_ok_iff.mpr (locate_reach (entry_eq_ok_iff.mp hfile) rfl)
  have hreadable : s.workspace.isReadable source = true ↔
      isPath source = true ∧ mode.readable = true := by
    rw [isReadable_of_file hreach, Bool.and_eq_true]
  rw [runFrom_deliver]
  split
  case isFalse hmissing =>
    -- A file is there, so only a path with a zero unit can have been taken for missing.
    refine ⟨fun _ => .inr ⟨⟨_, rfl⟩, hfile⟩, fun hsame => ?_⟩
    exact absurd (pathExists_iff.mpr ⟨(hreadable.mp hsame.readable).1, _, _, hreach⟩) hmissing
  case isTrue hexists =>
    obtain ⟨hsource, _⟩ := pathExists_iff.mp hexists
    by_cases hne : source = Path.render names
    · rw [moveOutput, if_pos hne, pure_bind]
      rw [hne] at hsource hreach
      exact .of_moved (fun hsame => hsame.ne hne) hsource hreach (absurd hne)
    by_cases hsame : SameFile s.workspace source (Path.render names) l
    · have htarget := hsame.isPath
      obtain ⟨hmoved, hfree⟩ := moveOutput_self hfile hsource hne hnames htree
        (hreadable.mp hsame.readable).2 htarget hsame.leads
      have hgone : (s.workspace.erase l).node? l = none := node?_of_locate hfree rfl
      rw [runFrom_bind_ok hmoved, runFrom_bind, makeExecutable_of_free t htarget hfree]
      refine ⟨absurd hsame, fun _ => ?_⟩
      by_cases hplatform : t.platform = windows
      · simp only [if_pos hplatform, runFrom_pure, hgone, and_self]
      · simp only [if_neg hplatform, hgone, and_self]
    · have hapart : mode.readable = true → isPath (Path.render names) = true →
          ¬LeadsTo s.workspace (Path.render names) l := fun hmode htarget hleads =>
        hsame ⟨hne, hreadable.mpr ⟨hsource, hmode⟩, htarget, hleads⟩
      rcases moveOutput_cases hfile hsource hne hnames htree hapart with
        ⟨error, after, hmoved, hkept⟩ | ⟨w, x, hmoved, hmode, htarget, hx, hentry, hgone⟩
      · rw [runFrom_bind_error hmoved]
        exact ⟨fun _ => .inr ⟨⟨_, rfl⟩, hkept⟩, fun h => absurd h hsame⟩
      · rw [runFrom_bind_ok hmoved]
        exact .of_moved hsame htarget hentry fun _ => ⟨hmode, hx, hgone⟩

/-- What a compiler has left where an engine looks for it is delivered, or lost. -/
theorem invoke_delivers {entry : ManifestEntry} {call : Call} (hkind : e.kind = .luastatic)
    (hcall : call ∈ (e.invoke t job).callsFrom s) (hok : call.Succeeds t)
    (hentry : job.manifest.entryPoint? = some entry) (htree : IsTree (call.after t))
    (hleft : (call.after t).entry .inspect (producedPath entry.path) =
      .ok (l, .file content mode)) :
    Delivers t (producedPath entry.path) (s.workspace.absolute job.outputPath) l content mode
      (call.after t) ((e.invoke t job).runFrom s) := by
  rcases invoke_cases e t job s with hstops | ⟨c, s₁, artifact, hstarts⟩
  · rw [hstops.callsFrom_eq] at hcall
    cases hcall
  · rw [hstarts.callsFrom_eq] at hcall
    obtain rfl := List.mem_singleton.mp hcall
    have htakes := hstarts.takes
    rw [artifactPath?, hkind, hentry] at htakes
    obtain rfl := Option.some.inj htakes
    obtain ⟨names, hnames, htarget⟩ := Path.exists_resolve s.workspace.base job.outputPath
    rw [hstarts.succeeded hok, runFrom_cleanUp hkind, absolute, htarget]
    exact deliver_delivers (s := e.called t c s₁) e t hnames htree hleft

end Engine

namespace Session

/-- The project with a link to its own directory, and a job with an output path over the link. -/
def looped : Session :=
  .start ((project "main.lua").workspace.put ["proj", "out"] (.link [Text.dot]))

def loopedJob : Job := { job "main.lua" with outputPath := "out/main" }

theorem isTree_looped : IsTree looped.workspace :=
  (isTree_project "main.lua").put ⟨["proj"], "out", rfl, by decide⟩ (by decide) _

theorem callsFrom_looped :
    (Engine.luastatic.invoke (host compile) loopedJob).callsFrom looped = [compilation looped] := by
  decide +kernel

/-- What a compiler has left is moved, but it is lost where a link leads back to it. -/
theorem moved_or_lost :
    Engine.Moved (host compile) "/proj/main" "/proj/app" [127] executableMode
      ((Engine.luastatic.invoke (host compile) (job "main.lua")).runFrom
        (project "main.lua")).2.workspace ∧
    ((Engine.luastatic.invoke (host compile) loopedJob).runFrom looped).1 =
      .error (.interrupted (.failed .noEntry (.changeMode "/proj/out/main"))) ∧
    ((Engine.luastatic.invoke (host compile) loopedJob).runFrom looped).2.workspace.node?
      ["proj", "main"] = none := by
  have hproduced : Engine.producedPath "/proj/main.lua" = "/proj/main" := by decide
  have htarget : (project "main.lua").workspace.absolute "app" = "/proj/app" := by decide
  have htarget' : looped.workspace.absolute "out/main" = "/proj/out/main" := by decide
  have hleft : (compile (project "main.lua").workspace).entry .inspect
      (Engine.producedPath "/proj/main.lua") =
        .ok (["proj", "main"], .file [127] executableMode) := by decide +kernel
  have hleft' : (compile looped.workspace).entry .inspect (Engine.producedPath "/proj/main.lua") =
      .ok (["proj", "main"], .file [127] executableMode) := by decide +kernel
  have hmoved : Engine.Delivers (host compile) (Engine.producedPath "/proj/main.lua")
      ((project "main.lua").workspace.absolute "app") ["proj", "main"] [127] executableMode
      (compile (project "main.lua").workspace)
      ((Engine.luastatic.invoke (host compile) (job "main.lua")).runFrom (project "main.lua")) :=
    @Engine.invoke_delivers Engine.luastatic (host compile) (job "main.lua") (project "main.lua")
      ["proj", "main"] [127] executableMode ⟨"main", "/proj/main.lua"⟩
      (compilation (project "main.lua")) rfl (callsFrom_compile ▸ List.mem_singleton_self _)
      ⟨[], rfl⟩ rfl (isTree_compile (isTree_project "main.lua") (by decide) (by decide)) hleft
  have hlost : Engine.Delivers (host compile) (Engine.producedPath "/proj/main.lua")
      (looped.workspace.absolute "out/main") ["proj", "main"] [127] executableMode
      (compile looped.workspace)
      ((Engine.luastatic.invoke (host compile) loopedJob).runFrom looped) :=
    @Engine.invoke_delivers Engine.luastatic (host compile) loopedJob looped
      ["proj", "main"] [127] executableMode ⟨"main", "/proj/main.lua"⟩
      (compilation looped) rfl (callsFrom_looped ▸ List.mem_singleton_self _)
      ⟨[], rfl⟩ rfl (isTree_compile isTree_looped (by decide) (by decide)) hleft'
  rw [hproduced, htarget] at hmoved
  rw [hproduced, htarget'] at hlost
  have hfree : (compile (project "main.lua").workspace).entry .reach "/proj/app" =
      .error .noEntry := by decide +kernel
  have hleads : (compile looped.workspace).entry .reach "/proj/out/main" =
      .ok (["proj", "main"], .file [127] executableMode) := by decide +kernel
  have hreadable : (compile looped.workspace).isReadable "/proj/main" = true := by decide +kernel
  obtain ⟨hgone, hfailed⟩ := hlost.lost ⟨by decide, hreadable, by decide, _, hleads⟩
  refine ⟨?_, hfailed, hgone⟩
  rcases hmoved.moved (Engine.not_sameFile hfree) with ⟨_, hdone⟩ | ⟨⟨error, herror⟩, _⟩
  · exact hdone
  · cases invoke_compile.symm.trans herror

end Session

end LuaBundle
