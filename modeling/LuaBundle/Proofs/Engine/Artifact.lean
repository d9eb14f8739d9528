import LuaBundle.Proofs.Engine.Run

/-! What an engine takes for the artifact of its command. It looks only at what is there when the
command has succeeded: a run fails for want of an artifact just if nothing is there, and ends with
an output that reads as what was there, whether the command wrote it or it was older. -/

namespace LuaBundle

open LuaBundle.Task Workspace

namespace Engine

variable {e : Engine} {t : Toolchain} {job : Job} {s after : Session} {artifact target : Text}
  {content : Bytes} {failure : Failure BuildError}

/-- The error of a run whose command has left nothing. -/
def missingArtifact (e : Engine) (artifact : Text) : Failure BuildError :=
  .reported (.packaging (.artifactMissing e.name artifact))

theorem runFrom_expect (e : Engine) (path : Text) (s : Session) : (e.expect path).runFrom s =
    if s.workspace.pathExists path then (.ok (), s) else (.error (e.missingArtifact path), s) := by
  unfold expect
  rw [runFrom_bind, runFrom_workspace]
  by_cases hexists : s.workspace.pathExists path = true
  · simp only [if_pos hexists, runFrom_pure]
  · simp only [if_neg hexists]
    rfl

theorem runFrom_deliver (e : Engine) (t : Toolchain) (artifact target : Text) (s : Session) :
    (e.deliver t artifact target).runFrom s =
      if s.workspace.pathExists artifact then (moveOutput artifact target >>= fun _ =>
        makeExecutable t target >>= fun _ => pure target).runFrom s
      else (.error (e.missingArtifact artifact), s) := by
  unfold deliver
  rw [runFrom_bind, runFrom_expect]
  by_cases hexists : s.workspace.pathExists artifact = true
  · simp only [if_pos hexists]
  · simp only [if_neg hexists]

theorem moveOutput_eq_error (h : (moveOutput artifact target).runFrom s = (.error failure, after)) :
    ∃ error, failure = unwritable target error := by
  unfold moveOutput at h
  split at h
  · cases h
  · rcases runFrom_bind_eq_error h with h | ⟨_, _, _, h⟩
    · exact tryChange_eq_error h
    rcases runFrom_bind_eq_error h with h | ⟨_, _, _, h⟩
    · exact tryChange_eq_error h
    · exact change_eq_error h

/-- An output that has been moved, if it is still there, reads as what was moved. -/
theorem readBytes_moveOutput (h : (moveOutput artifact target).runFrom s = (.ok (), after))
    (hread : s.workspace.readBytes artifact = .ok content)
    (hexists : after.workspace.pathExists target = true) :
    after.workspace.readBytes target = .ok content := by
  unfold moveOutput at h
  split at h
  · rename_i hsame
    obtain ⟨_, rfl⟩ := Prod.mk.inj h
    rwa [← hsame]
  · obtain ⟨_, _, hprepare, h⟩ := runFrom_bind_eq_ok h
    obtain ⟨w₁, hmade, rfl⟩ := tryChange_eq_ok hprepare
    obtain ⟨_, _, hcopy, h⟩ := runFrom_bind_eq_ok h
    obtain ⟨w₂, hcopied, rfl⟩ := tryChange_eq_ok hcopy
    obtain ⟨w₃, hremoved, rfl⟩ := change_eq_ok h
    have hext := makeDirectories_extends s.workspace (Path.parent target)
    rw [hmade] at hext
    have hcopy := readBytes_copyFile hcopied (hext.readBytes hread)
    exact (extends_removeFile hremoved).readBytes_of_pathExists hexists hcopy

/-- What has been moved elsewhere was a file that may be read. -/
theorem isReadable_of_moveOutput (h : (moveOutput artifact target).runFrom s = (.ok (), after))
    (hne : artifact ≠ target) (hexists : s.workspace.pathExists artifact = true) :
    s.workspace.isReadable artifact = true := by
  rw [moveOutput, if_neg hne] at h
  obtain ⟨_, _, hprepare, h⟩ := runFrom_bind_eq_ok h
  obtain ⟨w₁, hmade, rfl⟩ := tryChange_eq_ok hprepare
  obtain ⟨_, _, hcopy, _⟩ := runFrom_bind_eq_ok h
  obtain ⟨_, hcopied, _⟩ := tryChange_eq_ok hcopy
  have hext := makeDirectories_extends s.workspace (Path.parent target)
  rw [hmade] at hext
  obtain ⟨content, hread⟩ := isReadable_iff_readBytes.mp (isReadable_of_copyFile hcopied)
  exact isReadable_iff_readBytes.mpr ⟨content, hext.readBytes_of_pathExists hexists hread⟩

theorem hasBytes_moveOutput (h : (moveOutput artifact target).runFrom s = (.ok (), after))
    (hbytes : s.workspace.HasBytes artifact content)
    (hexists : after.workspace.pathExists target = true) :
    after.workspace.HasBytes target content := by
  by_cases hne : artifact = target
  · rw [moveOutput, if_pos hne] at h
    obtain ⟨_, rfl⟩ := Prod.mk.inj h
    rwa [← hne]
  · have hread := isReadable_of_moveOutput h hne hbytes.pathExists
    exact hasBytes_of_readBytes (readBytes_moveOutput h (hbytes.readBytes hread) hexists)

theorem makeExecutable_eq_ok (h : (makeExecutable t target).runFrom s = (.ok (), after)) :
    t.platform = windows ∧ after = s ∨ t.platform ≠ windows ∧
      ∃ w, s.workspace.changeMode target executableMode = .ok w ∧
        after = { s with workspace := w } := by
  unfold makeExecutable at h
  split at h
  · rename_i hplatform
    exact .inl ⟨hplatform, (Prod.mk.inj h).2.symm⟩
  · rename_i hplatform
    exact .inr ⟨hplatform, change_eq_ok h⟩

theorem makeExecutable_eq_error
    (h : (makeExecutable t target).runFrom s = (.error failure, after)) :
    ∃ error, failure = .interrupted error := by
  unfold makeExecutable at h
  split at h
  · cases h
  · exact change_eq_error h

theorem deliver_eq_missingArtifact_iff :
    ((e.deliver t artifact target).runFrom s).1 = .error (e.missingArtifact artifact) ↔
      s.workspace.pathExists artifact = false := by
  rw [runFrom_deliver]
  split
  · rename_i hexists
    simp only [hexists, Bool.true_eq_false, iff_false]
    intro hmissing
    rcases runFrom_bind_eq_error (Prod.ext hmissing rfl) with h | ⟨_, _, _, h⟩
    · obtain ⟨_, hfailure⟩ := moveOutput_eq_error h
      cases hfailure
    rcases runFrom_bind_eq_error h with h | ⟨_, _, _, h⟩
    · obtain ⟨_, hfailure⟩ := makeExecutable_eq_error h
      cases hfailure
    · cases h
  · rename_i hexists
    simp [hexists]

/-- What an output is where taking the artifact has succeeded. -/
structure Taken (t : Toolchain) (artifact target : Text) (w w' : Workspace) : Prop where
  stood : w.pathExists artifact = true
  regular : artifact ≠ target → w.isReadable artifact = true
  reads : ∀ {content}, w.HasBytes artifact content →
    t.platform ≠ windows ∨ w.isReadable artifact = true →
    w'.pathExists target = true → w'.readBytes target = .ok content
  remains : t.platform ≠ windows → w'.pathExists target = true
  kept : artifact = target → ∀ {other}, (w.removeAll other).pathExists target = true →
    (w'.removeAll other).pathExists target = true

theorem deliver_eq_ok {value : Text}
    (h : (e.deliver t artifact target).runFrom s = (.ok value, after)) :
    value = target ∧ Taken t artifact target s.workspace after.workspace := by
  rw [runFrom_deliver] at h
  split at h
  · rename_i hexists
    obtain ⟨_, mid, hmoved, h⟩ := runFrom_bind_eq_ok h
    obtain ⟨_, _, hmade, h⟩ := runFrom_bind_eq_ok h
    obtain ⟨hvalue, rfl⟩ := Prod.mk.inj h
    refine ⟨(Except.ok.inj hvalue).symm, hexists,
      fun hne => isReadable_of_moveOutput hmoved hne hexists, ?_, ?_, ?_⟩
    · intro content hbytes hreadable hleft
      rcases makeExecutable_eq_ok hmade with ⟨hplatform, rfl⟩ | ⟨_, w, hmode, rfl⟩
      · have hread := hbytes.readBytes (hreadable.resolve_left fun hother => hother hplatform)
        exact readBytes_moveOutput hmoved hread hleft
      · exact readBytes_changeMode hmode rfl
          (hasBytes_moveOutput hmoved hbytes (pathExists_changeMode hmode).1)
    · intro hplatform
      rcases makeExecutable_eq_ok hmade with ⟨hwindows, _⟩ | ⟨_, w, hmode, rfl⟩
      · exact absurd hwindows hplatform
      · exact (pathExists_changeMode hmode).2
    · rintro rfl other hleft
      have hsame : mid = s := by
        rw [moveOutput, if_pos rfl] at hmoved
        exact (Prod.mk.inj hmoved).2.symm
      subst hsame
      rcases makeExecutable_eq_ok hmade with ⟨_, rfl⟩ | ⟨_, w, hmode, rfl⟩
      · exact hleft
      · exact pathExists_removeAll_changeMode hmode hleft
  · cases h

/-- A run that has ended with an output. Its one command succeeded, and what stood at the artifact's
path when the command had ended is what the output reads as, if it was a file; it was one, at least
if it had to be moved. The output is there: where a compiler was called, at least if files have
modes, and where a bundle was glued, unless the output goes with the directory for the bundle. -/
structure Delivered (e : Engine) (t : Toolchain) (job : Job) (s : Session) (target : Text)
    (call : Call) (artifact : Text) : Prop where
  calls : (e.invoke t job).callsFrom s = [call]
  succeeds : call.Succeeds t
  takes : e.artifactPath? s.workspace job = some artifact
  target_eq : target = s.workspace.absolute job.outputPath
  stood : (call.after t).pathExists artifact = true
  regular : artifact ≠ target → (call.after t).isReadable artifact = true
  reads : ∀ {content}, (call.after t).HasBytes artifact content →
    t.platform ≠ windows ∨ (call.after t).isReadable artifact = true →
    ((e.invoke t job).runFrom s).2.workspace.pathExists target = true →
    ((e.invoke t job).runFrom s).2.workspace.readBytes target = .ok content
  compiled : e.kind = .luastatic → t.platform ≠ windows →
    ((e.invoke t job).runFrom s).2.workspace.pathExists target = true
  glued : ∀ {stub}, e.kind = .srlua stub →
    ((call.after t).removeAll (buildDirectory t)).pathExists target = true →
    ((e.invoke t job).runFrom s).2.workspace.pathExists target = true

theorem extends_cleanUp (e : Engine) (t : Toolchain) (w : Workspace) :
    Extends (e.cleanUp t w) w := by
  unfold cleanUp
  split
  · exact .refl w
  · exact extends_removeAll w _

theorem Starts.delivered {c : Command} {s₁ : Session} (h : e.Starts t job s c s₁ artifact)
    (hresult : ((e.invoke t job).runFrom s).1 = .ok target) :
    e.Delivered t job s target ⟨c, s₁.workspace⟩ artifact := by
  have hok : (Call.mk c s₁.workspace).Succeeds t := by
    by_contra hfailed
    obtain ⟨failure, hfailure⟩ := h.failed hfailed
    cases hresult.symm.trans hfailure
  have hrun := h.succeeded hok
  cases hdelivered : (e.deliver t artifact (s.workspace.absolute job.outputPath)).runFrom
      (e.called t c s₁) with
  | mk result last =>
    rw [runFrom_afterwards, hdelivered] at hrun
    obtain rfl : result = .ok target := (congrArg Prod.fst hrun).symm.trans hresult
    obtain ⟨rfl, htaken⟩ := deliver_eq_ok hdelivered
    have hfinal : ((e.invoke t job).runFrom s).2.workspace = e.cleanUp t last.workspace :=
      congrArg (·.2.workspace) hrun
    refine ⟨h.callsFrom_eq, hok, h.takes, rfl, htaken.stood, htaken.regular, ?_, ?_, ?_⟩
    · intro content hbytes hreadable hleft
      rw [hfinal] at hleft ⊢
      have hext := extends_cleanUp e t last.workspace
      exact hext.readBytes_of_pathExists hleft
        (htaken.reads hbytes hreadable (hext.pathExists hleft))
    · intro hkind hplatform
      rw [hfinal, cleanUp, hkind]
      exact htaken.remains hplatform
    · intro stub hkind hleft
      have htakes := h.takes
      rw [artifactPath?, hkind] at htakes
      rw [hfinal, cleanUp, hkind]
      exact htaken.kept (Option.some.inj htakes).symm hleft

/-- What a run takes for its output is what its command found or left at the path of the artifact;
just where nothing is there after a command that succeeded, the artifact is reported missing. -/
theorem invoke_artifact (e : Engine) (t : Toolchain) (job : Job) (s : Session) :
    (∀ target, ((e.invoke t job).runFrom s).1 = .ok target →
      ∃ call artifact, e.Delivered t job s target call artifact) ∧
    ∀ call ∈ (e.invoke t job).callsFrom s, call.Succeeds t →
      ∃ artifact, e.artifactPath? s.workspace job = some artifact ∧
        (((e.invoke t job).runFrom s).1 = .error (e.missingArtifact artifact) ↔
          (call.after t).pathExists artifact = false) := by
  rcases invoke_cases e t job s with hstops | ⟨c, s₁, artifact, hstarts⟩
  · obtain ⟨failure, hfailure⟩ := hstops.failed
    rw [hstops.callsFrom_eq, hfailure]
    simp
  · refine ⟨fun target hresult => ⟨_, artifact, hstarts.delivered hresult⟩,
      fun call hcall hok => ?_⟩
    rw [hstarts.callsFrom_eq] at hcall
    obtain rfl := List.mem_singleton.mp hcall
    refine ⟨artifact, hstarts.takes, ?_⟩
    rw [hstarts.succeeded hok]
    exact deliver_eq_missingArtifact_iff

end Engine

namespace Session

/-- A compiler that leaves its artifact delivers it. -/
theorem artifact_compiled :
    ((Engine.luastatic.invoke (host compile) (job "main.lua")).runFrom
      (project "main.lua")).1 = .ok "/proj/app" ∧
    ((Engine.luastatic.invoke (host compile) (job "main.lua")).runFrom
      (project "main.lua")).2.workspace.readBytes "/proj/app" = .ok [127] := by
  obtain ⟨call, artifact, hdelivered⟩ :=
    (Engine.invoke_artifact Engine.luastatic (host compile) (job "main.lua")
      (project "main.lua")).1 "/proj/app" invoke_compile
  obtain rfl := List.head_eq_of_cons_eq (hdelivered.calls.symm.trans callsFrom_compile)
  obtain rfl : "/proj/main" = artifact := Option.some.inj hdelivered.takes
  have hleft : ((compilation (project "main.lua")).after (host compile)).readBytes "/proj/main" =
      .ok [127] := by decide +kernel
  exact ⟨invoke_compile, hdelivered.reads (hasBytes_of_readBytes hleft) (.inl (by decide))
    (hdelivered.compiled rfl (by decide))⟩

/-- The program, with something at a path where an engine looks for its artifact. -/
def littered (name : Text) (n : Node) : Session :=
  .start ((project "main.lua").workspace.put ["tmp"] .directory |>.put ["proj", name] n)

/-- What was there before is delivered after a command that did nothing, and if it is a directory,
that is. -/
theorem artifact_stale :
    ((Engine.luastatic.invoke (host id) (job "main.lua")).runFrom
      (littered "main" (.file [1] executableMode))).1 = .ok "/proj/app" ∧
    ((Engine.standard.invoke (host id) (job "main.lua")).runFrom
      (littered "app" .directory)).1 = .ok "/proj/app" ∧
    ((Engine.standard.invoke (host id) (job "main.lua")).runFrom
      (littered "app" .directory)).2.workspace.readBytes "/proj/app" =
        .error (.failed .isDirectory .readFile) := by
  decide +kernel

end Session

end LuaBundle
