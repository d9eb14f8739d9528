import LuaBundle.Proofs.Build.Sources
import LuaBundle.Proofs.Engine.Temporary
import LuaBundle.Proofs.Results

/-! What a build that fails leaves. An error that is found while the program is looked at, or for
want of an engine that can run, leaves all as it was; where the output cannot be written, new
directories for it may be left; other errors come from a command that was started. -/

namespace LuaBundle

open LuaBundle.Task Workspace

/-- How far a build has come. -/
inductive Stage where
  /-- The program, the engine and what it needs are looked at. -/
  | preparing
  /-- The output is written. -/
  | writing
  /-- A command has been started. -/
  | packaging
  deriving DecidableEq, Repr

/-- Where in a build an error is found. -/
def BuildError.stage : BuildError → Stage
  | bundle (.outputUnwritable _ _) => .writing
  | packaging (.processFailed ..) | packaging (.artifactMissing ..) => .packaging
  | _ => .preparing

theorem BuildError.stage_bundle_ne (cause : BundleError) :
    (BuildError.bundle cause).stage ≠ .packaging := by
  cases cause <;> exact nofun

/-- What a session `s` has come to in `after`, where an error of a stage is reported. -/
structure Leaves (s after : Session) (stage : Stage) : Prop where
  preparing : stage = .preparing → after.calls = s.calls ∧ after.workspace = s.workspace
  writing : stage = .writing → after.calls = s.calls → AddsDirectories s.workspace after.workspace
  packaging : stage = .packaging → after.calls ≠ s.calls

namespace Leaves

variable {s after : Session} {stage : Stage}

/-- Nothing was done. -/
theorem of_same (hcalls : after.calls = s.calls) (hworkspace : after.workspace = s.workspace)
    (hstage : stage ≠ .packaging) : Leaves s after stage := by
  refine ⟨fun _ => ⟨hcalls, hworkspace⟩, fun _ _ => ?_, fun h => absurd h hstage⟩
  rw [hworkspace]
  exact AddsDirectories.refl _

/-- A command was called. -/
theorem of_called (hcalls : after.calls ≠ s.calls) (hstage : stage ≠ .preparing) :
    Leaves s after stage :=
  ⟨fun h => absurd h hstage, fun _ h => absurd h hcalls, fun _ => hcalls⟩

/-- Directories were made for an output. -/
theorem of_directories (hadds : AddsDirectories s.workspace after.workspace) :
    Leaves s after .writing :=
  ⟨nofun, fun _ _ => hadds, nofun⟩

end Leaves

/-- A task whose errors tell what it leaves of a file system that is a tree. -/
structure Careful {α : Type} (task : Task BuildError α) : Prop where
  leaves : ∀ {s after error}, IsTree s.workspace →
    task.runFrom s = (.error (.reported error), after) → Leaves s after error.stage

/-- A task that only reports, and that finds its errors while it prepares. -/
structure Preliminary {α : Type} (task : Task BuildError α) : Prop where
  quiet : Quiet task
  early : ReportsOnly (fun error => error.stage = .preparing) task

section Careful

variable {α β : Type} {task : Task BuildError α} {next : α → Task BuildError β}

theorem Preliminary.bind (h : Preliminary task) (hnext : ∀ value, Preliminary (next value)) :
    Preliminary (task >>= next) :=
  ⟨h.quiet.bind fun value => (hnext value).quiet, h.early.bind fun value => (hnext value).early⟩

/-- What comes before a careful task may be preliminary. -/
theorem Preliminary.bind_careful (h : Preliminary task) (hnext : ∀ value, Careful (next value)) :
    Careful (task >>= next) := by
  refine ⟨fun {s after error} htree hrun => ?_⟩
  have hworkspace := h.quiet.workspace s
  have hcalls := h.quiet.calls s
  rcases runFrom_bind_eq_error hrun with hfirst | ⟨value, mid, hfirst, hsecond⟩
  · rw [hfirst] at hworkspace hcalls
    exact .of_same hcalls hworkspace (by rw [h.early.error hfirst]; exact nofun)
  · rw [hfirst] at hworkspace hcalls
    obtain ⟨hpreparing, hwriting, hpackaging⟩ :=
      (hnext value).leaves (hworkspace ▸ htree) hsecond
    rw [hworkspace, hcalls] at hpreparing
    rw [hworkspace, hcalls] at hwriting
    rw [hcalls] at hpackaging
    exact ⟨hpreparing, hwriting, hpackaging⟩

theorem Preliminary.careful (h : Preliminary task) : Careful task := by
  have hall := h.bind_careful fun value : α => (⟨fun _ hrun => nomatch (Prod.mk.inj hrun).1⟩ :
    Careful (pure value : Task BuildError α))
  rwa [bind_pure] at hall

/-- What comes after a careful task may be what cannot fail. -/
theorem Careful.map (h : Careful task) (f : α → β) :
    Careful (task >>= fun value => pure (f value)) := by
  refine ⟨fun htree hrun => ?_⟩
  rcases runFrom_bind_eq_error hrun with hfirst | ⟨_, _, _, hsecond⟩
  · exact h.leaves htree hfirst
  · cases (Prod.mk.inj hsecond).1

theorem preliminary_workspace : Preliminary (workspace : Task BuildError Workspace) :=
  ⟨quiet_workspace, reportsOnly_workspace⟩

theorem preliminary_pure (value : α) : Preliminary (pure value : Task BuildError α) :=
  ⟨quiet_pure value, reportsOnly_pure value⟩

end Careful

/-! Writing a bundle. -/

namespace Bundle

variable {version output : Text} {manifest : Manifest}

/-- A bundle is not written because it cannot be made, or because its file cannot. -/
theorem write_eq_error {s after : Session} {failure : Failure BundleError}
    (h : (write version manifest output).runFrom s = (.error failure, after)) :
    after = s ∨ after.calls = s.calls ∧
      (∃ error, failure = unwritable (s.workspace.absolute output) error) ∧
      after.workspace =
        (s.workspace.makeDirectories (Path.parent (s.workspace.absolute output))).2 := by
  rcases runFrom_bind_eq_error h with h | ⟨_, _, ⟨⟩, h⟩
  · cases (Prod.mk.inj h).1
  rcases runFrom_bind_eq_error h with h | ⟨text, _, hmade, h⟩
  · left
    have hsame := (looks_ofExcept (ofManifest s.workspace version manifest)).same s
    rwa [h] at hsame
  obtain ⟨_, rfl⟩ := ofExcept_eq_ok hmade
  right
  rcases runFrom_bind_eq_error h with h | ⟨_, _, hprepare, h⟩
  · obtain ⟨error, rfl⟩ := tryChange_eq_error h
    obtain ⟨_, rfl⟩ := Prod.mk.inj h
    exact ⟨rfl, ⟨error, rfl⟩, rfl⟩
  obtain ⟨w, hdirectories, rfl⟩ := tryChange_eq_ok hprepare
  rcases runFrom_bind_eq_error h with h | ⟨_, _, _, h⟩
  · obtain ⟨error, rfl⟩ := change_eq_error h
    obtain rfl := change_error_same h
    exact ⟨rfl, ⟨error, rfl⟩, by rw [hdirectories]⟩
  · rcases runFrom_bind_eq_error h with h | ⟨_, _, _, h⟩ <;> cases (Prod.mk.inj h).1

theorem careful_write (version output : Text) (manifest : Manifest) :
    Careful ((write version manifest output).mapError .bundle) := by
  refine ⟨fun _ hrun => ?_⟩
  obtain ⟨cause, hwrite, rfl⟩ := mapError_eq_reported hrun
  rcases write_eq_error hwrite with rfl | ⟨hcalls, ⟨_, hcause⟩, hdirectories⟩
  · exact .of_same rfl rfl (BuildError.stage_bundle_ne cause)
  · obtain rfl := Failure.reported.inj hcause
    refine .of_directories ?_
    rw [hdirectories]
    exact (makeDirectories_makesOnly _ _).addsDirectories

end Bundle

namespace Engine

variable {e : Engine} {t : Toolchain} {job : Job} {artifact target : Text}

theorem preliminary_refuse {α : Type} {error : PackagingError}
    (h : (BuildError.packaging error).stage = .preparing) :
    Preliminary (refuse error : Task BuildError α) :=
  ⟨(looks_stop _).quiet, reportsOnly_fail h⟩

theorem preliminary_locate (e : Engine) (t : Toolchain) (name : Text) :
    Preliminary (e.locate t name) := by
  refine preliminary_workspace.bind fun w => ?_
  split
  · exact preliminary_pure _
  · exact preliminary_refuse rfl

/-- Taking what a command left fails with errors of the output and of the command. -/
theorem reportsOnly_deliver (e : Engine) (t : Toolchain) (artifact target : Text) :
    ReportsOnly (fun error => error.stage ≠ .preparing) (e.deliver t artifact target) := by
  refine .bind ?_ fun _ => .bind ⟨fun hrun => ?_⟩ fun _ => .bind ⟨fun hrun => ?_⟩ fun _ =>
    reportsOnly_pure _
  · refine reportsOnly_workspace.bind fun w => ?_
    split
    · exact reportsOnly_pure _
    · exact reportsOnly_fail nofun
  · obtain ⟨_, hfailure⟩ := moveOutput_eq_error hrun
    obtain rfl := Failure.reported.inj hfailure
    exact nofun
  · obtain ⟨_, hfailure⟩ := makeExecutable_eq_error hrun
    cases hfailure

/-- A run that has come to its command has called it, whatever it reports then. -/
theorem command_eq_error {c : Command} {s after : Session} {error : BuildError}
    (hrun : (e.execute t c >>= fun _ => e.deliver t artifact target).runFrom s =
      (.error (.reported error), after)) : after.calls ≠ s.calls ∧ error.stage ≠ .preparing := by
  have hcalled : (e.called t c s).calls ≠ s.calls := by simp [called]
  rw [runFrom_execute_bind] at hrun
  cases hresult : (Call.mk c s.workspace).result t with
  | succeeded stdout =>
    rw [hresult] at hrun
    rw [(internal_deliver e t artifact target).calls_eq hrun]
    exact ⟨hcalled, (reportsOnly_deliver e t artifact target).error hrun⟩
  | failed message exitCode stderr =>
    rw [hresult] at hrun
    obtain ⟨hfailure, rfl⟩ := Prod.mk.inj hrun
    obtain rfl := Failure.reported.inj (Except.error.inj hfailure)
    refine ⟨hcalled, ?_⟩
    rintro ⟨⟩

theorem careful_command (e : Engine) (t : Toolchain) (c : Command) (artifact target : Text) :
    Careful (e.execute t c >>= fun _ => e.deliver t artifact target) := by
  refine ⟨fun _ hrun => ?_⟩
  obtain ⟨hcalls, hstage⟩ := command_eq_error hrun
  exact .of_called hcalls hstage

theorem careful_luastatic (e : Engine) (t : Toolchain) (job : Job) :
    Careful (e.invokeLuastatic t job) := by
  refine (preliminary_locate e t _).bind_careful fun program => ?_
  split
  · have hnone : Preliminary (Task.fail (.bundle .emptyManifest) : Task BuildError Text) :=
      ⟨(looks_stop _).quiet, reportsOnly_fail rfl⟩
    exact hnone.careful
  · exact preliminary_workspace.bind_careful fun w => careful_command e t _ _ _

theorem Keeps.addsDirectories {w w' : Workspace} {x : Location} {target : Text}
    (h : Keeps t w w' x target) (htree : IsTree w) (hfree : w.node? x = none) :
    AddsDirectories w (w'.removeAll (buildDirectory t)) := by
  have hnil : x ≠ [] := ne_nil_of_node? (by rw [hfree]; simp)
  refine ⟨(extends_removeAll w' _).base.symm.trans h.base, fun l => ?_⟩
  rw [node?_removeAll h.stands hnil]
  by_cases hl : x <+: l
  · rw [if_pos hl, htree.node?_below hfree hl]
    exact .inl rfl
  · rw [if_neg hl]
    exact (h.others l hl).imp_right fun ⟨hnone, hdirectory, _⟩ => ⟨hnone, hdirectory⟩

/-- A run that glues in a new directory takes the directory away when it fails. -/
theorem careful_glue (e : Engine) (t : Toolchain) (program stub : Text) (job : Job) :
    Careful (Task.change .interrupted (fun w => w.makeTemporary (buildDirectory t)) >>= fun _ =>
      (e.glue t program stub job).afterwards fun w => w.removeAll (buildDirectory t)) := by
  refine ⟨fun {s after error} htree hrun => ?_⟩
  rcases runFrom_bind_eq_error hrun with hfirst | ⟨_, _, hfirst, hsecond⟩
  · obtain ⟨_, hfailure⟩ := change_eq_error hfirst
    cases hfailure
  obtain ⟨w₀, hmade, rfl⟩ := change_eq_ok hfirst
  obtain ⟨x, hmadeAt, hkeeps⟩ := keeps_made htree hmade (s.workspace.absolute job.outputPath)
  have hremoved : w₀.removeAll (buildDirectory t) = s.workspace := hmadeAt.removeAll_eq htree
  let s₀ : Session := { s with workspace := w₀ }
  have htarget : w₀.absolute job.outputPath = s.workspace.absolute job.outputPath := by
    rw [absolute, absolute, hkeeps.base]
  have hs₀ : Keeps t s.workspace s₀.workspace x (s₀.workspace.absolute job.outputPath) :=
    htarget ▸ hkeeps
  rw [runFrom_afterwards] at hsecond
  rcases e.glue_ends t program stub job s₀ with
    ⟨cause, mid, hwrite, hglue⟩ | ⟨fault, bundled, mid, hcalls, hreadied, hglue⟩ |
      ⟨bundled, s₁, hcalls, hreadied, hglue⟩
  · rw [hglue] at hsecond
    obtain ⟨hresult, rfl⟩ := Prod.mk.inj hsecond
    obtain ⟨cause, rfl, rfl⟩ := Failure.map_eq_reported (Except.error.inj hresult)
    have hcalls : mid.calls = s₀.calls := (Bundle.internal_write _ _ _).calls_eq hwrite
    have hworkspace := workspace_of_write_error hs₀ hwrite
    refine .of_same hcalls ?_ (BuildError.stage_bundle_ne cause)
    exact (congrArg (·.removeAll (buildDirectory t)) hworkspace).trans hremoved
  · rw [hglue] at hsecond
    obtain ⟨hresult, rfl⟩ := Prod.mk.inj hsecond
    obtain rfl := Failure.reported.inj (Except.error.inj hresult)
    have hafter := (keeps_of_readied htree hmadeAt hs₀ hreadied).2.1
    exact .of_directories (hafter.addsDirectories htree hmadeAt.free)
  · rw [hglue] at hsecond
    obtain ⟨hresult, rfl⟩ := Prod.mk.inj hsecond
    obtain ⟨hcalled, hstage⟩ := command_eq_error (Prod.ext hresult rfl)
    exact .of_called (hcalls ▸ hcalled) hstage

theorem careful_srlua (e : Engine) (t : Toolchain) (stub : Option Text) (job : Job) :
    Careful (e.invokeSrlua t stub job) := by
  refine (preliminary_locate e t _).bind_careful fun program => ?_
  refine (preliminary_locate e t _).bind_careful fun interpreter => ?_
  exact careful_glue e t program interpreter job

theorem careful_invoke (e : Engine) (t : Toolchain) (job : Job) : Careful (e.invoke t job) := by
  unfold invoke
  split
  · exact (preliminary_refuse rfl).careful
  refine preliminary_workspace.bind_careful fun w => ?_
  split
  · split
    · exact careful_luastatic e t job
    · exact careful_srlua e t _ job
  · exact (preliminary_refuse rfl).careful

end Engine

namespace BuildRequest

theorem exists_of_analysis {α : Type} {result : Except (Failure AnalysisError) α}
    {error : BuildError} (h : result.mapError (Failure.map .analysis) = .error (.reported error)) :
    ∃ cause, error = .analysis cause := by
  cases result with
  | ok value => cases h
  | error failure =>
    obtain ⟨cause, _, rfl⟩ := Failure.map_eq_reported (Except.error.inj h)
    exact ⟨cause, rfl⟩

theorem reportsOnly_foundManifest (r : BuildRequest) (entry : Text) :
    ReportsOnly (fun error => ∃ cause, error = .analysis cause) (r.foundManifest entry) := by
  unfold foundManifest
  split
  · exact reportsOnly_pure _
  · refine reportsOnly_workspace.bind fun w => (reportsOnly_update _).bind fun _ => ?_
    exact (reportsOnly_ofResult fun _ => exists_of_analysis).bind fun g => reportsOnly_pure _

/-- Before its engine is looked at, a build fails with errors of its analysis alone. -/
theorem reportsOnly_manifest (r : BuildRequest) :
    ReportsOnly (fun error => ∃ cause, error = .analysis cause) r.manifest := by
  refine reportsOnly_workspace.bind fun w => ?_
  refine (reportsOnly_ofResult fun _ => exists_of_analysis).bind fun entry => ?_
  refine (reportsOnly_ofResult fun _ h => ?_).bind fun explicit => ?_
  · obtain ⟨path, _, hpath⟩ := exists_of_mapM_eq_error h
    exact exists_of_analysis hpath
  · refine (reportsOnly_foundManifest r entry).bind fun found => ?_
    exact (reportsOnly_update _).bind fun _ => reportsOnly_pure _

theorem preliminary_manifest (r : BuildRequest) : Preliminary r.manifest := by
  refine ⟨quiet_manifest r, (reportsOnly_manifest r).imp ?_⟩
  rintro error ⟨cause, rfl⟩
  rfl

theorem preliminary_checked (e : Engine) (t : Toolchain) : Preliminary (e.checked t) := by
  unfold Engine.checked
  split
  · exact Engine.preliminary_refuse rfl
  · refine preliminary_workspace.bind fun w => ?_
    split
    · exact preliminary_pure _
    · exact Engine.preliminary_refuse rfl

theorem preliminary_engine (r : BuildRequest) (t : Toolchain) : Preliminary (r.engine t) := by
  cases hname : r.engineName with
  | none =>
    rw [engine_standard hname]
    exact preliminary_checked _ t
  | some name =>
    rw [engine_named hname]
    refine .bind ⟨quiet_ofExcept _, reportsOnly_ofExcept fun error h => ?_⟩ fun e =>
      preliminary_checked e t
    cases hnamed : Engine.named name with
    | ok e =>
      rw [hnamed] at h
      cases h
    | error cause =>
      obtain ⟨known, rfl⟩ := Engine.named_eq_error hnamed
      rw [hnamed] at h
      obtain rfl := Except.error.inj h
      rfl

theorem careful_run (r : BuildRequest) (t : Toolchain) : Careful (r.run t) := by
  refine (preliminary_manifest r).bind_careful fun manifest => ?_
  refine (preliminary_engine r t).bind_careful fun e => ?_
  exact (e.careful_invoke t _).map _

end BuildRequest

end LuaBundle
