import LuaBundle.Engine.Invoke
import LuaBundle.Proofs.Bundle.Content

/-! A run of an engine, seen from the command that it starts. A run that gets so far as to start its
command starts no other. From there it goes on, with a command that succeeded, in one way for all
engines: it expects the artifact of the command, moves it to where the output should be, and makes
it executable. -/

namespace LuaBundle

open LuaBundle.Task Workspace

/-- What a host answers to a call. -/
def Call.result (t : Toolchain) (call : Call) : CommandResult :=
  (t.run call.command call.workspace).1

/-- What a host leaves of the workspace of a call. -/
def Call.after (t : Toolchain) (call : Call) : Workspace :=
  (t.run call.command call.workspace).2

def Call.Succeeds (t : Toolchain) (call : Call) : Prop :=
  ∃ stdout, call.result t = .succeeded stdout

namespace Task

variable {ε φ α β : Type} {task : Task ε α}

/-- A task that makes no calls. -/
structure Internal (task : Task ε α) : Prop where
  calls : ∀ s, (task.runFrom s).2.calls = s.calls

theorem Internal.calls_eq {s after : Session} {result : Except (Failure ε) α} (h : Internal task)
    (hrun : task.runFrom s = (result, after)) : after.calls = s.calls := by
  have hcalls := h.calls s
  rwa [hrun] at hcalls

theorem Quiet.internal (h : Quiet task) : Internal task := ⟨h.calls⟩

theorem Internal.bind {next : α → Task ε β} (h : Internal task)
    (hnext : ∀ value, Internal (next value)) : Internal (task >>= next) :=
  ⟨same_bind Session.calls h.calls fun value => (hnext value).calls⟩

theorem internal_tryChange (onError : FileError → Failure ε)
    (f : Workspace → Except FileError Unit × Workspace) : Internal (tryChange onError f) :=
  ⟨fun _ => rfl⟩

theorem internal_change (onError : FileError → Failure ε)
    (f : Workspace → Except FileError Workspace) : Internal (change onError f) := by
  refine ⟨fun s => ?_⟩
  rw [runFrom, change]
  split <;> rfl

end Task

namespace Bundle

theorem internal_write (version output : Text) (manifest : Manifest) :
    Internal (write version manifest output) := by
  refine quiet_workspace.internal.bind fun w => (quiet_ofExcept _).internal.bind fun text => ?_
  refine (internal_tryChange _ _).bind fun _ => (internal_change _ _).bind fun _ => ?_
  exact ((quiet_report _).bind fun _ => quiet_pure _).internal

end Bundle

namespace Engine

variable {e : Engine} {t : Toolchain} {job : Job} {c : Command} {s s₁ after : Session}
  {artifact target path : Text}

/-- The session in which a command of an engine has ended. -/
def called (e : Engine) (t : Toolchain) (c : Command) (s : Session) : Session where
  workspace := (Call.mk c s.workspace).after t
  events := s.events ++ [.engineInvoked e.name (c.program :: c.arguments)]
  calls := s.calls ++ [⟨c, s.workspace⟩]

/-- How a failed command is reported. -/
def commandFailed (e : Engine) (c : Command) (error : Text) (exitCode : Option Number)
    (stderr : Option Text) : Failure BuildError :=
  .reported (.packaging (.processFailed e.name (Path.baseName [] c.program :: c.arguments) exitCode
    (stderr.getD error)))

theorem runFrom_execute (e : Engine) (t : Toolchain) (c : Command) (s : Session) :
    (e.execute t c).runFrom s =
      (match (Call.mk c s.workspace).result t with
        | .succeeded _ => .ok ()
        | .failed error exitCode stderr => .error (e.commandFailed c error exitCode stderr),
        e.called t c s) := by
  have hcalled : (e.execute t c).runFrom s = Task.runFrom
      (match (Call.mk c s.workspace).result t with
        | .succeeded _ => return ()
        | .failed error exitCode stderr => Task.stop (e.commandFailed c error exitCode stderr))
      (e.called t c s) := rfl
  rw [hcalled]
  cases (Call.mk c s.workspace).result t <;> rfl

theorem runFrom_locate (e : Engine) (t : Toolchain) (name : Text) (s : Session) :
    (e.locate t name).runFrom s =
      (match t.find s.workspace name with
        | some path => .ok path
        | none => .error (.reported (.packaging (.toolchainNotFound e.name [name] e.installHint))),
        s) := by
  have hfound : (e.locate t name).runFrom s = Task.runFrom
      (match t.find s.workspace name with
        | some path => return path
        | none => refuse (.toolchainNotFound e.name [name] e.installHint)) s := rfl
  rw [hfound]
  cases t.find s.workspace name <;> rfl

/-- Takes what the command left to where the output should be. -/
def deliver (e : Engine) (t : Toolchain) (artifact target : Text) : Task BuildError Text := do
  e.expect artifact
  moveOutput artifact target
  makeExecutable t target
  return target

/-- What an engine does to the workspace however its run ends. -/
def cleanUp (e : Engine) (t : Toolchain) (w : Workspace) : Workspace :=
  match e.kind with
  | .luastatic => w
  | .srlua _ => w.removeAll (buildDirectory t)

theorem cleanUp_srlua {stub : Option Text} (hkind : e.kind = .srlua stub) :
    e.cleanUp t = fun w => w.removeAll (buildDirectory t) := by
  funext w
  rw [cleanUp, hkind]

theorem runFrom_cleanUp {α : Type} (hkind : e.kind = .luastatic) (task : Task BuildError α)
    (s : Session) : (task.afterwards (e.cleanUp t)).runFrom s = task.runFrom s := by
  have hkeeps : e.cleanUp t = id := by
    funext w
    rw [cleanUp, hkind]
    rfl
  rw [hkeeps]
  rfl

/-- The file that an engine takes for the result of its command. -/
def artifactPath? (e : Engine) (w : Workspace) (job : Job) : Option Text :=
  match e.kind with
  | .luastatic => job.manifest.entryPoint?.map (producedPath ·.path)
  | .srlua _ => some (w.absolute job.outputPath)

theorem looks_locate (e : Engine) (t : Toolchain) (name : Text) : Looks (e.locate t name) := by
  refine looks_workspace.bind fun w => ?_
  split
  · exact looks_pure _
  · exact looks_stop _

theorem looks_expect (e : Engine) (path : Text) : Looks (e.expect path) := by
  refine looks_workspace.bind fun w => ?_
  split
  · exact looks_pure _
  · exact looks_stop _

theorem internal_moveOutput (artifact target : Text) : Internal (moveOutput artifact target) := by
  unfold moveOutput
  split
  · exact (quiet_pure _).internal
  · exact (internal_tryChange _ _).bind fun _ => (internal_tryChange _ _).bind fun _ =>
      internal_change _ _

theorem internal_makeExecutable (t : Toolchain) (path : Text) :
    Internal (makeExecutable t path) := by
  unfold makeExecutable
  split
  · exact (quiet_pure _).internal
  · exact internal_change _ _

theorem internal_deliver (e : Engine) (t : Toolchain) (artifact target : Text) :
    Internal (e.deliver t artifact target) := by
  refine (looks_expect e artifact).quiet.internal.bind fun _ => ?_
  refine (internal_moveOutput artifact target).bind fun _ => ?_
  exact (internal_makeExecutable t target).bind fun _ => (quiet_pure target).internal

/-- A run that comes to start its command: in the session `s₁` it calls `c`. -/
structure Starts (e : Engine) (t : Toolchain) (job : Job) (s : Session) (c : Command)
    (s₁ : Session) (artifact : Text) : Prop where
  takes : e.artifactPath? s.workspace job = some artifact
  start : e.kind = .luastatic → s₁ = s
  calls : s₁.calls = s.calls
  run : (e.invoke t job).runFrom s = ((e.execute t c >>= fun _ =>
    e.deliver t artifact (s.workspace.absolute job.outputPath)).afterwards (e.cleanUp t)).runFrom s₁

/-- A run that ends before it has started its command. -/
structure Stops (e : Engine) (t : Toolchain) (job : Job) (s : Session) : Prop where
  failed : ∃ failure, ((e.invoke t job).runFrom s).1 = .error failure
  calls : ((e.invoke t job).runFrom s).2.calls = s.calls

theorem Stops.of_error {failure : Failure BuildError}
    (h : (e.invoke t job).runFrom s = (.error failure, after)) (hcalls : after.calls = s.calls) :
    e.Stops t job s :=
  ⟨⟨failure, congrArg Prod.fst h⟩, (congrArg (·.2.calls) h).trans hcalls⟩

theorem invoke_luastatic (hkind : e.kind = .luastatic) (t : Toolchain) (job : Job) (s : Session)
    (hrun : (e.invoke t job).runFrom s = (e.invokeLuastatic t job).runFrom s) :
    e.Stops t job s ∨ ∃ c s₁ artifact, e.Starts t job s c s₁ artifact := by
  unfold invokeLuastatic at hrun
  rw [runFrom_bind, runFrom_locate] at hrun
  cases hfind : t.find s.workspace "luastatic" with
  | none =>
    rw [hfind] at hrun
    exact .inl (.of_error hrun rfl)
  | some program =>
    rw [hfind] at hrun
    cases hentry : job.manifest.entryPoint? with
    | none =>
      simp only [hentry] at hrun
      exact .inl (.of_error hrun rfl)
    | some entry =>
      simp only [hentry] at hrun
      let c : Command := ⟨program, luastaticArguments s.workspace.base job.manifest
        job.extraArguments, Path.parent entry.path⟩
      refine .inr ⟨c, s, producedPath entry.path, ?_, fun _ => rfl, rfl, hrun.trans ?_⟩
      · rw [artifactPath?, hkind, hentry]
        rfl
      · rw [runFrom_cleanUp hkind]
        rfl

theorem base_of_write {version output : Text} {manifest : Manifest}
    (h : (Bundle.write version manifest output).runFrom s = (.ok target, after)) :
    after.workspace.base = s.workspace.base := by
  obtain ⟨text, w, _, _, hmade, hwritten⟩ := Bundle.write_eq_ok h
  obtain ⟨_, place, _, _, hput⟩ := writeBytes_eq_ok hwritten
  have hbase := (makeDirectories_extends s.workspace (Path.parent target)).base
  rw [hmade] at hbase
  rw [hput]
  exact hbase

theorem deliver_self (e : Engine) (t : Toolchain) (target : Text) :
    e.deliver t target target = do
      e.expect target
      makeExecutable t target
      return target := by
  rw [deliver, moveOutput, if_pos rfl, pure_bind]

/-- The bundle of a job has been written to `bundled`, and directories have been made for its output
as far as they could be. -/
def Readied (t : Toolchain) (job : Job) (s : Session) (bundled : Text) (w : Workspace) : Prop :=
  ∃ mid, (Bundle.write Bundle.version job.manifest
      (Path.join [buildDirectory t, "bundle.lua"])).runFrom s = (.ok bundled, mid) ∧
    w = (mid.workspace.makeDirectories (Path.parent (s.workspace.absolute job.outputPath))).2

/-- The command that glues a bundle, with what follows it. -/
def glueCommand (e : Engine) (t : Toolchain) (program stub target bundled : Text) :
    Task BuildError Text :=
  e.execute t ⟨program, [stub, bundled, target], Path.parent target⟩ >>= fun _ =>
    e.deliver t target target

/-- What gluing does once its bundle is written. -/
def glueBundle (e : Engine) (t : Toolchain) (program stub : Text) (job : Job) (bundled : Text) :
    Task BuildError Text :=
  workspace >>= fun w => prepareDirectory (w.absolute job.outputPath) >>= fun _ =>
    e.glueCommand t program stub (w.absolute job.outputPath) bundled

theorem glue_eq (e : Engine) (t : Toolchain) (program stub : Text) (job : Job) :
    e.glue t program stub job = (Bundle.write Bundle.version job.manifest
      (Path.join [buildDirectory t, "bundle.lua"])).mapError .bundle >>=
        fun bundled => e.glueBundle t program stub job bundled := by
  simp only [glueBundle, glueCommand, deliver_self]
  rfl

/-- Once its bundle is written, gluing makes directories for the output. It gives up where these
cannot be made, or it starts its command. -/
theorem glueBundle_ends (e : Engine) (t : Toolchain) (program stub : Text) (job : Job)
    (bundled : Text) (s : Session) :
    ∃ after, after.calls = s.calls ∧
      after.workspace =
        (s.workspace.makeDirectories (Path.parent (s.workspace.absolute job.outputPath))).2 ∧
      ((∃ error, (e.glueBundle t program stub job bundled).runFrom s =
        (.error (unwritable (s.workspace.absolute job.outputPath) error), after)) ∨
      (e.glueBundle t program stub job bundled).runFrom s =
        (e.glueCommand t program stub (s.workspace.absolute job.outputPath) bundled).runFrom
          after) := by
  have hrun : (e.glueBundle t program stub job bundled).runFrom s =
      (prepareDirectory (s.workspace.absolute job.outputPath) >>= fun _ => e.glueCommand t program
        stub (s.workspace.absolute job.outputPath) bundled).runFrom s := rfl
  rw [hrun]
  cases hmade : s.workspace.makeDirectories (Path.parent (s.workspace.absolute job.outputPath)) with
  | mk result w =>
  refine ⟨{ s with workspace := w }, rfl, rfl, ?_⟩
  cases result with
  | error error => exact .inl ⟨error, runFrom_bind_error (runFrom_tryChange_error hmade) _⟩
  | ok => exact .inr (runFrom_bind_ok (runFrom_tryChange_ok hmade) _)

/-- Gluing has come to start its command, with the bundle at a path. -/
structure GluesFrom (e : Engine) (t : Toolchain) (program stub : Text) (job : Job) (s : Session)
    (bundled : Text) (s₁ : Session) : Prop where
  calls : s₁.calls = s.calls
  readied : Readied t job s bundled s₁.workspace
  run : (e.glue t program stub job).runFrom s =
    (e.glueCommand t program stub (s.workspace.absolute job.outputPath) bundled).runFrom s₁

/-- Gluing gives up where the bundle cannot be written, or where the directories for the output
cannot be made, or it starts its command. -/
theorem glue_ends (e : Engine) (t : Toolchain) (program stub : Text) (job : Job) (s : Session) :
    (∃ cause after, (Bundle.write Bundle.version job.manifest
        (Path.join [buildDirectory t, "bundle.lua"])).runFrom s = (.error cause, after) ∧
      (e.glue t program stub job).runFrom s = (.error (cause.map .bundle), after)) ∨
    (∃ error bundled after, after.calls = s.calls ∧ Readied t job s bundled after.workspace ∧
      (e.glue t program stub job).runFrom s =
        (.error (unwritable (s.workspace.absolute job.outputPath) error), after)) ∨
    ∃ bundled s₁, e.GluesFrom t program stub job s bundled s₁ := by
  have hmapped := runFrom_mapError (Bundle.write Bundle.version job.manifest
    (Path.join [buildDirectory t, "bundle.lua"])) BuildError.bundle s
  cases hwrite : (Bundle.write Bundle.version job.manifest
    (Path.join [buildDirectory t, "bundle.lua"])).runFrom s with
  | mk result mid =>
  rw [hwrite] at hmapped
  cases result with
  | error cause =>
    refine .inl ⟨cause, mid, rfl, ?_⟩
    rw [glue_eq]
    exact runFrom_bind_error hmapped _
  | ok bundled =>
    have hcalls : mid.calls = s.calls := (Bundle.internal_write _ _ _).calls_eq hwrite
    have htarget : mid.workspace.absolute job.outputPath = s.workspace.absolute job.outputPath := by
      rw [absolute, absolute, base_of_write hwrite]
    have hrun : (e.glue t program stub job).runFrom s =
        (e.glueBundle t program stub job bundled).runFrom mid := by
      rw [glue_eq]
      exact runFrom_bind_ok hmapped _
    obtain ⟨after, hsame, hmade, hends⟩ := e.glueBundle_ends t program stub job bundled mid
    rw [htarget] at hmade hends
    have hreadied : Readied t job s bundled after.workspace := ⟨mid, hwrite, hmade⟩
    rcases hends with ⟨error, hend⟩ | hend
    · exact .inr (.inl ⟨error, bundled, after, hsame.trans hcalls, hreadied, hrun.trans hend⟩)
    · exact .inr (.inr ⟨bundled, after, hsame.trans hcalls, hreadied, hrun.trans hend⟩)

/-- Gluing gives up before it has called anything, or it starts its command. -/
theorem glue_cases (e : Engine) (t : Toolchain) (program stub : Text) (job : Job) (s : Session) :
    (∃ failure after, (e.glue t program stub job).runFrom s = (.error failure, after) ∧
      after.calls = s.calls ∧ ((∃ failure, (Bundle.write Bundle.version job.manifest
        (Path.join [buildDirectory t, "bundle.lua"])).runFrom s = (.error failure, after)) ∨
        ∃ bundled, Readied t job s bundled after.workspace)) ∨
    ∃ bundled s₁, e.GluesFrom t program stub job s bundled s₁ := by
  rcases e.glue_ends t program stub job s with
    ⟨cause, after, hwrite, hrun⟩ | ⟨_, bundled, after, hcalls, hreadied, hrun⟩ | hstarts
  · exact .inl ⟨_, after, hrun, (Bundle.internal_write _ _ _).calls_eq hwrite, .inl ⟨cause, hwrite⟩⟩
  · exact .inl ⟨_, after, hrun, hcalls, .inr ⟨bundled, hreadied⟩⟩
  · exact .inr hstarts

theorem runFrom_afterwards_congr {α ε : Type} {task task' : Task ε α}
    (h : task.runFrom s = task'.runFrom s₁) (f : Workspace → Workspace) :
    (task.afterwards f).runFrom s = (task'.afterwards f).runFrom s₁ := by
  rw [runFrom_afterwards, runFrom_afterwards, h]

/-- An engine that glues ends before it has done anything, or it glues in a new directory. -/
theorem invokeSrlua_cases (e : Engine) (t : Toolchain) (stub : Option Text) (job : Job)
    (s : Session) :
    (∃ failure, (e.invokeSrlua t stub job).runFrom s = (.error failure, s)) ∨
    ∃ program interpreter w₀, t.find s.workspace "srglue" = some program ∧
      t.find s.workspace (stub.getD defaultStub) = some interpreter ∧
      s.workspace.makeTemporary (buildDirectory t) = .ok w₀ ∧
      (e.invokeSrlua t stub job).runFrom s = ((e.glue t program interpreter job).afterwards
        fun w => w.removeAll (buildDirectory t)).runFrom { s with workspace := w₀ } := by
  unfold invokeSrlua
  rw [runFrom_bind, runFrom_locate]
  cases hprogram : t.find s.workspace "srglue" with
  | none => exact .inl ⟨_, rfl⟩
  | some program =>
    simp only [runFrom_bind, runFrom_locate]
    cases hstub : t.find s.workspace (stub.getD defaultStub) with
    | none => exact .inl ⟨_, rfl⟩
    | some interpreter =>
      cases hmade : s.workspace.makeTemporary (buildDirectory t) with
      | error error =>
        have hfailed : (change .interrupted (fun w => w.makeTemporary (buildDirectory t)) :
            Task BuildError Unit).runFrom s = (.error (.interrupted error), s) :=
          runFrom_change_error hmade
        simp only [hfailed]
        exact .inl ⟨_, rfl⟩
      | ok w₀ =>
        have hchanged : (change .interrupted (fun w => w.makeTemporary (buildDirectory t)) :
            Task BuildError Unit).runFrom s = (.ok (), { s with workspace := w₀ }) :=
          runFrom_change_ok hmade
        simp only [hchanged]
        exact .inr ⟨program, interpreter, w₀, rfl, rfl, rfl, rfl⟩

section Glue

variable {program interpreter : Text} {w₀ : Workspace}
  (hrun : (e.invoke t job).runFrom s = ((e.glue t program interpreter job).afterwards
    fun w => w.removeAll (buildDirectory t)).runFrom { s with workspace := w₀ })

include hrun

theorem stops_of_glue {failure : Failure BuildError}
    (hglue : (e.glue t program interpreter job).runFrom { s with workspace := w₀ } =
      (.error failure, after)) (hcalls : after.calls = s.calls) : e.Stops t job s := by
  have hended : (e.invoke t job).runFrom s = ((Task.stop failure : Task BuildError Text).afterwards
      fun w => w.removeAll (buildDirectory t)).runFrom after :=
    hrun.trans (runFrom_afterwards_congr hglue _)
  exact .of_error hended hcalls

theorem starts_of_glue {stub : Option Text} (hkind : e.kind = .srlua stub)
    (hglue : (e.glue t program interpreter job).runFrom { s with workspace := w₀ } =
      (e.execute t c >>= fun _ => e.deliver t (s.workspace.absolute job.outputPath)
        (s.workspace.absolute job.outputPath)).runFrom s₁)
    (hcalls : s₁.calls = s.calls) :
    e.Starts t job s c s₁ (s.workspace.absolute job.outputPath) := by
  refine ⟨?_, ?_, hcalls, ?_⟩
  · rw [artifactPath?, hkind]
  · rw [hkind]
    rintro ⟨⟩
  · rw [cleanUp_srlua hkind]
    exact hrun.trans (runFrom_afterwards_congr hglue _)

end Glue

theorem invoke_srlua {stub : Option Text} (hkind : e.kind = .srlua stub) (t : Toolchain) (job : Job)
    (s : Session) (hrun : (e.invoke t job).runFrom s = (e.invokeSrlua t stub job).runFrom s) :
    e.Stops t job s ∨ ∃ c s₁ artifact, e.Starts t job s c s₁ artifact := by
  rcases invokeSrlua_cases e t stub job s with
    ⟨failure, hfailed⟩ | ⟨program, interpreter, w₀, _, _, htemporary, hglued⟩
  · exact .inl (.of_error (hrun.trans hfailed) rfl)
  have hbase := (makeDirectory_extends (makeTemporary_eq_ok htemporary)).base
  have htarget : w₀.absolute job.outputPath = s.workspace.absolute job.outputPath := by
    rw [absolute, absolute, hbase]
  rcases glue_cases e t program interpreter job { s with workspace := w₀ } with
    ⟨failure, after, hglue, hcalls, _⟩ | ⟨bundled, s₁, hcalls, _, hglue⟩
  · exact .inl (stops_of_glue (hrun.trans hglued) hglue hcalls)
  · simp only [htarget] at hglue
    exact .inr ⟨_, s₁, _, starts_of_glue (hrun.trans hglued) hkind hglue hcalls⟩

theorem runFrom_invoke (hplatform : e.supports t.platform = true) (job : Job) (s : Session) :
    (e.invoke t job).runFrom s =
      match t.missing s.workspace e with
      | [] => (match e.kind with
        | .luastatic => e.invokeLuastatic t job
        | .srlua stub => e.invokeSrlua t stub job).runFrom s
      | missing => (.error (.reported (.packaging (.toolchainNotFound e.name missing
          e.installHint))), s) := by
  rw [invoke, if_neg (by simp [hplatform]), runFrom_bind, runFrom_workspace]
  dsimp only
  cases t.missing s.workspace e <;> rfl

/-- A run ends before it has started its command, or it starts one. -/
theorem invoke_cases (e : Engine) (t : Toolchain) (job : Job) (s : Session) :
    e.Stops t job s ∨ ∃ c s₁ artifact, e.Starts t job s c s₁ artifact := by
  by_cases hplatform : e.supports t.platform = true
  · have hinvoke := runFrom_invoke hplatform job s
    cases hmissing : t.missing s.workspace e with
    | nil =>
      rw [hmissing] at hinvoke
      cases hkind : e.kind with
      | luastatic => exact invoke_luastatic hkind t job s (by rw [hinvoke, hkind])
      | srlua stub => exact invoke_srlua hkind t job s (by rw [hinvoke, hkind])
    | cons =>
      rw [hmissing] at hinvoke
      exact .inl (.of_error hinvoke rfl)
  · have hinvoke : (e.invoke t job).runFrom s =
        (refuse (e.unsupported t) : Task BuildError Text).runFrom s := by
      rw [invoke, if_pos (by simp [hplatform])]
    exact .inl (.of_error hinvoke rfl)

/-! What follows from the ways in which a run can go. -/

theorem runFrom_execute_bind {α : Type} (rest : Task BuildError α) :
    (e.execute t c >>= fun _ => rest).runFrom s =
      match (Call.mk c s.workspace).result t with
      | .succeeded _ => rest.runFrom (e.called t c s)
      | .failed error exitCode stderr =>
        (.error (e.commandFailed c error exitCode stderr), e.called t c s) := by
  rw [runFrom_bind, runFrom_execute]
  cases (Call.mk c s.workspace).result t <;> rfl

theorem Stops.callsFrom_eq (h : e.Stops t job s) : (e.invoke t job).callsFrom s = [] :=
  Task.callsFrom_eq (by rw [h.calls, List.append_nil])

namespace Starts

variable (h : e.Starts t job s c s₁ artifact)

include h

theorem callsFrom_eq : (e.invoke t job).callsFrom s = [⟨c, s₁.workspace⟩] := by
  have hcalled : s.calls ++ [⟨c, s₁.workspace⟩] = (e.called t c s₁).calls := by
    rw [called, h.calls]
  refine Task.callsFrom_eq (hcalled.trans ?_)
  rw [h.run, runFrom_afterwards, runFrom_execute_bind]
  cases (Call.mk c s₁.workspace).result t with
  | succeeded => exact ((internal_deliver e t artifact _).calls _).symm
  | failed => rfl

theorem succeeded (hok : (Call.mk c s₁.workspace).Succeeds t) :
    (e.invoke t job).runFrom s = ((e.deliver t artifact (s.workspace.absolute
      job.outputPath)).afterwards (e.cleanUp t)).runFrom (e.called t c s₁) := by
  obtain ⟨stdout, hok⟩ := hok
  refine h.run.trans (runFrom_afterwards_congr ?_ _)
  rw [runFrom_execute_bind, hok]

/-- A run whose command has failed fails. -/
theorem failed (hfailed : ¬(Call.mk c s₁.workspace).Succeeds t) :
    ∃ failure, ((e.invoke t job).runFrom s).1 = .error failure := by
  rw [h.run, runFrom_afterwards, runFrom_execute_bind]
  cases hresult : (Call.mk c s₁.workspace).result t with
  | succeeded stdout => exact absurd ⟨stdout, hresult⟩ hfailed
  | failed => exact ⟨_, rfl⟩

end Starts

end Engine

/-! A program of one file, and hosts to make an executable from it. -/

namespace Session

/-- A directory with one file, the working directory. -/
def project (name : Text) : Session :=
  .start ((⟨"/proj", []⟩ : Workspace).put ["proj"] .directory |>.put ["proj", name]
    (.file (Utf8.encode "return 1") newFileMode))

theorem isTree_project (name : Text) : IsTree (project name).workspace := by
  have hempty : IsTree ⟨"/proj", []⟩ := by
    refine ⟨fun {l n} hl {d} hd hdl => ?_⟩
    have hnil : l ≠ [] := by
      rintro rfl
      exact hdl (List.prefix_nil.mp hd)
    rw [node?, if_neg hnil] at hl
    cases hl
  have hdirectory := hempty.put ⟨[], "proj", rfl, rfl⟩ (by decide) .directory
  refine hdirectory.put ⟨["proj"], name, rfl, by decide⟩ ?_ _
  rw [node?_put (by simp), if_neg (by simp)]
  simp [node?]

/-- A host with every program, which does to the workspace what `run` says. -/
def host (run : Workspace → Workspace) : Toolchain where
  platform := "linux"
  find := fun _ name => some ("/bin/" ++ name)
  run := fun _ w => (.succeeded [], run w)
  drawn := default

/-- A program that is given one file, and what an engine is to make from it. -/
def job (name : Text) : Job := ⟨[⟨"main", "/proj/" ++ name⟩], "app", []⟩

/-- What a compiler leaves beside `main.lua`. -/
def compile (w : Workspace) : Workspace := w.put ["proj", "main"] (.file [127] executableMode)

theorem isTree_compile {w : Workspace} (h : IsTree w) (hproj : w.node? ["proj"] = some .directory)
    (hmain : w.node? ["proj", "main"] = none) : IsTree (compile w) :=
  h.put ⟨["proj"], "main", rfl, hproj⟩ (by simp [hmain]) _

/-- The call of the compiler for `main.lua`. -/
def compilation (s : Session) : Call := ⟨⟨"/bin/luastatic", ["main.lua"], "/proj"⟩, s.workspace⟩

theorem callsFrom_compile :
    (Engine.luastatic.invoke (host compile) (job "main.lua")).callsFrom (project "main.lua") =
      [compilation (project "main.lua")] := by
  decide +kernel

theorem invoke_compile :
    ((Engine.luastatic.invoke (host compile) (job "main.lua")).runFrom (project "main.lua")).1 =
      .ok "/proj/app" := by
  decide +kernel

end Session

end LuaBundle
