import LuaBundle.Event
import LuaBundle.Failure
import LuaBundle.Workspace.Write

/-! What a run does besides returning a result: it changes the workspace, reports events and calls
commands. A task keeps what it did also when it fails. -/

namespace LuaBundle

/-- A program to start, with its arguments and the directory to start it in. -/
structure Command where
  program : Text
  arguments : List Text
  directory : Text
  deriving DecidableEq, Repr

inductive CommandResult where
  | succeeded (stdout : Text)
  /-- A command that did not start, or that a signal ended, has no exit code. -/
  | failed (error : Text) (exitCode : Option Number) (stderr : Option Text)
  deriving DecidableEq, Repr

/-- A call of a command, with the workspace that the command found. -/
structure Call where
  command : Command
  workspace : Workspace
  deriving DecidableEq

structure Session where
  workspace : Workspace
  events : List Event
  calls : List Call
  deriving DecidableEq

def Session.start (w : Workspace) : Session := ⟨w, [], []⟩

/-- An operation in a session: its result, and the session that it leaves. -/
def Task (ε α : Type) : Type := Session → Except (Failure ε) α × Session

namespace Task

variable {ε φ α β : Type}

def runFrom (task : Task ε α) (s : Session) : Except (Failure ε) α × Session := task s

/-- One task after another; a failure ends both. -/
def andThen (task : Task ε α) (next : α → Task ε β) : Task ε β := fun s =>
  match task.runFrom s with
  | (.ok value, after) => (next value).runFrom after
  | (.error failure, after) => (.error failure, after)

instance : Monad (Task ε) where
  pure value := fun s => (.ok value, s)
  bind := andThen

def stop (failure : Failure ε) : Task ε α := fun s => (.error failure, s)

def fail (error : ε) : Task ε α := stop (.reported error)

/-- A change of the session that cannot fail. -/
def update (f : Session → Session) : Task ε Unit := fun s => (.ok (), f s)

def report (event : Event) : Task ε Unit :=
  update fun s => { s with events := s.events ++ [event] }

def reportAll (events : List Event) : Task ε Unit :=
  update fun s => { s with events := s.events ++ events }

def workspace : Task ε Workspace := fun s => (.ok s.workspace, s)

/-- A result that was found without touching the session. -/
def ofResult : Except (Failure ε) α → Task ε α
  | .ok value => pure value
  | .error failure => stop failure

def ofExcept : Except ε α → Task ε α
  | .ok value => pure value
  | .error error => fail error

/-- A change of the workspace that may be left half done, with what becomes of its error. -/
def tryChange (onError : FileError → Failure ε)
    (f : Workspace → Except FileError Unit × Workspace) : Task ε Unit := fun s =>
  ((f s.workspace).1.mapError onError, { s with workspace := (f s.workspace).2 })

/-- A change of the workspace that is made or not. -/
def change (onError : FileError → Failure ε) (f : Workspace → Except FileError Workspace) :
    Task ε Unit := fun s =>
  match f s.workspace with
  | .ok w => (.ok (), { s with workspace := w })
  | .error error => (.error (onError error), s)

def call (run : Command → Workspace → CommandResult × Workspace) (c : Command) :
    Task ε CommandResult := fun s =>
  (.ok (run c s.workspace).1,
    { s with workspace := (run c s.workspace).2, calls := s.calls ++ [⟨c, s.workspace⟩] })

/-- Ends a task with a change of the workspace, whether it succeeds or not. -/
def afterwards (task : Task ε α) (f : Workspace → Workspace) : Task ε α := fun s =>
  let (result, after) := task.runFrom s
  (result, { after with workspace := f after.workspace })

def mapError (f : ε → φ) (task : Task ε α) : Task φ α := fun s =>
  let (result, after) := task.runFrom s
  (result.mapError (Failure.map f), after)

@[simp] theorem runFrom_pure (value : α) (s : Session) :
    (pure value : Task ε α).runFrom s = (.ok value, s) := rfl

theorem runFrom_bind (task : Task ε α) (next : α → Task ε β) (s : Session) :
    (task >>= next).runFrom s =
      match task.runFrom s with
      | (.ok value, after) => (next value).runFrom after
      | (.error failure, after) => (.error failure, after) := rfl

theorem runFrom_bind_ok {task : Task ε α} {s after : Session} {value : α}
    (h : task.runFrom s = (.ok value, after)) (next : α → Task ε β) :
    (task >>= next).runFrom s = (next value).runFrom after := by
  rw [runFrom_bind, h]

theorem runFrom_bind_error {task : Task ε α} {s after : Session} {failure : Failure ε}
    (h : task.runFrom s = (.error failure, after)) (next : α → Task ε β) :
    (task >>= next).runFrom s = (.error failure, after) := by
  rw [runFrom_bind, h]

@[simp] theorem runFrom_stop (failure : Failure ε) (s : Session) :
    (stop failure : Task ε α).runFrom s = (.error failure, s) := rfl

@[simp] theorem runFrom_fail (error : ε) (s : Session) :
    (fail error : Task ε α).runFrom s = (.error (.reported error), s) := rfl

@[simp] theorem runFrom_update (f : Session → Session) (s : Session) :
    (update f : Task ε Unit).runFrom s = (.ok (), f s) := rfl

@[simp] theorem runFrom_workspace (s : Session) :
    (workspace : Task ε Workspace).runFrom s = (.ok s.workspace, s) := rfl

instance : LawfulMonad (Task ε) :=
  LawfulMonad.mk' _
    (fun task => funext fun s => by
      change (match task s with
        | (.ok value, after) => (.ok value, after)
        | (.error failure, after) => (.error failure, after)) = task s
      split <;> simp_all)
    (fun _ _ => rfl)
    (fun task _ _ => funext fun s => by
      simp only [bind, andThen, runFrom]
      cases task s with
      | mk result after => cases result <;> rfl)

end Task

end LuaBundle
