import LuaBundle.Session

/-! What a command prints, line by line, and what it does besides. -/

namespace LuaBundle

/-- One piece of output, ended by a line break when it is shown. -/
inductive OutputLine where
  | out (text : Text)
  | err (text : Text)
  deriving DecidableEq, Repr

/-- What became of a command that ran in a session. -/
structure Outcome (α : Type) where
  result : α
  log : List OutputLine
  session : Session

namespace Outcome

variable {α β : Type}

def append (o : Outcome α) (log : List OutputLine) : Outcome α := { o with log := o.log ++ log }

def prepend (log : List OutputLine) (o : Outcome α) : Outcome α := { o with log := log ++ o.log }

def map (f : α → β) (o : Outcome α) : Outcome β := ⟨f o.result, o.log, o.session⟩

end Outcome

/-- Lines that are printed only if every step is to be shown. -/
def detailLines (detail : Bool) (lines : List Text) : List OutputLine :=
  if detail then lines.map .out else []

/-- Runs a task, with the events that it adds printed if every step is to be shown. -/
def Task.show {ε α : Type} (detail : Bool) (task : Task ε α) (s : Session) :
    Outcome (Except (Failure ε) α) :=
  let (result, after) := task.runFrom s
  let added := after.events.drop s.events.length
  ⟨result, detailLines detail (added.map (Event.text s.workspace.base)), after⟩

end LuaBundle
