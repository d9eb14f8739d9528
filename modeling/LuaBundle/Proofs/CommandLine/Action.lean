import LuaBundle.CommandLine.Run
import LuaBundle.Proofs.Session
import Mathlib.Tactic.SplitIfs

/-! What a command line asks for. A run prints something, refuses, or does the work of a command:
a task, of which it shows what is to be seen and reports the error. -/

namespace LuaBundle

open Text LuaBundle.Task

namespace OutputLine

/-- The text of a line of standard output. -/
def out? : OutputLine → Option Text
  | out text => some text
  | err _ => none

/-- The text of a line of standard error. -/
def err? : OutputLine → Option Text
  | out _ => none
  | err text => some text

theorem filterMap_err?_out (texts : List Text) : (texts.map out).filterMap err? = [] := by
  simp [err?]

theorem filterMap_err?_err (texts : List Text) : (texts.map err).filterMap err? = texts := by
  rw [List.filterMap_map]
  exact List.filterMap_some

end OutputLine

namespace Outcome

variable {α β : Type}

def printed (o : Outcome α) : List Text := o.log.filterMap OutputLine.out?

def errors (o : Outcome α) : List Text := o.log.filterMap OutputLine.err?

theorem errors_append (o : Outcome α) (log : List OutputLine) :
    (o.append log).errors = o.errors ++ log.filterMap OutputLine.err? := List.filterMap_append

theorem errors_prepend (o : Outcome α) (log : List OutputLine) :
    (o.prepend log).errors = log.filterMap OutputLine.err? ++ o.errors := List.filterMap_append

end Outcome

theorem errors_detailLines (detail : Bool) (lines : List Text) :
    (detailLines detail lines).filterMap OutputLine.err? = [] := by
  cases detail with
  | false => rfl
  | true => exact OutputLine.filterMap_err?_out lines

theorem Task.show_eq {ε α : Type} (detail : Bool) (task : Task ε α) (s : Session) :
    task.show detail s = ⟨(task.runFrom s).1, detailLines detail (((task.runFrom s).2.events.drop
      s.events.length).map (Event.text s.workspace.base)), (task.runFrom s).2⟩ := rfl

namespace CommandLine

/-- Why a command line is refused before any work is done. -/
inductive Refusal where
  | arguments (error : ArgumentError)
  | unknownCommand (command : Text)
  | entryMissing (command : Text)
  | notScript (entryFile : Text)
  | config (error : ConfigError)

namespace Refusal

def message : Refusal → Text
  | arguments error => error.message
  | unknownCommand command => ofString "Unknown command " ++ inSingleQuotes command
  | entryMissing command => command ++ " command requires an entry script"
  | notScript entryFile => ofString "Entry script must be a .lua file: " ++ entryFile
  | config error => error.message

/-- What is said after the message. -/
def advice : Refusal → List Text
  | unknownCommand _ => ["Run 'luastitch help' for usage information"]
  | entryMissing command => [ofString "  Usage: luastitch " ++ command ++ " <entry.lua> [options]"]
  | _ => []

def code : Refusal → Nat
  | unknownCommand _ => 2
  | _ => 1

end Refusal

/-- Why a command line comes to nothing. -/
inductive Problem where
  | refused (refusal : Refusal)
  | work (error : BuildError)

namespace Problem

def message : Problem → Text
  | refused refusal => refusal.message
  | work error => error.diagnostic.text

def advice : Problem → List Text
  | refused refusal => refusal.advice
  | work _ => []

def lines (p : Problem) : List Text := (ofString "Error: " ++ p.message) :: p.advice

def code : Problem → Nat
  | refused refusal => refusal.code
  | work _ => 1

end Problem

/-! The work of the commands. -/

/-- Writes the bundle of a program where one is asked for. -/
def bundling (s : Settings) (g : ModuleGraph) : Task BuildError Unit :=
  match s.bundlePath with
  | none => return ()
  | some path => do
    let _ ← (Bundle.write Bundle.version g.manifest path).mapError .bundle
    return ()

/-- Finds the program of a script and bundles it. -/
def analysis (s : Settings) : Task BuildError Unit := do
  let g ← (graphTask s).mapError .analysis
  bundling s g

/-- Makes the executable of a script. -/
def building (s : Settings) (t : Toolchain) : Task BuildError Unit := do
  let _ ← (buildRequest s).run t
  return ()

/-- An outcome is what became of a task, with its error in words; the error is left to be
printed. -/
structure Shows (o : Outcome (Except (Failure Text) Unit)) (task : Task BuildError Unit)
    (w : Workspace) : Prop where
  result : o.result = (task.runFrom (.start w)).1.mapError (inWords BuildError.diagnostic)
  session : o.session = (task.runFrom (.start w)).2
  errors : o.errors = []

theorem errors_graphLines (w : Workspace) (s : Settings) (g : ModuleGraph) :
    (graphLines w s g).filterMap OutputLine.err? = [] := by
  have hfiles : ∀ files : List (Text × Nat), (files.flatMap fun file =>
      dependencyLines w g s.detail file.2 file.1).filterMap OutputLine.err? = [] := by
    intro files
    rw [List.filterMap_flatMap, List.flatMap_eq_nil_iff]
    exact fun file _ => errors_detailLines s.detail _
  have hnone : (if g.dependencies = [] then [OutputLine.out (ofString "  (no dependencies)")]
      else []).filterMap OutputLine.err? = [] := by
    split <;> rfl
  simp only [graphLines, List.filterMap_append, errors_detailLines, hfiles, hnone]
  rfl

theorem inWords_map {ε : Type} (f : ε → BuildError) (failure : Failure ε) :
    inWords BuildError.diagnostic (failure.map f) =
      inWords (fun error => (f error).diagnostic) failure := by
  cases failure <;> rfl

theorem bundleStep_result (s : Settings) (g : ModuleGraph) (session : Session) :
    (bundleStep s g session).result =
      ((bundling s g).runFrom session).1.mapError (inWords BuildError.diagnostic) ∧
    (bundleStep s g session).session = ((bundling s g).runFrom session).2 ∧
    (bundleStep s g session).errors = [] := by
  unfold bundleStep bundling
  cases s.bundlePath with
  | none => exact ⟨rfl, rfl, rfl⟩
  | some path =>
    simp only [show_eq, runFrom_bind, runFrom_mapError]
    cases (Bundle.write Bundle.version g.manifest path).runFrom session with
    | mk result after =>
      cases result with
      | error failure =>
        exact ⟨congrArg Except.error (inWords_map .bundle failure).symm, rfl,
          errors_detailLines _ _⟩
      | ok target =>
        refine ⟨rfl, rfl, ?_⟩
        rw [Outcome.errors_append, List.append_eq_nil_iff]
        exact ⟨errors_detailLines _ _, rfl⟩

theorem analyze_shows (s : Settings) (w : Workspace) : Shows (analyze s w) (analysis s) w := by
  unfold analyze analysis
  simp only [show_eq]
  cases hrun : (graphTask s).runFrom (.start w) with
  | mk result after =>
    cases result with
    | error failure =>
      have hfailed : ((graphTask s).mapError BuildError.analysis).runFrom (.start w) =
          (.error (failure.map .analysis), after) := by
        rw [runFrom_mapError, hrun]
        rfl
      refine ⟨?_, ?_, ?_⟩
      · rw [runFrom_bind_error hfailed]
        exact congrArg Except.error (inWords_map .analysis failure).symm
      · rw [runFrom_bind_error hfailed]
        rfl
      · rw [Outcome.errors_prepend, errors_detailLines]
        exact errors_detailLines _ _
    | ok g =>
      have hfound : ((graphTask s).mapError BuildError.analysis).runFrom (.start w) =
          (.ok g, after) := by
        rw [runFrom_mapError, hrun]
        rfl
      obtain ⟨hresult, hsession, herrors⟩ := bundleStep_result s g after
      refine ⟨?_, ?_, ?_⟩
      · rw [runFrom_bind_ok hfound]
        exact hresult
      · rw [runFrom_bind_ok hfound]
        exact hsession
      · dsimp only
        rw [Outcome.errors_prepend, Outcome.errors_prepend, List.filterMap_append, herrors,
          errors_graphLines, errors_detailLines, errors_detailLines]
        rfl

theorem build_shows (s : Settings) (t : Toolchain) (w : Workspace) :
    Shows (build s t w) (building s t) w := by
  unfold build building
  simp only [show_eq]
  cases hrun : ((buildRequest s).run t).runFrom (.start w) with
  | mk result after =>
    cases result with
    | error failure =>
      refine ⟨by rw [runFrom_bind_error hrun]; rfl, by rw [runFrom_bind_error hrun]; rfl, ?_⟩
      rw [Outcome.errors_prepend, errors_detailLines]
      exact errors_detailLines _ _
    | ok built =>
      refine ⟨by rw [runFrom_bind_ok hrun]; rfl, by rw [runFrom_bind_ok hrun]; rfl, ?_⟩
      dsimp only
      rw [Outcome.errors_prepend, Outcome.errors_append, List.filterMap_append, errors_detailLines,
        errors_detailLines]
      simp only [List.nil_append, List.append_eq_nil_iff]
      exact ⟨errors_detailLines _ _, rfl⟩

/-- The end of a run that does the work of a command. -/
def exitOf : Except (Failure BuildError) Unit → Exit
  | .ok () => .ok 0
  | .error (.reported _) => .ok 1
  | .error (.interrupted error) => .error (.interrupted error)
  | .error .exhausted => .error .exhausted

/-- The error that a result reports. -/
def reported? {ε α : Type} : Except (Failure ε) α → Option ε
  | .error (.reported error) => some error
  | _ => none

theorem printed_conclude (o : Outcome (Except (Failure Text) Unit)) :
    (conclude o).printed = o.printed := by
  have happend : ∀ message, (o.log ++ [errorLine message]).filterMap OutputLine.out? =
      o.printed := by
    intro message
    rw [List.filterMap_append]
    exact List.append_nil _
  unfold conclude
  split
  · rfl
  · exact happend _
  · rfl
  · rfl

/-- What is left of a task when its outcome is concluded: its end is the end of the run, and an
error that it reports is printed. -/
theorem Shows.conclude_eq {o : Outcome (Except (Failure Text) Unit)} {task : Task BuildError Unit}
    {w : Workspace} (h : Shows o task w) :
    (conclude o).result = exitOf (task.runFrom (.start w)).1 ∧
      (conclude o).session = (task.runFrom (.start w)).2 ∧
      (conclude o).errors =
        (reported? (task.runFrom (.start w)).1).elim []
          fun error => (Problem.work error).lines := by
  obtain ⟨hresult, hsession, herrors⟩ := h
  rw [← hsession]
  cases hrun : (task.runFrom (.start w)).1 with
  | ok value =>
    rw [hrun] at hresult
    simp only [conclude, hresult, Except.mapError]
    exact ⟨rfl, rfl, herrors⟩
  | error failure =>
    rw [hrun] at hresult
    cases failure with
    | reported error =>
      simp only [conclude, hresult, Except.mapError, inWords, Failure.map]
      refine ⟨rfl, rfl, ?_⟩
      rw [Outcome.errors_append]
      exact congrArg (· ++ [ofString "Error: " ++ error.diagnostic.text]) herrors
    | interrupted error =>
      simp only [conclude, hresult, Except.mapError, inWords, Failure.map]
      exact ⟨rfl, rfl, herrors⟩
    | exhausted =>
      simp only [conclude, hresult, Except.mapError, inWords, Failure.map]
      exact ⟨rfl, rfl, herrors⟩

/-! What a command line comes to. -/

inductive Action where
  | print (lines : List Text)
  | refuse (refusal : Refusal)
  | analyze (settings : Settings)
  | build (settings : Settings)

/-- The action of a command about a script. -/
def scriptAction (w : Workspace) (a : Arguments) (command : Settings → Action) : Action :=
  match Settings.given a.entryFile with
  | none => .refuse (.entryMissing a.command)
  | some entryFile =>
    if !Arguments.isScript entryFile then .refuse (.notScript entryFile)
    else
      match Settings.load w entryFile a.options with
      | .error error => .refuse (.config error)
      | .ok settings => command settings

def actionOf (t : Toolchain) (w : Workspace) (a : Arguments) : Action :=
  match a.error with
  | some error => .refuse (.arguments error)
  | none =>
    if a.command = "version" then .print [versionLine]
    else if a.command = "help" then .print [help]
    else if a.command = "engines" then .print (engineLines t w)
    else if a.command = "analyze" then scriptAction w a .analyze
    else if a.command = "build" then scriptAction w a .build
    else .refuse (.unknownCommand a.command)

/-- The action of a list of arguments, of which an empty one asks for the version. -/
def action (t : Toolchain) (w : Workspace) (arguments : List Text) : Action :=
  if arguments = [] then .print [versionLine] else actionOf t w (Arguments.parse arguments)

def Action.perform (t : Toolchain) (w : Workspace) : Action → Outcome Exit
  | print lines => finish 0 (lines.map .out) w
  | refuse refusal => finish refusal.code ((Problem.refused refusal).lines.map .err) w
  | analyze settings => conclude (CommandLine.analyze settings w)
  | build settings => conclude (CommandLine.build settings t w)

theorem runScript_eq (t : Toolchain) (w : Workspace) (a : Arguments) (command : Settings → Action)
    (task : Settings → Outcome (Except (Failure Text) Unit))
    (h : ∀ s, (command s).perform t w = conclude (task s)) :
    runScript w a task = (scriptAction w a command).perform t w := by
  unfold runScript scriptAction
  cases Settings.given a.entryFile with
  | none => rfl
  | some entryFile =>
    dsimp only
    split
    · rfl
    · cases Settings.load w entryFile a.options with
      | error error => rfl
      | ok settings => exact (h settings).symm

/-- A run performs the action of its arguments. -/
theorem run_eq (t : Toolchain) (w : Workspace) (arguments : List Text) :
    run t w arguments = (action t w arguments).perform t w := by
  unfold run action actionOf
  split
  · rfl
  dsimp only
  cases (Arguments.parse arguments).error with
  | some error => rfl
  | none =>
    dsimp only
    split_ifs
    · rfl
    · rfl
    · rfl
    · exact runScript_eq t w _ .analyze _ fun _ => rfl
    · exact runScript_eq t w _ .build _ fun _ => rfl
    · rfl

end CommandLine

end LuaBundle
