import LuaBundle.Proofs.Build.Failure
import LuaBundle.Proofs.CommandLine.Action

/-! How a run ends: its exit code, what it says about a problem, and what it leaves of the files
where it has met one. -/

namespace LuaBundle.CommandLine

open Text LuaBundle.Task Workspace

variable {t : Toolchain} {w : Workspace} {arguments : List Text} {code : Nat}

/-- How far a run has come when it meets a problem. -/
def Problem.stage : Problem → Stage
  | refused _ => .preparing
  | work error => error.stage

/-- The problem that an action meets, if it does. -/
def Action.problem? (t : Toolchain) (w : Workspace) : Action → Option Problem
  | print _ => none
  | refuse refusal => some (.refused refusal)
  | analyze settings => (reported? ((analysis settings).runFrom (.start w)).1).map .work
  | build settings => (reported? ((building settings t).runFrom (.start w)).1).map .work

def problem? (t : Toolchain) (w : Workspace) (arguments : List Text) : Option Problem :=
  (action t w arguments).problem? t w

def commandNames : List Text := ["version", "help", "engines", "analyze", "build"]

/-- Arguments that can be understood, and name no command. -/
def NamesNoCommand (arguments : List Text) : Prop :=
  (Arguments.parse arguments).error = none ∧ (Arguments.parse arguments).command ∉ commandNames

/-! The work of the commands. -/

theorem careful_bundling (s : Settings) (g : ModuleGraph) : Careful (bundling s g) := by
  unfold bundling
  split
  · exact (preliminary_pure ()).careful
  · exact (Bundle.careful_write _ _ _).map _

theorem careful_analysis (s : Settings) : Careful (analysis s) := by
  have hquiet : Quiet (graphTask s) :=
    quiet_workspace.bind fun w => (quiet_reportAll _).bind fun _ => quiet_ofResult _
  have hfound : Preliminary ((graphTask s).mapError .analysis) :=
    ⟨hquiet.mapError _, reportsOnly_mapError fun _ => rfl⟩
  exact hfound.bind_careful fun g => careful_bundling s g

theorem careful_building (s : Settings) (t : Toolchain) : Careful (building s t) :=
  (BuildRequest.careful_run _ t).map _

/-- How an outcome ends that meets a problem, or does not. -/
def EndsWith (w : Workspace) (o : Outcome Exit) (code : Nat) : Option Problem → Prop
  | none => code = 0 ∧ o.errors = []
  | some p => code = p.code ∧ o.errors = p.lines ∧
    (IsTree w → Leaves (.start w) o.session p.stage)

theorem Shows.endsWith {o : Outcome (Except (Failure Text) Unit)} {task : Task BuildError Unit}
    (h : Shows o task w) (hcareful : Careful task) (hcode : (conclude o).result = .ok code) :
    EndsWith w (conclude o) code ((reported? (task.runFrom (.start w)).1).map .work) := by
  obtain ⟨hresult, hsession, herrors⟩ := h.conclude_eq
  rw [hcode] at hresult
  cases hrun : task.runFrom (.start w) with
  | mk result after =>
    rw [hrun] at hresult hsession herrors
    cases result with
    | ok value => exact ⟨Except.ok.inj hresult, herrors⟩
    | error failure =>
      cases failure with
      | reported error =>
        refine ⟨Except.ok.inj hresult, herrors, fun htree => ?_⟩
        rw [hsession]
        exact hcareful.leaves htree hrun
      | interrupted => cases hresult
      | exhausted => cases hresult

theorem Action.perform_endsWith {action : Action}
    (hcode : (action.perform t w).result = .ok code) :
    EndsWith w (action.perform t w) code (action.problem? t w) := by
  cases action with
  | print lines => exact ⟨(Except.ok.inj hcode).symm, OutputLine.filterMap_err?_out lines⟩
  | refuse refusal =>
    exact ⟨(Except.ok.inj hcode).symm, OutputLine.filterMap_err?_err _,
      fun _ => .of_same rfl rfl nofun⟩
  | analyze settings =>
    exact (analyze_shows settings w).endsWith (careful_analysis settings) hcode
  | build settings =>
    exact (build_shows settings t w).endsWith (careful_building settings t) hcode

/-! Commands that do not exist. -/

theorem Action.perform_two (t : Toolchain) (w : Workspace) (action : Action) :
    (action.perform t w).result = .ok 2 ↔
      ∃ command, action = .refuse (.unknownCommand command) := by
  have hwork : ∀ result, exitOf result ≠ .ok 2 := by
    intro result h
    rcases result with (_ | _ | _) | _ <;> cases h
  cases action with
  | print lines => exact ⟨nofun, nofun⟩
  | refuse refusal =>
    cases refusal with
    | unknownCommand command => exact ⟨fun _ => ⟨command, rfl⟩, fun _ => rfl⟩
    | arguments | entryMissing | notScript | config => exact ⟨nofun, nofun⟩
  | analyze settings =>
    have hconclude := (analyze_shows settings w).conclude_eq.1
    exact ⟨fun h => absurd (hconclude.symm.trans h) (hwork _), nofun⟩
  | build settings =>
    have hconclude := (build_shows settings t w).conclude_eq.1
    exact ⟨fun h => absurd (hconclude.symm.trans h) (hwork _), nofun⟩

theorem scriptAction_ne {command : Settings → Action} {name : Text} (a : Arguments)
    (h : ∀ s, command s ≠ .refuse (.unknownCommand name)) :
    scriptAction w a command ≠ .refuse (.unknownCommand name) := by
  unfold scriptAction
  split
  · exact nofun
  · split
    · exact nofun
    · split
      · exact nofun
      · exact h _

theorem actionOf_unknown (t : Toolchain) (w : Workspace) (a : Arguments) :
    (∃ command, actionOf t w a = .refuse (.unknownCommand command)) ↔
      a.error = none ∧ a.command ∉ commandNames := by
  have hnames : a.command ∉ commandNames ↔ ¬a.command = "version" ∧ ¬a.command = "help" ∧
      ¬a.command = "engines" ∧ ¬a.command = "analyze" ∧ ¬a.command = "build" := by
    simp [commandNames]
  rw [hnames]
  unfold actionOf
  cases a.error with
  | some error => exact ⟨nofun, nofun⟩
  | none =>
    dsimp only
    split_ifs with hversion hhelp hengines hanalyze hbuild
    · exact ⟨nofun, fun h => absurd hversion h.2.1⟩
    · exact ⟨nofun, fun h => absurd hhelp h.2.2.1⟩
    · exact ⟨nofun, fun h => absurd hengines h.2.2.2.1⟩
    · refine ⟨fun ⟨_, h⟩ => absurd h (scriptAction_ne a nofun), fun h => ?_⟩
      exact absurd hanalyze h.2.2.2.2.1
    · refine ⟨fun ⟨_, h⟩ => absurd h (scriptAction_ne a nofun), fun h => ?_⟩
      exact absurd hbuild h.2.2.2.2.2
    · exact ⟨fun _ => ⟨rfl, hversion, hhelp, hengines, hanalyze, hbuild⟩, fun _ => ⟨_, rfl⟩⟩

theorem action_unknown (t : Toolchain) (w : Workspace) (arguments : List Text) :
    (∃ command, action t w arguments = .refuse (.unknownCommand command)) ↔
      arguments ≠ [] ∧ NamesNoCommand arguments := by
  unfold action
  split
  · rename_i hnil
    exact ⟨nofun, fun h => absurd hnil h.1⟩
  · rename_i hne
    rw [actionOf_unknown]
    exact ⟨fun h => ⟨hne, h⟩, fun h => h.2⟩

/-! The end of a run. -/

/-- How a run ends with an exit code. -/
structure Ends (t : Toolchain) (w : Workspace) (arguments : List Text) (code : Nat) : Prop where
  codes : code = 0 ∨ code = 1 ∨ code = 2
  success : code = 0 ↔ problem? t w arguments = none
  silent : code = 0 ↔ (run t w arguments).errors = []
  firstLine : code ≠ 0 → ∃ p, problem? t w arguments = some p ∧
    (run t w arguments).errors.head? = some (ofString "Error: " ++ p.message)
  unknown : code = 2 ↔ arguments ≠ [] ∧ NamesNoCommand arguments
  leaves : IsTree w → ∀ p, problem? t w arguments = some p →
    Leaves (.start w) (run t w arguments).session p.stage

theorem Problem.code_cases (p : Problem) : p.code = 1 ∨ p.code = 2 := by
  cases p with
  | work error => exact .inl rfl
  | refused refusal => cases refusal <;> simp [code, Refusal.code]

/-- A run that ends with an exit code says just if the code is not 0 what its problem is, and from
the problem it can be told what the run has left: where it was met before anything was to be
written, nothing was called, and all files are as they were. -/
theorem run_ends (hcode : (run t w arguments).result = .ok code) : Ends t w arguments code := by
  have hunknown : code = 2 ↔ arguments ≠ [] ∧ NamesNoCommand arguments := by
    rw [← action_unknown t w, ← Action.perform_two, ← run_eq, hcode, Except.ok.injEq]
  have hperformed : ((action t w arguments).perform t w).result = .ok code := by
    rw [← run_eq, hcode]
  have hends : EndsWith w (run t w arguments) code (problem? t w arguments) := by
    rw [run_eq]
    exact Action.perform_endsWith hperformed
  cases hproblem : problem? t w arguments with
  | none =>
    rw [hproblem] at hends
    obtain ⟨rfl, herrors⟩ := hends
    exact ⟨.inl rfl, ⟨fun _ => hproblem, fun _ => rfl⟩, ⟨fun _ => herrors, fun _ => rfl⟩,
      fun h => absurd rfl h, hunknown, fun _ p hp => nomatch hproblem.symm.trans hp⟩
  | some p =>
    rw [hproblem] at hends
    obtain ⟨rfl, herrors, hleaves⟩ := hends
    have hnonzero : p.code ≠ 0 := by
      rcases p.code_cases with h | h <;> rw [h] <;> decide
    refine ⟨.inr p.code_cases, ⟨fun h => absurd h hnonzero, fun h => nomatch hproblem.symm.trans h⟩,
      ⟨fun h => absurd h hnonzero, fun h => ?_⟩, fun _ => ⟨p, hproblem, ?_⟩, hunknown,
      fun htree q hq => ?_⟩
    · rw [herrors] at h
      cases h
    · rw [herrors]
      rfl
    · obtain rfl := Option.some.inj (hproblem.symm.trans hq)
      exact hleaves htree

/-- The program, with two files that lay claim to one key. -/
def namesakes : Workspace :=
  Session.roomy.workspace |>.put ["proj", "a.b.lua"] (ModuleGraph.scriptFile "return 1")
    |>.put ["proj", "a"] .directory
    |>.put ["proj", "a", "b.lua"] (ModuleGraph.scriptFile "return 2")

theorem isTree_namesakes : IsTree namesakes := by
  have hfile := Session.isTree_roomy.put (x := ["proj", "a.b.lua"]) ⟨["proj"], _, rfl, by decide⟩
    (by decide) (ModuleGraph.scriptFile "return 1")
  have hdirectory := hfile.put (x := ["proj", "a"]) ⟨["proj"], _, rfl, by decide⟩ (by decide)
    .directory
  exact hdirectory.put ⟨["proj", "a"], "b.lua", rfl, by decide⟩ (by decide) _

/-- The arguments to embed both. -/
def embedBoth : List Text := ["build", "main.lua", "--manual", "-require", "a.b.lua,a/b.lua"]

/-- The key is found to be taken when the directory for the bundle has been made: nothing is called,
and nothing is left. -/
theorem namesakes_end : Ends (Session.host id) namesakes embedBoth 1 ∧
    (run (Session.host id) namesakes embedBoth).session.calls = [] ∧
    (run (Session.host id) namesakes embedBoth).session.workspace = namesakes := by
  have hstage : (problem? (Session.host id) namesakes embedBoth).map Problem.stage =
      some .preparing := by
    decide +kernel
  obtain ⟨p, hp, hpreparing⟩ := Option.map_eq_some_iff.mp hstage
  have hends : Ends (Session.host id) namesakes embedBoth 1 :=
    run_ends (by decide +kernel)
  exact ⟨hends, (hends.leaves isTree_namesakes p hp).preparing hpreparing⟩

/-- The version is printed for no arguments, though they name no command; and where the directory of
an output cannot be made, one above it may have been. -/
theorem exits_for_nothing :
    ¬(∀ t w arguments code, IsTree w → (run t w arguments).result = .ok code →
        (code = 2 ↔ NamesNoCommand arguments)) ∧
      ¬∀ t w arguments code, IsTree w → (run t w arguments).result = .ok code → code ≠ 0 →
        (run t w arguments).session.calls = [] →
        (run t w arguments).session.workspace = w := by
  let output : Text := ofString "a/" ++ List.replicate 300 (unit 'x') ++ ofString "/app"
  constructor
  · intro h
    have hnone : NamesNoCommand [] := ⟨rfl, by decide⟩
    have htwo := h (Session.host id) Session.roomy.workspace [] 0 Session.isTree_roomy rfl
    cases htwo.mpr hnone
  · intro h
    have hsame := h (Session.host id) Session.roomy.workspace
      ["build", "main.lua", "-output", output] 1 Session.isTree_roomy (by decide +kernel)
      (by decide) (by decide +kernel)
    revert hsame
    decide +kernel

end LuaBundle.CommandLine
