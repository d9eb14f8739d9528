import LuaBundle.Proofs.CommandLine.Action
import LuaBundle.Proofs.Engine.Run
import LuaBundle.Proofs.Graph.Program
import Mathlib.Data.List.Flatten

/-! Showing every step. An option in front of a command line that asks for this changes nothing of
what the run does, and only adds to what it prints. -/

namespace LuaBundle

open Text LuaBundle.Task

def Options.detailed (o : Options) : Options := { o with detail := true }

namespace Arguments

def detailed (a : Arguments) : Arguments := { a with options := a.options.detailed }

theorem store_detailed (o : Options) (value : Text) (option : ValueOption) :
    store o.detailed value option = (store o value option).map Options.detailed := by
  cases option with
  | max =>
    unfold store
    cases positive? value <;> rfl
  | _ => rfl

theorem takePositional_detailed (a : Arguments) (argument : Text) :
    a.detailed.takePositional argument = (a.takePositional argument).map detailed := by
  unfold takePositional
  change (if a.command = [] then _ else if a.lacksEntry then _ else _) = _
  split_ifs <;> rfl

/-- Asking for every step before the other arguments changes nothing else of what is understood. It
changes nothing at all where these come to ask for the help or the version. -/
theorem parseAfter_detailed (a : Arguments) (arguments : List Text) :
    parseAfter a.detailed arguments = parseAfter a arguments ∨
      parseAfter a.detailed arguments = (parseAfter a arguments).detailed := by
  fun_induction parseAfter a arguments with
  | case1 a => exact .inr rfl
  | case2 a argument rest hoption hflag =>
    rw [parseAfter, if_pos hoption, hflag]
    exact .inr rfl
  | case3 a argument rest hoption hflag | case4 a argument rest hoption hflag =>
    left
    rw [parseAfter, if_pos hoption, hflag]
  | case5 a argument rest hoption hflag ih =>
    rw [parseAfter, if_pos hoption, hflag]
    exact .inl rfl
  | case6 a argument rest hoption hflag ih =>
    rw [parseAfter, if_pos hoption, hflag]
    exact ih
  | case7 a argument hoption option hflag =>
    rw [parseAfter, if_pos hoption, hflag]
    exact .inr rfl
  | case8 a argument hoption option hflag value rest hdash =>
    rw [parseAfter, if_pos hoption]
    simp only [hflag, if_pos hdash]
    exact .inr rfl
  | case9 a argument hoption option hflag value rest hdash error hstore =>
    have hstore' : store a.detailed.options value option = .error error := by
      rw [show a.detailed.options = a.options.detailed from rfl, store_detailed, hstore]
      rfl
    rw [parseAfter, if_pos hoption]
    simp only [hflag, if_neg hdash, hstore']
    exact .inr rfl
  | case10 a argument hoption option hflag value rest hdash options hstore ih =>
    have hstore' : store a.detailed.options value option = .ok options.detailed := by
      rw [show a.detailed.options = a.options.detailed from rfl, store_detailed, hstore]
      rfl
    rw [parseAfter, if_pos hoption]
    simp only [hflag, if_neg hdash, hstore']
    exact ih
  | case11 a argument rest hoption error htake =>
    have htake' : a.detailed.takePositional argument = .error error := by
      rw [takePositional_detailed, htake]
      rfl
    rw [parseAfter, if_neg hoption, htake']
    exact .inr rfl
  | case12 a argument rest hoption next htake ih =>
    have htake' : a.detailed.takePositional argument = .ok next.detailed := by
      rw [takePositional_detailed, htake]
      rfl
    rw [parseAfter, if_neg hoption, htake']
    exact ih

theorem parse_detail (arguments : List Text) :
    parse (ofString "--detail" :: arguments) = parse arguments ∨
      parse (ofString "--detail" :: arguments) = (parse arguments).detailed := by
  have hoption : isOption (ofString "--detail") = true := by decide
  have hflag : Flag.ofText? (ofString "--detail") = some .detail := by decide
  have hparse : parse (ofString "--detail" :: arguments) =
      parseAfter (only []).detailed arguments := by
    rw [parse, parseAfter, if_pos hoption]
    simp only [hflag]
    rfl
  rw [hparse]
  exact parseAfter_detailed _ _

end Arguments

namespace Settings

def detailed (s : Settings) : Settings := { s with detail := true }

theorem load_detailed (w : Workspace) (entryFile : Text) (o : Options) :
    load w entryFile o.detailed = (load w entryFile o).map detailed := by
  have hpath : configPath w o.detailed = configPath w o := rfl
  unfold load
  rw [hpath]
  cases configPath w o with
  | none => rfl
  | some path =>
    dsimp only
    cases Config.load w path <;> rfl

end Settings

theorem detailLines_sublist (detail : Bool) (lines : List Text) :
    (detailLines detail lines).Sublist (detailLines true lines) := by
  cases detail with
  | false => exact List.nil_sublist _
  | true => exact List.Sublist.refl _

namespace CommandLine

variable {t : Toolchain} {w : Workspace} {s : Settings} {g : ModuleGraph} {arguments : List Text}

/-! What is printed. -/

theorem graphLines_sublist (w : Workspace) (s : Settings) (g : ModuleGraph) :
    (graphLines w s g).Sublist (graphLines w s.detailed g) := by
  have hfile : ∀ file ∈ g.dependencies.zipIdx 1,
      (dependencyLines w g s.detail file.2 file.1).Sublist
        (dependencyLines w g true file.2 file.1) :=
    fun _ _ => (detailLines_sublist s.detail _).cons_cons _
  unfold graphLines
  refine .append (.append (.append (.append (.append ?_ (.refl _)) (.refl _)) ?_) (.refl _)) ?_
  · exact detailLines_sublist s.detail _
  · exact List.Sublist.flatMap_right _ hfile
  · exact detailLines_sublist s.detail _

theorem bundleStep_sublist (s : Settings) (g : ModuleGraph) (session : Session) :
    (bundleStep s g session).log.Sublist (bundleStep s.detailed g session).log := by
  have hpath : s.detailed.bundlePath = s.bundlePath := rfl
  unfold bundleStep
  rw [hpath]
  cases s.bundlePath with
  | none => exact List.Sublist.refl _
  | some path =>
    simp only [show_eq]
    cases ((Bundle.write Bundle.version g.manifest path).runFrom session).1 with
    | error failure => exact detailLines_sublist s.detail _
    | ok target => exact .append (detailLines_sublist s.detail _) (.refl _)

theorem analyze_sublist (s : Settings) (w : Workspace) :
    (analyze s w).log.Sublist (analyze s.detailed w).log := by
  have htask : graphTask s.detailed = graphTask s := rfl
  unfold analyze
  simp only [show_eq, htask]
  refine .append (detailLines_sublist s.detail _) ?_
  cases ((graphTask s).runFrom (.start w)).1 with
  | error failure => exact detailLines_sublist s.detail _
  | ok g =>
    refine .append (.append (detailLines_sublist s.detail _) (graphLines_sublist w s g)) ?_
    exact bundleStep_sublist s g _

theorem build_sublist (s : Settings) (t : Toolchain) (w : Workspace) :
    (build s t w).log.Sublist (build s.detailed t w).log := by
  have hrequest : buildRequest s.detailed = buildRequest s := rfl
  unfold build
  simp only [show_eq, hrequest]
  refine .append (detailLines_sublist s.detail _) ?_
  cases (((buildRequest s).run t).runFrom (.start w)).1 with
  | error failure => exact detailLines_sublist s.detail _
  | ok result =>
    refine .append (detailLines_sublist s.detail _) (.append ?_ (.refl _))
    exact detailLines_sublist s.detail _

/-! What else a run does. -/

/-- An outcome that differs from another by what more it prints. -/
structure Louder {α : Type} (o o' : Outcome α) : Prop where
  result : o'.result = o.result
  session : o'.session = o.session
  errors : o'.errors = o.errors
  printed : o.printed.Sublist o'.printed

theorem Louder.refl {α : Type} (o : Outcome α) : Louder o o :=
  ⟨rfl, rfl, rfl, List.Sublist.refl _⟩

/-- Two outcomes of one task. -/
theorem Shows.louder {o o' : Outcome (Except (Failure Text) Unit)} {task : Task BuildError Unit}
    (h : Shows o task w) (h' : Shows o' task w) (hlog : o.log.Sublist o'.log) :
    Louder (conclude o) (conclude o') := by
  obtain ⟨hresult, hsession, herrors⟩ := h.conclude_eq
  obtain ⟨hresult', hsession', herrors'⟩ := h'.conclude_eq
  refine ⟨hresult'.trans hresult.symm, hsession'.trans hsession.symm,
    herrors'.trans herrors.symm, ?_⟩
  rw [printed_conclude, printed_conclude]
  exact hlog.filterMap _

/-- The action with every step shown. -/
def Action.detailed : Action → Action
  | analyze settings => analyze settings.detailed
  | build settings => build settings.detailed
  | action => action

theorem Action.perform_louder (t : Toolchain) (w : Workspace) (action : Action) :
    Louder (action.perform t w) (action.detailed.perform t w) := by
  cases action with
  | print lines => exact Louder.refl _
  | refuse refusal => exact Louder.refl _
  | analyze settings =>
    exact (analyze_shows settings w).louder (analyze_shows settings.detailed w)
      (analyze_sublist settings w)
  | build settings =>
    exact (build_shows settings t w).louder (build_shows settings.detailed t w)
      (build_sublist settings t w)

theorem scriptAction_detailed {command : Settings → Action}
    (h : ∀ s, command s.detailed = (command s).detailed) (w : Workspace) (a : Arguments) :
    scriptAction w a.detailed command = (scriptAction w a command).detailed := by
  have hentry : a.detailed.entryFile = a.entryFile := rfl
  have hoptions : a.detailed.options = a.options.detailed := rfl
  unfold scriptAction
  rw [hentry]
  cases Settings.given a.entryFile with
  | none => rfl
  | some entryFile =>
    dsimp only
    split
    · rfl
    · rw [hoptions, Settings.load_detailed]
      cases Settings.load w entryFile a.options with
      | error error => rfl
      | ok settings => exact h settings

theorem actionOf_detailed (t : Toolchain) (w : Workspace) (a : Arguments) :
    actionOf t w a.detailed = (actionOf t w a).detailed := by
  have hcommand : a.detailed.command = a.command := rfl
  have herror : a.detailed.error = a.error := rfl
  unfold actionOf
  rw [hcommand, herror]
  cases a.error with
  | some error => rfl
  | none =>
    dsimp only
    split_ifs
    · rfl
    · rfl
    · rfl
    · exact scriptAction_detailed (fun _ => rfl) w a
    · exact scriptAction_detailed (fun _ => rfl) w a
    · rfl

/-- A run that is asked to show every step ends as it does otherwise, with the same calls and the
same files, and prints the same errors; what it prints besides is added to. -/
theorem run_detail (t : Toolchain) (w : Workspace) (arguments : List Text) (h : arguments ≠ []) :
    Louder (run t w arguments) (run t w (ofString "--detail" :: arguments)) := by
  rw [run_eq, run_eq, action, action, if_neg h, if_neg (List.cons_ne_nil _ _)]
  rcases Arguments.parse_detail arguments with hsame | hdetailed
  · rw [hsame]
    exact Louder.refl _
  · rw [hdetailed, actionOf_detailed]
    exact Action.perform_louder t w _

/-- Two scripts that require a third are listed; with every step shown there is more to read. -/
theorem detail_diamond :
    (run (Session.host id) ModuleGraph.diamond ["analyze", "main.lua"]).result = .ok 0 ∧
      Louder (run (Session.host id) ModuleGraph.diamond ["analyze", "main.lua"])
        (run (Session.host id) ModuleGraph.diamond ["--detail", "analyze", "main.lua"]) ∧
      (run (Session.host id) ModuleGraph.diamond ["analyze", "main.lua"]).printed.length <
        (run (Session.host id) ModuleGraph.diamond
          ["--detail", "analyze", "main.lua"]).printed.length := by
  refine ⟨by decide +kernel, ?_, by decide +kernel⟩
  exact run_detail (Session.host id) ModuleGraph.diamond ["analyze", "main.lua"] (by decide)

end CommandLine

end LuaBundle
