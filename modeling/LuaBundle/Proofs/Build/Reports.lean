import LuaBundle.Build.Basic
import LuaBundle.Proofs.Engine.Run
import LuaBundle.Proofs.Graph.Lockstep
import LuaBundle.Proofs.Graph.Program

/-! What a build reports of the files that it adds: finding the files of a program and making an
executable add none. -/

namespace LuaBundle

open LuaBundle.Task

/-- The file of an event that tells of its addition. -/
def Event.addedFile? : Event → Option Text
  | .mergeExplicit path => some path
  | _ => none

/-- The files whose addition was reported. -/
def addedFiles (events : List Event) : List Text := events.filterMap Event.addedFile?

theorem addedFiles_append (events more : List Event) :
    addedFiles (events ++ more) = addedFiles events ++ addedFiles more := List.filterMap_append

theorem addedFiles_concat {event : Event} (h : event.addedFile? = none) (events : List Event) :
    addedFiles (events ++ [event]) = addedFiles events := by
  rw [addedFiles_append, addedFiles, addedFiles, List.filterMap_cons_none h, List.filterMap_nil,
    List.append_nil]

theorem addedFiles_mergeExplicit (files : List Text) :
    addedFiles (files.map .mergeExplicit) = files := by
  rw [addedFiles, List.filterMap_map]
  exact List.filterMap_some

namespace Bundle

theorem unseen_write (version output : Text) (manifest : Manifest) :
    Unseen addedFiles (write version manifest output) := by
  refine looks_workspace.unseen.bind fun w => (looks_ofExcept _).unseen.bind fun text => ?_
  refine (unseen_tryChange _ _).bind fun _ => (unseen_change _ _).bind fun _ => ?_
  exact (unseen_report (addedFiles_concat rfl)).bind fun _ => (looks_pure _).unseen

end Bundle

namespace Engine

theorem unseen_execute (e : Engine) (t : Toolchain) (c : Command) :
    Unseen addedFiles (e.execute t c) := by
  refine (unseen_report (addedFiles_concat rfl)).bind fun _ => ?_
  refine (unseen_call _ _).bind fun result => ?_
  cases result with
  | succeeded => exact (looks_pure _).unseen
  | failed => exact (looks_stop _).unseen

theorem unseen_moveOutput (produced target : Text) :
    Unseen addedFiles (moveOutput produced target) := by
  unfold moveOutput
  split
  · exact (looks_pure _).unseen
  · exact (unseen_tryChange _ _).bind fun _ => (unseen_tryChange _ _).bind fun _ =>
      unseen_change _ _

theorem unseen_makeExecutable (t : Toolchain) (path : Text) :
    Unseen addedFiles (makeExecutable t path) := by
  unfold makeExecutable
  split
  · exact (looks_pure _).unseen
  · exact unseen_change _ _

theorem unseen_invokeLuastatic (e : Engine) (t : Toolchain) (job : Job) :
    Unseen addedFiles (e.invokeLuastatic t job) := by
  refine (looks_locate e t _).unseen.bind fun program => ?_
  split
  · exact (looks_stop _).unseen
  · refine looks_workspace.unseen.bind fun w => (unseen_execute e t _).bind fun _ => ?_
    refine (looks_expect e _).unseen.bind fun _ => (unseen_moveOutput _ _).bind fun _ => ?_
    exact (unseen_makeExecutable t _).bind fun _ => (looks_pure _).unseen

theorem unseen_invokeSrlua (e : Engine) (t : Toolchain) (stub : Option Text) (job : Job) :
    Unseen addedFiles (e.invokeSrlua t stub job) := by
  refine (looks_locate e t _).unseen.bind fun program => ?_
  refine (looks_locate e t _).unseen.bind fun stub => ?_
  refine (unseen_change _ _).bind fun _ => Unseen.afterwards ?_ _
  refine ((Bundle.unseen_write _ _ _).mapError _).bind fun bundled => ?_
  refine looks_workspace.unseen.bind fun w => (unseen_tryChange _ _).bind fun _ => ?_
  refine (unseen_execute e t _).bind fun _ => (looks_expect e _).unseen.bind fun _ => ?_
  exact (unseen_makeExecutable t _).bind fun _ => (looks_pure _).unseen

/-- An engine adds no files. -/
theorem unseen_invoke (e : Engine) (t : Toolchain) (job : Job) :
    Unseen addedFiles (e.invoke t job) := by
  unfold invoke
  split
  · exact (looks_stop _).unseen
  · refine looks_workspace.unseen.bind fun w => ?_
    split
    · cases e.kind with
      | luastatic => exact unseen_invokeLuastatic e t job
      | srlua stub => exact unseen_invokeSrlua e t stub job
    · exact (looks_stop _).unseen

end Engine

/-- Finding the files of a program adds none. -/
theorem ModuleGraph.addedFiles_ofProgram {w : Workspace} {path : Text} {limit : Number}
    {searchRoots : List Text} {g : ModuleGraph} {events : List Event}
    (h : ofProgram w path limit searchRoots = (.ok g, events)) : addedFiles events = [] := by
  obtain ⟨_, _, d, hrun, _, rfl⟩ := ofProgram_eq_ok h
  refine Search.run_invariant (P := fun d => addedFiles d.events = []) ?_ ?_ rfl hrun
  · intro d pending current depth text hd
    exact (addedFiles_concat rfl d.events).trans hd
  · intro current depth d d' site hd hfollow
    obtain ⟨name, _, ⟨_, rfl⟩ | ⟨target, _, _, ⟨_, rfl⟩ | ⟨_, _, rfl⟩⟩⟩ :=
      Search.follow_eq_ok hfollow
    all_goals exact (addedFiles_concat rfl d.events).trans hd

end LuaBundle
