import LuaBundle.Bundle.Write
import LuaBundle.Proofs.Session
import LuaBundle.Proofs.Workspace.Change

/-! What writing a bundle leaves of the files that are there: all of them if it fails, and all but
the one that the output path leads to if it succeeds. -/

namespace LuaBundle

open LuaBundle.Task Workspace

namespace Bundle

variable {A : Call → Prop} {P R : Workspace → Prop} {Q : Workspace → Prop} {version output : Text}
  {manifest : Manifest} {w w' : Workspace} {l : Location} {content : Content}

/-- Writing a bundle makes directories and then writes a file; whatever it fails at, no more than
the directories have been made. -/
theorem write_ensures (hnone : ∀ {w}, P w → R w)
    (hmade : ∀ {w}, P w → R (w.makeDirectories (Path.parent (w.absolute output))).2)
    (hwritten : ∀ {w w' w'' text}, P w →
      w.makeDirectories (Path.parent (w.absolute output)) = (.ok (), w') →
      w'.writeText (w.absolute output) text = .ok w'' → Q w'') :
    Ensures A P (write version manifest output) (fun _ => Q) R := by
  refine ensures_workspace.bind fun start => ?_
  refine ((quiet_ofExcept _).ensures fun hw => hnone hw.2).bind fun text => ?_
  let Made : Workspace → Prop := fun w' =>
    P start ∧ start.makeDirectories (Path.parent (start.absolute output)) = (.ok (), w')
  have hmakes : Ensures A (fun w => start = w ∧ P w)
      (tryChange (unwritable (start.absolute output)) fun w =>
        w.makeDirectories (Path.parent (start.absolute output))) (fun _ => Made) R := by
    refine ensures_tryChange ?_ ?_
    · rintro w w' ⟨rfl, hw⟩ hw'
      exact ⟨hw, hw'⟩
    · rintro w ⟨rfl, hw⟩
      exact hmade hw
  refine hmakes.bind fun _ => ?_
  have hwrites : Ensures A Made
      (change (unwritable (start.absolute output)) fun w =>
        w.writeText (start.absolute output) text) (fun _ => Q) R := by
    refine ensures_change ?_ ?_
    · rintro w' w'' ⟨hw, hw'⟩ hw''
      exact hwritten hw hw' hw''
    · rintro w' ⟨hw, hw'⟩
      have hr := hmade hw
      rwa [hw'] at hr
  refine hwrites.bind fun _ => ?_
  exact (ensures_report _).bind fun _ => ensures_pure id

/-- A file is still there after a bundle has been written, unless its path leads to the file; after
a bundle could not be written, it is there in any case. -/
theorem write_intact (h : Intact w l content) :
    Ensures A (· = w) (write version manifest output)
      (fun _ w' => ¬LeadsTo w (w.absolute output) l → Intact w' l content)
      (fun w' => Intact w' l content) := by
  refine write_ensures ?_ ?_ ?_
  · rintro _ rfl
    exact h
  · rintro w rfl
    exact h.makeDirectories _
  · rintro w w' w'' text rfl hmade hwritten hleads
    obtain ⟨names, hnames, htarget⟩ := Path.exists_resolve w.base output
    have hafter := h.makeDirectories (Path.parent (w.absolute output))
    rw [hmade] at hafter
    rw [absolute, htarget] at hmade hwritten hleads
    have havoids := avoids_of_makeDirectories h hnames hleads hmade
    exact hafter.writeText (Path.isAbsolute_render names) havoids hwritten

/-- However writing a bundle ends, a file is still there that its path did not lead to. -/
theorem runFrom_write_intact {s : Session} (h : Intact s.workspace l content)
    (hleads : ((write version manifest output).runFrom s).1.toBool = true →
      ¬LeadsTo s.workspace (s.workspace.absolute output) l) :
    Intact ((write version manifest output).runFrom s).2.workspace l content := by
  have hwrites := @write_intact (fun _ => True) version output manifest s.workspace l content h
  have hends := hwrites.ends s rfl fun _ _ => trivial
  cases hrun : (write version manifest output).runFrom s with
  | mk result after =>
    rw [hrun] at hends hleads
    cases result with
    | ok target => exact hends (hleads rfl)
    | error failure => exact hends

end Bundle

end LuaBundle
