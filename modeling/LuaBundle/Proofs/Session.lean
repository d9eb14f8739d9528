import LuaBundle.Session

/-! What tasks do to the workspace, as triples: from one assertion a task ends in another of its
value, or in a third where it fails. What the commands that it calls do is assumed of those calls
only that it makes. -/

namespace LuaBundle

theorem Failure.map_eq_reported {ε φ : Type} {f : ε → φ} {failure : Failure ε} {error : φ}
    (h : failure.map f = .reported error) :
    ∃ cause, failure = .reported cause ∧ f cause = error := by
  cases failure with
  | reported cause => exact ⟨cause, rfl, Failure.reported.inj h⟩
  | interrupted => cases h
  | exhausted => cases h

namespace Task

variable {ε φ α β : Type} {A : Call → Prop} {P P' R R' I : Workspace → Prop}
  {Q Q' : α → Workspace → Prop} {task : Task ε α}

/-- The calls that a task makes. -/
def callsFrom (task : Task ε α) (s : Session) : List Call :=
  (task.runFrom s).2.calls.drop s.calls.length

theorem callsFrom_eq {s : Session} {made : List Call}
    (h : s.calls ++ made = (task.runFrom s).2.calls) : task.callsFrom s = made := by
  rw [callsFrom, ← h, List.drop_left]

/-- An end of a task: `Q` holds with its value, or `R` with a failure. -/
def EndsIn (Q : α → Workspace → Prop) (R : Workspace → Prop) :
    Except (Failure ε) α × Session → Prop
  | (.ok value, after) => Q value after.workspace
  | (.error _, after) => R after.workspace

/-- A task that adds to the calls and, where these do as `A` says, goes from `P` to `Q` with its
value or to `R` with a failure. -/
structure Ensures (A : Call → Prop) (P : Workspace → Prop) (task : Task ε α)
    (Q : α → Workspace → Prop) (R : Workspace → Prop) : Prop where
  adds : ∀ s, s.calls <+: (task.runFrom s).2.calls
  ends : ∀ s, P s.workspace → (∀ call ∈ task.callsFrom s, A call) → EndsIn Q R (task.runFrom s)

theorem Ensures.weaken (h : Ensures A P task Q R) (hP : ∀ {w}, P' w → P w)
    (hQ : ∀ {value w}, Q value w → Q' value w) (hR : ∀ {w}, R w → R' w) :
    Ensures A P' task Q' R' := by
  refine ⟨h.adds, fun s hs hcalls => ?_⟩
  have hends := h.ends s (hP hs) hcalls
  cases hrun : task.runFrom s with
  | mk result after =>
    rw [hrun] at hends
    cases result with
    | ok value => exact hQ hends
    | error failure => exact hR hends

theorem runFrom_bind_cases (task : Task ε α) (next : α → Task ε β) (s : Session) :
    (∃ failure after, task.runFrom s = (.error failure, after) ∧
      (task >>= next).runFrom s = (.error failure, after)) ∨
    ∃ value after, task.runFrom s = (.ok value, after) ∧
      (task >>= next).runFrom s = (next value).runFrom after := by
  cases hrun : task.runFrom s with
  | mk result after =>
    cases result with
    | error failure => exact .inl ⟨failure, after, rfl, runFrom_bind_error hrun next⟩
    | ok value => exact .inr ⟨value, after, rfl, runFrom_bind_ok hrun next⟩

/-- A task that ends well ends each of its parts well. -/
theorem runFrom_bind_eq_ok {next : α → Task ε β} {s after : Session} {result : β}
    (h : (task >>= next).runFrom s = (.ok result, after)) :
    ∃ value mid, task.runFrom s = (.ok value, mid) ∧
      (next value).runFrom mid = (.ok result, after) := by
  rcases runFrom_bind_cases task next s with ⟨failure, _, _, hwhole⟩ | ⟨value, mid, hrun, hwhole⟩
  · rw [hwhole] at h
    cases h
  · exact ⟨value, mid, hrun, hwhole.symm.trans h⟩

/-- A task fails where one of its parts does. -/
theorem runFrom_bind_eq_error {next : α → Task ε β} {s after : Session} {failure : Failure ε}
    (h : (task >>= next).runFrom s = (.error failure, after)) :
    task.runFrom s = (.error failure, after) ∨ ∃ value mid, task.runFrom s = (.ok value, mid) ∧
      (next value).runFrom mid = (.error failure, after) := by
  rcases runFrom_bind_cases task next s with ⟨_, _, hrun, hwhole⟩ | ⟨value, mid, hrun, hwhole⟩
  · obtain ⟨hfailure, rfl⟩ := Prod.mk.inj (hwhole.symm.trans h)
    obtain rfl := Except.error.inj hfailure
    exact .inl hrun
  · exact .inr ⟨value, mid, hrun, hwhole.symm.trans h⟩

theorem ofExcept_eq_ok {result : Except ε α} {s after : Session} {value : α}
    (h : (ofExcept result).runFrom s = (.ok value, after)) : result = .ok value ∧ after = s := by
  cases result with
  | ok found =>
    obtain ⟨hvalue, rfl⟩ := Prod.mk.inj h
    exact ⟨congrArg _ (Except.ok.inj hvalue), rfl⟩
  | error error => cases h

theorem runFrom_mapError (task : Task ε α) (f : ε → φ) (s : Session) :
    (task.mapError f).runFrom s =
      ((task.runFrom s).1.mapError (Failure.map f), (task.runFrom s).2) := rfl

theorem mapError_eq_reported {f : ε → φ} {s after : Session} {error : φ}
    (h : (task.mapError f).runFrom s = (.error (.reported error), after)) :
    ∃ cause, task.runFrom s = (.error (.reported cause), after) ∧ f cause = error := by
  rw [runFrom_mapError] at h
  cases hrun : task.runFrom s with
  | mk result last =>
    rw [hrun] at h
    obtain ⟨hresult, rfl⟩ := Prod.mk.inj h
    cases result with
    | ok value => cases hresult
    | error failure =>
      obtain ⟨cause, rfl, hcause⟩ := Failure.map_eq_reported (Except.error.inj hresult)
      exact ⟨cause, rfl, hcause⟩

section Change

variable {onError : FileError → Failure ε} {s : Session} {w : Workspace} {error : FileError}

theorem runFrom_tryChange_ok {f : Workspace → Except FileError Unit × Workspace}
    (h : f s.workspace = (.ok (), w)) :
    (tryChange onError f).runFrom s = (.ok (), { s with workspace := w }) := by
  rw [runFrom, tryChange, h]
  rfl

theorem runFrom_tryChange_error {f : Workspace → Except FileError Unit × Workspace}
    (h : f s.workspace = (.error error, w)) :
    (tryChange onError f).runFrom s = (.error (onError error), { s with workspace := w }) := by
  rw [runFrom, tryChange, h]
  rfl

theorem runFrom_change_ok {f : Workspace → Except FileError Workspace} (h : f s.workspace = .ok w) :
    (change onError f).runFrom s = (.ok (), { s with workspace := w }) := by
  rw [runFrom, change, h]

theorem runFrom_change_error {f : Workspace → Except FileError Workspace}
    (h : f s.workspace = .error error) :
    (change onError f).runFrom s = (.error (onError error), s) := by
  rw [runFrom, change, h]

end Change

theorem tryChange_eq_ok {onError : FileError → Failure ε}
    {f : Workspace → Except FileError Unit × Workspace} {s after : Session}
    (h : (tryChange onError f).runFrom s = (.ok (), after)) :
    ∃ w, f s.workspace = (.ok (), w) ∧ after = { s with workspace := w } := by
  obtain ⟨hresult, rfl⟩ := Prod.mk.inj h
  refine ⟨(f s.workspace).2, Prod.ext ?_ rfl, rfl⟩
  cases hf : (f s.workspace).1 with
  | ok => rfl
  | error error =>
    rw [hf] at hresult
    cases hresult

theorem change_eq_ok {onError : FileError → Failure ε}
    {f : Workspace → Except FileError Workspace} {s after : Session}
    (h : (change onError f).runFrom s = (.ok (), after)) :
    ∃ w, f s.workspace = .ok w ∧ after = { s with workspace := w } := by
  rw [runFrom, change] at h
  cases hf : f s.workspace with
  | ok w =>
    rw [hf] at h
    exact ⟨w, rfl, (Prod.mk.inj h).2.symm⟩
  | error error =>
    rw [hf] at h
    cases h

theorem tryChange_eq_error {onError : FileError → Failure ε}
    {f : Workspace → Except FileError Unit × Workspace} {s after : Session} {failure : Failure ε}
    (h : (tryChange onError f).runFrom s = (.error failure, after)) :
    ∃ error, failure = onError error := by
  obtain ⟨hresult, _⟩ := Prod.mk.inj h
  cases hf : (f s.workspace).1 with
  | ok =>
    rw [hf] at hresult
    cases hresult
  | error error =>
    rw [hf] at hresult
    exact ⟨error, (Except.error.inj hresult).symm⟩

theorem change_eq_error {onError : FileError → Failure ε}
    {f : Workspace → Except FileError Workspace} {s after : Session} {failure : Failure ε}
    (h : (change onError f).runFrom s = (.error failure, after)) :
    ∃ error, failure = onError error := by
  rw [runFrom, change] at h
  cases hf : f s.workspace with
  | ok w =>
    rw [hf] at h
    cases h
  | error error =>
    rw [hf] at h
    exact ⟨error, (Except.error.inj (Prod.mk.inj h).1).symm⟩

/-- A change that is not made leaves the session as it is. -/
theorem change_error_same {onError : FileError → Failure ε}
    {f : Workspace → Except FileError Workspace} {s after : Session} {failure : Failure ε}
    (h : (change onError f).runFrom s = (.error failure, after)) : after = s := by
  rw [runFrom, change] at h
  cases hf : f s.workspace with
  | ok w =>
    rw [hf] at h
    cases h
  | error error =>
    rw [hf] at h
    exact (Prod.mk.inj h).2.symm

theorem runFrom_bind_pure (task : Task ε α) (f : α → β) (s : Session) :
    ((task >>= fun value => pure (f value)).runFrom s).2 = (task.runFrom s).2 := by
  rcases runFrom_bind_cases task (fun value => pure (f value)) s with
    ⟨_, _, hrun, hwhole⟩ | ⟨_, _, hrun, hwhole⟩
  · rw [hwhole, hrun]
  · rw [hwhole, hrun]
    rfl

/-- One task after another: the calls of both are the calls of the whole. -/
theorem Ensures.bind {next : α → Task ε β} {Q' : β → Workspace → Prop} (h : Ensures A P task Q R)
    (hnext : ∀ value, Ensures A (Q value) (next value) Q' R) :
    Ensures A P (task >>= next) Q' R := by
  constructor
  · intro s
    have hfirst := h.adds s
    rcases runFrom_bind_cases task next s with
      ⟨failure, after, hrun, hwhole⟩ | ⟨value, after, hrun, hwhole⟩
    · rwa [hwhole, ← congrArg Prod.snd hrun]
    · rw [hrun] at hfirst
      exact hwhole ▸ hfirst.trans ((hnext value).adds after)
  · intro s hs hcalls
    have hends := h.ends s hs
    rcases runFrom_bind_cases task next s with
      ⟨failure, after, hrun, hwhole⟩ | ⟨value, after, hrun, hwhole⟩
    · rw [callsFrom, hrun] at hends
      rw [callsFrom, hwhole] at hcalls
      rw [hwhole]
      exact hends hcalls
    · obtain ⟨made, hmade⟩ := h.adds s
      obtain ⟨more, hmore⟩ := (hnext value).adds after
      have hboth : s.calls ++ (made ++ more) = ((task >>= next).runFrom s).2.calls := by
        rw [hwhole, ← hmore, ← List.append_assoc, hmade, hrun]
      rw [callsFrom_eq hboth] at hcalls
      rw [callsFrom_eq hmade, hrun] at hends
      rw [hwhole]
      refine (hnext value).ends after (hends fun call hc => hcalls call (by simp [hc])) ?_
      rw [callsFrom_eq hmore]
      exact fun call hc => hcalls call (by simp [hc])

theorem ensures_pure {value : α} (h : ∀ {w}, P w → Q value w) :
    Ensures A P (pure value : Task ε α) Q R :=
  ⟨fun s => List.prefix_refl s.calls, fun _ hs _ => h hs⟩

theorem ensures_stop {failure : Failure ε} (h : ∀ {w}, P w → R w) :
    Ensures A P (stop failure : Task ε α) Q R :=
  ⟨fun s => List.prefix_refl s.calls, fun _ hs _ => h hs⟩

theorem ensures_workspace :
    Ensures A P (workspace : Task ε Workspace) (fun value w => value = w ∧ P w) R :=
  ⟨fun s => List.prefix_refl s.calls, fun _ hs _ => ⟨rfl, hs⟩⟩

theorem ensures_report (event : Event) :
    Ensures A P (report event : Task ε Unit) (fun _ => P) R :=
  ⟨fun s => List.prefix_refl s.calls, fun _ hs _ => hs⟩

theorem ensures_tryChange {Q : Workspace → Prop} {onError : FileError → Failure ε}
    {f : Workspace → Except FileError Unit × Workspace}
    (hok : ∀ {w w'}, P w → f w = (.ok (), w') → Q w') (herror : ∀ {w}, P w → R (f w).2) :
    Ensures A P (tryChange onError f) (fun _ => Q) R := by
  refine ⟨fun s => List.prefix_refl s.calls, fun s hs _ => ?_⟩
  rw [runFrom, tryChange]
  cases hf : (f s.workspace).1 with
  | ok => exact hok hs (Prod.ext hf rfl)
  | error error => exact herror hs

theorem ensures_change {Q : Workspace → Prop} {onError : FileError → Failure ε}
    {f : Workspace → Except FileError Workspace}
    (hok : ∀ {w w'}, P w → f w = .ok w' → Q w') (herror : ∀ {w}, P w → R w) :
    Ensures A P (change onError f) (fun _ => Q) R := by
  constructor
  · intro s
    rw [runFrom, change]
    split <;> exact List.prefix_refl s.calls
  · intro s hs _
    cases hf : f s.workspace with
    | ok w' =>
      rw [runFrom, change, hf]
      exact hok hs hf
    | error error =>
      rw [runFrom, change, hf]
      exact herror hs

theorem ensures_call {Q : CommandResult → Workspace → Prop}
    {run : Command → Workspace → CommandResult × Workspace} {c : Command}
    (h : ∀ {w}, P w → A ⟨c, w⟩ → Q (run c w).1 (run c w).2) :
    Ensures A P (call run c : Task ε CommandResult) Q R := by
  refine ⟨fun s => List.prefix_append s.calls _, fun s hs hcalls => h hs (hcalls _ ?_)⟩
  have hmade : s.calls ++ [⟨c, s.workspace⟩] =
      ((call run c : Task ε CommandResult).runFrom s).2.calls :=
    rfl
  rw [callsFrom_eq hmade]
  exact List.mem_singleton_self _

theorem Ensures.mapError (h : Ensures A P task Q R) (f : ε → φ) :
    Ensures A P (task.mapError f) Q R := by
  refine ⟨h.adds, fun s hs hcalls => ?_⟩
  have hends := h.ends s hs hcalls
  rw [runFrom, Task.mapError]
  cases hrun : task.runFrom s with
  | mk result after =>
    rw [hrun] at hends
    cases result <;> exact hends

theorem Ensures.afterwards {f : Workspace → Workspace} (h : Ensures A P task Q R)
    (hQ : ∀ {value w}, Q value w → Q' value (f w)) (hR : ∀ {w}, R w → R' (f w)) :
    Ensures A P (task.afterwards f) Q' R' := by
  refine ⟨h.adds, fun s hs hcalls => ?_⟩
  have hends := h.ends s hs hcalls
  rw [runFrom, Task.afterwards]
  cases hrun : task.runFrom s with
  | mk result after =>
    rw [hrun] at hends
    cases result with
    | ok value => exact hQ hends
    | error failure => exact hR hends

theorem runFrom_afterwards (task : Task ε α) (f : Workspace → Workspace) (s : Session) :
    (task.afterwards f).runFrom s = ((task.runFrom s).1,
      { (task.runFrom s).2 with workspace := f (task.runFrom s).2.workspace }) := rfl

/-- What holds however a task ends. -/
theorem Ensures.always (h : Ensures A P task (fun _ => I) I) {s : Session} (hs : P s.workspace)
    (hcalls : ∀ call ∈ task.callsFrom s, A call) : I (task.runFrom s).2.workspace := by
  have hends := h.ends s hs hcalls
  cases hrun : task.runFrom s with
  | mk result after =>
    rw [hrun] at hends
    cases result <;> exact hends

/-! Tasks that only report. -/

/-- A task that leaves the workspace as it is and calls nothing. -/
structure Quiet (task : Task ε α) : Prop where
  workspace : ∀ s, (task.runFrom s).2.workspace = s.workspace
  calls : ∀ s, (task.runFrom s).2.calls = s.calls

theorem Quiet.ensures (h : Quiet task) (hR : ∀ {w}, P w → R w) :
    Ensures A P task (fun _ => P) R := by
  refine ⟨fun s => h.calls s ▸ List.prefix_refl _, fun s hs _ => ?_⟩
  have hsame := h.workspace s
  cases hrun : task.runFrom s with
  | mk result after =>
    rw [hrun] at hsame
    cases result with
    | ok value => exact show P after.workspace from hsame ▸ hs
    | error failure => exact show R after.workspace from hsame ▸ hR hs

/-- What each part of a task leaves as it is, the whole task leaves so. -/
theorem same_bind {γ : Type} (view : Session → γ) {next : α → Task ε β}
    (h : ∀ s, view (task.runFrom s).2 = view s)
    (hnext : ∀ value s, view ((next value).runFrom s).2 = view s) (s : Session) :
    view ((task >>= next).runFrom s).2 = view s := by
  have hfirst := h s
  rcases runFrom_bind_cases task next s with ⟨_, after, hrun, hwhole⟩ | ⟨value, after, hrun, hwhole⟩
  · rwa [hwhole, ← congrArg Prod.snd hrun]
  · rw [hrun] at hfirst
    exact hwhole ▸ (hnext value after).trans hfirst

theorem Quiet.bind {next : α → Task ε β} (h : Quiet task) (hnext : ∀ value, Quiet (next value)) :
    Quiet (task >>= next) :=
  ⟨same_bind Session.workspace h.workspace fun value => (hnext value).workspace,
    same_bind Session.calls h.calls fun value => (hnext value).calls⟩

theorem Quiet.mapError (h : Quiet task) (f : ε → φ) : Quiet (task.mapError f) :=
  ⟨h.workspace, h.calls⟩

theorem quiet_reportAll (events : List Event) : Quiet (reportAll events : Task ε Unit) :=
  ⟨fun _ => rfl, fun _ => rfl⟩

theorem quiet_report (event : Event) : Quiet (report event : Task ε Unit) :=
  ⟨fun _ => rfl, fun _ => rfl⟩

/-! Tasks that only look. -/

/-- A task that leaves the session as it is. -/
structure Looks (task : Task ε α) : Prop where
  same : ∀ s, (task.runFrom s).2 = s

theorem Looks.quiet (h : Looks task) : Quiet task :=
  ⟨fun s => congrArg Session.workspace (h.same s), fun s => congrArg Session.calls (h.same s)⟩

theorem Looks.bind {next : α → Task ε β} (h : Looks task) (hnext : ∀ value, Looks (next value)) :
    Looks (task >>= next) :=
  ⟨same_bind id h.same fun value => (hnext value).same⟩

theorem looks_pure (value : α) : Looks (pure value : Task ε α) := ⟨fun _ => rfl⟩

theorem looks_stop (failure : Failure ε) : Looks (stop failure : Task ε α) := ⟨fun _ => rfl⟩

theorem looks_workspace : Looks (workspace : Task ε Workspace) := ⟨fun _ => rfl⟩

theorem looks_ofExcept (result : Except ε α) : Looks (ofExcept result) := by
  cases result <;> exact ⟨fun _ => rfl⟩

theorem quiet_pure (value : α) : Quiet (pure value : Task ε α) := (looks_pure value).quiet

theorem quiet_workspace : Quiet (workspace : Task ε Workspace) := looks_workspace.quiet

theorem quiet_ofExcept (result : Except ε α) : Quiet (ofExcept result) :=
  (looks_ofExcept result).quiet

theorem quiet_ofResult (result : Except (Failure ε) α) : Quiet (ofResult result) := by
  cases result <;> exact ⟨fun _ => rfl, fun _ => rfl⟩

/-! Tasks whose events do not matter. -/

section Unseen

variable {γ : Type} {f : List Event → γ}

/-- A task that adds no event which `f` sees. -/
structure Unseen (f : List Event → γ) (task : Task ε α) : Prop where
  same : ∀ s, f (task.runFrom s).2.events = f s.events

theorem Looks.unseen (h : Looks task) : Unseen f task :=
  ⟨fun s => congrArg (fun after => f after.events) (h.same s)⟩

theorem Unseen.bind {next : α → Task ε β} (h : Unseen f task)
    (hnext : ∀ value, Unseen f (next value)) : Unseen f (task >>= next) :=
  ⟨same_bind (fun s => f s.events) h.same fun value => (hnext value).same⟩

theorem Unseen.mapError (h : Unseen f task) (g : ε → φ) : Unseen f (task.mapError g) :=
  ⟨fun s => h.same s⟩

theorem Unseen.afterwards (h : Unseen f task) (g : Workspace → Workspace) :
    Unseen f (task.afterwards g) := ⟨fun s => h.same s⟩

theorem unseen_tryChange (onError : FileError → Failure ε)
    (g : Workspace → Except FileError Unit × Workspace) : Unseen f (tryChange onError g) :=
  ⟨fun _ => rfl⟩

theorem unseen_change (onError : FileError → Failure ε)
    (g : Workspace → Except FileError Workspace) : Unseen f (change onError g) := by
  refine ⟨fun s => ?_⟩
  rw [runFrom, change]
  split <;> rfl

theorem unseen_call (run : Command → Workspace → CommandResult × Workspace) (c : Command) :
    Unseen f (call run c : Task ε CommandResult) := ⟨fun _ => rfl⟩

theorem unseen_report {event : Event} (h : ∀ events, f (events ++ [event]) = f events) :
    Unseen f (report event : Task ε Unit) := ⟨fun s => h s.events⟩

end Unseen

/-! Tasks that report errors of one kind only. -/

section Reports

variable {E E' : ε → Prop}

/-- A task all of whose reported errors are as `E` says. -/
structure ReportsOnly (E : ε → Prop) (task : Task ε α) : Prop where
  error : ∀ {s after error}, task.runFrom s = (.error (.reported error), after) → E error

theorem ReportsOnly.imp (h : ReportsOnly E task) (hE : ∀ error, E error → E' error) :
    ReportsOnly E' task :=
  ⟨fun hrun => hE _ (h.error hrun)⟩

theorem ReportsOnly.bind {next : α → Task ε β} (h : ReportsOnly E task)
    (hnext : ∀ value, ReportsOnly E (next value)) : ReportsOnly E (task >>= next) := by
  refine ⟨fun hrun => ?_⟩
  rcases runFrom_bind_eq_error hrun with hfirst | ⟨value, _, _, hsecond⟩
  · exact h.error hfirst
  · exact (hnext value).error hsecond

theorem reportsOnly_pure (value : α) : ReportsOnly E (pure value : Task ε α) :=
  ⟨fun hrun => nomatch (Prod.mk.inj hrun).1⟩

theorem reportsOnly_workspace : ReportsOnly E (workspace : Task ε Workspace) :=
  ⟨fun hrun => nomatch (Prod.mk.inj hrun).1⟩

theorem reportsOnly_update (f : Session → Session) : ReportsOnly E (update f : Task ε Unit) :=
  ⟨fun hrun => nomatch (Prod.mk.inj hrun).1⟩

theorem reportsOnly_ofResult {result : Except (Failure ε) α}
    (h : ∀ error, result = .error (.reported error) → E error) :
    ReportsOnly E (ofResult result) := by
  refine ⟨fun {s after error} hrun => h error ?_⟩
  cases result with
  | ok value => cases (Prod.mk.inj hrun).1
  | error failure => rw [Except.error.inj (Prod.mk.inj hrun).1]

theorem reportsOnly_fail {error : ε} (h : E error) : ReportsOnly E (fail error : Task ε α) := by
  refine ⟨fun hrun => ?_⟩
  obtain rfl := Failure.reported.inj (Except.error.inj (Prod.mk.inj hrun).1)
  exact h

theorem reportsOnly_change {onError : FileError → Failure ε}
    {f : Workspace → Except FileError Workspace}
    (h : ∀ fault error, onError fault = .reported error → E error) :
    ReportsOnly E (change onError f) := by
  refine ⟨fun hrun => ?_⟩
  obtain ⟨fault, hfailure⟩ := change_eq_error hrun
  exact h fault _ hfailure.symm

theorem ReportsOnly.afterwards (h : ReportsOnly E task) (f : Workspace → Workspace) :
    ReportsOnly E (task.afterwards f) := by
  refine ⟨fun hrun => ?_⟩
  rw [runFrom_afterwards] at hrun
  exact h.error (Prod.ext (Prod.mk.inj hrun).1 rfl)

/-- A task whose errors are all made by a function. -/
theorem reportsOnly_mapError {E : φ → Prop} {f : ε → φ} (h : ∀ error, E (f error)) :
    ReportsOnly E (task.mapError f) := by
  refine ⟨fun hrun => ?_⟩
  obtain ⟨cause, _, rfl⟩ := mapError_eq_reported hrun
  exact h cause

theorem reportsOnly_ofExcept {result : Except ε α} (h : ∀ error, result = .error error → E error) :
    ReportsOnly E (ofExcept result) := by
  cases result with
  | ok value => exact reportsOnly_pure value
  | error error => exact reportsOnly_fail (h error rfl)

end Reports

end Task

end LuaBundle
