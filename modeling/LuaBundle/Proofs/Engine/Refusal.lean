import LuaBundle.Proofs.Build.Failure

/-! What an engine is refused for: a platform that it does not run on, or programs that are not
found. The programs are those of its own list that are missing; an engine whose list leaves out a
program that it starts is refused for that program alone, once all of the list is found. A build
looks for the list before it starts its engine, and no engine that it can choose leaves one out. -/

namespace LuaBundle

open Text LuaBundle.Task

/-- Whether an engine was refused before it did anything. -/
def BuildError.IsRefusal : BuildError → Prop
  | packaging (.toolchainNotFound ..) | packaging (.unsupportedPlatform ..) => True
  | _ => False

/-- The programs that an engine starts or gives to the one that it starts, in the order in which
they are looked up. -/
def EngineKind.programs : EngineKind → List Text
  | luastatic => ["luastatic"]
  | srlua stub => ["srglue", stub.getD Engine.defaultStub]

/-- An engine that lists all programs of its kind. -/
def Engine.ListsPrograms (e : Engine) : Prop := ∀ name ∈ e.kind.programs, name ∈ e.executables

theorem Engine.listsPrograms_of_mem_all {e : Engine} (h : e ∈ Engine.all) : e.ListsPrograms := by
  have hall : ∀ e ∈ Engine.all, ∀ name ∈ e.kind.programs, name ∈ e.executables := by decide
  exact hall e h

namespace Toolchain

variable {t : Toolchain} {w : Workspace} {e : Engine}

/-- The first program of a kind that is not found. -/
def firstUnfound? (t : Toolchain) (w : Workspace) (kind : EngineKind) : Option Text :=
  kind.programs.find? fun name => (t.find w name).isNone

/-- The programs that an engine is refused for: those of its list that are not found or, where all
of them are, the first one of its kind that is not. -/
def lacking (t : Toolchain) (w : Workspace) (e : Engine) : List Text :=
  match t.missing w e with
  | [] => (t.firstUnfound? w e.kind).toList
  | missing => missing

theorem lacking_of_missing (h : t.missing w e ≠ []) : t.lacking w e = t.missing w e := by
  unfold lacking
  split
  · exact absurd ‹_› h
  · rfl

theorem lacking_of_found (h : t.missing w e = []) :
    t.lacking w e = (t.firstUnfound? w e.kind).toList := by
  rw [lacking, h]

theorem firstUnfound?_eq_none (hlists : e.ListsPrograms) (h : t.missing w e = []) :
    t.firstUnfound? w e.kind = none := by
  apply List.find?_eq_none.mpr
  intro name hname hnone
  have hmissing : name ∈ t.missing w e := List.mem_filter.mpr ⟨hlists name hname, hnone⟩
  rw [h] at hmissing
  cases hmissing

/-- An engine that lists all of its programs is refused for those of its list. -/
theorem lacking_eq_missing (hlists : e.ListsPrograms) : t.lacking w e = t.missing w e := by
  by_cases h : t.missing w e = []
  · rw [lacking_of_found h, firstUnfound?_eq_none hlists h, h]
    rfl
  · exact lacking_of_missing h

/-- Where all of an engine's list is found, the program it is refused for is not on the list. -/
theorem not_mem_executables {name : Text} (h : t.missing w e = [])
    (hfirst : t.firstUnfound? w e.kind = some name) : name ∉ e.executables := by
  intro hname
  unfold firstUnfound? at hfirst
  have hnone := List.find?_some hfirst
  have hmissing : name ∈ t.missing w e := List.mem_filter.mpr ⟨hname, hnone⟩
  rw [h] at hmissing
  cases hmissing

/-- An engine is refused for what is missing of its list, or for one program that is not on it. -/
theorem lacking_cases (h : t.lacking w e ≠ []) :
    t.lacking w e = t.missing w e ∨ t.missing w e = [] ∧ ∃ unlisted,
      t.firstUnfound? w e.kind = some unlisted ∧ unlisted ∉ e.executables ∧
        t.lacking w e = [unlisted] := by
  by_cases hmissing : t.missing w e = []
  · rw [lacking_of_found hmissing] at h ⊢
    cases hfirst : t.firstUnfound? w e.kind with
    | none =>
      rw [hfirst] at h
      exact absurd rfl h
    | some unlisted =>
      exact .inr ⟨hmissing, unlisted, rfl, not_mem_executables hmissing hfirst, rfl⟩
  · exact .inl (lacking_of_missing hmissing)

theorem probe_eq_true_iff :
    t.probe w e = true ↔ e.supports t.platform = true ∧ t.missing w e = [] := by
  rw [probe, Bool.and_eq_true, List.isEmpty_iff]

end Toolchain

namespace Engine

variable {e : Engine} {t : Toolchain} {job : Job} {s after : Session} {error : BuildError}

/-- A task that is past the checks of an engine. -/
abbrev RefusesNothing {α : Type} (task : Task BuildError α) : Prop :=
  ReportsOnly (fun error => ¬error.IsRefusal) task

theorem refusesNothing_execute (e : Engine) (t : Toolchain) (c : Command) :
    RefusesNothing (e.execute t c) := by
  refine ⟨fun hrun => ?_⟩
  rw [runFrom_execute] at hrun
  split at hrun
  · cases (Prod.mk.inj hrun).1
  · obtain rfl := Failure.reported.inj (Except.error.inj (Prod.mk.inj hrun).1)
    exact id

theorem refusesNothing_deliver (e : Engine) (t : Toolchain) (artifact target : Text) :
    RefusesNothing (e.deliver t artifact target) := by
  refine (reportsOnly_deliver e t artifact target).imp fun error hstage hrefusal => ?_
  cases error with
  | packaging cause => cases cause <;> first | exact hrefusal | exact hstage rfl
  | _ => exact hrefusal

/-- Neither the command of an engine nor what is done with its result is refused. -/
theorem refusesNothing_command (e : Engine) (t : Toolchain) (c : Command)
    (artifact target : Text) :
    RefusesNothing (e.execute t c >>= fun _ => e.deliver t artifact target) :=
  (refusesNothing_execute e t c).bind fun _ => refusesNothing_deliver e t artifact target

theorem refusesNothing_glue (e : Engine) (t : Toolchain) (program stub : Text) (job : Job) :
    RefusesNothing (e.glue t program stub job) := by
  refine ⟨fun {s after error} hrun => ?_⟩
  rcases e.glue_ends t program stub job s with
    ⟨cause, _, _, hglue⟩ | ⟨fault, _, _, _, _, hglue⟩ | ⟨_, _, _, _, hglue⟩
  · rw [hglue] at hrun
    obtain ⟨_, _, rfl⟩ := Failure.map_eq_reported (Except.error.inj (Prod.mk.inj hrun).1)
    exact id
  · rw [hglue] at hrun
    obtain rfl := Failure.reported.inj (Except.error.inj (Prod.mk.inj hrun).1)
    exact id
  · rw [hglue] at hrun
    exact (refusesNothing_command e t _ _ _).error hrun

/-! The checks, one after the other. -/

theorem runFrom_locate_bind {α : Type} (e : Engine) (t : Toolchain) (name : Text)
    (next : Text → Task BuildError α) (s : Session) :
    (e.locate t name >>= next).runFrom s =
      match t.find s.workspace name with
      | some path => (next path).runFrom s
      | none => (.error (.reported (.packaging (.toolchainNotFound e.name [name] e.installHint))),
          s) := by
  rw [runFrom_bind, runFrom_locate]
  cases t.find s.workspace name <;> rfl

/-- What an engine does that is not refused for its list. -/
def start (e : Engine) (t : Toolchain) (job : Job) : Task BuildError Text :=
  match e.kind with
  | .luastatic => e.invokeLuastatic t job
  | .srlua stub => e.invokeSrlua t stub job

theorem start_of_unfound {name : Text} (h : t.firstUnfound? s.workspace e.kind = some name) :
    (e.start t job).runFrom s =
      (.error (.reported (.packaging (.toolchainNotFound e.name [name] e.installHint))), s) := by
  unfold start
  cases hkind : e.kind with
  | luastatic =>
    rw [hkind, Toolchain.firstUnfound?, EngineKind.programs, List.find?_singleton] at h
    dsimp only
    rw [invokeLuastatic, runFrom_locate_bind]
    cases hfind : t.find s.workspace "luastatic" with
    | none =>
      rw [hfind] at h
      rw [← Option.some.inj h]
    | some path =>
      rw [hfind] at h
      cases h
  | srlua stub =>
    rw [hkind, Toolchain.firstUnfound?, EngineKind.programs, List.find?_cons,
      List.find?_singleton] at h
    dsimp only
    rw [invokeSrlua, runFrom_locate_bind]
    cases hglue : t.find s.workspace "srglue" with
    | none =>
      rw [hglue] at h
      rw [← Option.some.inj h]
    | some program =>
      rw [hglue] at h
      dsimp only
      rw [runFrom_locate_bind]
      cases hstub : t.find s.workspace (stub.getD defaultStub) with
      | none =>
        rw [hstub] at h
        rw [← Option.some.inj h]
      | some path =>
        rw [hstub] at h
        cases h

/-- Once its programs are found, an engine is past its checks. -/
theorem start_of_found (h : t.firstUnfound? s.workspace e.kind = none)
    (hrun : (e.start t job).runFrom s = (.error (.reported error), after)) :
    ¬error.IsRefusal := by
  have hfound : ∀ name ∈ e.kind.programs, ∃ path, t.find s.workspace name = some path := by
    intro name hname
    have hname := List.find?_eq_none.mp h name hname
    rwa [Option.isNone_iff_eq_none, ← ne_eq, Option.ne_none_iff_exists'] at hname
  unfold start at hrun
  cases hkind : e.kind with
  | luastatic =>
    rw [hkind] at hrun hfound
    obtain ⟨program, hprogram⟩ := hfound "luastatic" (by simp [EngineKind.programs])
    dsimp only at hrun
    rw [invokeLuastatic, runFrom_locate_bind, hprogram] at hrun
    dsimp only at hrun
    cases hentry : job.manifest.entryPoint? with
    | none =>
      rw [hentry] at hrun
      exact (reportsOnly_fail (E := fun error => ¬error.IsRefusal) id).error hrun
    | some entry =>
      rw [hentry] at hrun
      have hrest : RefusesNothing (workspace >>= fun w => e.execute t ⟨program,
          luastaticArguments w.base job.manifest job.extraArguments, Path.parent entry.path⟩ >>=
          fun _ => e.deliver t (producedPath entry.path) (w.absolute job.outputPath)) :=
        reportsOnly_workspace.bind fun w => refusesNothing_command e t _ _ _
      exact hrest.error hrun
  | srlua stub =>
    rw [hkind] at hrun hfound
    obtain ⟨program, hprogram⟩ := hfound "srglue" (by simp [EngineKind.programs])
    obtain ⟨path, hpath⟩ := hfound (stub.getD defaultStub) (by simp [EngineKind.programs])
    dsimp only at hrun
    rw [invokeSrlua, runFrom_locate_bind, hprogram] at hrun
    dsimp only at hrun
    rw [runFrom_locate_bind, hpath] at hrun
    have hrest : RefusesNothing (Task.change .interrupted
        (fun w => w.makeTemporary (buildDirectory t)) >>= fun _ =>
        (e.glue t program path job).afterwards fun w => w.removeAll (buildDirectory t)) :=
      (reportsOnly_change fun _ _ hfault => by cases hfault).bind fun _ =>
        (refusesNothing_glue e t program path job).afterwards _
    exact hrest.error hrun

/-- What an engine is refused for. -/
def refusal? (e : Engine) (t : Toolchain) (w : Workspace) : Option PackagingError :=
  if e.supports t.platform then
    match t.lacking w e with
    | [] => none
    | missing => some (.toolchainNotFound e.name missing e.installHint)
  else some (e.unsupported t)

/-- An engine is refused as `refusal?` says, and then nothing has been done. -/
theorem invoke_of_refusal {cause : PackagingError} (h : e.refusal? t s.workspace = some cause)
    (job : Job) : (e.invoke t job).runFrom s = (.error (.reported (.packaging cause)), s) := by
  unfold refusal? at h
  split_ifs at h with hplatform
  · rw [runFrom_invoke hplatform]
    cases hmissing : t.missing s.workspace e with
    | nil =>
      dsimp only
      rw [Toolchain.lacking_of_found hmissing] at h
      cases hfirst : t.firstUnfound? s.workspace e.kind with
      | none =>
        rw [hfirst] at h
        cases h
      | some name =>
        rw [hfirst] at h
        obtain rfl := Option.some.inj h
        exact start_of_unfound hfirst
    | cons first rest =>
      rw [Toolchain.lacking_of_missing (by rw [hmissing]; simp), hmissing] at h
      obtain rfl := Option.some.inj h
      rfl
  · obtain rfl := Option.some.inj h
    rw [invoke, if_pos (by simpa using hplatform)]
    rfl

/-- An engine that is not refused by `refusal?` ends with no refusal. -/
theorem not_isRefusal_of_invoke (h : e.refusal? t s.workspace = none)
    (hrun : (e.invoke t job).runFrom s = (.error (.reported error), after)) :
    ¬error.IsRefusal := by
  unfold refusal? at h
  split_ifs at h with hplatform
  cases hmissing : t.missing s.workspace e with
  | nil =>
    rw [Toolchain.lacking_of_found hmissing] at h
    rw [runFrom_invoke hplatform, hmissing] at hrun
    refine start_of_found ?_ hrun
    cases hfirst : t.firstUnfound? s.workspace e.kind with
    | none => rfl
    | some name =>
      rw [hfirst] at h
      cases h
  | cons first rest =>
    rw [Toolchain.lacking_of_missing (by rw [hmissing]; simp), hmissing] at h
    cases h

theorem isRefusal_of_refusal? {w : Workspace} {cause : PackagingError}
    (h : e.refusal? t w = some cause) : (BuildError.packaging cause).IsRefusal := by
  unfold refusal? at h
  split_ifs at h
  · split at h
    · cases h
    · obtain rfl := Option.some.inj h
      trivial
  · obtain rfl := Option.some.inj h
    trivial

/-- An engine is refused with an error just if that is what it is refused for. -/
theorem invoke_refused_iff {cause : PackagingError} :
    (BuildError.packaging cause).IsRefusal ∧
        ((e.invoke t job).runFrom s).1 = .error (.reported (.packaging cause)) ↔
      e.refusal? t s.workspace = some cause := by
  constructor
  · rintro ⟨hrefusal, hrun⟩
    cases h : e.refusal? t s.workspace with
    | none => exact absurd hrefusal (not_isRefusal_of_invoke h (Prod.ext hrun rfl))
    | some found =>
      rw [invoke_of_refusal h] at hrun
      injection hrun with hrun
      injection hrun with hrun
      injection hrun with hrun
      rw [hrun]
  · intro h
    exact ⟨isRefusal_of_refusal? h, congrArg Prod.fst (invoke_of_refusal h job)⟩

theorem lacking_of_refusal? {w : Workspace} {name : Text} {missing : List Text} {hint : Text}
    (h : e.refusal? t w = some (.toolchainNotFound name missing hint)) :
    t.lacking w e = missing ∧ missing ≠ [] := by
  unfold refusal? at h
  split_ifs at h
  · split at h
    · cases h
    · rename_i hne
      injection h with h
      injection h with _ h _
      exact ⟨h, fun hnil => hne (h.trans hnil)⟩
  · cases h

/-- An engine that lists all of its programs is refused just if its probe fails. -/
theorem refusal?_eq_none_iff {w : Workspace} (hlists : e.ListsPrograms) :
    e.refusal? t w = none ↔ t.probe w e = true := by
  rw [Toolchain.probe_eq_true_iff, refusal?, Toolchain.lacking_eq_missing hlists]
  split_ifs with hplatform
  · cases t.missing w e <;> simp [hplatform]
  · simp [hplatform]

end Engine

namespace BuildRequest

variable {r : BuildRequest} {t : Toolchain} {s after : Session} {e : Engine}

/-- The engine that a request names, or the standard one. -/
def Chooses (r : BuildRequest) (e : Engine) : Prop :=
  match r.engineName with
  | none => e = Engine.standard
  | some name => Engine.named name = .ok e

theorem Chooses.mem_all (h : r.Chooses e) : e ∈ Engine.all := by
  unfold Chooses at h
  split at h
  · rw [h]
    exact List.mem_cons_of_mem _ List.mem_cons_self
  · unfold Engine.named at h
    split at h
    · rename_i hfind
      obtain rfl := Except.ok.inj h
      exact List.mem_of_find?_eq_some hfind
    · cases h

/-- How a build rejects an engine that cannot run. -/
def rejection (e : Engine) (t : Toolchain) : PackagingError :=
  if e.supports t.platform then .toolchainNotFound e.name e.executables e.installHint
  else e.unsupported t

theorem runFrom_checked (e : Engine) (t : Toolchain) (s : Session) : (e.checked t).runFrom s =
    (if t.probe s.workspace e then .ok e else .error (.reported (.packaging (rejection e t))),
      s) := by
  by_cases hplatform : e.supports t.platform = true
  · rw [rejection, if_pos hplatform]
    simp only [Engine.checked, hplatform, Bool.not_true, Bool.false_eq_true, if_false, runFrom_bind,
      runFrom_workspace]
    cases t.probe s.workspace e <;> rfl
  · have hprobe : t.probe s.workspace e = false := by simp [Toolchain.probe, hplatform]
    rw [rejection, if_neg hplatform, hprobe]
    simp only [Engine.checked, hplatform, Bool.not_false, if_true]
    rfl

/-- A build knows no engine of the name that it is given, or it takes the engine as its probe
says. -/
theorem engine_cases (r : BuildRequest) (t : Toolchain) (s : Session) :
    (∃ name known, (r.engine t).runFrom s =
      (.error (.reported (.packaging (.engineNotFound name known))), s)) ∨
    ∃ e, r.Chooses e ∧ (r.engine t).runFrom s =
      (if t.probe s.workspace e then .ok e else .error (.reported (.packaging (rejection e t))),
        s) := by
  cases hname : r.engineName with
  | none =>
    refine .inr ⟨Engine.standard, by rw [Chooses, hname], ?_⟩
    rw [engine_standard hname, runFrom_checked]
  | some name =>
    rw [engine_named hname]
    cases hnamed : Engine.named name with
    | error cause =>
      obtain ⟨known, rfl⟩ := Engine.named_eq_error hnamed
      exact .inl ⟨name, known, rfl⟩
    | ok e =>
      refine .inr ⟨e, by rw [Chooses, hname]; exact hnamed, ?_⟩
      rw [← runFrom_checked]
      rfl

/-- A build that its engine's programs are missing for has rejected the engine itself. -/
theorem run_toolchainNotFound {name : Text} {missing : List Text} {hint : Text}
    (h : (r.run t).runFrom s =
      (.error (.reported (.packaging (.toolchainNotFound name missing hint))), after)) :
    ∃ e, r.Chooses e ∧ t.probe s.workspace e = false ∧
      PackagingError.toolchainNotFound name missing hint = rejection e t := by
  have hworkspace := (quiet_manifest r).workspace s
  rcases runFrom_bind_eq_error h with hmanifest | ⟨manifest, s₁, hmanifest, h⟩
  · obtain ⟨cause, hcause⟩ := (reportsOnly_manifest r).error hmanifest
    cases hcause
  rw [hmanifest] at hworkspace
  rcases engine_cases r t s₁ with ⟨unknown, known, hengine⟩ | ⟨e, hchooses, hengine⟩
  · rw [runFrom_bind_error hengine] at h
    cases (Prod.mk.inj h).1
  rw [hworkspace] at hengine
  cases hprobe : t.probe s.workspace e with
  | false =>
    rw [hprobe] at hengine
    rw [runFrom_bind_error hengine] at h
    injection h with h
    injection h with h
    injection h with h
    injection h with h
    exact ⟨e, hchooses, hprobe, h.symm⟩
  | true =>
    rw [hprobe] at hengine
    rw [runFrom_bind_ok hengine] at h
    have hlists := Engine.listsPrograms_of_mem_all hchooses.mem_all
    have hnone : e.refusal? t s₁.workspace = none :=
      (Engine.refusal?_eq_none_iff hlists).mpr (hworkspace ▸ hprobe)
    rcases runFrom_bind_eq_error h with hinvoke | ⟨_, _, _, hpure⟩
    · exact absurd trivial (Engine.not_isRefusal_of_invoke hnone hinvoke)
    · cases (Prod.mk.inj hpure).1

end BuildRequest

namespace Engine

/-- An engine that is refused for programs is refused for those of its list that are not found, in
order; or all of the list is found, and it is refused for one program that it starts without
listing it. A build that gives up for programs has an engine whose probe fails, and names all of
the list that is not found. An engine that lists its programs is refused just if its probe fails. -/
theorem refused_for_lacking (t : Toolchain) (s : Session) :
    (∀ (e : Engine) job name missing hint, ((e.invoke t job).runFrom s).1 =
        .error (.reported (.packaging (.toolchainNotFound name missing hint))) →
      missing = t.missing s.workspace e ∧ missing ≠ [] ∨
      t.missing s.workspace e = [] ∧
        ∃ unlisted, t.firstUnfound? s.workspace e.kind = some unlisted ∧
          unlisted ∉ e.executables ∧ missing = [unlisted]) ∧
    (∀ (r : BuildRequest) name missing hint, ((r.run t).runFrom s).1 =
        .error (.reported (.packaging (.toolchainNotFound name missing hint))) →
      ∃ e, r.Chooses e ∧ name = e.name ∧ e.supports t.platform = true ∧
        t.missing s.workspace e ≠ [] ∧ (t.missing s.workspace e).Sublist missing) ∧
    ∀ (e : Engine) job, e.ListsPrograms →
      ((∃ cause, (BuildError.packaging cause).IsRefusal ∧
          ((e.invoke t job).runFrom s).1 = .error (.reported (.packaging cause))) ↔
        t.probe s.workspace e = false) := by
  refine ⟨fun e job name missing hint hrun => ?_, fun r name missing hint hrun => ?_,
    fun e job hlists => ?_⟩
  · have hrefused : (BuildError.packaging (.toolchainNotFound name missing hint)).IsRefusal :=
      trivial
    obtain ⟨rfl, hne⟩ := lacking_of_refusal? (invoke_refused_iff.mp ⟨hrefused, hrun⟩)
    exact (Toolchain.lacking_cases hne).imp_left fun hlacking => ⟨hlacking, hne⟩
  · obtain ⟨e, hchooses, hprobe, hrejection⟩ :=
      BuildRequest.run_toolchainNotFound (Prod.ext hrun rfl)
    unfold BuildRequest.rejection at hrejection
    split_ifs at hrejection with hplatform
    · injection hrejection with hname hmissing _
      refine ⟨e, hchooses, hname, hplatform, fun hnil => ?_, ?_⟩
      · rw [Toolchain.probe_eq_true_iff.mpr ⟨hplatform, hnil⟩] at hprobe
        cases hprobe
      · rw [hmissing]
        exact List.filter_sublist
    · cases hrejection
  · rw [Bool.eq_false_iff, Ne, ← refusal?_eq_none_iff hlists, ← Ne, Option.ne_none_iff_exists']
    exact exists_congr fun cause => invoke_refused_iff

end Engine

namespace Session

/-- A host with every program but some. -/
def hostWithout (names : List Text) : Toolchain :=
  { host id with
    find := fun _ name => if names.contains name then none else some ("/bin/" ++ name) }

/-- How an engine of a name is refused for programs. -/
def refused (engine : Text) (missing : List Text) (hint : Text) : Failure BuildError :=
  .reported (.packaging (.toolchainNotFound engine missing hint))

/-- A host without the programs of the standard engine. -/
def bareHost : Toolchain := hostWithout ["srglue", "srlua"]

/-- A request to build the program with the standard engine. -/
def plainRequest : BuildRequest := { request with engineName := none }

/-- The standard engine without its programs: run by itself, run by a build, and probed. -/
theorem refused_bare :
    (((Engine.standard.invoke bareHost (job "main.lua")).runFrom (project "main.lua")).1 =
        .error (refused "srlua" ["srglue", "srlua"] Engine.standard.installHint) ∧
      [ofString "srglue", ofString "srlua"] =
        bareHost.missing (project "main.lua").workspace Engine.standard) ∧
    (((plainRequest.run bareHost).runFrom (project "main.lua")).1 =
        .error (refused "srlua" ["srglue", "srlua"] Engine.standard.installHint) ∧
      ∃ e, plainRequest.Chooses e ∧ e.name = ofString "srlua" ∧
        bareHost.missing (project "main.lua").workspace e ≠ [] ∧
        (bareHost.missing (project "main.lua").workspace e).Sublist
          [ofString "srglue", ofString "srlua"]) ∧
    Engine.standard.ListsPrograms ∧
      bareHost.probe (project "main.lua").workspace Engine.standard = false := by
  obtain ⟨hinvoke, hbuild, hprobe⟩ := Engine.refused_for_lacking bareHost (project "main.lua")
  have hinvoked : ((Engine.standard.invoke bareHost (job "main.lua")).runFrom
      (project "main.lua")).1 =
      .error (refused "srlua" ["srglue", "srlua"] Engine.standard.installHint) := by decide +kernel
  have hbuilt : ((plainRequest.run bareHost).runFrom (project "main.lua")).1 =
      .error (refused "srlua" ["srglue", "srlua"] Engine.standard.installHint) := by decide +kernel
  have hlists : Engine.standard.ListsPrograms := Engine.listsPrograms_of_mem_all (.tail _ (.head _))
  have hrefused : (BuildError.packaging (.toolchainNotFound "srlua" ["srglue", "srlua"]
      Engine.standard.installHint)).IsRefusal := trivial
  obtain ⟨e, hchooses, hname, _, hne, hsublist⟩ := hbuild _ _ _ _ hbuilt
  refine ⟨⟨hinvoked, ?_⟩, ⟨hbuilt, e, hchooses, hname.symm, hne, hsublist⟩, hlists,
    (hprobe _ _ hlists).mp ⟨_, hrefused, hinvoked⟩⟩
  obtain ⟨hmissing, _⟩ | ⟨_, _, _, _, hone⟩ := hinvoke _ _ _ _ _ hinvoked
  · exact hmissing
  · cases hone

/-- A compiler that lists no programs is refused for the one that it starts. -/
theorem refused_for_unlisted :
    ¬∀ (e : Engine) (t : Toolchain) (job : Job) (s : Session) (name : Text) (missing : List Text)
      (hint : Text), ((e.invoke t job).runFrom s).1 = .error (refused name missing hint) →
      missing = t.missing s.workspace e := by
  intro h
  have hrun : (({ Engine.luastatic with executables := [] }.invoke (hostWithout ["luastatic"])
      (job "main.lua")).runFrom (project "main.lua")).1 =
      .error (refused "luastatic" ["luastatic"] Engine.luastatic.installHint) := by decide +kernel
  cases h _ _ _ _ _ _ _ hrun

end Session

end LuaBundle
