import LuaBundle.Build.Basic
import LuaBundle.Proofs.Engine.Run
import LuaBundle.Proofs.Engine.Sources

/-! Files outlive a build. Finding the files of a program and an engine changes nothing, so that a
build leaves of a file what its engine leaves. -/

namespace LuaBundle

open LuaBundle.Task Workspace

/-- The engine, if it supports the platform of a host and its probe finds its programs there. -/
def Engine.checked (e : Engine) (t : Toolchain) : Task BuildError Engine :=
  if !e.supports t.platform then refuse (e.unsupported t)
  else workspace >>= fun w =>
    if t.probe w e then pure e
    else refuse (.toolchainNotFound e.name e.executables e.installHint)

theorem Engine.looks_checked (e : Engine) (t : Toolchain) : Looks (e.checked t) := by
  unfold checked
  split
  · exact looks_stop _
  · refine looks_workspace.bind fun w => ?_
    split
    · exact looks_pure _
    · exact looks_stop _

theorem Engine.named_eq_error {name : Text} {cause : PackagingError}
    (h : named name = .error cause) : ∃ known, cause = .engineNotFound name known := by
  unfold named at h
  split at h
  · cases h
  · exact ⟨_, (Except.error.inj h).symm⟩

namespace BuildRequest

variable {r : BuildRequest} {t : Toolchain} {s : Session} {l : Location} {content : Content}

theorem engine_standard (h : r.engineName = none) : r.engine t = Engine.standard.checked t := by
  rw [engine, h]
  rfl

theorem engine_named {name : Text} (h : r.engineName = some name) : r.engine t =
    Task.ofExcept ((Engine.named name).mapError BuildError.packaging) >>= fun e => e.checked t := by
  rw [engine, h]
  rfl

theorem quiet_foundManifest (r : BuildRequest) (entry : Text) : Quiet (r.foundManifest entry) := by
  unfold foundManifest
  split
  · exact quiet_pure _
  · refine quiet_workspace.bind fun w => (quiet_reportAll _).bind fun _ => ?_
    exact (quiet_ofResult _).bind fun graph => quiet_pure _

theorem quiet_manifest (r : BuildRequest) : Quiet r.manifest := by
  refine quiet_workspace.bind fun w => ?_
  refine (quiet_ofResult _).bind fun entry => (quiet_ofResult _).bind fun explicit => ?_
  refine (quiet_foundManifest r entry).bind fun found => ?_
  exact (quiet_reportAll _).bind fun _ => quiet_pure _

theorem looks_engine (r : BuildRequest) (t : Toolchain) : Looks (r.engine t) := by
  cases hname : r.engineName with
  | none =>
    rw [engine_standard hname]
    exact Engine.looks_checked _ t
  | some name =>
    rw [engine_named hname]
    exact (looks_ofExcept _).bind fun e => e.looks_checked t

/-- The engine that a build comes to, and what it is to make an executable from. -/
def Packages (r : BuildRequest) (t : Toolchain) (s : Session) (e : Engine) (job : Job) : Prop :=
  ∃ manifest s₁ s₂, r.manifest.runFrom s = (.ok manifest, s₁) ∧
    (r.engine t).runFrom s₁ = (.ok e, s₂) ∧ job = ⟨manifest, r.outputPath, r.engineArguments⟩

/-- What a build does once it has its files and its engine. -/
def packaged (r : BuildRequest) (t : Toolchain) (m : Manifest) (e : Engine) :
    Task BuildError BuildResult :=
  e.invoke t ⟨m, r.outputPath, r.engineArguments⟩ >>= fun output => pure ⟨output, e.name, m.files⟩

theorem run_eq (r : BuildRequest) (t : Toolchain) :
    r.run t = r.manifest >>= fun m => r.engine t >>= r.packaged t m := rfl

/-- A build ends before its engine has started, or as the engine does. -/
theorem run_cases (r : BuildRequest) (t : Toolchain) (s : Session) :
    ((r.run t).runFrom s).2.workspace = s.workspace ∨
    ∃ e job s', r.Packages t s e job ∧ s'.workspace = s.workspace ∧ s'.calls = s.calls ∧
      ((r.run t).runFrom s).2 = ((e.invoke t job).runFrom s').2 := by
  have hfirst := (quiet_manifest r).workspace s
  have hcalls := (quiet_manifest r).calls s
  rcases runFrom_bind_cases r.manifest (fun m => r.engine t >>= r.packaged t m) s with
    ⟨_, s₁, hm, hrun⟩ | ⟨manifest, s₁, hm, hrun⟩
  · rw [hm] at hfirst
    exact .inl (by rw [run_eq, hrun, hfirst])
  · rw [hm] at hfirst hcalls
    have hsecond := (looks_engine r t).quiet.workspace s₁
    have hcalls' := (looks_engine r t).quiet.calls s₁
    rcases runFrom_bind_cases (r.engine t) (r.packaged t manifest) s₁ with
      ⟨_, s₂, he, hrun'⟩ | ⟨e, s₂, he, hrun'⟩
    · rw [he] at hsecond
      exact .inl (by rw [run_eq, hrun, hrun', hsecond, hfirst])
    · rw [he] at hsecond hcalls'
      refine .inr ⟨e, _, s₂, ⟨manifest, s₁, s₂, hm, he, rfl⟩, hsecond.trans hfirst,
        hcalls'.trans hcalls, ?_⟩
      rw [run_eq, hrun, hrun']
      exact runFrom_bind_pure _ _ s₂

/-- A file that an engine would leave is left by the build that starts the engine. -/
theorem run_intact (h : Intact s.workspace l content)
    (hpackages : ∀ e job, r.Packages t s e job →
      ∀ call ∈ (r.run t).callsFrom s, e.PassesBy t job l content call) :
    Intact ((r.run t).runFrom s).2.workspace l content := by
  rcases run_cases r t s with hsame | ⟨e, job, s', hp, hworkspace, hcalls, hrun⟩
  · rwa [hsame]
  · have hpasses := hpackages e job hp
    have hmade : (r.run t).callsFrom s = (e.invoke t job).callsFrom s' := by
      rw [callsFrom, callsFrom, hrun, hcalls]
    rw [hrun]
    exact Engine.invoke_ensures.always (hworkspace ▸ h) (hmade ▸ hpasses)

end BuildRequest

namespace Session

/-- A file that stood at `l` stands there with the same content, and `path`, if that spells its
place, leads to it; if it is to remain one that may be read, it is read by that path as before. -/
structure Outlives (w w' : Workspace) (path : Text) (l : Location) (content : Content) : Prop where
  holds : Holds w' l content
  leads : ∀ {names}, Path.IsNames names → path = Path.render names →
    l = names.map Text.wellFormed → ∃ mode, w'.entry .reach path = .ok (l, .file content.bytes mode)
  reads : ∀ {names}, Path.IsNames names → path = Path.render names →
    l = names.map Text.wellFormed → content.readable = true → w'.readBytes path = w.readBytes path

theorem Outlives.of_holds {w w' : Workspace} {path : Text} {l : Location} {content : Content}
    {mode : Mode} (htree : IsTree w)
    (hfile : w.entry .reach path = .ok (l, .file content.bytes mode))
    (hmode : content.readable = true → mode.readable = true) (h : Holds w' l content) :
    Outlives w w' path l content := by
  refine ⟨h, fun hnames hpath hl => ?_, fun hnames hpath hl hread => ?_⟩
  · subst hpath
    obtain ⟨mode', hentry, _⟩ := h.exists_entry htree hnames hl hfile
    exact ⟨mode', hentry⟩
  · subst hpath
    obtain ⟨mode', hentry, hmode'⟩ := h.exists_entry htree hnames hl hfile
    rw [readBytes, readBytes, opened_eq_ok_file.mpr ⟨hentry, hmode' hread⟩,
      opened_eq_ok_file.mpr ⟨hfile, hmode hread⟩]

/-- A file outlives what is done with a program that it may be part of. Writing a bundle spares it
unless the bundle is stored and its path leads to the file. An engine and a build spare it where the
engine's commands do, and where an engine that comes to move its output is told to move it neither
onto the file nor away from its place. -/
theorem file_outlives {s : Session} {path : Text} {l : Location} {content : Content} {mode : Mode}
    (htree : IsTree s.workspace)
    (hfile : s.workspace.entry .reach path = .ok (l, .file content.bytes mode))
    (hmode : content.readable = true → mode.readable = true) :
    (∀ version manifest output,
      (((Bundle.write version manifest output).runFrom s).1.toBool = true →
        ¬LeadsTo s.workspace (s.workspace.absolute output) l) →
      Outlives s.workspace ((Bundle.write version manifest output).runFrom s).2.workspace path l
        content) ∧
    (∀ (e : Engine) t job,
      (∀ call ∈ (e.invoke t job).callsFrom s, e.PassesBy t job l content call) →
      Outlives s.workspace ((e.invoke t job).runFrom s).2.workspace path l content) ∧
    ∀ (r : BuildRequest) t,
      (∀ e job, r.Packages t s e job →
        ∀ call ∈ (r.run t).callsFrom s, e.PassesBy t job l content call) →
      Outlives s.workspace ((r.run t).runFrom s).2.workspace path l content := by
  have h : Intact s.workspace l content :=
    ⟨htree, htree.holds (node?_of_entry hfile (by simp)) hmode⟩
  refine ⟨fun version manifest output hleads => .of_holds htree hfile hmode ?_,
    fun e t job hpasses => .of_holds htree hfile hmode ?_,
    fun r t hpackages => .of_holds htree hfile hmode ?_⟩
  · exact (Bundle.runFrom_write_intact h hleads).holds
  · exact (Engine.invoke_ensures.always h hpasses).holds
  · exact (BuildRequest.run_intact h hpackages).holds

/-- Where `main.lua` stands. -/
def mainLocation : Location := ["proj", "main.lua"]

/-- What `main.lua` has for its readers. -/
def mainContent : Content := ⟨Utf8.encode "return 1", true⟩

theorem spares_compile (c : Command) :
    Engine.luastatic.Spares (host compile) (job "main.lua") mainLocation mainContent
      ⟨c, (project "main.lua").workspace⟩ := by
  have hdirectory : (project "main.lua").workspace.node? ["proj"] = some .directory := by decide
  have hfree : (project "main.lua").workspace.node? ["proj", "main"] ≠ some .directory := by decide
  refine ⟨fun h => h.put ⟨["proj"], "main", rfl, hdirectory⟩ hfree _,
    fun h => h.put hfree (by decide) _, ?_⟩
  intro path purpose d n hpath hentry hd
  let own : List Text := ["/proj/app", "/proj/main"]
  have hown : Engine.luastatic.ownPaths (host compile) (project "main.lua").workspace
      (job "main.lua") = own := by
    decide
  have hleft : ∀ purpose, own.all fun path =>
      ((compile (project "main.lua").workspace).entry purpose path).toOption.all fun found =>
        !found.1.isPrefixOf mainLocation := by
    intro purpose
    cases purpose <;> decide +kernel
  have hapart := List.all_eq_true.mp (hleft purpose) path (hown ▸ hpath)
  have hcompiled : (compile (project "main.lua").workspace).entry purpose path = .ok (d, n) :=
    hentry
  rw [hcompiled] at hapart
  have habove : d.isPrefixOf mainLocation = true := List.isPrefixOf_iff_prefix.mpr hd
  simp [Except.toOption, habove] at hapart

/-- A request to build the program. -/
def request : BuildRequest where
  entryPath := "main.lua"
  explicitRequires := []
  maxNodes := none
  outputPath := "app"
  manualMode := false
  engineName := some "luastatic"
  searchRoots := []
  engineArguments := []

theorem bypasses_main : Engine.Bypasses (project "main.lua").workspace
    (Engine.producedPath "/proj/main.lua") ((project "main.lua").workspace.absolute "app")
    mainLocation := by
  have htarget : ((project "main.lua").workspace.entry .reach
      ((project "main.lua").workspace.absolute "app")).toOption = none := by decide +kernel
  have hproduced : ((project "main.lua").workspace.entry .inspect
      (Engine.producedPath "/proj/main.lua")).toOption = none := by decide +kernel
  constructor
  · rintro ⟨n, hn⟩
    rw [hn] at htarget
    cases htarget
  · rintro ⟨n, hn⟩
    rw [hn] at hproduced
    cases hproduced

theorem passesBy_compile {call : Call} (h : call.workspace = (project "main.lua").workspace) :
    Engine.luastatic.PassesBy (host compile) (job "main.lua") mainLocation mainContent call := by
  obtain ⟨c, w⟩ := call
  obtain rfl : w = _ := h
  refine ⟨spares_compile c, fun _ _ entry hentry _ _ => ?_⟩
  obtain rfl := Option.some.inj hentry
  exact bypasses_main

theorem packages_request {e : Engine} {j : Job}
    (h : request.Packages (host compile) (project "main.lua") e j) :
    e = Engine.luastatic ∧ j = job "main.lua" := by
  obtain ⟨manifest, s₁, s₂, hm, he, rfl⟩ := h
  have hmanifest : (request.manifest.runFrom (project "main.lua")).1.toOption =
      some (job "main.lua").manifest := by decide +kernel
  have hengine : ((request.engine (host compile)).runFrom
      (request.manifest.runFrom (project "main.lua")).2).1.toOption = some Engine.luastatic := by
    decide +kernel
  rw [hm] at hmanifest hengine
  rw [he] at hengine
  obtain rfl := Option.some.inj hmanifest
  exact ⟨Option.some.inj hengine, rfl⟩

set_option maxRecDepth 100000 in
/-- A bundle, an executable and a build of it leave the one file of a program. -/
theorem main_outlives :
    ((Bundle.write Bundle.version (job "main.lua").manifest "app").runFrom
      (project "main.lua")).2.workspace.readBytes "/proj/main.lua" = .ok (Utf8.encode "return 1") ∧
    ((Engine.luastatic.invoke (host compile) (job "main.lua")).runFrom
      (project "main.lua")).2.workspace.readBytes "/proj/main.lua" = .ok (Utf8.encode "return 1") ∧
    ((request.run (host compile)).runFrom (project "main.lua")).2.workspace.readBytes
      "/proj/main.lua" = .ok (Utf8.encode "return 1") := by
  have hfile : (project "main.lua").workspace.entry .reach "/proj/main.lua" =
      .ok (mainLocation, .file mainContent.bytes newFileMode) := by rfl
  obtain ⟨hwrite, hinvoke, hbuild⟩ := file_outlives (isTree_project "main.lua") hfile fun _ => rfl
  have hinvoked : ((Engine.luastatic.invoke (host compile) (job "main.lua")).callsFrom
      (project "main.lua")).all fun call => call.workspace = (project "main.lua").workspace := by
    decide +kernel
  have hbuilt : ((request.run (host compile)).callsFrom (project "main.lua")).all fun call =>
      call.workspace = (project "main.lua").workspace := by
    decide +kernel
  have hread : (project "main.lua").workspace.readBytes "/proj/main.lua" =
      .ok (Utf8.encode "return 1") := by decide +kernel
  have hnames : Path.IsNames ["proj", "main.lua"] := by decide
  have hreads : ∀ {after}, Outlives (project "main.lua").workspace after "/proj/main.lua"
      mainLocation mainContent → after.readBytes "/proj/main.lua" =
        .ok (Utf8.encode "return 1") := fun h =>
    (h.reads hnames (by decide) (by decide) rfl).trans hread
  refine ⟨hreads (hwrite _ _ _ fun _ => bypasses_main.1),
    hreads (hinvoke _ _ _ fun call hcall => passesBy_compile ?_),
    hreads (hbuild _ _ fun e j hp call hcall => ?_)⟩
  · exact of_decide_eq_true (List.all_eq_true.mp hinvoked call hcall)
  · obtain ⟨rfl, rfl⟩ := packages_request hp
    exact passesBy_compile (of_decide_eq_true (List.all_eq_true.mp hbuilt call hcall))

def compileLinked (w : Workspace) : Workspace :=
  (compile w).put ["proj", "app"] (.link "main.lua")

def textAt (w : Workspace) (path : Text) : Option Text := (w.readText path).toOption

/-- A task that succeeds, and a file that cannot be read as it could before. -/
def loses {ε : Type} (task : Task ε Text) (s : Session) (path : Text) : Bool :=
  (task.runFrom s).1.toBool && (textAt s.workspace path).isSome &&
    textAt (task.runFrom s).2.workspace path != textAt s.workspace path

set_option maxRecDepth 100000 in
/-- A file is lost where a bundle is written onto its source, where the source is moved as if it
were what the compiler left, and where the compiler has put a link to the file at the output. -/
theorem file_lost :
    loses (Bundle.write Bundle.version (job "main.lua").manifest "main.lua")
      (project "main.lua") "/proj/main.lua" = true ∧
    loses (Engine.luastatic.invoke (host id) (job "main")) (project "main") "/proj/main" = true ∧
    loses (Engine.luastatic.invoke (host compileLinked) (job "main.lua"))
      (project "main.lua") "/proj/main.lua" = true ∧
    textAt (compileLinked (project "main.lua").workspace) "/proj/main.lua" =
      textAt (project "main.lua").workspace "/proj/main.lua" := by
  decide +kernel

end Session

end LuaBundle
