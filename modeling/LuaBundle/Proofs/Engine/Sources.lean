import LuaBundle.Proofs.Engine.Run
import LuaBundle.Proofs.Workspace.Canonical

/-! What an engine leaves of a file that was there before: it is neither written, moved nor removed,
as long as the commands that the engine calls leave it alone and the engine is not told to put its
output there. -/

namespace LuaBundle

open LuaBundle.Task Workspace

namespace Path

theorem isAbsolute_resolve (base p : Text) : isAbsolute (resolve base [p]) = true := by
  obtain ⟨names, _, hnames⟩ := exists_resolve base p
  rw [hnames, isAbsolute_render]

end Path

namespace Engine

variable {e : Engine} {t : Toolchain} {job : Job} {A : Call → Prop} {P Q R : Workspace → Prop}
  {l : Location} {content : Content} {path target produced : Text} {c : Command}

/-- The paths that an engine writes to, or removes what it finds there. -/
def ownPaths (e : Engine) (t : Toolchain) (w : Workspace) (job : Job) : List Text :=
  match e.kind with
  | .luastatic =>
    w.absolute job.outputPath :: (job.manifest.entryPoint?.map (producedPath ·.path)).toList
  | .srlua _ => [buildDirectory t]

/-- A call leaves a file where it is, with its content, and makes no path of the engine lead to it
or to a directory above it. -/
structure Spares (e : Engine) (t : Toolchain) (job : Job) (l : Location) (content : Content)
    (call : Call) : Prop where
  tree : IsTree call.workspace → IsTree (call.after t)
  holds : Holds call.workspace l content → Holds (call.after t) l content
  leads : ∀ {path purpose d n}, path ∈ e.ownPaths t call.workspace job →
    (call.after t).entry purpose path = .ok (d, n) → d <+: l →
    ∃ n', call.workspace.entry purpose path = .ok (d, n')

theorem Spares.intact {w : Workspace} (h : e.Spares t job l content ⟨c, w⟩)
    (hw : Intact w l content) : Intact ((Call.mk c w).after t) l content :=
  ⟨h.tree hw.tree, h.holds hw.holds⟩

/-- Nothing that stands at `l` is moved away from `produced`, nor is what is moved put there. -/
def Bypasses (w : Workspace) (produced target : Text) (l : Location) : Prop :=
  ¬LeadsTo w target l ∧ ¬StandsAt w produced l

/-- An engine that is about to move its output, once a call has left it, is not told to move it onto
what stands at `l`, nor to move away what stands there. -/
def Untargeted (e : Engine) (t : Toolchain) (job : Job) (l : Location) (call : Call) : Prop :=
  e.kind = .luastatic → call.Succeeds t → ∀ entry, job.manifest.entryPoint? = some entry →
    (call.after t).pathExists (producedPath entry.path) = true →
    producedPath entry.path ≠ call.workspace.absolute job.outputPath →
    Bypasses call.workspace (producedPath entry.path) (call.workspace.absolute job.outputPath) l

/-- A call that spares a file, after which the engine passes it by. -/
structure PassesBy (e : Engine) (t : Toolchain) (job : Job) (l : Location) (content : Content)
    (call : Call) : Prop where
  spares : e.Spares t job l content call
  untargeted : e.Untargeted t job l call

/-! The steps that engines share. -/

/-- A command that has failed leaves what it left, and one that has succeeded leaves that much. -/
theorem execute_ensures
    (hcall : ∀ {w}, P w → A ⟨c, w⟩ → R ((Call.mk c w).after t) ∧
      ((Call.mk c w).Succeeds t → Q ((Call.mk c w).after t))) :
    Ensures A P (e.execute t c) (fun _ => Q) R := by
  refine (ensures_report _).bind fun _ => ?_
  have hcalled : Ensures A P (call t.run c : Task BuildError CommandResult)
      (fun result w => R w ∧ ((∃ stdout, result = .succeeded stdout) → Q w)) R :=
    ensures_call hcall
  refine hcalled.bind fun result => ?_
  cases result with
  | succeeded stdout => exact ensures_pure fun h => h.2 ⟨stdout, rfl⟩
  | failed error exitCode stderr => exact ensures_stop fun h => h.1

theorem expect_ensures (hok : ∀ {w}, P w → w.pathExists path = true → Q w)
    (hR : ∀ {w}, P w → R w) : Ensures A P (e.expect path) (fun _ => Q) R := by
  refine ensures_workspace.bind fun w => ?_
  split
  · rename_i hexists
    refine ensures_pure ?_
    rintro _ ⟨rfl, hw⟩
    exact hok hw hexists
  · exact ensures_stop fun hw => hR hw.2

theorem makeExecutable_ensures
    (hok : ∀ {w w'}, P w → w.changeMode path executableMode = .ok w' → P w')
    (hR : ∀ {w}, P w → R w) : Ensures A P (makeExecutable t path) (fun _ => P) R := by
  unfold makeExecutable
  split
  · exact ensures_pure id
  · exact ensures_change hok hR

/-! Gluing a bundle onto an interpreter. -/

/-- The names on the way to the directory for the bundle. -/
def buildNames (t : Toolchain) : List Text :=
  ["tmp", Text.ofString "luastitch-srlua-" ++ t.drawn.letters]

def bundleName : Text := "bundle.lua"

theorem buildDirectory_eq (t : Toolchain) : buildDirectory t = Path.render (buildNames t) := by
  have hstart : Text.ofString "/tmp/luastitch-srlua-" =
      Path.render ["tmp"] ++ Text.slash :: Text.ofString "luastitch-srlua-" := by decide
  rw [buildDirectory, hstart, List.append_assoc]
  simp [buildNames, Path.render]

theorem isNames_bundle (t : Toolchain) : Path.IsNames (buildNames t ++ [bundleName]) := by
  have htmp : Path.IsName "tmp" := by decide
  have hbundle : Path.IsName bundleName := by decide
  have hprefix : Text.slash ∉ Text.ofString "luastitch-srlua-" := by decide
  have hdrawn : Text.slash ∉ t.drawn.letters := fun hslash =>
    absurd (List.all_eq_true.mp t.drawn.plain _ hslash) (by decide)
  have hname : Path.IsName (Text.ofString "luastitch-srlua-" ++ t.drawn.letters) := by
    refine ⟨?_, ?_, ?_, fun hslash => (List.mem_append.mp hslash).elim hprefix hdrawn⟩
    all_goals
      intro he
      have hhead := congrArg List.head? he
      cases hhead
  intro name hmem
  simp only [buildNames, List.cons_append, List.nil_append, List.mem_cons, List.not_mem_nil,
    or_false] at hmem
  rcases hmem with rfl | rfl | rfl
  · exact htmp
  · exact hname
  · exact hbundle

theorem isNames_build (t : Toolchain) : Path.IsNames (buildNames t) := fun name hname =>
  isNames_bundle t name (List.mem_append_left _ hname)

theorem isPath_buildDirectory (t : Toolchain) : isPath (buildDirectory t) = true := by
  have hprefix : (0 : UInt16) ∉ Text.ofString "/tmp/luastitch-srlua-" := by decide
  have hdrawn : (0 : UInt16) ∉ t.drawn.letters := fun hzero =>
    absurd (List.all_eq_true.mp t.drawn.plain _ hzero) (by decide)
  simp [isPath, buildDirectory, hprefix, hdrawn]

theorem isAbsolute_buildDirectory (t : Toolchain) : Path.isAbsolute (buildDirectory t) = true := by
  rw [buildDirectory_eq]
  exact Path.isAbsolute_render _

/-- The file of the bundle that is glued. -/
def bundlePath (t : Toolchain) : Text := Path.join [buildDirectory t, bundleName]

theorem bundlePath_eq (t : Toolchain) :
    bundlePath t = Path.render (buildNames t ++ [bundleName]) := by
  rw [bundlePath, buildDirectory_eq]
  exact Path.join_render (by simp [buildNames]) (isNames_bundle t)

theorem absolute_bundlePath (t : Toolchain) (w : Workspace) :
    w.absolute (bundlePath t) = bundlePath t := by
  rw [bundlePath_eq]
  exact absolute_render w (isNames_bundle t)

/-- A file with the directory for the bundle apart from it. -/
structure Prepared (t : Toolchain) (w : Workspace) (l : Location) (content : Content) : Prop where
  intact : Intact w l content
  apart : Apart w (buildDirectory t) l

/-- A file that is spared where the directory for the bundle is removed. -/
structure Removable (t : Toolchain) (w : Workspace) (l : Location) (content : Content) : Prop where
  intact : Intact w l content
  clear : Clear w (buildDirectory t) l

theorem Prepared.removable {w : Workspace} (h : Prepared t w l content) :
    Removable t w l content :=
  ⟨h.intact, h.apart.clear⟩

theorem Prepared.makeDirectories {w : Workspace} (h : Prepared t w l content) (path : Text) :
    Prepared t (w.makeDirectories path).2 l content :=
  ⟨h.intact.makeDirectories path, h.apart.extends (makeDirectories_extends w path)⟩

theorem Removable.makeExecutable {w w' : Workspace} (h : Removable t w l content)
    (habs : Path.isAbsolute path = true) (hw : w.changeMode path executableMode = .ok w') :
    Removable t w' l content :=
  ⟨h.intact.changeMode habs rfl hw,
    h.clear.changeMode h.intact (isAbsolute_buildDirectory t) habs rfl hw⟩

theorem Spares.removable {w : Workspace} {stub : Option Text} (hkind : e.kind = .srlua stub)
    (h : e.Spares t job l content ⟨c, w⟩) (hw : Prepared t w l content) :
    Removable t ((Call.mk c w).after t) l content := by
  refine ⟨h.intact hw.intact, ⟨fun {d n} hentry hd => ?_⟩⟩
  have hown : buildDirectory t ∈ e.ownPaths t w job := by simp [ownPaths, hkind]
  obtain ⟨_, hbefore⟩ := h.leads hown hentry hd
  exact hw.apart.clear.not_above hbefore hd

/-- The bundle that is glued is written to the new directory. -/
theorem writeBundle_ensures {version : Text} {manifest : Manifest} :
    Ensures A (fun w => Prepared t w l content ∧ NewDirectory w (buildDirectory t))
      (Bundle.write version manifest (bundlePath t))
      (fun _ w => Prepared t w l content) (fun w => Removable t w l content) := by
  refine Bundle.write_ensures (fun h => h.1.removable)
    (fun h => (h.1.makeDirectories _).removable) ?_
  rintro w w' w'' text ⟨h, hnew⟩ hmade hwritten
  have hafter := h.makeDirectories (Path.parent (w.absolute (bundlePath t)))
  rw [hmade] at hafter
  rw [absolute_bundlePath, bundlePath_eq] at hmade hwritten
  rw [buildDirectory_eq] at hnew
  have habs := Path.isAbsolute_render (buildNames t ++ [bundleName])
  have hleads : ¬LeadsTo w (Path.render (buildNames t ++ [bundleName])) l :=
    NewDirectory.not_leadsTo hnew h.intact.tree (by simp [buildNames]) (isNames_bundle t)
  have havoids := avoids_of_makeDirectories h.intact (isNames_bundle t) hleads hmade
  exact ⟨hafter.intact.writeText habs havoids hwritten,
    hafter.apart.writeText hafter.intact.tree (isAbsolute_buildDirectory t) hwritten⟩

theorem glue_ensures {stub : Option Text} {program interpreter : Text}
    (hkind : e.kind = .srlua stub) :
    Ensures (e.PassesBy t job l content)
      (fun w => Prepared t w l content ∧ NewDirectory w (buildDirectory t))
      (e.glue t program interpreter job) (fun _ w => Removable t w l content)
      (fun w => Removable t w l content) := by
  refine (writeBundle_ensures.mapError _).bind fun bundled => ensures_workspace.bind fun start => ?_
  have habs := Path.isAbsolute_resolve start.base job.outputPath
  have hprepare : Ensures (e.PassesBy t job l content)
      (fun w => start = w ∧ Prepared t w l content)
      (prepareDirectory (start.absolute job.outputPath)) (fun _ w => Prepared t w l content)
      (fun w => Removable t w l content) := by
    refine ensures_tryChange ?_ fun h => (h.2.makeDirectories _).removable
    rintro w w' ⟨_, h⟩ hmade
    have hafter := h.makeDirectories (Path.parent (start.absolute job.outputPath))
    rwa [hmade] at hafter
  have hexecute : ∀ c : Command, Ensures (e.PassesBy t job l content)
      (fun w => Prepared t w l content) (e.execute t c) (fun _ w => Removable t w l content)
      (fun w => Removable t w l content) := by
    refine fun c => execute_ensures fun h hpasses => ?_
    have hafter := hpasses.spares.removable hkind h
    exact ⟨hafter, fun _ => hafter⟩
  refine hprepare.bind fun _ => (hexecute _).bind fun _ => ?_
  refine (expect_ensures (fun h _ => h) id).bind fun _ => ?_
  exact (makeExecutable_ensures (fun h hw => h.makeExecutable habs hw) id).bind fun _ =>
    ensures_pure id

theorem invokeSrlua_ensures {stub : Option Text} (hkind : e.kind = .srlua stub) :
    Ensures (e.PassesBy t job l content) (fun w => Intact w l content) (e.invokeSrlua t stub job)
      (fun _ w => Intact w l content) (fun w => Intact w l content) := by
  refine ((looks_locate e t _).quiet.ensures id).bind fun program => ?_
  refine ((looks_locate e t _).quiet.ensures id).bind fun interpreter => ?_
  have htemporary : Ensures (e.PassesBy t job l content) (fun w => Intact w l content)
      (change .interrupted (fun w => w.makeTemporary (buildDirectory t)) : Task BuildError Unit)
      (fun _ w => Prepared t w l content ∧ NewDirectory w (buildDirectory t))
      (fun w => Intact w l content) := by
    refine ensures_change (fun h hw => ?_) id
    obtain ⟨hintact, hnew, hapart⟩ := h.makeTemporary (isAbsolute_buildDirectory t) hw
    exact ⟨⟨hintact, hapart⟩, hnew⟩
  refine htemporary.bind fun _ => (glue_ensures hkind).afterwards ?_ ?_
  · exact fun h => h.intact.removeAll h.clear
  · exact fun h => h.intact.removeAll h.clear

/-! Moving what a compiler left. -/

/-- A file that is neither at a target nor what is to be moved there, if anything is. -/
structure Aside (w : Workspace) (produced target : Text) (l : Location) (content : Content) :
    Prop where
  intact : Intact w l content
  bypasses : w.pathExists produced = true → produced ≠ target → Bypasses w produced target l

theorem moveOutput_ensures {start : Workspace} {output : Text}
    (htarget : target = start.absolute output) :
    Ensures A (fun w => Aside w produced target l content ∧ w.pathExists produced = true)
      (moveOutput produced target) (fun _ w => Intact w l content)
      (fun w => Intact w l content) := by
  obtain ⟨names, hnames, hrender⟩ := Path.exists_resolve start.base output
  obtain rfl : target = Path.render names := htarget.trans hrender
  have habs := Path.isAbsolute_render names
  unfold moveOutput
  split
  · exact ensures_pure fun h => h.1.intact
  · rename_i hne
    let Made (w : Workspace) : Prop := Intact w l content ∧ Avoids w (Path.render names) l ∧
      ¬StandsAt w produced l
    let Copied (w : Workspace) : Prop := Intact w l content ∧ ¬StandsAt w produced l
    have hprepare : Ensures A (fun w => Aside w produced (Path.render names) l content ∧
        w.pathExists produced = true) (prepareDirectory (Path.render names))
        (fun _ => Made) (fun w => Intact w l content) := by
      refine ensures_tryChange ?_ fun h => h.1.intact.makeDirectories _
      rintro w w' ⟨h, hexists⟩ hmade
      obtain ⟨htarget, hproduced⟩ := h.bypasses hexists hne
      obtain ⟨_, x, n, hfound⟩ := pathExists_iff.mp hexists
      have hafter := h.intact.makeDirectories (Path.parent (Path.render names))
      have hext := makeDirectories_extends w (Path.parent (Path.render names))
      rw [hmade] at hafter hext
      exact ⟨hafter, avoids_of_makeDirectories h.intact hnames htarget hmade,
        not_standsAt_of_extends hfound hext hproduced⟩
    have hcopy : Ensures A Made
        (tryChange (unwritable (Path.render names)) fun w =>
          w.copyFile produced (Path.render names)) (fun _ => Copied)
        (fun w => Intact w l content) := by
      refine ensures_tryChange ?_ fun h => h.1.copyFile habs h.2.1
      rintro w w' ⟨h, havoids, hproduced⟩ hcopied
      have hafter := @Intact.copyFile w l content h produced _ habs havoids
      rw [hcopied] at hafter
      exact ⟨hafter, not_standsAt_of_copyFile havoids hcopied hproduced⟩
    have hremove : Ensures A Copied
        (change (unwritable (Path.render names)) fun w => w.removeFile produced)
        (fun _ w => Intact w l content) (fun w => Intact w l content) :=
      ensures_change (fun h hw => h.1.removeFile h.2 hw) fun h => h.1
    exact hprepare.bind fun _ => hcopy.bind fun _ => hremove

/-- A call that makes no path of the engine lead to a file leaves the file aside. -/
theorem Spares.bypasses {call : Call} {entry : ManifestEntry} (hkind : e.kind = .luastatic)
    (hentry : job.manifest.entryPoint? = some entry) (h : e.Spares t job l content call)
    (hcall : Bypasses call.workspace (producedPath entry.path)
      (call.workspace.absolute job.outputPath) l) :
    Bypasses (call.after t) (producedPath entry.path)
      (call.workspace.absolute job.outputPath) l := by
  have hown : e.ownPaths t call.workspace job =
      [call.workspace.absolute job.outputPath, producedPath entry.path] := by
    simp [ownPaths, hkind, hentry]
  constructor
  · rintro ⟨n, hn⟩
    obtain ⟨n', hbefore⟩ := h.leads (by simp [hown]) hn List.prefix_rfl
    exact hcall.1 ⟨n', hbefore⟩
  · rintro ⟨n, hn⟩
    obtain ⟨n', hbefore⟩ := h.leads (by simp [hown]) hn List.prefix_rfl
    exact hcall.2 ⟨n', hbefore⟩

theorem invokeLuastatic_ensures (hkind : e.kind = .luastatic) :
    Ensures (e.PassesBy t job l content) (fun w => Intact w l content) (e.invokeLuastatic t job)
      (fun _ w => Intact w l content) (fun w => Intact w l content) := by
  refine ((looks_locate e t _).quiet.ensures id).bind fun program => ?_
  cases hentry : job.manifest.entryPoint? with
  | none => exact ensures_stop id
  | some entry =>
    refine ensures_workspace.bind fun start => ?_
    have habs := Path.isAbsolute_resolve start.base job.outputPath
    let Left (w : Workspace) : Prop :=
      Aside w (producedPath entry.path) (start.absolute job.outputPath) l content
    have hexecute : Ensures (e.PassesBy t job l content) (fun w => start = w ∧ Intact w l content)
        (e.execute t ⟨program, luastaticArguments start.base job.manifest job.extraArguments,
          Path.parent entry.path⟩) (fun _ => Left) (fun w => Intact w l content) := by
      refine execute_ensures ?_
      rintro w ⟨rfl, h⟩ hpasses
      have hintact := hpasses.spares.intact h
      refine ⟨hintact, fun hok => ⟨hintact, fun hexists hne => ?_⟩⟩
      exact hpasses.spares.bypasses hkind hentry
        (hpasses.untargeted hkind hok entry hentry hexists hne)
    refine hexecute.bind fun _ => ?_
    have hexpect : Ensures (e.PassesBy t job l content) Left (e.expect (producedPath entry.path))
        (fun _ w => Left w ∧ w.pathExists (producedPath entry.path) = true)
        (fun w => Intact w l content) :=
      expect_ensures (fun h hexists => ⟨h, hexists⟩) fun h => h.intact
    refine hexpect.bind fun _ => (moveOutput_ensures rfl).bind fun _ => ?_
    exact (makeExecutable_ensures (fun h hw => h.changeMode habs rfl hw) id).bind fun _ =>
      ensures_pure id

theorem invoke_ensures :
    Ensures (e.PassesBy t job l content) (fun w => Intact w l content) (e.invoke t job)
      (fun _ w => Intact w l content) (fun w => Intact w l content) := by
  unfold invoke
  split
  · exact ensures_stop id
  · refine ensures_workspace.bind fun start => ?_
    split
    · cases hkind : e.kind with
      | luastatic => exact (invokeLuastatic_ensures hkind).weaken (fun h => h.2) id id
      | srlua stub => exact (invokeSrlua_ensures hkind).weaken (fun h => h.2) id id
    · exact ensures_stop fun h => h.2

end Engine

end LuaBundle
