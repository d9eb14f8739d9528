import LuaBundle.Proofs.Engine.Artifact
import LuaBundle.Proofs.Engine.Sources
import LuaBundle.Proofs.Workspace.Frame

/-! What an engine that glues does to the workspace besides what its command does. It makes a new
directory for the bundle and removes it however the run ends; for its output it makes directories
that are missing and sets the mode. -/

namespace LuaBundle

open LuaBundle.Task Workspace

/-- A command leaves the directory for the bundle where it is; what it does elsewhere, or to what is
in that directory, is its own affair. -/
structure Call.KeepsTemporary (t : Toolchain) (call : Call) : Prop where
  tree : IsTree call.workspace → IsTree (call.after t)
  stands : ∀ {x}, call.workspace.entry .inspect (Engine.buildDirectory t) = .ok (x, .directory) →
    (call.after t).entry .inspect (Engine.buildDirectory t) = .ok (x, .directory)

namespace Engine

variable {e : Engine} {t : Toolchain} {job : Job} {s after : Session} {stub : Option Text}
  {w w' w₀ before left : Workspace} {x : Location} {n m : Node} {target : Text}

/-- The names on the way to the directory of an output. -/
def outputWay (target : Text) : List Text := Path.walk [] (Path.parent target)

/-- What a run has done to `w` when it starts its command or gives up: the directory for the bundle
is new, and all else that is new is directories on the way to the output. -/
structure Prepares (t : Toolchain) (w before : Workspace) (target : Text) : Prop where
  base : before.base = w.base
  temporary : ∀ l, Within before (buildDirectory t) l → w.node? l = none
  others : ∀ l, ¬Within before (buildDirectory t) l → before.node? l = w.node? l ∨
    w.node? l = none ∧ before.node? l = some .directory ∧ OnWay before (outputWay target) l

/-- What a run does to `left` in the end: of the directory that was there for the bundle nothing
remains, and all else is as it was. -/
structure CleansUp (t : Toolchain) (before left final : Workspace) : Prop where
  base : final.base = left.base
  temporary : ∀ l, Within before (buildDirectory t) l → final.node? l = none
  others : ∀ l, ¬Within before (buildDirectory t) l → final.node? l = left.node? l

/-- The call of the program that glues: with the interpreter, the bundle and the output, in the
directory of the output. The file of the bundle holds the bundle of the manifest. -/
structure Glues (t : Toolchain) (stub : Option Text) (job : Job) (s : Session) (call : Call) :
    Prop where
  program : t.find s.workspace "srglue" = some call.command.program
  arguments : ∃ interpreter, t.find s.workspace (stub.getD defaultStub) = some interpreter ∧
    call.command.arguments = [interpreter, bundlePath t, s.workspace.absolute job.outputPath]
  directory : call.command.directory = Path.parent (s.workspace.absolute job.outputPath)
  bundle : ∃ w text, s.workspace.makeTemporary (buildDirectory t) = .ok w ∧
    Bundle.ofManifest w Bundle.version job.manifest = .ok text ∧
    call.workspace.readBytes (bundlePath t) = .ok (Utf8.encode text)
  same : ∀ text, Bundle.ofManifest s.workspace Bundle.version job.manifest = .ok text →
    call.workspace.readBytes (bundlePath t) = .ok (Utf8.encode text)

/-! While the directory for the bundle is there. -/

/-- The directory for the bundle stands at `x`, and outside of it only directories on the way to the
output have been made. -/
structure Keeps (t : Toolchain) (w w' : Workspace) (x : Location) (target : Text) : Prop where
  tree : IsTree w'
  base : w'.base = w.base
  stands : w'.entry .inspect (buildDirectory t) = .ok (x, .directory)
  others : ∀ l, ¬x <+: l → w'.node? l = w.node? l ∨
    w.node? l = none ∧ w'.node? l = some .directory ∧ OnWay w' (outputWay target) l

theorem Keeps.prepares (h : Keeps t w w' x target) (htree : IsTree w) (hfree : w.node? x = none) :
    Prepares t w w' target := by
  refine ⟨h.base, fun l hl => ?_, fun l hl => ?_⟩
  · exact htree.node?_below hfree ((within_iff h.stands).mp hl)
  · exact h.others l fun hx => hl ((within_iff h.stands).mpr hx)

theorem keeps_made (htree : IsTree w) (hmade : w.makeTemporary (buildDirectory t) = .ok w₀)
    (target : Text) : ∃ x, MadeAt w w₀ (buildDirectory t) x ∧ Keeps t w w₀ x target := by
  have hdirectory := makeTemporary_eq_ok hmade
  obtain ⟨x, hx⟩ := exists_madeAt hdirectory
  refine ⟨x, hx, htree.makeDirectory (isAbsolute_buildDirectory t) hdirectory,
    (makeDirectory_extends hdirectory).base, hx.entry, fun l hl => .inl (hx.node?_eq ?_)⟩
  rintro rfl
  exact hl List.prefix_rfl

theorem Keeps.put_bundle (h : Keeps t w w' x target) {name : Text}
    (hfree : w'.node? (child x name) = none) (content : Bytes) (mode : Mode) :
    Keeps t w (w'.put (child x name) (.file content mode)) x target := by
  have hext := extends_put hfree (.file content mode)
  have hx : w'.node? x = some .directory :=
    found_of_locate h.tree (isAbsolute_buildDirectory t) (entry_eq_ok_iff.mp h.stands)
  refine ⟨h.tree.put ⟨x, _, rfl, hx⟩ (by rw [hfree]; simp) _, h.base, entry_extends h.stands hext,
    fun l hl => ?_⟩
  have hl' : child x name ≠ l := fun he => hl (he ▸ List.prefix_append x _)
  rw [node?_put (by simp), if_neg hl']
  exact (h.others l hl).imp_right fun ⟨hnone, hnode, hway⟩ => ⟨hnone, hnode, hway.extends hext⟩

theorem Keeps.makeDirectories (h : Keeps t w w' x target) :
    Keeps t w (w'.makeDirectories (Path.parent target)).2 x target := by
  have hmakes : MakesOnly w' (w'.makeDirectories (Path.parent target)).2 (outputWay target) :=
    makeDirectories_makesOnly w' (Path.parent target)
  refine ⟨h.tree.makeDirectories _, hmakes.base.trans h.base, entry_extends h.stands hmakes.extends,
    fun l hl => ?_⟩
  rcases h.others l hl with hsame | ⟨hnone, hdirectory, hway⟩
  · rw [← hsame]
    exact hmakes.only l
  · exact .inr ⟨hnone, hmakes.extends.keeps hdirectory, hway.extends hmakes.extends⟩

/-! Writing the bundle. -/

theorem parent_bundlePath (t : Toolchain) : Path.parent (bundlePath t) = buildDirectory t := by
  rw [bundlePath_eq, Path.parent_render (isNames_bundle t), buildDirectory_eq]

/-- The directory of the bundle is there already. -/
theorem Keeps.makeDirectories_bundle (h : Keeps t w w' x target) :
    w'.makeDirectories (Path.parent (bundlePath t)) = (.ok (), w') := by
  have hpath := isPath_buildDirectory t
  have hreach := entry_eq_ok_iff.mpr (locate_reach (entry_eq_ok_iff.mp h.stands) rfl)
  rw [buildDirectory_eq] at hpath hreach
  rw [parent_bundlePath, buildDirectory_eq]
  exact makeDirectories_of_directory (isNames_build t) hpath hreach

/-- A bundle that cannot be written has changed nothing. -/
theorem workspace_of_write_error {s₀ : Session} {failure : Failure BundleError}
    (h : Keeps t w s₀.workspace x target)
    (hrun : (Bundle.write Bundle.version job.manifest (bundlePath t)).runFrom s₀ =
      (.error failure, after)) : after.workspace = s₀.workspace := by
  have hmade : (s₀.workspace.makeDirectories (Path.parent
      (s₀.workspace.absolute (bundlePath t)))).2 = s₀.workspace := by
    rw [absolute_bundlePath, h.makeDirectories_bundle]
  have hwrites : Ensures (fun _ => True) (· = s₀.workspace)
      (Bundle.write Bundle.version job.manifest (bundlePath t)) (fun _ _ => True)
      (· = s₀.workspace) := by
    refine Bundle.write_ensures id ?_ fun _ _ _ => trivial
    rintro w rfl
    exact hmade
  have hends := hwrites.ends s₀ rfl fun _ _ => trivial
  rw [hrun] at hends
  exact hends

/-- A bundle that has been written is a file in the new directory. -/
theorem keeps_of_write {s₀ mid : Session} {bundled : Text} (htree : IsTree w)
    (hmade : MadeAt w s₀.workspace (buildDirectory t) x) (h : Keeps t w s₀.workspace x target)
    (hrun : (Bundle.write Bundle.version job.manifest (bundlePath t)).runFrom s₀ =
      (.ok bundled, mid)) :
    bundled = bundlePath t ∧ Keeps t w mid.workspace x target ∧
      ∃ text, Bundle.ofManifest s₀.workspace Bundle.version job.manifest = .ok text ∧
        mid.workspace.readBytes (bundlePath t) = .ok (Utf8.encode text) := by
  obtain ⟨text, w₁, hbundle, rfl, hdirectories, hwritten⟩ := Bundle.write_eq_ok hrun
  rw [absolute_bundlePath] at hdirectories hwritten ⊢
  obtain ⟨_, rfl⟩ := Prod.mk.inj (h.makeDirectories_bundle.symm.trans hdirectories)
  rw [buildDirectory_eq] at hmade
  rw [bundlePath_eq] at hwritten ⊢
  -- Nothing else stands in the new directory, so the file is a new one there.
  have hfree : ∀ place, s₀.workspace.locate .write (Path.render (buildNames t ++ [bundleName])) =
      .ok place → place = .free (child x bundleName) ∧
        s₀.workspace.node? (child x bundleName) = none := fun place hplace =>
    hmade.lookup htree (by simp [buildNames]) (isNames_bundle t)
      (locate_eq_ok (Path.isAbsolute_render _) hplace)
  refine ⟨rfl, ?_, text, hbundle, readBytes_writeBytes hwritten fun place hplace => ?_⟩
  · obtain ⟨_, place, hplace, _, hput⟩ := writeBytes_eq_ok hwritten
    obtain ⟨rfl, hnone⟩ := hfree place hplace
    rw [hput]
    exact h.put_bundle hnone _ _
  · obtain ⟨rfl, _⟩ := hfree place hplace
    rfl

/-- What gluing has done before its command: the bundle is in the new directory, and directories
have been made for the output. -/
theorem keeps_of_readied {s₀ : Session} {bundled : Text} (htree : IsTree w)
    (hmade : MadeAt w s₀.workspace (buildDirectory t) x)
    (h : Keeps t w s₀.workspace x (s₀.workspace.absolute job.outputPath))
    (hreadied : Readied t job s₀ bundled w') :
    bundled = bundlePath t ∧ Keeps t w w' x (s₀.workspace.absolute job.outputPath) ∧
      ∃ text, Bundle.ofManifest s₀.workspace Bundle.version job.manifest = .ok text ∧
        w'.readBytes (bundlePath t) = .ok (Utf8.encode text) := by
  obtain ⟨mid, hstored, rfl⟩ := hreadied
  obtain ⟨hbundled, hmid, text, htext, hread⟩ := keeps_of_write htree hmade h hstored
  exact ⟨hbundled, hmid.makeDirectories, text, htext, (makeDirectories_extends _ _).readBytes hread⟩

/-! The end of a run. -/

theorem cleansUp_removeAll (hbefore : before.entry .inspect (buildDirectory t) = .ok (x, m))
    (hleft : left.entry .inspect (buildDirectory t) = .ok (x, n)) (hx : x ≠ []) :
    CleansUp t before left (left.removeAll (buildDirectory t)) := by
  refine ⟨(extends_removeAll left _).base.symm, fun l hl => ?_, fun l hl => ?_⟩
  · rw [node?_removeAll hleft hx, if_pos ((within_iff hbefore).mp hl)]
  · rw [node?_removeAll hleft hx, if_neg fun hxl => hl ((within_iff hbefore).mpr hxl)]

/-- Taking the output where it was left sets its mode at most. -/
theorem deliver_setsMode (e : Engine) (t : Toolchain) (target : Text) (s : Session) :
    SetsMode s.workspace ((e.deliver t target target).runFrom s).2.workspace target
      executableMode := by
  rw [runFrom_deliver]
  split
  · rw [moveOutput, if_pos rfl, pure_bind, runFrom_bind_pure, makeExecutable]
    split
    · exact .inl rfl
    · cases hmode : s.workspace.changeMode target executableMode with
      | error error =>
        rw [runFrom_change_error hmode]
        exact .inl rfl
      | ok w =>
        rw [runFrom_change_ok hmode]
        refine (changeMode_eq_ok hmode).imp_right ?_
        rintro ⟨l, content, old, hlocate, hput⟩
        exact ⟨l, content, old, entry_eq_ok_iff.mpr hlocate, hput⟩
  · exact .inl rfl

theorem Starts.removes {c : Command} {s₁ : Session} {target : Text} (hkind : e.kind = .srlua stub)
    (h : e.Starts t job s c s₁ target) (htarget : target = s.workspace.absolute job.outputPath) :
    ∃ left, SetsMode ((Call.mk c s₁.workspace).after t) left target executableMode ∧
      ((e.invoke t job).runFrom s).2.workspace = left.removeAll (buildDirectory t) := by
  rw [h.run, runFrom_afterwards, runFrom_execute_bind, cleanUp_srlua hkind, ← htarget]
  cases (Call.mk c s₁.workspace).result t with
  | failed => exact ⟨_, .inl rfl, rfl⟩
  | succeeded => exact ⟨_, deliver_setsMode e t target (e.called t c s₁), rfl⟩

/-- What a run that glues does, between a workspace `before` in which it starts its command or gives
up, and one, `left`, in which the directory for the bundle is removed. -/
structure Framed (e : Engine) (t : Toolchain) (stub : Option Text) (job : Job) (s : Session)
    (before left : Workspace) : Prop where
  prepares : Prepares t s.workspace before (s.workspace.absolute job.outputPath)
  cleansUp : CleansUp t before left ((e.invoke t job).runFrom s).2.workspace
  command : (e.invoke t job).callsFrom s = [] ∧ left = before ∨
    ∃ call, (e.invoke t job).callsFrom s = [call] ∧ call.workspace = before ∧
      Glues t stub job s call ∧
      SetsMode (call.after t) left (s.workspace.absolute job.outputPath) executableMode
  removed : ∀ found,
    ((e.invoke t job).runFrom s).2.workspace.entry .inspect (buildDirectory t) ≠ .ok found

/-- A run that is refused has done nothing. -/
theorem framed_of_error {failure : Failure BuildError}
    (hnew : ∀ found, s.workspace.entry .inspect (buildDirectory t) ≠ .ok found)
    (hrun : (e.invoke t job).runFrom s = (.error failure, s)) :
    Framed e t stub job s s.workspace s.workspace := by
  have hwithin : ∀ l, ¬Within s.workspace (buildDirectory t) l := by
    rintro l ⟨x, n, hentry, _⟩
    exact hnew (x, n) hentry
  refine ⟨⟨rfl, fun l hl => absurd hl (hwithin l), fun _ _ => .inl rfl⟩, ?_, .inl ⟨?_, rfl⟩, ?_⟩
  · rw [hrun]
    exact ⟨rfl, fun l hl => absurd hl (hwithin l), fun _ _ => rfl⟩
  · exact callsFrom_eq (by rw [hrun, List.append_nil])
  · rw [hrun]
    exact hnew

section Run

variable (hkind : e.kind = .srlua stub) (htree : IsTree s.workspace)
  (hfree : s.workspace.node? x = none)

include htree hfree

/-- A run that gives up has removed what it needed. -/
theorem framed_of_stops
    (hkeeps : Keeps t s.workspace before x (s.workspace.absolute job.outputPath))
    (hstops : e.Stops t job s)
    (hfinal : ((e.invoke t job).runFrom s).2.workspace = before.removeAll (buildDirectory t)) :
    Framed e t stub job s before before := by
  have hnil : x ≠ [] := ne_nil_of_node? (by rw [hfree]; simp)
  refine ⟨hkeeps.prepares htree hfree, ?_, .inl ⟨hstops.callsFrom_eq, rfl⟩, ?_⟩
  · rw [hfinal]
    exact cleansUp_removeAll hkeeps.stands hkeeps.stands hnil
  · rw [hfinal]
    exact entry_removeAll hkeeps.stands hnil hkeeps.tree (isAbsolute_buildDirectory t)

include hkind

/-- A run whose command leaves the directory for the bundle there removes it. -/
theorem framed_of_starts {c : Command} {s₁ : Session}
    (hkeeps : Keeps t s.workspace s₁.workspace x (s.workspace.absolute job.outputPath))
    (hstarts : e.Starts t job s c s₁ (s.workspace.absolute job.outputPath))
    (hglues : Glues t stub job s ⟨c, s₁.workspace⟩)
    (hcommand : (Call.mk c s₁.workspace).KeepsTemporary t) :
    ∃ before left, Framed e t stub job s before left := by
  have hnil : x ≠ [] := ne_nil_of_node? (by rw [hfree]; simp)
  obtain ⟨left, hmode, hfinal⟩ := hstarts.removes hkind rfl
  have htree' := hcommand.tree hkeeps.tree
  have hstands := hmode.entry (hcommand.stands hkeeps.stands)
  refine ⟨s₁.workspace, left, hkeeps.prepares htree hfree, ?_,
    .inr ⟨_, hstarts.callsFrom_eq, rfl, hglues, hmode⟩, ?_⟩
  · rw [hfinal]
    exact cleansUp_removeAll hkeeps.stands hstands hnil
  · rw [hfinal]
    exact entry_removeAll hstands hnil (hmode.tree htree') (isAbsolute_buildDirectory t)

end Run

/-- A run of an engine that glues calls its program at most once, in a workspace in which a new
directory holds the bundle, and however it ends that directory is removed; of all else it makes
directories on the way to the output and sets the mode of the output. -/
theorem invoke_framed (hkind : e.kind = .srlua stub) (htree : IsTree s.workspace)
    (hnew : ∀ found, s.workspace.entry .inspect (buildDirectory t) ≠ .ok found)
    (hkeeps : ∀ call ∈ (e.invoke t job).callsFrom s, call.KeepsTemporary t) :
    ∃ before left, Framed e t stub job s before left := by
  by_cases hplatform : e.supports t.platform = true
  case neg =>
    have hrefused : (e.invoke t job).runFrom s =
        (refuse (e.unsupported t) : Task BuildError Text).runFrom s := by
      rw [invoke, if_pos (by simp [hplatform])]
    exact ⟨_, _, framed_of_error hnew hrefused⟩
  have hrun := runFrom_invoke hplatform job s
  cases hmissing : t.missing s.workspace e with
  | cons name names =>
    rw [hmissing] at hrun
    exact ⟨_, _, framed_of_error hnew hrun⟩
  | nil =>
    simp only [hmissing, hkind] at hrun
    rcases invokeSrlua_cases e t stub job s with
      ⟨failure, hfailed⟩ | ⟨program, interpreter, w₀, hprogram, hinterpreter, hmade, hglued⟩
    · exact ⟨_, _, framed_of_error hnew (hrun.trans hfailed)⟩
    have hrest := hrun.trans hglued
    obtain ⟨x, hmadeAt, hnewly⟩ := keeps_made htree hmade (s.workspace.absolute job.outputPath)
    have htarget : w₀.absolute job.outputPath = s.workspace.absolute job.outputPath := by
      rw [absolute, absolute, hnewly.base]
    let s₀ : Session := { s with workspace := w₀ }
    have hs₀ : Keeps t s.workspace s₀.workspace x (s₀.workspace.absolute job.outputPath) :=
      htarget ▸ hnewly
    rcases glue_cases e t program interpreter job s₀ with
      ⟨failure, after, hglue, hcalls, hended⟩ | ⟨bundled, s₁, hcalls, hreadied, hglue⟩
    · have hafter :
          Keeps t s.workspace after.workspace x (s₀.workspace.absolute job.outputPath) := by
        rcases hended with ⟨_, hunwritten⟩ | ⟨_, hreadied⟩
        · rwa [workspace_of_write_error hs₀ hunwritten]
        · exact (keeps_of_readied htree hmadeAt hs₀ hreadied).2.1
      have hstops := stops_of_glue hrest hglue hcalls
      refine ⟨_, _, framed_of_stops htree hmadeAt.free (htarget ▸ hafter) hstops ?_⟩
      rw [hrest, runFrom_afterwards, hglue]
    · obtain ⟨rfl, hafter, text, htext, hread⟩ := keeps_of_readied htree hmadeAt hs₀ hreadied
      rw [htarget] at hglue hafter
      have hstarts := starts_of_glue hrest hkind hglue hcalls
      have hext := makeDirectory_extends (makeTemporary_eq_ok hmade)
      refine framed_of_starts hkind htree hmadeAt.free hafter hstarts ?_ ?_
      · refine ⟨hprogram, ⟨interpreter, hinterpreter, rfl⟩, rfl,
          ⟨w₀, text, hmade, htext, hread⟩, ?_⟩
        intro text' htext'
        obtain rfl := Except.ok.inj ((Bundle.ofManifest_extends hext htext').symm.trans htext)
        exact hread
      · exact hkeeps _ (hstarts.callsFrom_eq ▸ List.mem_singleton_self _)

end Engine

namespace Session

/-- The program, with a directory for temporary files. -/
def roomy : Session := .start ((project "main.lua").workspace.put ["tmp"] .directory)

theorem isTree_roomy : IsTree roomy.workspace :=
  (isTree_project "main.lua").put ⟨[], "tmp", rfl, rfl⟩ (by decide) _

/-- A program that writes its output. -/
def glueApp (w : Workspace) : Workspace :=
  match w.writeBytes "/proj/app" [127] with
  | .ok after => after
  | .error _ => w

theorem keepsTemporary_glueApp (call : Call) : call.KeepsTemporary (host glueApp) := by
  have hafter : call.after (host glueApp) = glueApp call.workspace := rfl
  cases hwritten : call.workspace.writeBytes "/proj/app" [127] with
  | error error =>
    rw [glueApp, hwritten] at hafter
    exact ⟨fun htree => hafter ▸ htree, fun hstands => hafter ▸ hstands⟩
  | ok w =>
    rw [glueApp, hwritten] at hafter
    obtain ⟨_, place, hlocate, hplace, rfl⟩ := writeBytes_eq_ok hwritten
    have hnode := node?_of_locate hlocate hplace
    refine ⟨fun htree => ?_, fun hstands => ?_⟩
    · rw [hafter]
      have hfound := found_of_locate htree (by decide) hlocate
      have hx := not_directory_of_takesFile hnode hplace
      exact htree.put (hfound.inDirectory htree hx) hx _
    · rw [hafter]
      exact (sameBut_put hnode hplace _).entry_directory hstands

/-- The program is glued once, and nothing is left of the directory for its bundle. -/
theorem glued_app :
    (∃ call, (Engine.standard.invoke (host glueApp) (job "main.lua")).callsFrom roomy = [call] ∧
      call.command.program = "/bin/srglue" ∧
      call.command.arguments =
        ["/bin/srlua", "/tmp/luastitch-srlua-XXXXXX/bundle.lua", "/proj/app"] ∧
      call.command.directory = "/proj") ∧
    ∀ found, ((Engine.standard.invoke (host glueApp) (job "main.lua")).runFrom
      roomy).2.workspace.entry .inspect (Engine.buildDirectory (host glueApp)) ≠ .ok found := by
  have hfree : roomy.workspace.entry .inspect (Engine.buildDirectory (host glueApp)) =
      .error .noEntry := by
    decide +kernel
  have hcalled : ((Engine.standard.invoke (host glueApp) (job "main.lua")).callsFrom
      roomy).length = 1 := by
    decide +kernel
  have hnew : ∀ found, roomy.workspace.entry .inspect (Engine.buildDirectory (host glueApp)) ≠
      .ok found := by
    intro found hfound
    cases hfree.symm.trans hfound
  obtain ⟨before, left, hframed⟩ : ∃ before left, Engine.standard.Framed (host glueApp)
      (some "srlua") (job "main.lua") roomy before left :=
    Engine.invoke_framed rfl isTree_roomy hnew fun call _ => keepsTemporary_glueApp call
  refine ⟨?_, hframed.removed⟩
  rcases hframed.command with ⟨hnone, _⟩ | ⟨call, hcall, _, hglues, _⟩
  · rw [hnone] at hcalled
    cases hcalled
  · obtain ⟨interpreter, hinterpreter, harguments⟩ := hglues.arguments
    refine ⟨call, hcall, (Option.some.inj hglues.program).symm, ?_, hglues.directory⟩
    rw [harguments, ← Option.some.inj hinterpreter]
    decide

end Session

end LuaBundle
