import LuaBundle.Proofs.Graph.Failure
import LuaBundle.Proofs.Graph.Program

/-! Cycles of requirements. A search that reports one has found scripts of the program that require
each other around; one that succeeds has found a program without any. -/

namespace LuaBundle

open Relation

namespace Requirement

theorem nodup_keys_edges (log : List Requirement) : (edges log).keys.Nodup :=
  OrderedMap.nodup_keys_collect _

end Requirement

namespace ModuleGraph

variable {w : Workspace} {entryPath entry : Text} {limit : Number} {searchRoots roots : List Text}
  {g : ModuleGraph} {events : List Event}

/-- A list of scripts of a program that leads around: each requires the next, and the last is the
first. -/
structure IsCycle (w : Workspace) (roots : List Text) (entry : Text) (cycle : List Text) :
    Prop where
  length : 2 ≤ cycle.length
  closed : cycle.head? = cycle.getLast?
  nodup : cycle.dropLast.Nodup
  reached : ∀ path ∈ cycle, ReflTransGen (Requires w roots) entry path
  chain : cycle.IsChain (Requires w roots)

theorem requires_of_ofSite? {path : Text} {site : RequireSite} {r : Requirement} {text : Text}
    (hread : w.readText path = .ok text) (hsite : site ∈ RequireSite.scan text)
    (hr : Requirement.ofSite? w roots path site = some r) : Requires w roots path r.target := by
  obtain ⟨_, hname, hfind⟩ := Requirement.ofSite?_eq_some.mp hr
  exact ⟨text, hread, site, hsite, r.name, hname, hfind⟩

/-- A site is reported to close a cycle where its script is reached from the one it stands for. -/
theorem follow_eq_circular {s : Search} {current : Text} {depth : Nat} {d : Discovery}
    {site : RequireSite} {cycle : List Text}
    (h : s.follow current depth d site = .error (.reported (.circularDependency cycle))) :
    ∃ name target, site.moduleName = some name ∧
      ResolvedModule.find s.workspace s.roots current name = .ok (.script name target) ∧
      d.edges.cycle? current target = some cycle := by
  rcases Search.follow_eq_error h with
    ⟨_, hdynamic⟩ | ⟨name, hname, hfind | ⟨target, hfind, herror⟩⟩
  · cases hdynamic
  · rcases ResolvedModule.find_eq_error hfind with ⟨_, _, hnative⟩ | hmissing
    · cases hnative
    · cases hmissing
  · rcases herror with ⟨_, hcycle, hsame⟩ | hlimit
    · cases hsame
      exact ⟨name, target, hname, hfind, hcycle⟩
    · cases hlimit

/-- What a search has followed are requirements of the program. -/
theorem requires_of_leads {s : Search} {current a b : Text} {log : List Requirement}
    {d : Discovery} (h : s.Meets entry current log d) (hab : Requirement.Leads log a b) :
    Requires s.workspace s.roots a b := by
  obtain ⟨r, hr, rfl, rfl⟩ := hab
  obtain ⟨text, hread, earlier, hearlier, hmade⟩ := h.made r hr
  exact requires_of_ofSite? hread hearlier hmade

/-- A script that a search has met belongs to the program. -/
theorem reached_of_meets {s : Search} {current : Text} {log : List Requirement} {d : Discovery}
    (h : s.Meets entry current log d) :
    ReflTransGen (Requires s.workspace s.roots) entry current :=
  ReflTransGen.mono (fun _ _ => requires_of_leads h) _ _ (h.follows.reached current h.current_met)

/-- The path that a search finds back to a script, closed by the requirement that it follows. -/
theorem isCycle_of_failsAt {s : Search} {current : Text} {depth : Nat} {site : RequireSite}
    {log : List Requirement} {d : Discovery} {cycle : List Text}
    (h : s.FailsAt entry current depth site log d (.reported (.circularDependency cycle))) :
    IsCycle s.workspace s.roots entry cycle := by
  obtain ⟨name, target, hname, hfind, hcycle⟩ := follow_eq_circular h.failing
  have hlast : Requires s.workspace s.roots current target := by
    obtain ⟨text, hread, hsite⟩ := h.read
    exact ⟨text, hread, site, hsite, name, hname, hfind⟩
  have hleads : ∀ a b, d.edges.Leads a b → Requires s.workspace s.roots a b := by
    intro a b hab
    rw [h.follows.edges, Requirement.leads_edges] at hab
    exact requires_of_leads h.toMeets hab
  obtain ⟨path, hpath, rfl⟩ := Option.map_eq_some_iff.mp hcycle
  have hkeys : d.edges.keys.Nodup := h.follows.edges ▸ Requirement.nodup_keys_edges log
  obtain ⟨hfirst, hend, hchain, hnodup⟩ := Edges.path?_eq_some hkeys hpath
  have hrequires : (path ++ [target]).IsChain (Requires s.workspace s.roots) := by
    refine (hchain.imp hleads).append (List.isChain_singleton target) ?_
    rw [hend]
    simpa using hlast
  obtain ⟨rest, rfl⟩ := List.head?_eq_some_iff.mp hfirst
  refine ⟨?_, ?_, ?_, ?_, hrequires⟩
  · simp
  · rw [List.getLast?_concat]
    rfl
  · rw [List.dropLast_concat]
    exact hnodup
  · exact hrequires.induction _ _ (fun a b hab ha => ha.tail hab) fun _ =>
      (reached_of_meets h.toMeets).tail hlast

/-- The error of a program whose search reports a cycle. -/
theorem isCycle_of_ofProgram {cycle : List Text}
    (h : ofProgram w entryPath limit searchRoots =
      (.error (.reported (.circularDependency cycle)), events)) :
    ∃ entry, w.canonical (w.absolute entryPath) = .ok entry ∧
      IsCycle w (rootsOf w entry searchRoots) entry cycle := by
  rcases ofProgram_eq_error h with hscript | ⟨entry, hscript, hlimit | ⟨d, hrun⟩⟩
  · cases scriptPath_eq_error hscript
  · cases hlimit
  · refine ⟨entry, (scriptPath_eq_ok hscript).2, ?_⟩
    obtain hexhausted | ⟨_, _, _, _, hmissing⟩ | ⟨current, depth, site, log, hfails⟩ :=
      Search.run_fails (Search.holds_start _ _) hrun
    · cases hexhausted
    · cases hmissing
    · exact isCycle_of_failsAt hfails

/-- A script of a program requires another by one of its requirements. -/
theorem leads_of_requires (h : g.IsProgram w roots) {path target : Text} (hpath : path ∈ g.paths)
    (hrequires : Requires w roots path target) :
    Requirement.Leads (g.requirements w roots) path target := by
  obtain ⟨file, hfile, rfl⟩ := List.mem_map.mp hpath
  obtain ⟨text, hread, site, hsite, name, hname, hfind⟩ := hrequires
  obtain ⟨hread', hscan⟩ := h.scanned file hfile
  obtain rfl := Except.ok.inj (hread.symm.trans hread')
  refine ⟨⟨file.path, name, target⟩, List.mem_flatMap.mpr ⟨file, hfile, ?_⟩, rfl, rfl⟩
  exact mem_requirements.mpr ⟨rfl, site, hscan ▸ hsite, hname, hfind⟩

theorem leads_of_transGen (h : g.IsProgram w roots) {path target : Text} (hpath : path ∈ g.paths)
    (hway : TransGen (Requires w roots) path target) :
    TransGen (Requirement.Leads (g.requirements w roots)) path target ∧ target ∈ g.paths := by
  induction hway with
  | single hstep =>
    exact ⟨.single (leads_of_requires h hpath hstep), h.least.1.2 _ hpath _ hstep⟩
  | tail _ hstep ih =>
    exact ⟨ih.1.tail (leads_of_requires h ih.2 hstep), h.least.1.2 _ ih.2 _ hstep⟩

/-- A program that is found has no cycle, and none of its scripts requires the entry. -/
theorem acyclic_of_ofProgram (h : ofProgram w entryPath limit searchRoots = (.ok g, events)) :
    (∀ path ∈ g.paths, ¬TransGen (Requires w (rootsOf w g.entry searchRoots)) path path) ∧
      ∀ path ∈ g.paths, ¬Requires w (rootsOf w g.entry searchRoots) path g.entry := by
  have hprogram := isProgram_of_ofProgram h
  obtain ⟨d, inv, hdone, hg⟩ := holds_of_ofProgram h
  have hacyclic : Requirement.Acyclic (g.requirements w (rootsOf w g.entry searchRoots)) := by
    rw [hg]
    exact inv.follows.acyclic
  constructor
  · intro path hpath hway
    obtain ⟨next, ⟨r, hr, rfl, rfl⟩, hback⟩ :=
      TransGen.head'_iff.mp (leads_of_transGen hprogram hpath hway).1
    exact hacyclic r hr hback
  · intro path hpath hrequires
    obtain ⟨r, hr, _, htarget⟩ := leads_of_requires hprogram hpath hrequires
    rw [hg] at hr
    exact inv.follows.target_ne_entry hr htarget

/-- A search reports only cycles of the program, and it finds no program that has one. -/
theorem ofProgram_cycles (w : Workspace) (entryPath : Text) (limit : Number)
    (searchRoots : List Text) :
    (∀ cycle events, ofProgram w entryPath limit searchRoots =
        (.error (.reported (.circularDependency cycle)), events) →
      ∃ entry, w.canonical (w.absolute entryPath) = .ok entry ∧
        IsCycle w (rootsOf w entry searchRoots) entry cycle) ∧
    ∀ g events, ofProgram w entryPath limit searchRoots = (.ok g, events) →
      (∀ path ∈ g.paths, ¬TransGen (Requires w (rootsOf w g.entry searchRoots)) path path) ∧
        ∀ path ∈ g.paths, ¬Requires w (rootsOf w g.entry searchRoots) path g.entry :=
  ⟨fun _ _ h => isCycle_of_ofProgram h, fun _ _ h => acyclic_of_ofProgram h⟩

/-- Scripts around a cycle that the entry leads into over a script beside it. -/
def ring : Workspace where
  base := "/p"
  entries :=
    [(["p"], .directory),
      (["p", "main.lua"], scriptFile "require 'side' require 'a'"),
      (["p", "side.lua"], scriptFile "return require('b')"),
      (["p", "a.lua"], scriptFile "return require './b'"),
      (["p", "b.lua"], scriptFile "local t = require 'a'")]

theorem exists_error {ε α β : Type} [DecidableEq ε] {r : Except ε α × β} {error : ε}
    (h : (match r.1 with | .ok _ => false | .error e => decide (e = error)) = true) :
    ∃ b, r = (.error error, b) := by
  obtain ⟨e | a, b⟩ := r
  · exact ⟨b, by rw [of_decide_eq_true h]⟩
  · cases h

set_option maxRecDepth 100000 in
theorem ring_isCycle :
    (∃ events entry, ofProgram ring "main.lua" defaultLimit [] =
        (.error (.reported (.circularDependency ["/p/a.lua", "/p/b.lua", "/p/a.lua"])), events) ∧
      IsCycle ring (rootsOf ring entry []) entry ["/p/a.lua", "/p/b.lua", "/p/a.lua"]) ∧
    ∃ g events, ofProgram diamond "main.lua" defaultLimit [] = (.ok g, events) ∧
      (∀ path ∈ g.paths, ¬TransGen (Requires diamond (rootsOf diamond g.entry [])) path path) ∧
      ∀ path ∈ g.paths, ¬Requires diamond (rootsOf diamond g.entry []) path g.entry := by
  constructor
  · obtain ⟨events, h⟩ : ∃ events, ofProgram ring "main.lua" defaultLimit [] =
        (.error (.reported (.circularDependency ["/p/a.lua", "/p/b.lua", "/p/a.lua"])), events) :=
      exists_error (by decide +kernel)
    obtain ⟨entry, _, hcycle⟩ := (ofProgram_cycles ring "main.lua" defaultLimit []).1 _ _ h
    exact ⟨events, entry, h, hcycle⟩
  · have hrun : (ofProgram diamond "main.lua" defaultLimit []).1.toOption.map paths =
        some (["/p/main.lua", "/p/left.lua", "/p/right.lua", "/p/base.lua"] : List Text) := by
      decide +kernel
    obtain ⟨g, events, h, _⟩ := exists_ok hrun
    exact ⟨g, events, h, (ofProgram_cycles diamond "main.lua" defaultLimit []).2 _ _ h⟩

end ModuleGraph

end LuaBundle
