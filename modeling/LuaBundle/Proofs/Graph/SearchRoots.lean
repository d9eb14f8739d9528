import LuaBundle.Proofs.Graph.Lockstep
import LuaBundle.Proofs.Graph.Program

/-! Search roots after others are never needed by a program that is found without them. A name that
stands for a module under the first roots stands for the same one under all of them, so that the two
searches visit the same scripts and report the same events. -/

namespace LuaBundle

namespace ModuleName

theorem scriptCandidates_append (base name : Text) (roots more : List Text) :
    scriptCandidates base name (roots ++ more) =
      scriptCandidates base name roots ++ scriptCandidates base name more :=
  List.flatMap_append

end ModuleName

namespace ResolvedModule

variable {w : Workspace} {roots : List Text} {requiredBy name : Text} {m : ResolvedModule}

/-- Further roots matter only to names that are no path from the file that requires them. -/
theorem rootsFor_append (roots more : List Text) (requiredBy name : Text) :
    ∃ rest, rootsFor (roots ++ more) requiredBy name = rootsFor roots requiredBy name ++ rest := by
  unfold rootsFor
  split
  · exact ⟨[], (List.append_nil _).symm⟩
  · exact ⟨more, rfl⟩

/-- A module that is found is the same one when there are more roots to look in. -/
theorem find_append (h : find w roots requiredBy name = .ok m) (more : List Text) :
    find w (roots ++ more) requiredBy name = .ok m := by
  obtain ⟨rest, hroots⟩ := rootsFor_append roots more requiredBy name
  unfold find at h ⊢
  split at h
  · rename_i hbuiltin
    rw [if_pos hbuiltin]
    exact h
  · rename_i hbuiltin
    rw [if_neg hbuiltin]
    simp only at h ⊢
    rw [hroots, ModuleName.scriptCandidates_append, List.find?_append]
    cases hfound : (ModuleName.scriptCandidates w.base name
        (rootsFor roots requiredBy name)).find? w.isReadable with
    | some found =>
      rw [hfound] at h
      exact h
    | none =>
      -- Without a script under the first roots the name stands for no module.
      rw [hfound] at h
      simp only at h
      split at h <;> cases h

end ResolvedModule

namespace Search

theorem shadows_roots (w : Workspace) (roots more : List Text) (limit : Number) :
    Shadows ⟨w, roots, limit⟩ ⟨w, roots ++ more, limit⟩ (fun _ => True) fun _ _ => False where
  workspace := rfl
  visiting _ := trivial
  follow := by
    intro current depth d d' site _ h
    refine .inl ⟨trivial, ?_⟩
    rw [← h]
    obtain ⟨name, hname, ⟨hfind, _⟩ | ⟨target, hfind, _, _⟩⟩ := follow_eq_ok h
    all_goals
      have hmore := ResolvedModule.find_append hfind more
      simp only [Search.follow, hname, hfind, hmore]
  later := False.elim

end Search

namespace ModuleGraph

variable {w : Workspace} {entryPath : Text} {limit : Number} {searchRoots : List Text}
  {g : ModuleGraph} {events : List Event}

/-- A program that is found is found in the same way, with the same events, when more search roots
follow those that it was found with. -/
theorem ofProgram_moreRoots (h : ofProgram w entryPath limit searchRoots = (.ok g, events))
    (more : List Text) : ofProgram w entryPath limit (searchRoots ++ more) = (.ok g, events) := by
  obtain ⟨hentry, hlimit, d, hrun, hg, rfl⟩ := ofProgram_eq_ok h
  have hroots : rootsOf w g.entry (searchRoots ++ more) =
      rootsOf w g.entry searchRoots ++ more.map w.absolute := by
    rw [rootsOf, rootsOf, List.map_append, List.cons_append]
  have hshadows :=
    Search.shadows_roots w (rootsOf w g.entry searchRoots) (more.map w.absolute) limit
  rcases hshadows.run trivial hrun with ⟨_, hmore⟩ | ⟨_, _, _, hfalse⟩
  · rw [ofProgram_run hentry hlimit, hroots, hmore]
    simp only [← hg]
  · exact hfalse.elim

/-- The diamond, with another script of the name that two of its scripts share, in a directory of
its own. -/
def shadowedDiamond : Workspace :=
  diamond.put ["p", "lib"] .directory |>.put ["p", "lib", "base.lua"] (scriptFile "return 1")

set_option maxRecDepth 100000 in
theorem moreRoots_diamond :
    ∃ g events, ofProgram shadowedDiamond "main.lua" defaultLimit [] = (.ok g, events) ∧
      g.paths = ["/p/main.lua", "/p/left.lua", "/p/right.lua", "/p/base.lua"] ∧
      ofProgram shadowedDiamond "main.lua" defaultLimit ["lib"] = (.ok g, events) := by
  have hrun : (ofProgram shadowedDiamond "main.lua" defaultLimit []).1.toOption.map paths =
      some (["/p/main.lua", "/p/left.lua", "/p/right.lua", "/p/base.lua"] : List Text) := by
    decide +kernel
  obtain ⟨g, events, h, hpaths⟩ := exists_ok hrun
  exact ⟨g, events, h, hpaths, ofProgram_moreRoots h ["lib"]⟩

end ModuleGraph

end LuaBundle
