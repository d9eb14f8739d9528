import LuaBundle.Proofs.Graph.Lockstep
import LuaBundle.Proofs.Graph.Program

/-! The limit on the number of scripts is exact. A program of `n` scripts is found, in the same way,
under every limit from `n` on; under a smaller one the search stops at the first script that is too
many, and names it as it was required there. -/

namespace LuaBundle

open Discovery

namespace Search

variable {s s' : Search} {m : Nat} {d : Discovery}

/-- A state in which no more than `m` scripts were met, and no other has a name. -/
structure Within (m : Nat) (d : Discovery) : Prop where
  met : d.met.length ≤ m
  names : ∀ path ∉ d.met, d.names.get? path = none

/-- The failure at the script that is met after `m` others. -/
def Exceeds (m : Nat) (failure : Failure AnalysisError) (d : Discovery) : Prop :=
  ∃ path name, d.met[m]? = some path ∧ d.firstName? path = some name ∧
    failure = .reported (.limitExceeded (.ofNat m) (.ofNat (m + 1)) name)

theorem Within.require {e : Discovery} {target : Text} (h : Within m d) (hnames : e.names = d.names)
    (hmet : e.met.length ≤ m) (hmem : ∀ path, path ∈ d.met ∨ path = target → path ∈ e.met)
    (current name : Text) : Within m (e.require current name target) := by
  refine ⟨hmet, fun path hpath => ?_⟩
  have hother : path ∉ d.met ∧ path ≠ target :=
    ⟨fun h => hpath (hmem path (.inl h)), fun h => hpath (hmem path (.inr h))⟩
  have hadded : (e.require current name target).names = d.names.addTo target name := by
    rw [← hnames]
    rfl
  rw [hadded, OrderedMap.get?_addTo, if_neg hother.2.symm]
  exact h.names path hother.1

/-- A search with another limit follows the same sites, up to the script that is too many. -/
theorem shadows_limit (hworkspace : s'.workspace = s.workspace) (hroots : s'.roots = s.roots)
    (hlimit : s'.limit = .ofNat m) : Shadows s s' (Within m) (Exceeds m) where
  workspace := hworkspace
  visiting h := ⟨h.met, h.names⟩
  follow := by
    intro current depth d d' site hd h
    obtain ⟨name, hname, hfollowed⟩ := follow_eq_ok h
    rcases hfollowed with ⟨hfind, rfl⟩ | ⟨target, hfind, hcycle, hmet⟩
    · refine .inl ⟨⟨hd.met, hd.names⟩, ?_⟩
      simp only [Search.follow, hname, hworkspace, hroots, hfind]
    · rcases hmet with ⟨hmem, rfl⟩ | ⟨hmem, _, rfl⟩
      · refine .inl ⟨hd.require rfl hd.met ?_ current name, ?_⟩
        · rintro path (hpath | rfl)
          · exact hpath
          · exact hmem
        · simp only [Search.follow, hname, hworkspace, hroots, hfind, hcycle, if_pos hmem]
      · have hbelow : s'.limit.isBelow (d.met.length + 1) = decide (m < d.met.length + 1) := by
          rw [hlimit, Number.isBelow_ofNat]
        by_cases hlast : m < d.met.length + 1
        · -- The script is the one after `m` others; it has no other name yet.
          obtain rfl : d.met.length = m := by have := hd.met; omega
          refine .inr ⟨.reported (.limitExceeded (.ofNat d.met.length)
            (.ofNat (d.met.length + 1)) name), ?_, target, name, ?_, ?_, rfl⟩
          · simp [Search.follow, hname, hworkspace, hroots, hfind, hcycle, hmem, hbelow]
            simp [hlimit]
          · exact List.getElem?_concat_length
          · rw [firstName?_require, if_pos rfl]
            have hnone : (d.meet target (depth + 1)).firstName? target = none := by
              have := hd.names target hmem
              simp [firstName?, Discovery.meet, this]
            rw [hnone]
            rfl
        · refine .inl ⟨?_, ?_⟩
          · have hmet : (d.meet target (depth + 1)).met = d.met ++ [target] := rfl
            refine hd.require (e := d.meet target (depth + 1)) rfl ?_ ?_ current name
            · rw [hmet, List.length_append, List.length_singleton]
              omega
            · simp [hmet]
          · simp [Search.follow, hname, hworkspace, hroots, hfind, hcycle, hmem, hbelow, hlast]
  later := by
    rintro failure d d' ⟨path, name, hpath, hname, hfailure⟩ hgrows
    refine ⟨path, name, ?_, hgrows.firstName hname, hfailure⟩
    obtain ⟨more, hmore⟩ := hgrows.met
    rw [← hmore]
    exact List.getElem?_append_left (List.getElem?_eq_some_iff.mp hpath).1 |>.trans hpath

end Search

namespace ModuleGraph

open Text

variable {w : Workspace} {entryPath : Text} {limit : Number} {searchRoots : List Text}
  {g : ModuleGraph} {events : List Event} {m : Nat}

/-- The name under which a script of a program was found: the key of the entry, and for any other
script the name in the first requirement that leads to it. -/
def foundAs? (w : Workspace) (roots : List Text) (g : ModuleGraph) (path : Text) : Option Text :=
  if path = g.entry then some (ModuleKey.ofEntry g.entry)
  else ((g.requirements w roots).find? fun r => r.target = path).map (·.name)

theorem head?_recorded (vs : List Text) : (OrderedMap.recorded vs).bind List.head? = vs.head? := by
  cases vs <;> rfl

theorem firstName?_eq {roots : List Text} (h : g.IsProgram w roots) (path : Text) :
    (g.names.get? path).bind List.head? =
      ((g.requirements w roots).find? fun r => r.target = path).map (·.name) := by
  rw [h.names, head?_recorded, List.head?_map, List.head?_filter]

/-- A program is found under each limit that its scripts do not exceed, and under any other the
search fails at the first script beyond the limit. -/
theorem ofProgram_limit (h : ofProgram w entryPath limit searchRoots = (.ok g, events)) (m : Nat) :
    (g.files.length ≤ m →
      ofProgram w entryPath (.ofNat m) searchRoots = (.ok g, events)) ∧
    (m < g.files.length → ∃ path name, g.paths[m]? = some path ∧
      foundAs? w (rootsOf w g.entry searchRoots) g path = some name ∧
      (ofProgram w entryPath (.ofNat m) searchRoots).1 =
        .error (.reported (.limitExceeded (.ofNat m) (.ofNat (m + 1)) name))) := by
  obtain ⟨hentry, hbelow, d, hrun, hg, rfl⟩ := ofProgram_eq_ok h
  obtain ⟨inv, hdone⟩ := Search.run_holds (Search.holds_start _ _) hrun
  have hpaths : g.paths = d.met := hg ▸ (met_eq_paths inv hdone).symm
  have hcount : g.files.length = d.met.length := by
    rw [← hpaths, paths, List.length_map]
  have hfirst : ∃ rest, d.met = g.entry :: rest := ⟨_, inv.follows.met⟩
  obtain ⟨rest, hrest⟩ := hfirst
  have hlength : d.met.length = rest.length + 1 := by rw [hrest, List.length_cons]
  rw [hcount]
  rcases Nat.eq_zero_or_pos m with rfl | hpos
  · -- Not even the entry is allowed.
    refine ⟨fun hle => by omega, fun _ => ⟨g.entry, _, by rw [hpaths, hrest]; rfl, if_pos rfl, ?_⟩⟩
    rw [ofProgram, hentry]
    rfl
  have hpositive : (Number.ofNat m).isBelow 1 = false := by
    rw [Number.isBelow_ofNat]
    exact decide_eq_false (Nat.not_lt.mpr hpos)
  have hstart : Search.Within m (.start g.entry) := ⟨hpos, fun _ _ => rfl⟩
  let limited : Search := ⟨w, rootsOf w g.entry searchRoots, .ofNat m⟩
  have henough : (limited.run (Number.ofNat m).cap (.start g.entry)).1 ≠ .error .exhausted :=
    Search.run_ne_exhausted rfl (Search.holds_start _ _) hpos (by
      rw [Number.cap_ofNat]
      exact Nat.le_add_left _ _)
  have hsame : ∀ {result last}, limited.run limit.cap (.start g.entry) = (result, last) →
      result ≠ .error .exhausted →
      limited.run (Number.ofNat m).cap (.start g.entry) = (result, last) := by
    intro result last hresult hne
    rw [← hresult]
    exact Search.run_eq_run (by rwa [hresult]) henough
  have hlimited : ofProgram w entryPath (.ofNat m) searchRoots = _ := ofProgram_run hentry hpositive
  have hshadows :=
    @Search.shadows_limit ⟨w, rootsOf w g.entry searchRoots, limit⟩ limited m rfl rfl rfl
  rcases hshadows.run hstart hrun with ⟨hwithin, hok⟩ | ⟨failure, last, hfails, hexceeds⟩
  · refine ⟨fun _ => ?_, fun hlt => absurd hwithin.met (by omega)⟩
    rw [hlimited, hsame hok (by simp)]
    simp only [← hg]
  · obtain ⟨path, name, hpath, hname, rfl⟩ := hexceeds
    have hlt : m < d.met.length := (List.getElem?_eq_some_iff.mp hpath).1
    refine ⟨fun hle => absurd hlt (by omega), fun _ => ⟨path, name, hpaths ▸ hpath, ?_, ?_⟩⟩
    · have hne : path ≠ g.entry := by
        rintro rfl
        have hzero : d.met[0]? = some g.entry := by rw [hrest]; rfl
        have := (List.getElem?_inj (by omega) inv.follows.nodup).mp (hzero.trans hpath.symm)
        omega
      rw [foundAs?, if_neg hne, ← firstName?_eq (isProgram_of_ofProgram h), ← hname, hg]
      rfl
    · rw [hlimited, hsame hfails (by simp)]

set_option maxRecDepth 100000 in
/-- The fourth script of the diamond is required by two names; the first one is reported. -/
theorem limit_diamond :
    ∃ g events, ofProgram diamond "main.lua" defaultLimit [] = (.ok g, events) ∧
      ofProgram diamond "main.lua" (.ofNat 4) [] = (.ok g, events) ∧
      (ofProgram diamond "main.lua" (.ofNat 3) []).1 =
        .error (.reported (.limitExceeded (.ofNat 3) (.ofNat 4) "base")) := by
  have hrun : (ofProgram diamond "main.lua" defaultLimit []).1.toOption.map (fun g =>
      (g.files.length, foundAs? diamond (rootsOf diamond g.entry []) g "/p/base.lua",
        g.paths[3]?)) = some (4, some (ofString "base"), some (ofString "/p/base.lua")) := by
    decide +kernel
  obtain ⟨g, events, h, hfound⟩ := exists_ok hrun
  obtain ⟨hcount, hfound⟩ := Prod.mk.inj hfound
  obtain ⟨hname, hpath⟩ := Prod.mk.inj hfound
  refine ⟨g, events, h, (ofProgram_limit h 4).1 hcount.le, ?_⟩
  obtain ⟨path, name, hpath', hname', hfails⟩ := (ofProgram_limit h 3).2 (by rw [hcount]; decide)
  obtain rfl := Option.some.inj (hpath.symm.trans hpath')
  obtain rfl := Option.some.inj (hname.symm.trans hname')
  exact hfails

end ModuleGraph

end LuaBundle
