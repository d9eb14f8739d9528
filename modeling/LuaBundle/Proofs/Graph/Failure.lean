import LuaBundle.Proofs.Graph.Discovery

/-! Where a search fails: at a script that cannot be read, or at a site. The scripts before it were
visited and the sites before it followed, so that the state of the search there is known. -/

namespace LuaBundle.Search

open Discovery

variable {s : Search} {entry current : Text} {depth visits : Nat} {d d' : Discovery}
  {log : List Requirement} {failure : Failure AnalysisError}

/-- Why a site is not followed: it names no module, the module is not found, or the script that it
names would close a cycle or be one too many. -/
theorem follow_eq_error {site : RequireSite} {error : AnalysisError}
    (h : s.follow current depth d site = .error (.reported error)) :
    (site.moduleName = none ∧
        error = .dynamicRequire (.ofPosition current site.position) site.rawArgument) ∨
      ∃ name, site.moduleName = some name ∧
        (ResolvedModule.find s.workspace s.roots current name = .error (.reported error) ∨
          ∃ target, ResolvedModule.find s.workspace s.roots current name =
              .ok (.script name target) ∧
            ((∃ cycle, d.edges.cycle? current target = some cycle ∧
                error = .circularDependency cycle) ∨
              error = .limitExceeded s.limit (.ofNat (d.met.length + 1)) name)) := by
  unfold follow at h
  split at h
  · rename_i hname
    cases h
    exact .inl ⟨hname, rfl⟩
  · rename_i name hname
    refine .inr ⟨name, hname, ?_⟩
    split at h
    · rename_i failure hfind
      obtain rfl := Except.error.inj h
      exact .inl hfind
    · cases h
    · rename_i found target hfind
      obtain rfl := ResolvedModule.name_eq_of_find hfind
      refine .inr ⟨target, hfind, ?_⟩
      split at h
      · rename_i cycle hcycle
        cases h
        exact .inl ⟨cycle, hcycle, rfl⟩
      · split at h
        · cases h
        · split at h
          · cases h
            exact .inr rfl
          · cases h

/-- The sites before the one that fails were followed. -/
theorem followAll_eq_error {sites : List RequireSite} (inv : Follows entry log d)
    (hcurrent : current ∈ d.met) (h : s.followAll current depth d sites = (.error failure, d')) :
    ∃ before site after, sites = before ++ site :: after ∧
      Follows entry (log ++ before.filterMap (Requirement.ofSite? s.workspace s.roots current)) d' ∧
      current ∈ d'.met ∧ s.follow current depth d' site = .error failure := by
  induction sites generalizing d log with
  | nil => cases h
  | cons site sites ih =>
    simp only [followAll] at h
    split at h
    · rename_i hsite
      obtain ⟨hfailure, rfl⟩ := Prod.mk.inj h
      obtain rfl := Except.error.inj hfailure
      exact ⟨[], site, sites, rfl, by simpa using inv, hcurrent, hsite⟩
    · rename_i next hnext
      obtain ⟨inv', hext, _⟩ := follow_follows inv hcurrent hnext
      obtain ⟨before, failing, after, rfl, inv'', hmet, hfailing⟩ := ih inv' (hext.mem hcurrent) h
      refine ⟨site :: before, failing, after, rfl, ?_, hmet, hfailing⟩
      rw [List.append_assoc] at inv''
      convert inv'' using 2
      cases ho : Requirement.ofSite? s.workspace s.roots current site <;> simp [ho]

theorem visit_eq_error (h : s.visit current depth d = (.error failure, d')) :
    failure = .reported (.scriptNotFound current) ∨
      ∃ text, s.workspace.readText current = .ok text ∧
        s.followAll current depth (d.visiting current depth text) (RequireSite.scan text) =
          (.error failure, d') := by
  unfold visit at h
  split at h
  · exact .inl (Except.error.inj (Prod.mk.inj h).1).symm
  · rename_i text hread
    exact .inr ⟨text, hread, h⟩

/-- A run that fails does so in a visit, after visits that did not. -/
theorem run_eq_error (inv : s.Holds entry d) (h : s.run visits d = (.error failure, d')) :
    failure = .exhausted ∨ ∃ before current depth pending, s.Holds entry before ∧
      before.pending = (current, depth) :: pending ∧
      s.visit current depth { before with pending := pending } = (.error failure, d') := by
  induction visits generalizing d with
  | zero =>
    unfold run at h
    split at h
    · cases h
    · exact .inl (Except.error.inj (Prod.mk.inj h).1).symm
  | succ visits ih =>
    unfold run at h
    split at h
    · cases h
    · rename_i current depth pending hpending
      simp only at h
      split at h
      · rename_i hvisit
        obtain ⟨hfailure, rfl⟩ := Prod.mk.inj h
        obtain rfl := Except.error.inj hfailure
        exact .inr ⟨d, current, depth, pending, inv, hpending, hvisit⟩
      · rename_i hvisit
        exact ih (visit_holds inv hpending hvisit) h

/-- A requirement was made by a site of a script that was read. -/
def Made (s : Search) (r : Requirement) : Prop :=
  ∃ text, s.workspace.readText r.requiredBy = .ok text ∧
    ∃ site ∈ RequireSite.scan text,
      Requirement.ofSite? s.workspace s.roots r.requiredBy site = some r

/-- A search has met a script after it followed sites of the scripts before. -/
structure Meets (s : Search) (entry current : Text) (log : List Requirement) (d : Discovery) :
    Prop where
  follows : Follows entry log d
  current_met : current ∈ d.met
  made : ∀ r ∈ log, s.Made r

/-- A search that fails at a site has followed the sites of the scripts before and the sites
before it in its own script. -/
structure FailsAt (s : Search) (entry current : Text) (depth : Nat) (site : RequireSite)
    (log : List Requirement) (d : Discovery) (failure : Failure AnalysisError) : Prop
    extends s.Meets entry current log d where
  read : ∃ text, s.workspace.readText current = .ok text ∧ site ∈ RequireSite.scan text
  failing : s.follow current depth d site = .error failure

theorem Holds.made (inv : s.Holds entry d) :
    ∀ r ∈ d.visited.flatMap (SourceFile.requirements s.workspace s.roots), s.Made r := by
  intro r hr
  obtain ⟨file, hfile, hr⟩ := List.mem_flatMap.mp hr
  obtain ⟨site, hsite, hr⟩ := List.mem_filterMap.mp hr
  obtain ⟨hread, hscan⟩ := inv.scanned file hfile
  have hby : r.requiredBy = file.path := (Requirement.ofSite?_eq_some.mp hr).1
  refine ⟨file.text, hby ▸ hread, site, hscan ▸ hsite, ?_⟩
  rw [hby]
  exact hr

/-- A run fails since it takes too long, a script that it met cannot be read, or a site of one
cannot be followed. -/
theorem run_fails (inv : s.Holds entry d) (h : s.run visits d = (.error failure, d')) :
    failure = .exhausted ∨
      (∃ current log before, s.Meets entry current log before ∧
        failure = .reported (.scriptNotFound current)) ∨
      ∃ current depth site log, s.FailsAt entry current depth site log d' failure := by
  obtain hexhausted | ⟨before, current, depth, pending, inv, hpending, hvisit⟩ := run_eq_error inv h
  · exact .inl hexhausted
  have hcurrent : current ∈ before.met := by
    rw [inv.queue, hpending]
    simp
  obtain hmissing | ⟨text, hread, hall⟩ := visit_eq_error hvisit
  · exact .inr (.inl ⟨current, _, before, ⟨inv.follows, hcurrent, inv.made⟩, hmissing⟩)
  · have started : Follows entry _
        (({ before with pending := pending } : Discovery).visiting current depth text) :=
      inv.follows.congr rfl rfl rfl
    obtain ⟨earlier, site, later, hsites, hfollows, hmet, hfailing⟩ :=
      followAll_eq_error started hcurrent hall
    refine .inr (.inr ⟨current, depth, site, _, ⟨hfollows, hmet, fun r hr => ?_⟩, ?_, hfailing⟩)
    · rcases List.mem_append.mp hr with hold | hown
      · exact inv.made r hold
      · obtain ⟨made, hmade, hr⟩ := List.mem_filterMap.mp hown
        have hby : r.requiredBy = current := (Requirement.ofSite?_eq_some.mp hr).1
        refine ⟨text, hby ▸ hread, made, by simp [hsites, hmade], ?_⟩
        rw [hby]
        exact hr
    · exact ⟨text, hread, by simp [hsites]⟩

end LuaBundle.Search
