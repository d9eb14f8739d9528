import LuaBundle.Proofs.Path
import LuaBundle.Workspace.Read

/-! Canonical paths. Nothing on the way of the canonical path of a file is a link, and a path of
which this is true is its own canonical path, so that taking it twice changes nothing. -/

namespace LuaBundle.Workspace

open LuaBundle.Path (IsNames)

variable {w : Workspace} {links : Nat} {done names result : List Text} {path canonicalPath : Text}

/-- Names of an absolute path on which there are entries but no links. -/
structure Straight (w : Workspace) (names : List Text) : Prop where
  isNames : IsNames names
  entries : ∀ front, front <+: names → front ≠ [] →
    ∃ l n, w.entry .inspect (Path.render front) = .ok (l, n) ∧ ∀ target, n ≠ .link target

theorem straight_nil (w : Workspace) : Straight w [] :=
  ⟨by simp [IsNames], fun _ hfront hne => absurd (List.prefix_nil.mp hfront) hne⟩

theorem Straight.concat {name : Text} {l : Location} {n : Node} (h : Straight w done)
    (hname : Path.IsName name)
    (hentry : w.entry .inspect (Path.render (done ++ [name])) = .ok (l, n))
    (hn : ∀ target, n ≠ .link target) : Straight w (done ++ [name]) := by
  refine ⟨?_, fun front hfront hne => ?_⟩
  · intro other hother
    rcases List.mem_append.mp hother with hother | hother
    · exact h.isNames other hother
    · exact List.mem_singleton.mp hother ▸ hname
  · rcases List.prefix_concat_iff.mp hfront with rfl | hfront
    · exact ⟨l, n, hentry, hn⟩
    · exact h.entries front hfront hne

theorem replaceFrom_straight
    {follow : Text → Location → Text → List Text → Except FileError Location}
    (h : Straight w (done ++ names)) :
    w.replaceFrom follow done names = .ok (done ++ names) := by
  induction names generalizing done with
  | nil => rw [replaceFrom, List.append_nil]
  | cons name rest ih =>
    rw [List.append_cons] at h ⊢
    obtain ⟨l, n, hentry, hn⟩ := h.entries (done ++ [name]) (List.prefix_append _ rest) (by simp)
    rw [replaceFrom]
    simp only [hentry]
    cases n with
    | link target => exact absurd rfl (hn target)
    | directory => exact ih h
    | file content mode => exact ih h

/-- What is left when the links are replaced goes through none, if that holds where a link is
followed. -/
theorem straight_of_replaceFrom
    {follow : Text → Location → Text → List Text → Except FileError Location}
    (hfollow : ∀ {path done target rest result}, IsNames done → IsNames rest →
      follow path done target rest = .ok result → Straight w result)
    (hdone : Straight w done) (hnames : IsNames names)
    (h : w.replaceFrom follow done names = .ok result) : Straight w result := by
  induction names generalizing done with
  | nil =>
    rw [replaceFrom] at h
    exact Except.ok.inj h ▸ hdone
  | cons name rest ih =>
    obtain ⟨hname, hrest⟩ := List.forall_mem_cons.mp hnames
    rw [replaceFrom] at h
    split at h
    · cases h
    · split at h
      · cases h
      · exact hfollow hdone.isNames hrest h
    · rename_i found hlink hentry
      refine ih (hdone.concat hname (l := found.1) (n := found.2) hentry ?_) hrest h
      intro target htarget
      exact hlink found.1 target (by rw [← htarget])

theorem straight_of_withoutLinks (hdone : Straight w done) (hnames : IsNames names)
    (h : w.withoutLinks links done names = .ok result) : Straight w result := by
  induction links generalizing done names result with
  | zero => exact straight_of_replaceFrom (fun _ _ hfollow => by cases hfollow) hdone hnames h
  | succ links ih =>
    refine straight_of_replaceFrom (fun {path done target rest result} hdone hrest hfollow => ?_)
      hdone hnames h
    refine ih (straight_nil w) ?_ hfollow
    intro name hname
    rcases List.mem_append.mp hname with hname | hname
    · exact Path.isNames_walk hdone target name hname
    · exact hrest name hname

theorem straight_of_canonical (h : w.canonical path = .ok canonicalPath) :
    ∃ names, Straight w names ∧ canonicalPath = Path.render names := by
  unfold canonical at h
  cases hresult : w.withoutLinks mostReplacements [] (Path.walk [] (w.absolute path)) with
  | error error =>
    rw [hresult] at h
    cases h
  | ok names =>
    rw [hresult] at h
    have hnil : IsNames [] := by simp [IsNames]
    have hnames := Path.isNames_walk hnil (w.absolute path)
    exact ⟨names, straight_of_withoutLinks (straight_nil w) hnames hresult, (Except.ok.inj h).symm⟩

theorem absolute_render (w : Workspace) (hnames : IsNames names) :
    w.absolute (Path.render names) = Path.render names := by
  rw [absolute, Path.resolve, List.foldl_cons, List.foldl_nil, Path.walk_render hnames]

theorem Straight.canonical_eq (h : Straight w names) :
    w.canonical (Path.render names) = .ok (Path.render names) := by
  have hfront : Straight w ([] ++ names) := h
  have hplain : w.withoutLinks mostReplacements [] names = .ok names := replaceFrom_straight hfront
  rw [canonical, absolute_render w h.isNames, Path.walk_render h.isNames, hplain]
  rfl

/-- A canonical path is its own absolute and canonical path. -/
theorem canonical_canonical (h : w.canonical path = .ok canonicalPath) :
    w.absolute canonicalPath = canonicalPath ∧ w.canonical canonicalPath = .ok canonicalPath := by
  obtain ⟨names, hstraight, rfl⟩ := straight_of_canonical h
  exact ⟨absolute_render w hstraight.isNames, hstraight.canonical_eq⟩

end LuaBundle.Workspace
