import LuaBundle.Proofs.Text.Join
import Mathlib.Data.List.Induction

/-! The way from a directory to a path: up over the names of the directory that the path does not
share, and down over those of the path that are left. Resolving the way from the directory gives the
path again, wherever the two lie. -/

namespace LuaBundle

open Text

namespace Path

variable {base : Text} {dir names ps as bs : List Text} {name : Text}

/-- Parts that a path without a root is spelled with. -/
def IsWay (ps : List Text) : Prop := ∀ part ∈ ps, part ≠ [] ∧ slash ∉ part

theorem IsNames.isWay (h : IsNames names) : IsWay names := fun name hname =>
  ⟨(h name hname).ne_nil, (h name hname).slash⟩

theorem IsWay.append (hup : IsWay as) (hdown : IsWay bs) : IsWay (as ++ bs) :=
  List.forall_mem_append.mpr ⟨hup, hdown⟩

theorem isWay_dots (up : List Text) : IsWay (up.map fun _ => [dot, dot]) :=
  List.forall_mem_map.mpr fun _ _ => by decide

theorem parts_joinWith (hne : ps ≠ []) (hps : IsWay ps) : parts (joinWith [slash] ps) = ps := by
  refine splitOn_joinWith (by decide) hne fun part hpart u hu => ?_
  refine beq_eq_false_iff_ne.mpr ?_
  rintro rfl
  exact (hps part hpart).2 hu

theorem isAbsolute_joinWith (hps : IsWay ps) : isAbsolute (joinWith [slash] ps) = false := by
  cases ps with
  | nil => rfl
  | cons part rest =>
    obtain ⟨hne, hslash⟩ := hps part List.mem_cons_self
    obtain ⟨u, t, rfl⟩ := List.exists_cons_of_ne_nil hne
    have hu : u ≠ slash := by
      rintro rfl
      exact hslash List.mem_cons_self
    by_cases hnil : rest = []
    · rw [hnil, joinWith_singleton]
      simpa [isAbsolute] using hu
    · rw [joinWith_cons _ _ hnil]
      simpa [isAbsolute] using hu

/-- A way leads over its parts. -/
theorem walk_way (hps : IsWay ps) (dir : List Text) :
    walk dir (joinWith [slash] ps) = ps.foldl enter dir := by
  by_cases hnil : ps = []
  · subst hnil
    rfl
  · rw [walk, isAbsolute_joinWith hps, parts_joinWith hnil hps]
    rfl

/-- A path that is spelled by names leads down over them. -/
theorem walk_joinWith (hnames : IsNames names) (dir : List Text) :
    walk dir (joinWith [slash] names) = dir ++ names := by
  rw [walk_way hnames.isWay, foldl_enter hnames]

/-- Two dots for each name lead up over the names. -/
theorem foldl_enter_dots (dir up : List Text) :
    (up.map fun _ => [dot, dot]).foldl enter (dir ++ up) = dir := by
  -- The dots are the same for all names, so that the first of them may count for the last name.
  induction up using List.reverseRecOn with
  | nil => simp
  | append_singleton up name ih =>
    have hdots : (up ++ [name]).map (fun _ => [dot, dot]) =
        [dot, dot] :: up.map fun _ => [dot, dot] := by
      rw [List.map_const', List.map_const', List.length_append, List.length_singleton,
        List.replicate_succ]
    have hup : enter (dir ++ (up ++ [name])) [dot, dot] = dir ++ up := by
      rw [enter, if_neg (by decide), if_pos rfl, ← List.append_assoc, List.dropLast_concat]
    rw [hdots, List.foldl_cons, hup, ih]

theorem diverge_nil_left (names : List Text) : diverge [] names = ([], names) := by
  cases names <;> rfl

/-- Two lists of names have in common what stands before the names that they do not share. -/
theorem exists_diverge (as bs : List Text) :
    ∃ common, as = common ++ (diverge as bs).1 ∧ bs = common ++ (diverge as bs).2 := by
  fun_induction diverge as bs with
  | case1 as b bs ih =>
    obtain ⟨common, hleft, hright⟩ := ih
    exact ⟨b :: common, congrArg (b :: ·) hleft, congrArg (b :: ·) hright⟩
  | case2 a as b bs hne => exact ⟨[], rfl, rfl⟩
  | case3 as bs hother => exact ⟨[], rfl, rfl⟩

theorem diverge_eq_nil_iff : (diverge dir names).1 = [] ↔ dir <+: names := by
  induction dir generalizing names with
  | nil => simp [diverge_nil_left]
  | cons first dir ih =>
    cases names with
    | nil => simp [diverge]
    | cons name names =>
      rw [diverge, List.cons_prefix_cons]
      split
      · rename_i hsame
        rw [ih, and_iff_right hsame]
      · rename_i hother
        simp [hother]

theorem diverge_append (dir names : List Text) : diverge dir (dir ++ names) = ([], names) := by
  induction dir with
  | nil => exact diverge_nil_left names
  | cons first dir ih => rw [List.cons_append, diverge, if_pos rfl, ih]

/-- The path from a directory down to what is below it. -/
theorem relative_render (hnames : IsNames (dir ++ names)) (base : Text) :
    relative base (render dir) (render (dir ++ names)) = joinWith [slash] names := by
  have hdir : IsNames dir := fun n hn => hnames n (List.mem_append_left _ hn)
  rw [relative, walk_render hdir, walk_render hnames, diverge_append]
  rfl

/-- The way from a directory to a path leads there. -/
theorem walk_relative (hnames : IsNames names) (base origin : Text) :
    walk (walk (walk [] base) origin) (relative base origin (render names)) = names := by
  rw [relative, walk_render hnames]
  generalize walk (walk [] base) origin = dir
  obtain ⟨common, hdir, htarget⟩ := exists_diverge dir names
  generalize diverge dir names = way at hdir htarget
  obtain ⟨up, down⟩ := way
  have hdown : IsNames down := fun n hn => hnames n (htarget ▸ List.mem_append_right _ hn)
  rw [walk_way ((isWay_dots up).append hdown.isWay), List.foldl_append, hdir, foldl_enter_dots,
    foldl_enter hdown, ← htarget]

/-- Resolving the way from an absolute directory gives the path, from any place. -/
theorem resolve_relative (hnames : IsNames names) {origin : Text}
    (horigin : isAbsolute origin = true) (base here : Text) :
    resolve here [origin, relative base origin (render names)] = render names := by
  have hwalk := walk_relative hnames base origin
  rw [walk_of_isAbsolute horigin] at hwalk
  rw [resolve_of_isAbsolute horigin, List.foldl_cons, List.foldl_nil, hwalk]

end Path

end LuaBundle
