import Mathlib.Data.List.Forall2

/-! Lists of results: a list is mapped to results that are all there just if each of its members
is. -/

namespace LuaBundle

theorem mapM_eq_ok_iff {α β ε : Type} {f : α → Except ε β} {xs : List α} {ys : List β} :
    xs.mapM f = .ok ys ↔ List.Forall₂ (fun x y => f x = .ok y) xs ys := by
  induction xs generalizing ys with
  | nil =>
    rw [List.mapM_nil, List.forall₂_nil_left_iff]
    exact ⟨fun h => (Except.ok.inj h).symm, fun h => congrArg _ h.symm⟩
  | cons x xs ih =>
    rw [List.mapM_cons, List.forall₂_cons_left_iff]
    constructor
    · intro h
      cases hx : f x with
      | error e =>
        rw [hx] at h
        cases h
      | ok y =>
        cases hxs : xs.mapM f with
        | error e =>
          rw [hx, hxs] at h
          cases h
        | ok rest =>
          rw [hx, hxs] at h
          exact ⟨y, rest, rfl, ih.mp hxs, (Except.ok.inj h).symm⟩
    · rintro ⟨y, rest, hx, hrest, rfl⟩
      rw [hx, ih.mpr hrest]
      rfl

/-- A list of results fails with the error of one of them. -/
theorem exists_of_mapM_eq_error {α β ε : Type} {f : α → Except ε β} {xs : List α} {e : ε}
    (h : xs.mapM f = .error e) : ∃ x ∈ xs, f x = .error e := by
  induction xs with
  | nil => cases h
  | cons x xs ih =>
    rw [List.mapM_cons] at h
    cases hx : f x with
    | error e' =>
      rw [hx] at h
      exact ⟨x, List.mem_cons_self, hx.trans (congrArg _ (Except.error.inj h))⟩
    | ok y =>
      cases hxs : xs.mapM f with
      | error e' =>
        rw [hx, hxs] at h
        obtain ⟨x', hx', hf⟩ := ih (hxs.trans (congrArg _ (Except.error.inj h)))
        exact ⟨x', List.mem_cons_of_mem x hx', hf⟩
      | ok rest =>
        rw [hx, hxs] at h
        cases h

section Again

variable {α β : Type} {R : α → β → Prop} {xs before after : List α} {ys : List β} {x again : α}

theorem exists_mem_of_forall₂ (h : List.Forall₂ R xs ys) (hx : x ∈ xs) : ∃ y ∈ ys, R x y := by
  induction h with
  | nil => cases hx
  | @cons first y rest ys hfirst _ ih =>
    rcases List.mem_cons.mp hx with rfl | hx
    · exact ⟨y, List.mem_cons_self, hfirst⟩
    · obtain ⟨y', hy', hR⟩ := ih hx
      exact ⟨y', List.mem_cons_of_mem y hy', hR⟩

/-- What stands for one that came before stands for a value that came before. -/
theorem forall₂_again (h : List.Forall₂ R (before ++ after) ys) (hagain : again ∈ before)
    (hR : ∀ y, R again y → R x y) : ∃ front back y, ys = front ++ back ∧ y ∈ front ∧
      List.Forall₂ R (before ++ x :: after) (front ++ y :: back) := by
  have hfront := List.forall₂_take before.length h
  have hback := List.forall₂_drop before.length h
  rw [List.take_left] at hfront
  rw [List.drop_left] at hback
  obtain ⟨y, hy, hrelated⟩ := exists_mem_of_forall₂ hfront hagain
  refine ⟨_, _, y, (List.take_append_drop before.length ys).symm, hy, ?_⟩
  exact List.rel_append hfront (.cons (hR y hrelated) hback)

end Again

end LuaBundle
