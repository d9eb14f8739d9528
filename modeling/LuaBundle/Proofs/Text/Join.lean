import LuaBundle.Proofs.Path

/-! Texts that are joined by a unit which none of them holds are found in the joined text again,
and a text is joined again from what it was split into. -/

namespace LuaBundle.Text

variable {sep : UInt16 → Bool} {u v : UInt16} {parts : List Text}

theorem joinWith_cons (sep part : Text) (h : parts ≠ []) :
    joinWith sep (part :: parts) = part ++ sep ++ joinWith sep parts :=
  List.intercalate_cons_of_ne_nil h

theorem joinWith_singleton (sep part : Text) : joinWith sep [part] = part := by simp [joinWith]

theorem splitOn_joinWith (hu : sep u = true) (hne : parts ≠ [])
    (hparts : ∀ part ∈ parts, ∀ v ∈ part, sep v = false) :
    splitOn sep (joinWith [u] parts) = parts := by
  induction parts with
  | nil => exact absurd rfl hne
  | cons part rest ih =>
    obtain ⟨hpart, hrest⟩ := List.forall_mem_cons.mp hparts
    by_cases hnil : rest = []
    · subst hnil
      rw [joinWith_singleton, splitOn_of_forall hpart]
    · rw [joinWith_cons _ _ hnil, List.append_assoc, List.singleton_append,
        splitOn_append hpart hu, ih hnil hrest]

theorem joinWith_splitOn (u : UInt16) (t : Text) : joinWith [u] (splitOn (· == u) t) = t := by
  induction t with
  | nil => rfl
  | cons v t ih =>
    rw [splitOn]
    split
    · rename_i hv
      rw [joinWith_cons _ _ (splitOn_ne_nil _ t), ih, eq_of_beq hv]
      rfl
    · split
      · rename_i hnil
        exact absurd hnil (splitOn_ne_nil _ t)
      · rename_i part parts hsplit
        rw [hsplit] at ih
        rw [← ih]
        by_cases hnil : parts = []
        · rw [hnil, joinWith_singleton, joinWith_singleton]
        · rw [joinWith_cons _ _ hnil, joinWith_cons _ _ hnil]
          rfl

theorem mem_joinWith (h : v ∈ joinWith [u] parts) : v = u ∨ ∃ part ∈ parts, v ∈ part := by
  induction parts with
  | nil => simp [joinWith] at h
  | cons part rest ih =>
    by_cases hnil : rest = []
    · subst hnil
      rw [joinWith_singleton] at h
      exact .inr ⟨part, List.mem_cons_self, h⟩
    · rw [joinWith_cons _ _ hnil, List.mem_append, List.mem_append, List.mem_singleton] at h
      rcases h with (h | h) | h
      · exact .inr ⟨part, List.mem_cons_self, h⟩
      · exact .inl h
      · obtain hv | ⟨other, hother, hv⟩ := ih h
        · exact .inl hv
        · exact .inr ⟨other, List.mem_cons_of_mem _ hother, hv⟩

theorem subset_joinWith (sep : Text) {part : Text} (h : part ∈ parts) :
    part ⊆ joinWith sep parts := by
  induction parts with
  | nil => cases h
  | cons first rest ih =>
    by_cases hnil : rest = []
    · subst hnil
      rw [joinWith_singleton, List.mem_singleton.mp h]
      exact List.Subset.refl first
    · rw [joinWith_cons _ _ hnil]
      rcases List.mem_cons.mp h with rfl | h
      · exact List.subset_append_of_subset_left _ (List.subset_append_left part sep)
      · exact List.subset_append_of_subset_right _ (ih h)

/-- Another unit in the place of the one that joins. -/
theorem map_joinWith (f : UInt16 → UInt16) (hf : ∀ part ∈ parts, ∀ v ∈ part, f v = v) :
    (joinWith [u] parts).map f = joinWith [f u] parts := by
  induction parts with
  | nil => rfl
  | cons part rest ih =>
    obtain ⟨hpart, hrest⟩ := List.forall_mem_cons.mp hf
    have hsame : part.map f = part := (List.map_congr_left hpart).trans (List.map_id' part)
    by_cases hnil : rest = []
    · rw [hnil, joinWith_singleton, joinWith_singleton, hsame]
    · rw [joinWith_cons _ _ hnil, joinWith_cons _ _ hnil, List.map_append, List.map_append, hsame,
        ih hrest]
      rfl

/-- What follows a joined text follows its last part. -/
theorem joinWith_concat_append (sep : Text) (front : List Text) (last t : Text) :
    joinWith sep (front ++ [last]) ++ t = joinWith sep (front ++ [last ++ t]) := by
  induction front with
  | nil => rw [List.nil_append, List.nil_append, joinWith_singleton, joinWith_singleton]
  | cons part front ih =>
    rw [List.cons_append, List.cons_append, joinWith_cons _ _ (by simp),
      joinWith_cons _ _ (by simp), List.append_assoc, ih]

theorem dropSuffix_append (suffix t : Text) : dropSuffix suffix (t ++ suffix) = t := by
  have hsuffix : isSuffix suffix (t ++ suffix) = true :=
    List.isSuffixOf_iff_suffix.mpr (List.suffix_append t suffix)
  rw [dropSuffix, if_pos hsuffix, List.length_append, Nat.add_sub_cancel, List.take_left]

end LuaBundle.Text
