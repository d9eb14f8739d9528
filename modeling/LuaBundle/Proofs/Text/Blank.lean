import LuaBundle.Text.Basic
import Mathlib.Data.List.Chain
import Mathlib.Data.List.TakeWhile

/-! Texts that hold nothing but blanks: trimming leaves nothing of them, also where runs of blanks
are one space. What trimming leaves of any text has single spaces between the other units. -/

namespace LuaBundle.Text

theorem forall_mem_trimLeft (t : Text) :
    (∀ u ∈ trimLeft t, isBlank u = true) ↔ ∀ u ∈ t, isBlank u = true := by
  constructor
  · intro h u hu
    rw [← List.takeWhile_append_dropWhile (p := isBlank) (l := t), List.mem_append] at hu
    rcases hu with hu | hu
    · exact List.all_eq_true.mp List.all_takeWhile u hu
    · exact h u hu
  · exact fun h u hu => h u ((List.dropWhile_sublist _).subset hu)

theorem trim_eq_nil_iff (t : Text) : trim t = [] ↔ ∀ u ∈ t, isBlank u = true := by
  rw [trim, trimRight, List.reverse_eq_nil_iff, List.dropWhile_eq_nil_iff, ← forall_mem_trimLeft t]
  simp only [List.mem_reverse]

theorem forall_mem_trim (t : Text) :
    (∀ u ∈ trim t, isBlank u = true) ↔ ∀ u ∈ t, isBlank u = true := by
  have hright : (∀ u ∈ trim t, isBlank u = true) ↔ ∀ u ∈ trimLeft t, isBlank u = true := by
    have h := forall_mem_trimLeft (trimLeft t).reverse
    simpa only [trim, trimRight, trimLeft, List.mem_reverse] using h
  rw [hright, forall_mem_trimLeft]

theorem forall_mem_collapseFrom (inRun : Bool) (t : Text) :
    (∀ u ∈ collapseFrom inRun t, isBlank u = true) ↔ ∀ u ∈ t, isBlank u = true := by
  induction t generalizing inRun with
  | nil => rfl
  | cons u t ih =>
    rw [collapseFrom, List.forall_mem_cons]
    by_cases hu : isBlank u = true
    · cases inRun with
      | false => simpa [hu, ih true] using fun _ => (by decide : isBlank space = true)
      | true => simp [hu, ih true]
    · simp [hu]

theorem trim_collapseBlanks_eq_nil_iff (t : Text) :
    trim (collapseBlanks t) = [] ↔ ∀ u ∈ t, isBlank u = true := by
  rw [trim_eq_nil_iff, collapseBlanks, forall_mem_collapseFrom]

/-- A text with no blanks at its ends, and single spaces for blanks within. -/
structure IsNeat (t : Text) : Prop where
  head : ∀ u ∈ t.head?, isBlank u = false
  last : ∀ u ∈ t.getLast?, isBlank u = false
  spaces : ∀ u ∈ t, isBlank u = true → u = space
  single : t.IsChain fun u v => ¬(isBlank u = true ∧ isBlank v = true)

theorem eq_space_of_mem_collapseFrom {inRun : Bool} {t : Text} :
    ∀ u ∈ collapseFrom inRun t, isBlank u = true → u = space := by
  induction t generalizing inRun with
  | nil => simp [collapseFrom]
  | cons u t ih =>
    by_cases hu : isBlank u = true
    · cases inRun with
      | false => simpa [collapseFrom, hu] using @ih true
      | true => simpa [collapseFrom, hu] using @ih true
    · simpa [collapseFrom, hu] using @ih false

theorem isChain_collapseFrom (inRun : Bool) (t : Text) :
    (collapseFrom inRun t).IsChain (fun u v => ¬(isBlank u = true ∧ isBlank v = true)) ∧
      (inRun = true → ∀ u ∈ (collapseFrom inRun t).head?, isBlank u = false) := by
  induction t generalizing inRun with
  | nil => simp [collapseFrom]
  | cons u t ih =>
    obtain ⟨hchain, hhead⟩ := ih true
    by_cases hu : isBlank u = true
    · cases inRun with
      | false =>
        have hspace : collapseFrom false (u :: t) = space :: collapseFrom true t := by
          simp [collapseFrom, hu]
        rw [hspace, List.isChain_cons]
        refine ⟨⟨fun v hv hboth => ?_, hchain⟩, by simp⟩
        rw [hhead rfl v hv] at hboth
        cases hboth.2
      | true =>
        have hrest : collapseFrom true (u :: t) = collapseFrom true t := by
          simp [collapseFrom, hu]
        rw [hrest]
        exact ⟨hchain, hhead⟩
    · have hunit : collapseFrom inRun (u :: t) = u :: collapseFrom false t := by
        simp [collapseFrom, hu]
      rw [hunit, List.isChain_cons]
      exact ⟨⟨fun v _ hboth => hu hboth.1, (ih false).1⟩, fun _ => by simpa using hu⟩

theorem trimRight_isPrefix (t : Text) : trimRight t <+: t := by
  have h := List.reverse_prefix.mpr (List.dropWhile_suffix isBlank (l := t.reverse))
  rwa [List.reverse_reverse] at h

theorem trim_isInfix (t : Text) : trim t <:+: t :=
  (trimRight_isPrefix _).isInfix.trans (List.dropWhile_suffix isBlank).isInfix

theorem head?_dropWhile_isBlank (t : Text) :
    ∀ u ∈ (t.dropWhile isBlank).head?, isBlank u = false := by
  intro u hu
  have h := List.head?_dropWhile_not isBlank t
  rw [Option.mem_def.mp hu] at h
  simpa using h

theorem isNeat_trim_collapseBlanks (t : Text) : IsNeat (trim (collapseBlanks t)) where
  head u hu := by
    have hprefix := trimRight_isPrefix (trimLeft (collapseBlanks t))
    obtain ⟨rest, hrest⟩ := List.head?_eq_some_iff.mp hu
    rw [trim] at hrest
    obtain ⟨more, hmore⟩ := hprefix
    refine head?_dropWhile_isBlank (collapseBlanks t) u ?_
    rw [← trimLeft, ← hmore, hrest]
    rfl
  last u hu := by
    rw [trim, trimRight, List.getLast?_reverse] at hu
    exact head?_dropWhile_isBlank _ u hu
  spaces u hu := eq_space_of_mem_collapseFrom u ((trim_isInfix _).subset hu)
  single := List.IsChain.infix (isChain_collapseFrom false t).1 (trim_isInfix _)

end LuaBundle.Text
