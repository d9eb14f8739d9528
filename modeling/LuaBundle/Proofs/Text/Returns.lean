import LuaBundle.Proofs.Source.Shape
import LuaBundle.Source.Position

/-! A text whose lines end in a carriage return and a line feed. Both are blank, and only the line
feed counts as the end of a line, so that what is taken of a text, where something is found in it,
and the places after it are the same as with line feeds alone. -/

namespace LuaBundle

open Text

namespace Text

/-- The text with a carriage return before every line feed. -/
def withReturns (t : Text) : Text :=
  t.flatMap fun u => if u = lineFeed then [carriageReturn, lineFeed] else [u]

def withoutReturns (t : Text) : Text := t.filter (· != carriageReturn)

variable {u : UInt16} {t : Text}

@[simp] theorem withReturns_nil : withReturns [] = [] := rfl

@[simp] theorem withReturns_lineFeed (t : Text) :
    withReturns (lineFeed :: t) = carriageReturn :: lineFeed :: withReturns t := rfl

theorem withReturns_cons (h : u ≠ lineFeed) (t : Text) :
    withReturns (u :: t) = u :: withReturns t := by
  rw [withReturns, List.flatMap_cons, if_neg h]
  rfl

theorem withReturns_append (s t : Text) : withReturns (s ++ t) = withReturns s ++ withReturns t :=
  List.flatMap_append

theorem withReturns_eq_self (h : lineFeed ∉ t) : withReturns t = t := by
  induction t with
  | nil => rfl
  | cons u t ih =>
    rw [List.mem_cons, not_or] at h
    rw [withReturns_cons (Ne.symm h.1), ih h.2]

theorem withoutReturns_cons (h : u ≠ carriageReturn) (t : Text) :
    withoutReturns (u :: t) = u :: withoutReturns t :=
  List.filter_cons_of_pos (bne_iff_ne.mpr h)

theorem withoutReturns_append (s t : Text) :
    withoutReturns (s ++ t) = withoutReturns s ++ withoutReturns t := List.filter_append s t

theorem withoutReturns_withReturns (t : Text) :
    withoutReturns (withReturns t) = withoutReturns t := by
  induction t with
  | nil => rfl
  | cons u t ih =>
    by_cases hu : u = lineFeed
    · subst hu
      rw [withReturns_lineFeed]
      exact congrArg (lineFeed :: ·) ih
    · rw [withReturns_cons hu, withoutReturns, withoutReturns, List.filter_cons, List.filter_cons]
      exact congrArg (fun s => if (u != carriageReturn) = true then u :: s else s) ih

/-- A text starts with the same unit, unless it is a break. -/
theorem head?_withReturns {v : UInt16} (hfeed : v ≠ lineFeed) (hreturn : v ≠ carriageReturn)
    (t : Text) : (withReturns t).head? = some v ↔ t.head? = some v := by
  cases t with
  | nil => rfl
  | cons u t =>
    by_cases hu : u = lineFeed
    · subst hu
      simp [Ne.symm hfeed, Ne.symm hreturn]
    · rw [withReturns_cons hu]
      rfl

/-- A run of units that holds both breaks or neither. -/
theorem takeWhile_withReturns {p : UInt16 → Bool} (hp : p carriageReturn = p lineFeed) (t : Text) :
    (withReturns t).takeWhile p = withReturns (t.takeWhile p) ∧
      (withReturns t).dropWhile p = withReturns (t.dropWhile p) := by
  induction t with
  | nil => exact ⟨rfl, rfl⟩
  | cons u t ih =>
    by_cases hu : u = lineFeed
    · subst hu
      rw [withReturns_lineFeed]
      simp only [List.takeWhile_cons, List.dropWhile_cons, hp]
      cases p lineFeed with
      | false => exact ⟨rfl, rfl⟩
      | true => exact ⟨congrArg (carriageReturn :: lineFeed :: ·) ih.1, ih.2⟩
    · rw [withReturns_cons hu, List.takeWhile_cons, List.dropWhile_cons, List.takeWhile_cons,
        List.dropWhile_cons, ih.1, ih.2]
      split
      · exact ⟨(withReturns_cons hu _).symm, rfl⟩
      · exact ⟨rfl, (withReturns_cons hu _).symm⟩

/-- The breaks end a run of which they are no part. -/
theorem takeWhile_withReturns_eq {p : UInt16 → Bool} (hreturn : p carriageReturn = false)
    (hfeed : p lineFeed = false) (t : Text) : (withReturns t).takeWhile p = t.takeWhile p := by
  rw [(takeWhile_withReturns (hreturn.trans hfeed.symm) t).1, withReturns_eq_self]
  intro hmem
  have hbreak : p lineFeed = true := List.all_eq_true.mp List.all_takeWhile _ hmem
  rw [hfeed] at hbreak
  cases hbreak

/-- A first line that a line feed ends. -/
theorem withReturns_line {line : Text} (h : lineFeed ∉ line) (rest : Text) :
    withReturns (line ++ lineFeed :: rest) =
      line ++ [carriageReturn] ++ lineFeed :: withReturns rest := by
  rw [withReturns_append, withReturns_eq_self h, withReturns_lineFeed]
  simp

theorem lineFeed_notMem_concat {line : Text} (h : lineFeed ∉ line) :
    lineFeed ∉ line ++ [carriageReturn] := by
  rw [List.mem_append, not_or]
  exact ⟨h, by decide⟩

/-- A blank at the end makes no difference to a trimmed text. -/
theorem trim_concat (hu : isBlank u = true) (t : Text) : trim (t ++ [u]) = trim t := by
  have hright : ∀ s, trimRight (s ++ [u]) = trimRight s := by
    intro s
    rw [trimRight, List.reverse_append, List.reverse_singleton, List.singleton_append,
      List.dropWhile_cons_of_pos hu, trimRight]
  have hleft : trimLeft (t ++ [u]) = trimLeft t ++ [u] ∨
      trimLeft (t ++ [u]) = trimLeft t := by
    rw [trimLeft, trimLeft, List.dropWhile_append]
    split
    · rename_i hempty
      right
      rw [List.dropWhile_cons_of_pos hu, List.isEmpty_iff.mp hempty]
      rfl
    · exact .inl rfl
  rw [trim, trim]
  rcases hleft with h | h
  · rw [h, hright]
  · rw [h]

theorem trim_firstLine_withReturns (t : Text) :
    trim (firstLine (withReturns t)) = trim (firstLine t) := by
  have hline := lineFeed_notMem_firstLine t
  rcases eq_firstLine_or t with ⟨_, htext⟩ | ⟨rest, _, htext⟩
  · have hnone : lineFeed ∉ t := htext ▸ hline
    rw [withReturns_eq_self hnone]
  · have hreturns : firstLine (withReturns t) = firstLine t ++ [carriageReturn] := by
      conv_lhs => rw [htext, withReturns_line hline]
      exact (Lexeme.takeWhile_line (lineFeed_notMem_concat hline) _).1
    rw [hreturns, trim_concat (by decide)]

theorem collapseBlanks_withReturns (t : Text) :
    collapseBlanks (withReturns t) = collapseBlanks t := by
  have hfrom : ∀ inRun, collapseFrom inRun (withReturns t) = collapseFrom inRun t := by
    induction t with
    | nil => exact fun _ => rfl
    | cons u t ih =>
      intro inRun
      by_cases hu : u = lineFeed
      · subst hu
        -- The carriage return starts the run of blanks, or goes on with it.
        have hbreaks : isBlank carriageReturn = true ∧ isBlank lineFeed = true := by decide
        simp only [withReturns_lineFeed, collapseFrom, hbreaks.1, hbreaks.2, if_true, ih]
      · rw [withReturns_cons hu, collapseFrom, collapseFrom, ih, ih]
  exact hfrom false

theorem isPrefixOf_withReturns {needle : Text} (hfeed : lineFeed ∉ needle)
    (hreturn : carriageReturn ∉ needle) (t : Text) :
    needle.isPrefixOf (withReturns t) = needle.isPrefixOf t := by
  induction needle generalizing t with
  | nil => simp
  | cons v needle ih =>
    rw [List.mem_cons, not_or] at hfeed hreturn
    cases t with
    | nil => rfl
    | cons u t =>
      by_cases hu : u = lineFeed
      · subst hu
        rw [withReturns_lineFeed, List.isPrefixOf_cons_cons, List.isPrefixOf_cons_cons,
          beq_eq_false_iff_ne.mpr (Ne.symm hreturn.1), beq_eq_false_iff_ne.mpr (Ne.symm hfeed.1)]
        rfl
      · rw [withReturns_cons hu, List.isPrefixOf_cons_cons, List.isPrefixOf_cons_cons,
          ih hfeed.2 hreturn.2]

theorem cut?_cons_of_not_mem {needle : Text} (hne : needle ≠ []) (hu : u ∉ needle) (t : Text) :
    cut? needle (u :: t) =
      (cut? needle t).map fun (before, after) => (u :: before, after) := by
  obtain ⟨v, more, rfl⟩ := List.exists_cons_of_ne_nil hne
  rw [List.mem_cons, not_or] at hu
  rw [cut?, List.isPrefixOf_cons_cons, beq_eq_false_iff_ne.mpr (Ne.symm hu.1), Bool.false_and,
    if_neg Bool.false_ne_true]

/-- A text without breaks is found at the same place. -/
theorem cut?_withReturns {needle : Text} (hne : needle ≠ []) (hfeed : lineFeed ∉ needle)
    (hreturn : carriageReturn ∉ needle) (t : Text) :
    cut? needle (withReturns t) =
      (cut? needle t).map fun (before, after) => (withReturns before, withReturns after) := by
  induction t with
  | nil =>
    have hempty : ¬needle.isEmpty = true := by simpa using hne
    rw [withReturns_nil, cut?, if_neg hempty]
    rfl
  | cons u t ih =>
    by_cases hu : u = lineFeed
    · subst hu
      rw [withReturns_lineFeed, cut?_cons_of_not_mem hne hreturn, cut?_cons_of_not_mem hne hfeed,
        cut?_cons_of_not_mem hne hfeed, ih]
      cases cut? needle t <;> rfl
    · have hstart := isPrefixOf_withReturns hfeed hreturn (u :: t)
      rw [withReturns_cons hu] at hstart ⊢
      rw [cut?, cut?, hstart, ih]
      split
      · rename_i hfound
        obtain ⟨tail, htail⟩ := List.isPrefixOf_iff_prefix.mp hfound
        rw [← withReturns_cons hu, ← htail, withReturns_append, withReturns_eq_self hfeed,
          List.drop_left, List.drop_left]
        rfl
      · cases cut? needle t with
        | none => rfl
        | some found => simp only [Option.map_some, withReturns_cons hu]

end Text

theorem Position.after_withReturns (p : Position) (t : Text) :
    p.after (withReturns t) = p.after t := by
  induction t generalizing p with
  | nil => rfl
  | cons u t ih =>
    by_cases hu : u = lineFeed
    · subst hu
      rw [withReturns_lineFeed, Position.after_cons, Position.after_cons, Position.after_cons, ih]
      rfl
    · rw [withReturns_cons hu, Position.after_cons, Position.after_cons, ih]

end LuaBundle
