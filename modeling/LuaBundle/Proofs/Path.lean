import LuaBundle.Path

/-! Absolute paths in normal form. Such a path is spelled by its names, which are found in it again;
its parent has all of them but the last. -/

namespace LuaBundle

open Text

namespace Text

variable {sep : UInt16 → Bool} {s : Text}

theorem splitOn_of_forall (hs : ∀ u ∈ s, sep u = false) : splitOn sep s = [s] := by
  induction s with
  | nil => rfl
  | cons u s ih =>
    obtain ⟨hu, hs⟩ := List.forall_mem_cons.mp hs
    rw [splitOn, hu, ih hs]
    rfl

theorem splitOn_append (hs : ∀ u ∈ s, sep u = false) {v : UInt16} (hv : sep v = true) (t : Text) :
    splitOn sep (s ++ v :: t) = s :: splitOn sep t := by
  induction s with
  | nil => rw [List.nil_append, splitOn, if_pos hv]
  | cons u s ih =>
    obtain ⟨hu, hs⟩ := List.forall_mem_cons.mp hs
    rw [List.cons_append, splitOn, hu, ih hs]
    rfl

theorem forall_mem_splitOn (sep : UInt16 → Bool) (t : Text) :
    ∀ part ∈ splitOn sep t, ∀ u ∈ part, sep u = false := by
  induction t with
  | nil => simp [splitOn]
  | cons u rest ih =>
    rw [splitOn]
    split
    · exact List.forall_mem_cons.mpr ⟨by simp, ih⟩
    · rename_i hu
      split
      · simpa using hu
      · rename_i part parts hsplit
        rw [hsplit] at ih
        obtain ⟨hpart, hparts⟩ := List.forall_mem_cons.mp ih
        exact List.forall_mem_cons.mpr
          ⟨List.forall_mem_cons.mpr ⟨Bool.eq_false_iff.mpr hu, hpart⟩, hparts⟩

end Text

namespace Path

/-- A part of a path that names an entry. -/
structure IsName (part : Text) : Prop where
  ne_nil : part ≠ []
  ne_dot : part ≠ [dot]
  ne_dots : part ≠ [dot, dot]
  slash : slash ∉ part

instance (part : Text) : Decidable (IsName part) :=
  decidable_of_iff (part ≠ [] ∧ part ≠ [dot] ∧ part ≠ [dot, dot] ∧ slash ∉ part)
    ⟨fun h => ⟨h.1, h.2.1, h.2.2.1, h.2.2.2⟩, fun h => ⟨h.ne_nil, h.ne_dot, h.ne_dots, h.slash⟩⟩

def IsNames (names : List Text) : Prop := ∀ name ∈ names, IsName name

instance (names : List Text) : Decidable (IsNames names) :=
  List.decidableBAll IsName names

variable {names dir : List Text} {name : Text}

theorem parts_append {s : Text} (hs : slash ∉ s) (hnames : IsNames names) :
    parts (s ++ names.flatMap (slash :: ·)) = s :: names := by
  have hapart : ∀ {t : Text}, slash ∉ t → ∀ u ∈ t, (u == slash) = false := fun ht u hu =>
    beq_eq_false_iff_ne.mpr fun he => ht (he ▸ hu)
  induction names generalizing s with
  | nil => rw [List.flatMap_nil, List.append_nil, parts, splitOn_of_forall (hapart hs)]
  | cons name names ih =>
    obtain ⟨hname, hnames⟩ := List.forall_mem_cons.mp hnames
    have hrest := ih hname.slash hnames
    rw [parts] at hrest ⊢
    rw [List.flatMap_cons, List.cons_append, splitOn_append (hapart hs) (by rfl), hrest]

theorem render_eq (hne : names ≠ []) : render names = names.flatMap (slash :: ·) := by
  obtain ⟨name, rest, rfl⟩ := List.exists_cons_of_ne_nil hne
  rfl

theorem render_concat (names : List Text) (name : Text) :
    render (names ++ [name]) = names.flatMap (slash :: ·) ++ slash :: name := by
  rw [render_eq (by simp), List.flatMap_append]
  simp

theorem isAbsolute_render (names : List Text) : isAbsolute (render names) = true := by
  cases names <;> rfl

theorem parts_render (hne : names ≠ []) (hnames : IsNames names) :
    parts (render names) = [] :: names := by
  rw [render_eq hne]
  exact parts_append (s := []) (by simp) hnames

theorem parts_render_concat (hne : names ≠ []) (hnames : IsNames (names ++ [name])) :
    parts (render (names ++ [name])) = parts (render names) ++ [name] := by
  rw [parts_render (by simp) hnames, parts_render hne fun n hn => hnames n (by simp [hn])]
  rfl

theorem enter_of_isName (h : IsName name) (dir : List Text) : enter dir name = dir ++ [name] := by
  rw [enter, if_neg (not_or.mpr ⟨h.ne_nil, h.ne_dot⟩), if_neg h.ne_dots]

theorem foldl_enter (hnames : IsNames names) (dir : List Text) :
    names.foldl enter dir = dir ++ names := by
  induction names generalizing dir with
  | nil => simp
  | cons name names ih =>
    obtain ⟨hname, hnames⟩ := List.forall_mem_cons.mp hnames
    rw [List.foldl_cons, enter_of_isName hname, ih hnames, List.append_assoc]
    rfl

theorem walk_of_isAbsolute {root : Text} (hroot : isAbsolute root = true) (dir : List Text) :
    walk dir root = walk [] root := by
  rw [walk, walk, if_pos hroot, if_pos hroot]

/-- The names of a path are found in its spelling. -/
theorem walk_render (hnames : IsNames names) (dir : List Text) :
    walk dir (render names) = names := by
  rw [walk, isAbsolute_render, if_pos rfl]
  by_cases hne : names = []
  · subst hne
    rfl
  · rw [parts_render hne hnames, List.foldl_cons]
    exact foldl_enter hnames []

/-- What names spell has no shorter spelling. -/
theorem normalize_render (hnames : IsNames names) : normalize (render names) = render names := by
  rcases List.eq_nil_or_concat names with rfl | ⟨front, name, rfl⟩
  · rfl
  rw [List.concat_eq_append] at hnames ⊢
  have hname : IsName name := hnames name (by simp)
  have hwalk := walk_render hnames []
  rw [walk, ite_self] at hwalk
  obtain ⟨before, last, rfl⟩ := (List.eq_nil_or_concat name).resolve_left hname.ne_nil
  have hlast : (render (front ++ [before.concat last])).getLast? ≠ some slash := by
    rw [render_concat, List.concat_eq_append, List.append_cons, ← List.append_assoc,
      List.getLast?_concat]
    exact fun he => hname.slash (by simp [Option.some.inj he])
  rw [normalize, if_neg hlast, isAbsolute_render, if_pos rfl, hwalk]
  split
  · rename_i hnil
    simp at hnil
  · exact List.append_nil _

theorem join_render (hne : names ≠ []) (hnames : IsNames (names ++ [name])) :
    join [render names, name] = render (names ++ [name]) := by
  have hname : IsName name := hnames name (by simp)
  have hrender : render names ≠ [] := by
    obtain ⟨first, rest, rfl⟩ := List.exists_cons_of_ne_nil hne
    simp [render]
  have hkept : [render names, name].filter (!·.isEmpty) = [render names, name] := by
    simp [hrender, hname.ne_nil]
  have hspelled : joinWith [slash] [render names, name] = render (names ++ [name]) := by
    rw [render_concat, ← render_eq hne]
    simp [joinWith]
  rw [join, hkept, hspelled, normalize_render hnames]

theorem isNames_enter (hdir : IsNames dir) {part : Text} (hpart : slash ∉ part) :
    IsNames (enter dir part) := by
  unfold enter
  split
  · exact hdir
  · rename_i hplain
    rw [not_or] at hplain
    split
    · exact fun n hn => hdir n (List.dropLast_subset _ hn)
    · rename_i hdots
      intro n hn
      rcases List.mem_append.mp hn with hn | hn
      · exact hdir n hn
      · rw [List.mem_singleton.mp hn]
        exact ⟨hplain.1, hplain.2, hdots, hpart⟩

theorem isNames_walk (hdir : IsNames dir) (p : Text) : IsNames (walk dir p) := by
  have hparts : ∀ part ∈ parts p, slash ∉ part := fun part hpart hslash =>
    absurd (forall_mem_splitOn _ p part hpart _ hslash) (by decide)
  have hfold : ∀ (ps : List Text) (dir : List Text), IsNames dir → (∀ part ∈ ps, slash ∉ part) →
      IsNames (ps.foldl enter dir) := by
    intro ps
    induction ps with
    | nil => exact fun dir hdir _ => hdir
    | cons part ps ih =>
      intro dir hdir hps
      obtain ⟨hpart, hps⟩ := List.forall_mem_cons.mp hps
      exact ih _ (isNames_enter hdir hpart) hps
  rw [walk]
  refine hfold _ _ ?_ hparts
  split
  · simp [IsNames]
  · exact hdir

/-- A resolved path is spelled by names. -/
theorem exists_resolve (base p : Text) : ∃ names, IsNames names ∧ resolve base [p] = render names :=
  ⟨_, isNames_walk (isNames_walk (by simp [IsNames]) base) p, rfl⟩

/-- A path from an absolute one does not depend on where both are taken from. -/
theorem resolve_of_isAbsolute {root : Text} (hroot : isAbsolute root = true) (base : Text)
    (ps : List Text) : resolve base (root :: ps) = render (ps.foldl walk (walk [] root)) := by
  rw [resolve, List.foldl_cons, walk_of_isAbsolute hroot]

theorem withoutTrailing_append {s : Text} (h : IsName name) :
    withoutTrailing (s ++ name) = s ++ name := by
  obtain ⟨front, last, rfl⟩ := List.eq_nil_or_concat name |>.resolve_left h.ne_nil
  rw [List.concat_eq_append] at h ⊢
  have hlast : (last == slash) = false :=
    beq_eq_false_iff_ne.mpr fun he => h.slash (by simp [he])
  rw [withoutTrailing, ← List.append_assoc, List.reverse_concat, List.dropWhile_cons_of_neg (by
    simp [hlast]), ← List.reverse_concat, List.reverse_reverse]

theorem lastPart_append {s : Text} (h : IsName name) : lastPart (s ++ slash :: name) = name := by
  have hbody : withoutTrailing (s ++ slash :: name) = s ++ slash :: name := by
    have := @withoutTrailing_append name (s ++ [slash]) h
    simpa using this
  have hname : ∀ u ∈ name.reverse, (u != slash) = true := by
    intro u hu
    exact bne_iff_ne.mpr fun he => h.slash (he ▸ List.mem_reverse.mp hu)
  rw [lastPart, hbody, List.reverse_append, List.reverse_cons, List.append_assoc,
    List.takeWhile_append_of_pos hname]
  simp

/-- The parent of a path has all of its names but the last. -/
theorem parent_render (hnames : IsNames (names ++ [name])) :
    parent (render (names ++ [name])) = render names := by
  have hname : IsName name := hnames name (by simp)
  have hbody : withoutTrailing (render (names ++ [name])) = render (names ++ [name]) := by
    have := @withoutTrailing_append name (names.flatMap (slash :: ·) ++ [slash]) hname
    rw [render_concat]
    simpa using this
  have hlast : lastPart (render (names ++ [name])) = name := by
    rw [render_concat]
    exact lastPart_append hname
  have hbefore : (render (names ++ [name])).take
      ((render (names ++ [name])).length - name.length) =
        names.flatMap (slash :: ·) ++ [slash] := by
    rw [render_concat, List.append_cons, List.length_append, Nat.add_sub_cancel]
    exact List.take_left
  have hne : render (names ++ [name]) ≠ [] := by simp [render_concat]
  rw [parent]
  simp only [hbody, hlast, hbefore, if_neg hne]
  cases names with
  | nil => rfl
  | cons first rest =>
    have hfirst : IsName first := hnames first (by simp)
    obtain ⟨u, t, rfl⟩ := List.exists_cons_of_ne_nil hfirst.ne_nil
    have hu : u ≠ slash := fun he => hfirst.slash (by simp [he])
    rw [if_neg (by simp), if_neg (by simp [hu]), List.dropLast_concat]
    rfl

/-- The root is its own parent. -/
theorem parent_render_dropLast (hnames : IsNames names) :
    parent (render names) = render names.dropLast := by
  rcases List.eq_nil_or_concat names with rfl | ⟨front, last, rfl⟩
  · rfl
  · rw [List.concat_eq_append] at hnames ⊢
    rw [parent_render hnames, List.dropLast_concat]

end Path

end LuaBundle
