import LuaBundle.Manifest
import LuaBundle.Module.Name
import LuaBundle.Proofs.Relative
import Mathlib.Data.List.TakeWhile

/-! The key of a file undoes the way from a dotted name to the file: a script for the name `a.b` is
`a/b.lua` or `a/b/init.lua` below a root, and the key of either is `a.b` again. -/

namespace LuaBundle

open Text

namespace Path

variable {name : Text}

theorem lastPart_of_isName (h : IsName name) : lastPart name = name := by
  have hbody : withoutTrailing name = name := withoutTrailing_append (s := []) h
  have hname : ∀ u ∈ name.reverse, (u != slash) = true := by
    intro u hu
    refine bne_iff_ne.mpr ?_
    rintro rfl
    exact h.slash (List.mem_reverse.mp hu)
  rw [lastPart, hbody, List.takeWhile_eq_self_iff.mpr hname, List.reverse_reverse]

/-- A last name that ends in a suffix, and is more than it, is named without it. -/
theorem baseName_eq {suffix p stem : Text} (hlast : lastPart p = stem ++ suffix) (hstem : stem ≠ [])
    (hsuffix : suffix ≠ []) (hlength : (stem ++ suffix).length ≤ p.length) :
    baseName suffix p = stem := by
  have hpos : 0 < stem.length := List.length_pos_iff.mpr hstem
  rw [List.length_append] at hlength
  have hne : stem ++ suffix ≠ suffix := fun he => by
    have := congrArg List.length he
    rw [List.length_append] at this
    omega
  have hp : p ≠ suffix := fun he => by
    rw [he] at hlength
    omega
  have hlong : ¬((stem ++ suffix).length < suffix.length ∧
      (stem ++ suffix).isSuffixOf suffix = true) := by
    rintro ⟨hshort, _⟩
    rw [List.length_append] at hshort
    omega
  rw [baseName, hlast, if_neg (not_or.mpr ⟨hsuffix, by omega⟩), if_neg hp, if_neg hlong, if_neg hne,
    dropSuffix_append]

end Path

namespace ModuleName

/-- A part of a name that may name a directory or a file. -/
structure IsSegment (s : Text) : Prop where
  ne_nil : s ≠ []
  dot : dot ∉ s
  slash : slash ∉ s
  backslash : backslash ∉ s

/-- A name whose parts between dots may name directories and a file, and that is not the longer name
of a directory. -/
structure IsDotted (name : Text) : Prop where
  segments : ∀ s ∈ splitOn (· == Text.dot) name, s ≠ [] ∧ slash ∉ s ∧ backslash ∉ s
  last : (splitOn (· == Text.dot) name).getLast? = some (ofString "init") →
    splitOn (· == Text.dot) name = [ofString "init"]

variable {name s : Text} {dir : List Text}

theorem IsSegment.isName (h : IsSegment s) : Path.IsName s := by
  refine ⟨h.ne_nil, ?_, ?_, h.slash⟩
  · rintro rfl
    exact h.dot List.mem_cons_self
  · rintro rfl
    exact h.dot List.mem_cons_self

/-- What is put after a name to make the name of a file. -/
structure IsEnding (ending : Text) : Prop where
  head : ending.head? = some Text.dot
  slash : slash ∉ ending
  more : ∃ u ∈ ending, u ≠ Text.dot

instance (ending : Text) : Decidable (IsEnding ending) :=
  decidable_of_iff
    (ending.head? = some Text.dot ∧ Text.slash ∉ ending ∧ ∃ u ∈ ending, u ≠ Text.dot)
    ⟨fun h => ⟨h.1, h.2.1, h.2.2⟩, fun h => ⟨h.head, h.slash, h.more⟩⟩

theorem IsEnding.isName {ending : Text} (h : IsEnding ending) (hs : Text.slash ∉ s) :
    Path.IsName (s ++ ending) := by
  obtain ⟨u, hu, hother⟩ := h.more
  have hmem : u ∈ s ++ ending := List.mem_append_right _ hu
  refine ⟨List.ne_nil_of_mem hmem, ?_, ?_, fun hslash => ?_⟩
  · intro he
    rw [he] at hmem
    exact hother (List.mem_singleton.mp hmem)
  · intro he
    rw [he] at hmem
    simp [hother] at hmem
  · exact (List.mem_append.mp hslash).elim hs h.slash

theorem isEnding_lua : IsEnding ".lua" := by decide

/-- The name of a script. -/
theorem isName_lua (h : slash ∉ s) : Path.IsName (s ++ ".lua") := isEnding_lua.isName h

/-- The dots of a name become slashes. -/
theorem relativePath_eq (h : slash ∉ name) :
    relativePath name = joinWith [slash] (splitOn (· == Text.dot) name) := by
  have hslash : name.contains slash = false := by
    simpa using h
  have hkept : ∀ s ∈ splitOn (· == Text.dot) name, ∀ u ∈ s,
      (if u = Text.dot then slash else u) = u := by
    intro s hs u hu
    apply if_neg
    rintro rfl
    exact absurd (forall_mem_splitOn _ name s hs _ hu) (by decide)
  calc relativePath name
    _ = name.map fun u => if u = Text.dot then slash else u := by
      rw [relativePath, hslash, if_neg (by simp)]
    _ = (joinWith [Text.dot] (splitOn (· == Text.dot) name)).map fun u =>
        if u = Text.dot then slash else u := by rw [joinWith_splitOn]
    _ = joinWith [slash] (splitOn (· == Text.dot) name) := map_joinWith _ hkept

namespace IsDotted

variable (h : IsDotted name)

include h

theorem isSegment : ∀ s ∈ splitOn (· == Text.dot) name, IsSegment s := by
  intro s hs
  obtain ⟨hne, hslash, hbackslash⟩ := h.segments s hs
  refine ⟨hne, fun hdot => ?_, hslash, hbackslash⟩
  exact absurd (forall_mem_splitOn _ name s hs _ hdot) (by decide)

theorem slash_notMem : slash ∉ name := by
  intro hslash
  rw [← joinWith_splitOn Text.dot name] at hslash
  rcases mem_joinWith hslash with hdot | ⟨s, hs, hmem⟩
  · exact absurd hdot (by decide)
  · exact (h.isSegment s hs).slash hmem

theorem not_isRelative : isRelative name = false := by
  have hprefix : ∀ start : Text, slash ∈ start → start.isPrefixOf name = false := by
    intro start hstart
    rw [Bool.eq_false_iff]
    intro hpre
    exact h.slash_notMem ((List.isPrefixOf_iff_prefix.mp hpre).subset hstart)
  rw [isRelative, hprefix _ (by decide), hprefix _ (by decide)]
  rfl

/-- A script for a name stands below a root, in the directories of the name, under the last part of
it or as `init.lua`. -/
theorem mem_scriptCandidates {base found : Text} (hdir : Path.IsNames dir)
    (hfound : found ∈ scriptCandidates base name [Path.render dir]) :
    ∃ front last, (splitOn (· == Text.dot) name = front ++ [last] ∨
        splitOn (· == Text.dot) name = front ∧ last = ofString "init") ∧
      found = Path.render (dir ++ (front ++ [last ++ ".lua"])) := by
  obtain ⟨front, last, hsplit⟩ :=
    (List.eq_nil_or_concat (splitOn (· == Text.dot) name)).resolve_left (splitOn_ne_nil _ name)
  rw [List.concat_eq_append] at hsplit
  have hnames : Path.IsNames (front ++ [last]) := fun s hs =>
    (h.isSegment s (hsplit ▸ hs)).isName
  have hscript : Path.IsNames (front ++ [last ++ ".lua"]) := by
    intro s hs
    rcases List.mem_append.mp hs with hs | hs
    · exact hnames s (List.mem_append_left _ hs)
    · rw [List.mem_singleton.mp hs]
      exact isName_lua (hnames last (by simp)).slash
  have hroot : Path.walk (Path.walk [] base) (Path.render dir) = dir := Path.walk_render hdir _
  rw [scriptCandidates, List.flatMap_singleton, relativePath_eq h.slash_notMem,
    hsplit] at hfound
  rcases List.mem_cons.mp hfound with rfl | hfound
  · refine ⟨front, last, .inl hsplit, ?_⟩
    rw [Path.resolve, List.foldl_cons, List.foldl_cons, List.foldl_nil, hroot,
      joinWith_concat_append, Path.walk_joinWith hscript]
  · refine ⟨front ++ [last], "init", .inr ⟨hsplit, rfl⟩, ?_⟩
    rw [List.mem_singleton.mp hfound, Path.resolve, List.foldl_cons, List.foldl_cons,
      List.foldl_cons, List.foldl_nil, hroot, Path.walk_joinWith hnames]
    have hinit : Path.IsNames [ofString "init.lua"] := by decide
    have hwalk := Path.walk_joinWith hinit (dir ++ (front ++ [last]))
    rw [joinWith_singleton] at hwalk
    rw [hwalk, List.append_assoc]
    rfl

end IsDotted

end ModuleName

namespace ModuleKey

variable {front : List Text} {last : Text}

/-- The names of the path of a script, without its ending. -/
theorem segments_joinWith
    (h : ∀ s ∈ front ++ [last], s ≠ [] ∧ s ≠ [dot] ∧ slash ∉ s ∧ backslash ∉ s) :
    segments (joinWith [slash] (front ++ [last ++ ".lua"])) = front ++ [last] := by
  rw [segments, ← joinWith_concat_append, dropSuffix_append, splitOn_joinWith (by decide) (by simp),
    List.filter_eq_self.mpr]
  · intro s hs
    obtain ⟨hne, hdot, _⟩ := h s hs
    simp [hne, hdot]
  · intro s hs u hu
    obtain ⟨_, _, hslash, hbackslash⟩ := h s hs
    rw [Bool.or_eq_false_iff, beq_eq_false_iff_ne, beq_eq_false_iff_ne]
    constructor
    · rintro rfl
      exact hslash hu
    · rintro rfl
      exact hbackslash hu

/-- The key of a script below the directory of the entry. -/
theorem ofPath_joinWith (h : ∀ s ∈ front ++ [last], ModuleName.IsSegment s) :
    ofPath (joinWith [slash] (front ++ [last ++ ".lua"])) =
      joinWith [dot] (if front ≠ [] ∧ last = ofString "init" then front else front ++ [last]) := by
  have hsegments : segments (joinWith [slash] (front ++ [last ++ ".lua"])) = front ++ [last] := by
    apply segments_joinWith
    intro s hs
    have hs := h s hs
    exact ⟨hs.ne_nil, hs.isName.ne_dot, hs.slash, hs.backslash⟩
  have hdots : (front ++ [last]).contains [dot, dot] = false := by
    rw [Bool.eq_false_iff, Ne, List.contains_iff_mem]
    intro hmem
    exact (h _ hmem).dot List.mem_cons_self
  rw [ofPath, hsegments]
  simp only [hdots, Bool.false_eq_true, if_false, List.getLast?_concat, List.dropLast_concat,
    List.length_append, List.length_singleton, Option.some.injEq]
  simp only [Nat.lt_add_left_iff_pos, List.length_pos_iff]

/-- A script that a dotted name stands for in the directory of the entry has the name as its key. -/
theorem keyBeside_script {base entry found name : Text} {dir : List Text}
    (hname : ModuleName.IsDotted name) (hdir : Path.IsNames dir)
    (hentry : Path.parent entry = Path.render dir)
    (hfound : found ∈ ModuleName.scriptCandidates base name [Path.parent entry]) :
    Manifest.keyBeside base entry found = name := by
  rw [hentry] at hfound
  obtain ⟨front, last, hsplit, rfl⟩ := hname.mem_scriptCandidates hdir hfound
  have hsegments : ∀ s ∈ front ++ [last], ModuleName.IsSegment s := by
    rcases hsplit with hsplit | ⟨rfl, rfl⟩
    · exact fun s hs => hname.isSegment s (hsplit ▸ hs)
    · intro s hs
      rcases List.mem_append.mp hs with hs | hs
      · exact hname.isSegment s hs
      · rw [List.mem_singleton.mp hs]
        exact ⟨by decide, by decide, by decide, by decide⟩
  have hnames : Path.IsNames (dir ++ (front ++ [last ++ ".lua"])) := by
    intro s hs
    rcases List.mem_append.mp hs with hs | hs
    · exact hdir s hs
    rcases List.mem_append.mp hs with hs | hs
    · exact (hsegments s (List.mem_append_left _ hs)).isName
    · rw [List.mem_singleton.mp hs]
      exact ModuleName.isName_lua (hsegments last (by simp)).slash
  have hkept : (if front ≠ [] ∧ last = ofString "init" then front else front ++ [last]) =
      splitOn (· == dot) name := by
    rcases hsplit with hsplit | ⟨rfl, rfl⟩
    · rw [hsplit, if_neg]
      rintro ⟨hfront, rfl⟩
      have honly := hname.last (by rw [hsplit, List.getLast?_concat])
      rw [hsplit] at honly
      exact hfront (List.append_eq_singleton_iff.mp honly |>.resolve_right (by simp)).1
    · exact if_pos ⟨splitOn_ne_nil _ name, rfl⟩
  rw [Manifest.keyBeside, hentry, Path.relative_render hnames, ofPath_joinWith hsegments, hkept,
    joinWith_splitOn]

/-- The key of an entry is its name without the ending, in both ways of making keys. -/
theorem keyBeside_entry {base stem : Text} {dir : List Text}
    (hnames : Path.IsNames (dir ++ [stem ++ ".lua"])) (hstem : stem ≠ [])
    (hdot : stem ≠ [dot]) (hbackslash : backslash ∉ stem) :
    Manifest.keyBeside base (Path.render (dir ++ [stem ++ ".lua"]))
        (Path.render (dir ++ [stem ++ ".lua"])) =
      ofEntry (Path.render (dir ++ [stem ++ ".lua"])) := by
  have hname : Path.IsName (stem ++ ".lua") := hnames _ (by simp)
  have hslash : slash ∉ stem := fun hmem => hname.slash (List.mem_append_left _ hmem)
  have hlast : Path.lastPart (Path.render (dir ++ [stem ++ ".lua"])) = stem ++ ".lua" := by
    rw [Path.render_concat]
    exact Path.lastPart_append hname
  have hofEntry : ofEntry (Path.render (dir ++ [stem ++ ".lua"])) = stem := by
    apply Path.baseName_eq hlast hstem (by decide)
    rw [Path.render_concat, List.append_cons]
    exact (List.suffix_append _ _).length_le
  have hofPath : ofPath (stem ++ ".lua") = stem := by
    have hsegments : segments (stem ++ ".lua") = [stem] := by
      have hsingle := @segments_joinWith [] stem (by simpa using ⟨hstem, hdot, hslash, hbackslash⟩)
      rwa [List.nil_append, joinWith_singleton] at hsingle
    rw [ofPath, hsegments]
    simp only [List.length_singleton, Nat.lt_irrefl, false_and, if_false, joinWith_singleton]
    split
    · exact Path.baseName_eq (Path.lastPart_of_isName hname) hstem (by decide) (Nat.le_refl _)
    · rfl
  rw [Manifest.keyBeside, Path.parent_render hnames, Path.relative_render hnames,
    joinWith_singleton, hofPath, hofEntry]

end ModuleKey

end LuaBundle
