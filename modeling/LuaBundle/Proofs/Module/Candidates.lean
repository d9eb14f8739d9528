import LuaBundle.Proofs.Module.Choice
import LuaBundle.Proofs.Module.Key

/-! Where the candidates of a dotted name stand. Each dot becomes a slash, and slashes in a row
count as one, so that dots within a name or at its end only leave names out. A dot at its start is
another matter: it makes an absolute path of the name, and the root that is searched has no part in
that. -/

namespace LuaBundle

open Text

namespace Path

/-- Whether a path is below a directory: the way to it from there leads down only. -/
structure Inside (base root p : Text) : Prop where
  ne_nil : relative base root p ≠ []
  isAbsolute : isAbsolute (relative base root p) = false
  dots : [dot, dot] ∉ parts (relative base root p)

variable {base root : Text} {dir dir' names pieces : List Text}

/-- A path that has to lead up first is spelled with two dots. -/
theorem dots_mem_relative (hnames : IsNames names)
    (hdir : ¬walk (walk [] base) root <+: names) :
    [dot, dot] ∈ parts (relative base root (render names)) := by
  rw [relative, walk_render hnames]
  rw [← diverge_eq_nil_iff] at hdir
  obtain ⟨common, _, hdown⟩ := exists_diverge (walk (walk [] base) root) names
  generalize diverge (walk (walk [] base) root) names = way at hdir hdown
  obtain ⟨up, down⟩ := way
  obtain ⟨first, rest, rfl⟩ := List.exists_cons_of_ne_nil hdir
  have hnamed : IsNames down := fun n hn => hnames n (hdown ▸ List.mem_append_right _ hn)
  have hparts := parts_joinWith (by simp) ((isWay_dots (first :: rest)).append hnamed.isWay)
  rw [hparts]
  exact List.mem_cons_self

theorem inside_render_iff (hnames : IsNames names) :
    Inside base root (render names) ↔
      walk (walk [] base) root <+: names ∧ walk (walk [] base) root ≠ names := by
  constructor
  · intro h
    refine ⟨by_contra fun hdir => h.dots (dots_mem_relative hnames hdir), fun he => h.ne_nil ?_⟩
    have hsame := diverge_append names []
    rw [List.append_nil] at hsame
    rw [relative, walk_render hnames, he, hsame]
    rfl
  · rintro ⟨⟨rest, hrest⟩, hne⟩
    have hbelow : rest ≠ [] := by
      rintro rfl
      exact hne ((List.append_nil _).symm.trans hrest)
    have hdown : IsNames rest := fun name hname =>
      hnames name (hrest ▸ List.mem_append_right _ hname)
    have hrelative : relative base root (render names) = joinWith [slash] rest := by
      rw [relative, walk_render hnames, ← hrest, diverge_append]
      rfl
    have hparts := parts_joinWith hbelow hdown.isWay
    rw [← hrelative] at hparts
    refine ⟨fun hnil => ?_, hrelative ▸ isAbsolute_joinWith hdown.isWay, fun hdots => ?_⟩
    · rw [hnil] at hparts
      exact (hdown [] (hparts ▸ List.mem_cons_self)).ne_nil rfl
    · exact (hdown _ (hparts ▸ hdots)).ne_dots rfl

/-- Empty parts of a path lead nowhere. -/
theorem foldl_enter_filter (h : ∀ part ∈ pieces, part = [] ∨ IsName part) (dir : List Text) :
    pieces.foldl enter dir = dir ++ pieces.filter (· ≠ []) := by
  induction pieces generalizing dir with
  | nil => simp
  | cons part pieces ih =>
    obtain ⟨hpart, hpieces⟩ := List.forall_mem_cons.mp h
    rw [List.foldl_cons, ih hpieces]
    rcases hpart with rfl | hname
    · rw [enter, if_pos (.inl rfl), List.filter_cons_of_neg (by simp)]
    · rw [enter_of_isName hname, List.filter_cons_of_pos (by simpa using hname.ne_nil),
        List.append_assoc]
      rfl

end Path

namespace ModuleName

/-- The directories that are spelled by the parts of a name before its last dot. -/
def directories (name : Text) : List Text :=
  (splitOn (· == Text.dot) name).dropLast.filter (· ≠ [])

/-- Where the way to a candidate of a name begins, for a root. -/
def origin (name : Text) (root : List Text) : List Text :=
  if name.head? = some Text.dot then [] else root

variable {base root name ending last path : Text} {roots front : List Text}

theorem part_eq_nil_or_isName (h : slash ∉ name) {part : Text}
    (hpart : part ∈ splitOn (· == Text.dot) name) : part = [] ∨ Path.IsName part := by
  have hdot : Text.dot ∉ part := fun hdot =>
    absurd (forall_mem_splitOn _ name part hpart _ hdot) (by decide)
  have hslash : slash ∉ part := fun hslash =>
    h (joinWith_splitOn Text.dot name ▸ subset_joinWith _ hpart hslash)
  refine or_iff_not_imp_left.mpr fun hne => ⟨hne, ?_, ?_, hslash⟩
  · rintro rfl
    exact hdot List.mem_cons_self
  · rintro rfl
    exact hdot List.mem_cons_self

/-- The path of a name is absolute where the name begins with a dot. -/
theorem isAbsolute_relativePath (h : slash ∉ name) (hending : ending.head? ≠ some slash) :
    Path.isAbsolute (relativePath name ++ ending) = (name.head? == some Text.dot) := by
  have hslash : name.contains slash = false := by
    simpa using h
  rw [relativePath, hslash, if_neg (by simp)]
  cases name with
  | nil => simpa [Path.isAbsolute] using hending
  | cons u rest =>
    have hu : u ≠ slash := by
      rintro rfl
      exact h List.mem_cons_self
    by_cases hdot : u = Text.dot
    · simp [Path.isAbsolute, hdot]
    · simp [Path.isAbsolute, hdot, hu]

section Under

variable (h : slash ∉ name)

include h

/-- The names that a dotted name adds to a directory, with an ending after its last part. -/
theorem walk_relativePath (hsplit : splitOn (· == Text.dot) name = front ++ [last])
    (hhead : ending.head? ≠ some slash) (hlast : last ++ ending = [] ∨ Path.IsName (last ++ ending))
    (dir : List Text) :
    Path.walk dir (relativePath name ++ ending) =
      origin name dir ++ (directories name ++ [last ++ ending].filter (· ≠ [])) := by
  have hpieces : ∀ part ∈ front ++ [last ++ ending], part = [] ∨ Path.IsName part := by
    intro part hpart
    rcases List.mem_append.mp hpart with hpart | hpart
    · exact part_eq_nil_or_isName h (hsplit ▸ List.mem_append_left _ hpart)
    · exact List.mem_singleton.mp hpart ▸ hlast
  have hparts : Path.parts (relativePath name ++ ending) = front ++ [last ++ ending] := by
    rw [relativePath_eq h, hsplit, joinWith_concat_append]
    refine splitOn_joinWith (by decide) (by simp) fun part hpart u hu => ?_
    refine beq_eq_false_iff_ne.mpr ?_
    rintro rfl
    rcases hpieces part hpart with rfl | hpart
    · cases hu
    · exact hpart.slash hu
  rw [Path.walk, isAbsolute_relativePath h hhead, hparts, Path.foldl_enter_filter hpieces,
    List.filter_append, directories, hsplit, List.dropLast_concat, origin]
  simp only [beq_iff_eq]

theorem walk_ending (hsplit : splitOn (· == Text.dot) name = front ++ [last])
    (hending : IsEnding ending) (dir : List Text) :
    Path.walk dir (relativePath name ++ ending) =
      origin name dir ++ (directories name ++ [last ++ ending]) := by
  have hhead : ending.head? ≠ some slash := by
    rw [hending.head]
    decide
  have hlast : slash ∉ last := by
    have hpart : last ∈ splitOn (· == Text.dot) name := by simp [hsplit]
    rcases part_eq_nil_or_isName h hpart with rfl | hname
    · exact List.not_mem_nil
    · exact hname.slash
  have hname := hending.isName hlast
  have hkept : [last ++ ending].filter (· ≠ []) = [last ++ ending] := by
    rw [List.filter_eq_self]
    exact List.forall_mem_singleton.mpr (decide_eq_true hname.ne_nil)
  rw [walk_relativePath h hsplit hhead (.inr hname), hkept]

theorem walk_init (hsplit : splitOn (· == Text.dot) name = front ++ [last]) (dir : List Text) :
    Path.walk (Path.walk dir (relativePath name)) "init.lua" = origin name dir ++
      (directories name ++ ([last].filter (· ≠ []) ++ [ofString "init.lua"])) := by
  have hlast : last ++ [] = [] ∨ Path.IsName (last ++ []) := by
    rw [List.append_nil]
    exact part_eq_nil_or_isName h (hsplit ▸ by simp)
  have hwalk := walk_relativePath h hsplit (by simp) hlast dir
  rw [List.append_nil, List.append_nil] at hwalk
  have hinit : Path.IsNames [ofString "init.lua"] := by decide
  have henter := Path.walk_joinWith hinit
  simp only [joinWith_singleton] at henter
  rw [hwalk, henter, List.append_assoc, List.append_assoc]

/-- What a candidate has below the directories of its name. -/
theorem exists_candidate (hroot : Path.isAbsolute root = true)
    (hpath : path ∈ scriptsUnder base name root ++ nativesUnder base name root) :
    ∃ below ≠ [], Path.IsNames (origin name (Path.walk [] root) ++ (directories name ++ below)) ∧
      path = Path.render (origin name (Path.walk [] root) ++ (directories name ++ below)) := by
  obtain ⟨front, last, hsplit⟩ :=
    (List.eq_nil_or_concat (splitOn (· == Text.dot) name)).resolve_left (splitOn_ne_nil _ name)
  rw [List.concat_eq_append] at hsplit
  have hnames : Path.IsNames (Path.walk [] root) := Path.isNames_walk (by simp [Path.IsNames]) root
  have hending : ∀ ending, IsEnding ending → ∃ below ≠ [],
      Path.IsNames (origin name (Path.walk [] root) ++ (directories name ++ below)) ∧
      Path.resolve base [root, relativePath name ++ ending] =
        Path.render (origin name (Path.walk [] root) ++ (directories name ++ below)) := by
    intro ending hending
    refine ⟨[last ++ ending], by simp, ?_, ?_⟩
    · rw [← walk_ending h hsplit hending]
      exact Path.isNames_walk hnames _
    · rw [Path.resolve_of_isAbsolute hroot, ← walk_ending h hsplit hending]
      rfl
  rcases List.mem_append.mp hpath with hpath | hpath
  · rcases List.mem_cons.mp hpath with rfl | hpath
    · exact hending _ isEnding_lua
    · refine ⟨[last].filter (· ≠ []) ++ [ofString "init.lua"], by simp, ?_, ?_⟩
      · rw [← walk_init h hsplit]
        exact Path.isNames_walk (Path.isNames_walk hnames _) _
      · rw [List.mem_singleton.mp hpath, Path.resolve_of_isAbsolute hroot, ← walk_init h hsplit]
        rfl
  · obtain ⟨ending, hmem, rfl⟩ := List.mem_map.mp hpath
    have hall : ∀ ending ∈ nativeEndings, IsEnding ending := by decide
    exact hending _ (hall ending hmem)

/-- The candidates of a name that begins with a dot stand below the top, so that they are below a
root only if the name spells the way to it. -/
theorem inside_iff (hroot : Path.isAbsolute root = true) :
    (∀ path ∈ scriptsUnder base name root ++ nativesUnder base name root,
        Path.Inside base root path) ↔
      (name.head? = some Text.dot → Path.walk [] root <+: directories name) := by
  have hwalk := Path.walk_of_isAbsolute hroot (Path.walk [] base)
  constructor
  · intro hinside hdot
    obtain ⟨front, last, hsplit⟩ :=
      (List.eq_nil_or_concat (splitOn (· == Text.dot) name)).resolve_left (splitOn_ne_nil _ name)
    rw [List.concat_eq_append] at hsplit
    have hscript := hinside (Path.resolve base [root, relativePath name ++ ".lua"])
      (List.mem_append_left _ List.mem_cons_self)
    have hempty : Path.IsNames [] := by simp [Path.IsNames]
    have hnames := Path.isNames_walk (Path.isNames_walk hempty root) (relativePath name ++ ".lua")
    rw [Path.resolve_of_isAbsolute hroot, List.foldl_cons, List.foldl_nil,
      Path.inside_render_iff hnames, hwalk, walk_ending h hsplit isEnding_lua, origin, if_pos hdot,
      List.nil_append, List.prefix_concat_iff] at hscript
    exact hscript.1.resolve_left hscript.2
  · intro hbelow path hpath
    obtain ⟨below, hne, hnames, rfl⟩ := exists_candidate h hroot hpath
    have hwithin : Path.walk [] root <+:
        origin name (Path.walk [] root) ++ directories name := by
      rw [origin]
      split
      · exact hbelow ‹_›
      · exact List.prefix_append _ _
    rw [Path.inside_render_iff hnames, hwalk, ← List.append_assoc]
    refine ⟨hwithin.trans (List.prefix_append _ _), fun he => ?_⟩
    have hlength := hwithin.length_le
    have hpos := List.length_pos_iff.mpr hne
    have hsame := congrArg List.length he
    rw [List.length_append] at hsame
    omega

end Under

/-- Candidates are looked for under the roots in their order, and outside of one only for a name
that begins with a dot and does not spell the way to the root from the top. -/
theorem candidates_inside_iff (hname : slash ∉ name)
    (hroots : ∀ root ∈ roots, Path.isAbsolute root = true) :
    scriptCandidates base name roots = roots.flatMap (scriptsUnder base name) ∧
      nativeCandidates base name roots = roots.flatMap (nativesUnder base name) ∧
      ∀ root ∈ roots, (∀ path ∈ scriptsUnder base name root ++ nativesUnder base name root,
          Path.Inside base root path) ↔
        (name.head? = some Text.dot → Path.walk [] root <+: directories name) :=
  ⟨rfl, rfl, fun root hroot => inside_iff hname (hroots root hroot)⟩

/-- A name with dots wherever they can stand. Its candidates are below the first root, whose way it
spells, and outside of the second. -/
theorem candidates_dotted :
    (∀ path ∈ scriptsUnder "/" "..proj..net." "/proj" ++ nativesUnder "/" "..proj..net." "/proj",
        Path.Inside "/" "/proj" path) ∧
      ¬∀ path ∈ scriptsUnder "/" "..proj..net." "/lib" ++ nativesUnder "/" "..proj..net." "/lib",
        Path.Inside "/" "/lib" path := by
  obtain ⟨-, -, hinside⟩ := @candidates_inside_iff "/" "..proj..net." ["/proj", "/lib"]
    (by decide) (by decide)
  exact ⟨(hinside "/proj" (by decide)).mpr (by decide),
    fun hall => absurd ((hinside "/lib" (by decide)).mp hall) (by decide)⟩

end ModuleName

end LuaBundle
