import LuaBundle.Proofs.Bundle.Isolation
import LuaBundle.Proofs.Source.ByteOrderMark
import LuaBundle.Proofs.Text.Unbroken

/-! What a reader of a bundle sees of its header. Whatever stands in keys and paths, their lines are
comments to the last unit, and a scan starts after them as it starts. The version is not written as
they are: what follows a line feed in it is code. -/

namespace LuaBundle

open Text Lexeme

/-- A comment that ends with its line, wherever a reader sees a line end. -/
def IsLineComment (t : Text) : Prop :=
  ∃ body, t = dash :: dash :: body ∧ OpensNone body ∧ Unbroken body

theorem opensNone_space (t : Text) : OpensNone (space :: t) := by
  rintro level ⟨rest, hrest⟩
  rw [opening, List.cons_append] at hrest
  exact absurd (List.cons.inj hrest).1 (by decide)

/-- A text that starts as the lines of a header do. -/
theorem isLineComment_iff {t : Text} (h : [dash, dash, space] <+: t) :
    IsLineComment t ↔ Unbroken t := by
  obtain ⟨rest, rfl⟩ := h
  have hdashes : ∀ body : Text, Unbroken (dash :: dash :: body) ↔ Unbroken body := fun body =>
    (@unbroken_append [dash, dash] body).trans (and_iff_right (by decide))
  constructor
  · rintro ⟨body, htext, _, hbroken⟩
    rw [htext]
    exact (hdashes body).mpr hbroken
  · exact fun hbroken => ⟨space :: rest, rfl, opensNone_space rest, (hdashes _).mp hbroken⟩

namespace RequireSite

/-- A line after two dashes and a space, with its line feed. -/
theorem Apart.line_comment {t : Text} (hdashes : [dash, dash, space] <+: t)
    (hline : lineFeed ∉ t) : Apart (t ++ [lineFeed]) [.comment (t ++ [lineFeed])] := by
  obtain ⟨body, rfl⟩ := hdashes
  have hbody : IsLine (space :: body) :=
    ⟨fun hmem => hline (List.mem_append_right [dash, dash] hmem), opensNone_space body⟩
  exact fun rest => lexemes_comment (.line hbody) rest

/-- A scan finds in a text as many lines further down what it finds in it. -/
theorem sitesFrom_down (h : History) (p : Position) (n : Nat) (t : Text) :
    sitesFrom h (p.down n) t = (sitesFrom h p t).map (down n) := by
  rw [sitesFrom, ← Token.map_move_place (Position.after_down n p), sitesFrom,
    scanTokens_moved _ (.refl h)]
  rfl

end RequireSite

namespace Bundle

open RequireSite

theorem count_lines {ts : List Text} (h : ∀ t ∈ ts, lineFeed ∉ t) :
    (lines ts).count lineFeed = ts.length := by
  induction ts with
  | nil => rfl
  | cons t ts ih =>
    obtain ⟨ht, hts⟩ := List.forall_mem_cons.mp h
    rw [lines, List.flatMap_cons, List.count_append, ← lines, ih hts, List.count_append,
      List.count_eq_zero_of_not_mem ht, List.count_singleton_self, List.length_cons, Nat.zero_add,
      Nat.add_comm]

theorem apart_lines {ts : List Text} (hdashes : ∀ t ∈ ts, [dash, dash, space] <+: t)
    (hlines : ∀ t ∈ ts, lineFeed ∉ t) :
    Apart (lines ts) (ts.map fun t => .comment (t ++ [lineFeed])) := by
  induction ts with
  | nil => exact .nil
  | cons t ts ih =>
    obtain ⟨hdashed, hdashes⟩ := List.forall_mem_cons.mp hdashes
    obtain ⟨hline, hlines⟩ := List.forall_mem_cons.mp hlines
    exact (Apart.line_comment hdashed hline).append (ih hdashes hlines)

variable {version : Text} {manifest : Manifest}

theorem unbroken_of_printable {t : Text} (h : Quoted.Printable t) : Unbroken t := by
  refine unbroken_iff.mpr ⟨fun hmem => ?_, fun hmem => ?_⟩
  · exact absurd (h _ hmem) (by decide)
  · exact absurd (h _ hmem) (by decide)

/-- The line of a module is a comment to its end, whatever its key and its path. -/
theorem isLineComment_headerLine (e : ManifestEntry) : IsLineComment (headerLine e) :=
  (isLineComment_iff ⟨_, rfl⟩).mpr (unbroken_of_printable (printable_headerLine e))

theorem isLineComment_headerLines :
    (∀ t ∈ headerLines version manifest, IsLineComment t) ↔ Unbroken version := by
  constructor
  · intro h
    have hmem : ofString "-- Bundled by luastitch " ++ version ∈ headerLines version manifest :=
      List.mem_cons_self
    have hfirst := (isLineComment_iff (dashes_headerLines _ hmem)).mp (h _ hmem)
    exact (unbroken_append.mp hfirst).2
  · intro h t ht
    rw [isLineComment_iff (dashes_headerLines t ht)]
    obtain ⟨hfeed, hreturn⟩ := unbroken_iff.mp h
    exact unbroken_iff.mpr
      ⟨notMem_headerLines (by decide) hfeed t ht, notMem_headerLines (by decide) hreturn t ht⟩

/-- The lines of a header that follow the one with the version. -/
def listing (manifest : Manifest) : Text := lines (headerLines [] manifest).tail

theorem headerLines_eq_cons (version : Text) (manifest : Manifest) :
    headerLines version manifest =
      (ofString "-- Bundled by luastitch " ++ version) :: (headerLines [] manifest).tail := rfl

theorem header_append (version : Text) (manifest : Manifest) :
    header version manifest =
      ofString "-- Bundled by luastitch " ++ version ++ lineFeed :: listing manifest := by
  rw [header_eq, headerLines_eq_cons, lines, List.flatMap_cons, ← lines, ← listing,
    List.append_assoc, List.singleton_append]

theorem head?_header (version : Text) (manifest : Manifest) (b : Text) :
    (header version manifest ++ b).head? ≠ some hash := by
  rw [header_append]
  exact (by decide : some dash ≠ some hash)

/-- What stands before a line feed in the version is a comment by itself. -/
theorem header_cut {v w : Text} (hline : lineFeed ∉ v) (manifest : Manifest) :
    ∃ first, lineFeed ∉ first ∧ Apart (first ++ [lineFeed]) [.comment (first ++ [lineFeed])] ∧
      header (v ++ lineFeed :: w) manifest =
        first ++ [lineFeed] ++ (w ++ lineFeed :: listing manifest) := by
  have hfixed : lineFeed ∉ ofString "-- Bundled by luastitch " := by decide +kernel
  have hfirst : lineFeed ∉ ofString "-- Bundled by luastitch " ++ v := by
    rw [List.mem_append, not_or]
    exact ⟨hfixed, hline⟩
  refine ⟨_, hfirst, .line_comment ⟨_, rfl⟩ hfirst, ?_⟩
  rw [header_append]
  simp only [List.append_assoc, List.cons_append, List.nil_append]

/-- A header is read as comments, one for each line, just if the version is on one line. -/
theorem apart_header :
    Apart (header version manifest)
        ((headerLines version manifest).map fun t => .comment (t ++ [lineFeed])) ↔
      lineFeed ∉ version := by
  constructor
  · intro h hmem
    obtain ⟨v, w, rfl, hline⟩ := List.eq_append_cons_of_mem hmem
    obtain ⟨first, hfirst, hapart, hcut⟩ := @header_cut v w hline manifest
    have hlexemes := h []
    rw [hcut, List.append_assoc, hapart, headerLines_eq_cons, List.map_cons,
      List.cons_append] at hlexemes
    -- The comment that is read ends with the first line feed, the line of the version later.
    have hsame : first ++ [lineFeed] = _ ++ [lineFeed] :=
      Lexeme.comment.inj (List.cons.inj hlexemes).1
    rw [List.append_cancel_right hsame] at hfirst
    exact hfirst (List.mem_append_right _ hmem)
  · intro h
    rw [header_eq]
    exact apart_lines dashes_headerLines (notMem_headerLines (by decide) h)

theorem count_header (h : lineFeed ∉ version) :
    (header version manifest).count lineFeed = manifest.length + 3 := by
  rw [header_eq, count_lines (notMem_headerLines (by decide) h)]
  simp [headerLines]

/-- A header is lines, one for each module between the fixed ones, and the line of a module is a
comment to its end. So are all of them just if the version is on one line. A version without a line
feed leaves a scan of what follows as it is, as many lines further down as the header has. In any
other version, what follows its first line feed is scanned as code. -/
theorem scan_header (version : Text) (manifest : Manifest) :
    header version manifest = lines ((ofString "-- Bundled by luastitch " ++ version) ::
      ofString "-- Embedded modules:" :: manifest.map headerLine ++
        [ofString "-- WARNING: Do not modify this file manually"]) ∧
    (∀ e, IsLineComment (headerLine e)) ∧
    ((∀ t ∈ headerLines version manifest, IsLineComment t) ↔ Unbroken version) ∧
    (Apart (header version manifest)
        ((headerLines version manifest).map fun t => .comment (t ++ [lineFeed])) ↔
      lineFeed ∉ version) ∧
    (lineFeed ∉ version → ∀ b : Text, b.head? ≠ some hash →
      scan (header version manifest ++ b) =
        (scan b).map (down ((header version manifest).count lineFeed))) ∧
    ∀ v w, version = v ++ lineFeed :: w → lineFeed ∉ v → ∀ b,
      scan (header version manifest ++ b) =
        (sitesFrom .empty .start (w ++ lineFeed :: (listing manifest ++ b))).map (down 1) := by
  refine ⟨header_eq version manifest, isLineComment_headerLine, isLineComment_headerLines,
    apart_header, fun hversion b hb => ?_, ?_⟩
  · have hpasses : ((headerLines version manifest).map fun t =>
        Lexeme.comment (t ++ [lineFeed])).all passes = true := by
      rw [List.all_map]
      exact List.all_eq_true.mpr fun _ _ => rfl
    have hgaps : ∀ l ∈ (headerLines version manifest).map fun t =>
        Lexeme.comment (t ++ [lineFeed]), l.isGap = true :=
      List.forall_mem_map.mpr fun _ _ => rfl
    rw [scan_eq (head?_header version manifest b),
      sitesFrom_append (apart_header.mpr hversion) hpasses, History.pushAll_gap hgaps,
      after_header hversion, sitesFrom_down, scan_eq hb, count_header hversion]
  · rintro v w rfl hline b
    obtain ⟨first, hfirst, hapart, hcut⟩ := @header_cut v w hline manifest
    have hnext : Position.start.after (first ++ [lineFeed]) = Position.start.down 1 :=
      Position.after_line hfirst _
    rw [scan_eq (head?_header _ _ _), hcut, List.append_assoc, sitesFrom_append hapart rfl, hnext,
      ← sitesFrom_down, List.append_assoc, List.cons_append]
    rfl

/-- A header with a key on two lines, and one whose version goes on with a line of code. -/
theorem scan_header_injected :
    (lineFeed ∉ ofString "1.0" ∧ ("require 'x'" : Text).head? ≠ some hash ∧
      scan (header "1.0" [⟨"a\nb", "/p/main.lua"⟩] ++ "require 'x'") =
        [literal ⟨5, 1⟩ "x" "'x'"]) ∧
    (lineFeed ∉ ofString "1" ∧
      scan (header (ofString "1" ++ lineFeed :: "require 'x'") [⟨"main", "/p/main.lua"⟩] ++
        "return 1") = [literal ⟨2, 1⟩ "x" "'x'"] ∧
      scan "return 1" = []) := by
  have hclean : lineFeed ∉ ofString "1.0" := by decide
  have hhead : ("require 'x'" : Text).head? ≠ some hash := by decide
  have hfirst : lineFeed ∉ ofString "1" := by decide
  obtain ⟨-, -, -, -, hscan, -⟩ := scan_header "1.0" [⟨"a\nb", "/p/main.lua"⟩]
  obtain ⟨-, -, -, -, -, hcode⟩ :=
    scan_header (ofString "1" ++ lineFeed :: "require 'x'") [⟨"main", "/p/main.lua"⟩]
  refine ⟨⟨hclean, hhead, ?_⟩, hfirst, ?_, by decide +kernel⟩
  · rw [hscan hclean _ hhead, count_header hclean]
    decide +kernel
  · rw [hcode _ _ rfl hfirst]
    decide +kernel

end Bundle

end LuaBundle
