import LuaBundle.Proofs.Bundle.Isolation
import Mathlib.Data.List.Indexes

/-! A written literal comes back from a scan. A text of calls with a literal each is scanned call by
call, and every site has the text that its literal was written for. -/

namespace LuaBundle.Bundle

open Text RequireSite

/-- A line that requires the module of a name. -/
def requireLine (name : Text) : Text := "require(" ++ Quoted.encode name ++ ")"

/-- A site for each name, one on a line, after `n` lines. -/
def literalSites (n : Nat) (names : List Text) : List RequireSite :=
  names.mapIdx fun i name => literal ⟨n + i + 1, 1⟩ name (Quoted.encode name)

theorem requireLine_append (name t : Text) :
    requireLine name ++ t =
      "require" ++ leftParen :: (Quoted.encode name ++ rightParen :: t) := by
  have hcall : ofString "require(" = "require" ++ [leftParen] := by decide
  rw [requireLine, hcall]
  simp only [List.append_assoc, List.cons_append, List.nil_append]
  rfl

theorem lineFeed_notMem_requireLine (name : Text) : lineFeed ∉ requireLine name := by
  have hcall : lineFeed ∉ ofString "require(" ∧ lineFeed ∉ ofString ")" := by decide
  simp only [requireLine, List.mem_append, not_or]
  exact ⟨⟨hcall.1, lineFeed_notMem_encode name⟩, hcall.2⟩

/-- After a call the name still means the global. -/
theorem precedesGlobal_call (h : History) : (h.push (.symbol rightParen)).precedesGlobal = true :=
  rfl

/-- One call: its site, and a history that the next call can follow. -/
theorem sitesFrom_requireLine {h : History} (hglobal : h.precedesGlobal = true) (p : Position)
    (name t : Text) :
    sitesFrom h p (requireLine name ++ t) = literal p name (Quoted.encode name) ::
      sitesFrom (h.push (.symbol rightParen)) (p.after (requireLine name)) t := by
  let body : Text := name.flatMap Quoted.encodeUnit
  have hlexemes : lexemes (leftParen :: (Quoted.encode name ++ rightParen :: t)) =
      [.symbol leftParen, .quoted doubleQuote body, .symbol rightParen] ++ lexemes t := by
    rw [lexemes_plainSymbol (by decide), apart_encode, lexemes_plainSymbol (by decide)]
    rfl
  have hafter : (p.after "require").after
      ([Lexeme.symbol leftParen, .quoted doubleQuote body, .symbol rightParen].flatMap
        Lexeme.text) = p.after (requireLine name) := by
    have htext := requireLine_append name []
    rw [List.append_nil] at htext
    rw [← Position.after_append, htext]
    rfl
  have hliteral : literal? (.quoted doubleQuote body) = some (name, Quoted.encode name) := by
    rw [literal?, Quoted.decode_flatMap_encodeUnit]
    rfl
  rw [requireLine_append, sitesFrom_require rfl, hlexemes, Token.place_append, hafter]
  have hread : ∀ ts, readCall p (Token.place (p.after "require")
      [.symbol leftParen, .quoted doubleQuote body, .symbol rightParen] ++ ts) =
        ⟨some (literal p name (Quoted.encode name)), some ts⟩ := by
    intro ts
    refine (readCall_symbol rfl).trans ?_
    rw [if_pos rfl, readArguments_of_literal rfl rfl hliteral]
    exact if_pos rfl
  rw [scanTokens_use ((if_pos ⟨rfl, hglobal⟩).trans (congrArg some (hread _)))]
  rfl

/-- Line by line, each call below the one before. -/
theorem sitesFrom_requireLines {h : History} (hglobal : h.precedesGlobal = true) (n : Nat)
    (names : List Text) (t : Text) :
    ∃ g : History, g.precedesGlobal = true ∧
      sitesFrom h (Position.start.down n) (lines (names.map requireLine) ++ t) =
        literalSites n names ++ sitesFrom g (Position.start.down (n + names.length)) t := by
  induction names generalizing h n with
  | nil => exact ⟨h, hglobal, rfl⟩
  | cons name names ih =>
    obtain ⟨g, hg, hrest⟩ := ih (precedesGlobal_call h) (n + 1)
    refine ⟨g, hg, ?_⟩
    have htext : lines ((name :: names).map requireLine) ++ t =
        requireLine name ++ lineFeed :: (lines (names.map requireLine) ++ t) := by
      simp [lines]
    have hline : ((Position.start.down n).after (requireLine name)).step lineFeed =
        Position.start.down (n + 1) := by
      have := Position.after_line (lineFeed_notMem_requireLine name) (Position.start.down n)
      rw [Position.after_append] at this
      rw [← Position.after_nil (Position.step _ _), ← Position.after_cons, this, Position.down]
      simp [Position.start, Position.down, Nat.add_comm]
    have hsites : literalSites n (name :: names) =
        literal (Position.start.down n) name (Quoted.encode name) ::
          literalSites (n + 1) names := by
      simp only [literalSites, List.mapIdx_cons, Position.start, Position.down]
      simp only [Nat.add_comm, Nat.add_left_comm]
    rw [htext, sitesFrom_requireLine hglobal, sitesFrom_lineFeed, hline, hrest, hsites,
      List.length_cons, Nat.add_right_comm, Nat.add_assoc]
    rfl

theorem head?_requireLine (name t : Text) : (requireLine name ++ t).head? ≠ some hash := by
  rw [requireLine_append]
  exact (by decide : some (unit 'r') ≠ some hash)

theorem scan_requireLines (names : List Text) :
    scan (lines (names.map requireLine)) = literalSites 0 names := by
  have hhead : (lines (names.map requireLine)).head? ≠ some hash := by
    cases names with
    | nil => simp [lines]
    | cons name names =>
      rw [List.map_cons, lines, List.flatMap_cons, List.append_assoc]
      exact head?_requireLine name _
  obtain ⟨g, _, hscan⟩ := sitesFrom_requireLines (h := .empty) rfl 0 names []
  rw [List.append_nil, Silent.nil.sitesFrom_eq_nil, List.append_nil] at hscan
  rw [scan_eq hhead]
  exact hscan

/-- The last line may do without its line feed. -/
theorem scan_joinWith_requireLines (names : List Text) :
    scan (joinWith [lineFeed] (names.map requireLine)) = literalSites 0 names := by
  rcases List.eq_nil_or_concat names with rfl | ⟨front, last, rfl⟩
  · exact scan_requireLines []
  rw [List.concat_eq_append, List.map_append, List.map_singleton, joinWith_concat]
  have hhead : (lines (front.map requireLine) ++ requireLine last).head? ≠ some hash := by
    cases front with
    | nil =>
      have := head?_requireLine last []
      rwa [List.append_nil] at this
    | cons name front =>
      rw [List.map_cons, lines, List.flatMap_cons, List.append_assoc, List.append_assoc]
      exact head?_requireLine name _
  obtain ⟨g, hg, hfront⟩ :=
    sitesFrom_requireLines (h := .empty) rfl 0 front (requireLine last)
  have hlast := sitesFrom_requireLine hg (Position.start.down (0 + front.length)) last []
  rw [List.append_nil, Silent.nil.sitesFrom_eq_nil] at hlast
  have hsites : literalSites 0 (front ++ [last]) =
      literalSites 0 front ++
        [literal (Position.start.down (0 + front.length)) last (Quoted.encode last)] := by
    rw [literalSites, List.mapIdx_append, List.mapIdx_singleton, literalSites]
    simp [Position.start, Position.down, Nat.add_comm]
  rw [scan_eq hhead, hsites, ← hlast]
  exact hfront

/-- A literal is written in printable units. -/
theorem printable_encode (t : Text) : ∀ u ∈ Quoted.encode t, 32 ≤ u ∧ u ≠ 127 := by
  intro u hu
  simpa [Quoted.isControl] using Quoted.printable_encode t u hu

theorem encode_injective : Function.Injective Quoted.encode := by
  intro s t h
  have hs := Quoted.read?_encode s []
  rw [h, Quoted.read?_encode] at hs
  exact (Prod.mk.inj (Option.some.inj hs)).1.symm

/-- The literals of any names are scanned to those names, each on its line. A literal is printable,
stands for one text only, and ends with its last quote, whatever follows it. -/
theorem scan_literals (names : List Text) :
    (scan (joinWith [lineFeed] (names.map requireLine)) =
        names.mapIdx fun i name => literal ⟨i + 1, 1⟩ name (Quoted.encode name)) ∧
      (scan (lines (names.map requireLine)) =
        names.mapIdx fun i name => literal ⟨i + 1, 1⟩ name (Quoted.encode name)) ∧
      Function.Injective Quoted.encode ∧
      ∀ t : Text, (∀ u ∈ Quoted.encode t, 32 ≤ u ∧ u ≠ 127) ∧
        ∃ body, Quoted.encode t = doubleQuote :: body ++ [doubleQuote] ∧
          Escape.decode body = t ∧ ∀ rest : Text,
            Lexeme.quotedBody? doubleQuote (body ++ doubleQuote :: rest) = some (body, rest) := by
  have hsites : literalSites 0 names =
      names.mapIdx fun i name => literal ⟨i + 1, 1⟩ name (Quoted.encode name) := by
    simp only [literalSites, Nat.zero_add]
  refine ⟨?_, ?_, encode_injective, fun t => ⟨printable_encode t, _, rfl,
    Quoted.decode_flatMap_encodeUnit t, Quoted.quotedBody?_flatMap_encodeUnit t⟩⟩
  · rw [scan_joinWith_requireLines, hsites]
  · rw [scan_requireLines, hsites]

end LuaBundle.Bundle
