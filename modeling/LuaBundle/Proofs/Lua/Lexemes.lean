import LuaBundle.Proofs.Lua.Numeral
import LuaBundle.Proofs.Lua.Strings

/-! The lexemes of a source that splits into pieces: each piece has lexemes of its own, and those of
the source are theirs, one after the other. Names, comments and literals are one lexeme each;
operators and numerals fall apart. -/

namespace LuaBundle.Lua

open Text

def Piece.lexemes : Piece → List Lexeme
  | blank u => [.blank u]
  | comment t => [.comment t]
  | name t => [.word t]
  | numeral t => LuaBundle.lexemes t
  | quoted q body => [.quoted q body]
  | bracketed level body => [.bracketed level body]
  | operator t => t.map .symbol

def lexemesOf (ps : List Piece) : List Lexeme := ps.flatMap Piece.lexemes

@[simp] theorem lexemesOf_nil : lexemesOf [] = [] := rfl

@[simp] theorem lexemesOf_cons (p : Piece) (ps : List Piece) :
    lexemesOf (p :: ps) = p.lexemes ++ lexemesOf ps := rfl

theorem lexemesOf_append (ps qs : List Piece) :
    lexemesOf (ps ++ qs) = lexemesOf ps ++ lexemesOf qs := List.flatMap_append

theorem Piece.lexemes_text (p : Piece) : p.lexemes.flatMap Lexeme.text = p.text := by
  cases p with
  | numeral t => exact LuaBundle.lexemes_text t
  | operator t =>
    change (t.map Lexeme.symbol).flatMap Lexeme.text = t
    rw [List.flatMap_map]
    exact List.flatMap_singleton' t
  | _ => simp [Piece.lexemes, Piece.text, Lexeme.text]

theorem lexemes_plainSymbols {op after : Text} (h : op.all isPlainSymbol = true) :
    lexemes (op ++ after) = op.map .symbol ++ lexemes after := by
  induction op with
  | nil => rfl
  | cons u op ih =>
    simp only [List.all_cons, Bool.and_eq_true] at h
    rw [List.cons_append, lexemes_plainSymbol h.1, ih h.2]
    rfl

/-- An operator falls apart into symbols. A dash before another and a bracket that opens a literal
are no operators. -/
theorem lexemes_readOperator? {u : UInt16} {rest after : Text} {p : Piece}
    (h : readOperator? (u :: rest) = some (p, after))
    (hdash : ¬(u = dash ∧ rest.head? = some dash))
    (hbracket : Lexeme.openingLevel? (u :: rest) = none) :
    lexemes (u :: rest) = p.lexemes ++ lexemes after := by
  obtain ⟨op, hop, rfl, htext⟩ := readOperator?_eq_some h
  have hall : ∀ op ∈ operators, op = [dash] ∨ op = [leftBracket] ∨
      op.all isPlainSymbol = true := by decide +kernel
  rcases hall op hop with rfl | rfl | hplain
  · obtain ⟨rfl, rfl⟩ := List.cons.inj htext
    exact lexemes_dash fun hhead => hdash ⟨rfl, hhead⟩
  · obtain ⟨rfl, rfl⟩ := List.cons.inj htext
    rw [lexemes, Lexeme.read_symbol (by decide) (by decide) (by decide) hdash hbracket]
    rfl
  · rw [htext]
    exact lexemes_plainSymbols hplain

/-- The first piece of a source has its own lexemes, whatever follows it. -/
theorem lexemes_read? {u : UInt16} {rest after : Text} {p : Piece}
    (h : read? u rest = some (p, after)) : lexemes (u :: rest) = p.lexemes ++ lexemes after := by
  have htext := read?_text h
  rcases read?_cases h with ⟨rfl, hblank, rfl⟩ | hnumeral | ⟨rfl, hword, rfl⟩ |
    ⟨body, rfl, hquote, hbody⟩ | ⟨tail, rfl, rfl, hcomment⟩ |
    ⟨level, inner, body, rfl, rfl, hopening, hcut⟩ | ⟨hoperator, hdash, hopening⟩
  · rw [lexemes, Lexeme.read, if_pos (isBlank_of_isAsciiBlank hblank)]
    rfl
  · obtain ⟨n, rfl, hn, hafter⟩ := readNumeral?_eq_some hnumeral
    rw [← htext]
    exact (lexemes_numeral hn).1 after hafter
  · rw [lexemes, Lexeme.read_word hword]
    rfl
  · have hblank : isBlank u = false := by rcases hquote with rfl | rfl <;> decide
    have hword : isWordUnit u = false := by rcases hquote with rfl | rfl <;> decide
    rw [lexemes, Lexeme.read, hblank, hword, if_neg Bool.false_ne_true, if_neg Bool.false_ne_true,
      if_pos hquote, quotedBody?_of_stringBody? hquote hbody]
    rfl
  · obtain ⟨c, rfl, hc, _⟩ := readComment?_eq_some hcomment
    rw [lexemes, Lexeme.read, if_neg (by decide), if_neg (by decide), if_neg (by decide),
      if_pos ⟨rfl, rfl⟩, List.tail_cons, hc]
    rfl
  · have hdash : ¬(leftBracket = dash ∧ rest.head? = some dash) := fun hd => absurd hd.1 (by decide)
    rw [lexemes, Lexeme.read, if_neg (by decide), if_neg (by decide), if_neg (by decide),
      if_neg hdash, hopening]
    simp only [hcut]
    rfl
  · exact lexemes_readOperator? hoperator hdash hopening

theorem lexemes_pieces? {t : Text} {ps : List Piece} (h : pieces? t = some ps) :
    lexemes t = lexemesOf ps := by
  fun_induction pieces? t generalizing ps with
  | case1 =>
    obtain rfl := Option.some.inj h
    rw [lexemes]
    rfl
  | case2 => cases h
  | case3 u rest p after hread ih =>
    obtain ⟨qs, hqs, rfl⟩ := Option.map_eq_some_iff.mp h
    rw [lexemes_read? hread, ih hqs]
    rfl

end LuaBundle.Lua
