import LuaBundle.Source.Escape

/-! The lexemes of a Lua source, as far as finding calls needs them: blanks, comments, words,
string literals, and every other unit by itself. A comment or string that is not closed is the
last lexeme and takes the rest of the text. Which lexeme starts at a place depends on nothing
before it, and the lexemes of a text make it up without loss (`lexemes_text`). -/

namespace LuaBundle

inductive Lexeme where
  | blank (unit : UInt16)
  | comment (text : Text)
  /-- A longest run of letters, digits and underscores. -/
  | word (text : Text)
  | quoted (quote : UInt16) (body : Text)
  | bracketed (level : Nat) (body : Text)
  | symbol (unit : UInt16)
  | openComment (text : Text)
  | openString (text : Text)
  deriving DecidableEq, Repr

namespace Lexeme

open Text

/-- The opening of a long bracket with `level` equality signs. -/
def opening (level : Nat) : Text := leftBracket :: List.replicate level equals ++ [leftBracket]

def closing (level : Nat) : Text := rightBracket :: List.replicate level equals ++ [rightBracket]

def text : Lexeme → Text
  | blank u => [u]
  | comment t => t
  | word t => t
  | quoted q body => q :: body ++ [q]
  | bracketed level body => opening level ++ body ++ closing level
  | symbol u => [u]
  | openComment t => t
  | openString t => t

/-- The level of a long bracket that opens at the start of a text, and what follows the opening. -/
def openingLevel? : Text → Option (Nat × Text)
  | [] => none
  | u :: rest =>
    if u = leftBracket then
      match rest.dropWhile (· == equals) with
      | [] => none
      | v :: after =>
        if v = leftBracket then some ((rest.takeWhile (· == equals)).length, after) else none
    else none

/-- The text up to the closing quote, and what follows the quote. A line feed that is not escaped
ends the search. -/
def quotedBody? (quote : UInt16) : Text → Option (Text × Text)
  | [] => none
  | u :: rest =>
    if u = quote then some ([], rest)
    else if u = lineFeed then none
    else if u = backslash then
      match quotedBody? quote (Escape.skip rest).2 with
      | some (body, after) => some (u :: (Escape.skip rest).1 ++ body, after)
      | none => none
    else
      match quotedBody? quote rest with
      | some (body, after) => some (u :: body, after)
      | none => none
termination_by t => t.length
decreasing_by
  · have := congrArg List.length (Escape.skip_append rest)
    simp only [List.length_append, List.length_cons] at this ⊢
    omega
  · simp

/-- The comment that two dashes start, given what follows them: a long bracket, or the rest of the
line with its line feed. -/
def readComment (t : Text) : Lexeme × Text :=
  match openingLevel? t with
  | some (level, rest) =>
    match cut? (closing level) rest with
    | some (body, after) =>
      (comment (dash :: dash :: opening level ++ body ++ closing level), after)
    | none => (openComment (dash :: dash :: t), [])
  | none =>
    match t.dropWhile (· != lineFeed) with
    | [] => (comment (dash :: dash :: t), [])
    | u :: after => (comment (dash :: dash :: t.takeWhile (· != lineFeed) ++ [u]), after)

/-- The lexeme that starts with `u` and stands before the returned text. -/
def read (u : UInt16) (rest : Text) : Lexeme × Text :=
  if isBlank u then (blank u, rest)
  else if isWordUnit u then (word (u :: rest.takeWhile isWordUnit), rest.dropWhile isWordUnit)
  else if u = doubleQuote ∨ u = singleQuote then
    match quotedBody? u rest with
    | some (body, after) => (quoted u body, after)
    | none => (openString (u :: rest), [])
  else if u = dash ∧ rest.head? = some dash then readComment rest.tail
  else
    match openingLevel? (u :: rest) with
    | some (level, inner) =>
      match cut? (closing level) inner with
      | some (body, after) => (bracketed level body, after)
      | none => (openString (u :: rest), [])
    | none => (symbol u, rest)

theorem openingLevel?_eq_some {t rest : Text} {level : Nat}
    (h : openingLevel? t = some (level, rest)) : opening level ++ rest = t := by
  cases t with
  | nil => simp [openingLevel?] at h
  | cons u t =>
    simp only [openingLevel?] at h
    split at h
    · rename_i hu
      split at h
      · simp at h
      · rename_i v after hd
        split at h
        · rename_i hv
          simp only [Option.some.injEq, Prod.mk.injEq] at h
          have hrun : t.takeWhile (· == equals) = List.replicate level equals := by
            rw [List.eq_replicate_iff]
            exact ⟨h.1, fun b hb => by
              simpa using List.all_eq_true.1 (List.all_takeWhile (l := t)) b hb⟩
          have ht := List.takeWhile_append_dropWhile (p := (· == equals)) (l := t)
          rw [hd, hrun, h.2, hv] at ht
          rw [← ht, opening, hu]
          simp
        · simp at h
    · simp at h

theorem quotedBody?_eq_some {quote : UInt16} {t body after : Text}
    (h : quotedBody? quote t = some (body, after)) : body ++ quote :: after = t := by
  fun_induction quotedBody? quote t generalizing body after with
  | case1 => simp at h
  | case2 rest =>
    simp only [Option.some.injEq, Prod.mk.injEq] at h
    simp [← h.1, ← h.2]
  | case3 => simp at h
  | case4 rest _ _ b a hb ih =>
    simp only [Option.some.injEq, Prod.mk.injEq] at h
    have hs := Escape.skip_append rest
    rw [← ih ‹_›, h.2] at hs
    rw [← h.1]
    simpa using hs
  | case5 => simp at h
  | case6 u rest _ _ _ b a hb ih =>
    simp only [Option.some.injEq, Prod.mk.injEq] at h
    rw [← h.1, ← h.2, List.cons_append, ih hb]
  | case7 => simp at h

theorem readComment_text (t : Text) :
    (readComment t).1.text ++ (readComment t).2 = dash :: dash :: t := by
  unfold readComment
  split
  · rename_i level rest h
    rw [← openingLevel?_eq_some h]
    split
    · rename_i body after hc
      rw [← cut?_eq_some hc]
      simp [text]
    · simp [text]
  · have ht := List.takeWhile_append_dropWhile (p := (· != lineFeed)) (l := t)
    split
    · rename_i hd
      simp [text]
    · rename_i v after hd
      rw [hd] at ht
      simp only [text, List.cons_append, List.append_assoc, List.nil_append, ht]

/-- A lexeme and what follows it are the text it was read from. -/
theorem read_text (u : UInt16) (rest : Text) :
    (read u rest).1.text ++ (read u rest).2 = u :: rest := by
  unfold read
  split
  · rfl
  · split
    · simp [text]
    · split
      · split
        · rename_i body after h
          rw [← quotedBody?_eq_some h]
          simp [text]
        · simp [text]
      · split
        · rename_i h
          rw [readComment_text]
          cases rest with
          | nil => simp at h
          | cons v rest => simpa using ⟨h.1.symm, by simpa using h.2.symm⟩
        · split
          · rename_i level inner h
            split
            · rename_i body after hc
              rw [← openingLevel?_eq_some h, ← cut?_eq_some hc]
              simp [text]
            · simp [text]
          · rfl

theorem text_read_ne_nil (u : UInt16) (rest : Text) : (read u rest).1.text ≠ [] := by
  unfold read readComment
  repeat' split
  all_goals simp [text, opening]

theorem length_read (u : UInt16) (rest : Text) : (read u rest).2.length ≤ rest.length := by
  have h := congrArg List.length (read_text u rest)
  have := List.length_pos_iff.2 (text_read_ne_nil u rest)
  simp only [List.length_append, List.length_cons] at h
  omega

end Lexeme

open Lexeme in
def lexemes : Text → List Lexeme
  | [] => []
  | u :: rest => (read u rest).1 :: lexemes (read u rest).2
termination_by t => t.length
decreasing_by
  have := length_read u rest
  simp only [List.length_cons]
  omega

/-- The lexemes of a text make it up. -/
theorem lexemes_text (t : Text) : (lexemes t).flatMap Lexeme.text = t := by
  fun_induction lexemes t with
  | case1 => rfl
  | case2 u rest ih => rw [List.flatMap_cons, ih, Lexeme.read_text]

end LuaBundle
