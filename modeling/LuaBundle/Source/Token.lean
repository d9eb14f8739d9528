import LuaBundle.Source.Lexeme
import LuaBundle.Source.Position

/-! Lexemes at their places in a source, and the two ways to pass over a run of them: to the next
one that is neither blank nor comment, and to the bracket that closes an open one. -/

namespace LuaBundle

structure Token where
  lexeme : Lexeme
  position : Position
  deriving DecidableEq, Repr

namespace Token

/-- Lexemes in a row, the first of them at `p`. -/
def place (p : Position) : List Lexeme → List Token
  | [] => []
  | lexeme :: rest => ⟨lexeme, p⟩ :: place (p.after lexeme.text) rest

def source (ts : List Token) : Text := ts.flatMap fun t => t.lexeme.text

/-- The rest of the line that tokens start in, without blanks around it. -/
def restOfLine (ts : List Token) : Text := Text.trim (Text.firstLine (source ts))

/-- The tokens from the first that is neither blank nor comment; none where a comment is not
closed. -/
def significant? : List Token → Option (List Token)
  | [] => some []
  | t :: rest =>
    match t.lexeme with
    | .blank _ | .comment _ => significant? rest
    | .openComment _ => none
    | _ => some (t :: rest)

/-- The tokens up to the `close` that ends the bracket open at depth `depth`, and the tokens after
it; none where it is not closed. -/
def balanced? (opener close : UInt16) (depth : Nat) : List Token → Option (List Token × List Token)
  | [] => none
  | t :: rest =>
    match t.lexeme with
    | .openComment _ | .openString _ => none
    | .symbol u =>
      if u = close then
        match depth with
        | 0 => some ([], rest)
        | depth + 1 => (balanced? opener close depth rest).map fun (inside, after) =>
          (t :: inside, after)
      else
        (balanced? opener close (if u = opener then depth + 1 else depth) rest).map
          fun (inside, after) => (t :: inside, after)
    | _ => (balanced? opener close depth rest).map fun (inside, after) => (t :: inside, after)

theorem length_significant? {ts us : List Token} (h : significant? ts = some us) :
    us.length ≤ ts.length := by
  induction ts with
  | nil => simp_all [significant?]
  | cons t rest ih =>
    simp only [significant?] at h
    split at h
    · have := ih h
      simp only [List.length_cons]
      omega
    · have := ih h
      simp only [List.length_cons]
      omega
    · simp at h
    · simp [← Option.some.inj h]

theorem length_balanced? {opener close : UInt16} {depth : Nat} {ts inside after : List Token}
    (h : balanced? opener close depth ts = some (inside, after)) : after.length < ts.length := by
  induction ts generalizing depth inside after with
  | nil => simp [balanced?] at h
  | cons t rest ih =>
    have step : ∀ {d}, (balanced? opener close d rest).map
        (fun (inside, after) => (t :: inside, after)) = some (inside, after) →
        after.length < (t :: rest).length := by
      intro d hd
      obtain ⟨⟨i, a⟩, hb, he⟩ := Option.map_eq_some_iff.1 hd
      have := ih hb
      simp only [Prod.mk.injEq] at he
      simp only [List.length_cons, ← he.2]
      omega
    simp only [balanced?] at h
    split at h
    · simp at h
    · simp at h
    · split at h
      · split at h
        · simp only [Option.some.injEq, Prod.mk.injEq] at h
          simp [h.2]
        · exact step h
      · exact step h
    · exact step h

end Token

end LuaBundle
