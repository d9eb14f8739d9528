import LuaBundle.Bundle.Basic
import LuaBundle.Proofs.Source.Quoted
import Mathlib.Data.List.Infix

/-! The statements of a bundle are read back from their text: the table that is assigned to, the
key, and the value. Only the texts of loaders, aliases and calls of a loader are statements. -/

namespace LuaBundle.Bundle

open Text

/-- The key of an element of a table at the start of a text, and the text after it. -/
def readElement? (table t : Text) : Option (Text × Text) := do
  let (key, t) ← Quoted.read? (← t.dropPrefix? (table ++ [leftBracket]))
  return (key, ← t.dropPrefix? [rightBracket])

namespace Statement

/-- What stands between the key and the body of a loader. -/
def loaderHead : Text :=
  ofString " = function(...) local require = " ++ requireFunction ++ [lineFeed]

def readLoader? (t : Text) : Option Statement := do
  let (key, t) ← readElement? moduleTable t
  return .loader key (← (← t.dropPrefix? loaderHead).dropSuffix? "\nend\n")

def readSynonym? (t : Text) : Option Statement := do
  let (name, t) ← readElement? aliasTable t
  let (key, t) ← Quoted.read? (← t.dropPrefix? " = ")
  if t = [lineFeed] then return .synonym name key else none

def readRun? (t : Text) : Option Statement := do
  let (key, t) ← readElement? moduleTable (← t.dropPrefix? "return ")
  if t = "(...)\n" then return .run key else none

/-- The statement that a text is. -/
def ofText? (t : Text) : Option Statement := readLoader? t <|> readSynonym? t <|> readRun? t

theorem dropPrefix?_append (s t : Text) : (s ++ t).dropPrefix? s = some t :=
  List.dropPrefix?_append_of_beq t (beq_self_eq_true s)

theorem readElement?_element (table key rest : Text) :
    readElement? table (element table (Quoted.encode key) ++ rest) = some (key, rest) := by
  have htext : element table (Quoted.encode key) ++ rest =
      (table ++ [leftBracket]) ++ (Quoted.encode key ++ ([rightBracket] ++ rest)) := by
    simp [element]
  simp only [readElement?, htext, dropPrefix?_append, Option.bind_eq_bind, Option.bind_some,
    Quoted.read?_encode]
  rfl

/-- A statement is read back from its text. -/
theorem ofText?_text (s : Statement) : ofText? s.text = some s := by
  cases s with
  | loader key body =>
    have htext : (loader key body).text =
        element moduleTable (Quoted.encode key) ++ (loaderHead ++ (body ++ "\nend\n")) := by
      simp [text, loaderHead]
    have hread : readLoader? (loader key body).text = some (.loader key body) := by
      rw [htext]
      simp only [readLoader?, readElement?_element, Option.bind_eq_bind, Option.bind_some,
        dropPrefix?_append]
      rw [List.dropSuffix?_eq_some_iff.mpr ⟨_, rfl, beq_self_eq_true _⟩]
      rfl
    rw [ofText?, hread]
    rfl
  | synonym name key =>
    have htext : (synonym name key).text = element aliasTable (Quoted.encode name) ++
        (ofString " = " ++ (Quoted.encode key ++ [lineFeed])) := by
      simp [text]
    have hloader : readLoader? (synonym name key).text = none := rfl
    have hread : readSynonym? (synonym name key).text = some (.synonym name key) := by
      rw [htext]
      simp only [readSynonym?, readElement?_element, Option.bind_eq_bind, Option.bind_some,
        dropPrefix?_append, Quoted.read?_encode, if_true]
      rfl
    rw [ofText?, hloader, hread]
    rfl
  | run key =>
    have htext : (run key).text =
        ofString "return " ++ (element moduleTable (Quoted.encode key) ++ "(...)\n") := by
      simp [text]
    have hloader : readLoader? (run key).text = none := rfl
    have hsynonym : readSynonym? (run key).text = none := rfl
    have hread : readRun? (run key).text = some (.run key) := by
      rw [htext]
      simp only [readRun?, readElement?_element, Option.bind_eq_bind, Option.bind_some,
        dropPrefix?_append, if_true]
      rfl
    rw [ofText?, hloader, hsynonym, hread]
    rfl

end Statement

end LuaBundle.Bundle
