import LuaBundle.Number.Shortest
import LuaBundle.Source.Position

/-! What users are told about a failure: a numbered message, where it arose, and what to do. -/

namespace LuaBundle

open Text

inductive Severity where
  | error
  | warning
  | info
  deriving DecidableEq, Repr

namespace Severity

def text : Severity → Text
  | error => "error"
  | warning => "warning"
  | info => "info"

end Severity

/-- A place that a diagnostic points to. Whoever reports it numbers the lines and columns. -/
structure SourceLocation where
  file : Text
  line : Number
  column : Number
  deriving DecidableEq, Repr

namespace SourceLocation

def ofPosition (file : Text) (p : Position) : SourceLocation := ⟨file, p.line, p.column⟩

/-- The file and the line, with a colon between them. -/
def lineText (l : SourceLocation) : Text := l.file ++ colon :: l.line.text

def text (l : SourceLocation) : Text := l.lineText ++ colon :: l.column.text

end SourceLocation

structure Diagnostic where
  code : Text
  severity : Severity
  message : Text
  location : Option SourceLocation
  hint : Option Text
  deriving DecidableEq, Repr

namespace Diagnostic

/-- An error that no single place in a source stands for. -/
def error (code message : Text) (hint : Option Text) : Diagnostic :=
  ⟨code, .error, message, none, hint⟩

def isError (d : Diagnostic) : Bool := d.severity = .error

/-- The hint as it is shown; an empty one is not. -/
def shownHint (d : Diagnostic) : List Text :=
  match d.hint with
  | none | some [] => []
  | some hint => [ofString "Hint: " ++ hint]

def text (d : Diagnostic) : Text :=
  joinWith [space]
    ((d.location.map SourceLocation.text).toList ++
      [d.severity.text ++ space :: d.code ++ [colon], d.message] ++ d.shownHint)

end Diagnostic

end LuaBundle
