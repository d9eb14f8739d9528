import LuaBundle.Text.Basic

/-! Texts as reports show the values that they refuse: literals between quotes, whose escapes leave
no control character and no surrogate without its partner. A text that is too long for a line is
shown as the literals of its own lines, and no report shows more than a beginning. -/

namespace LuaBundle.Text

/-- The quotes around a text: of the kinds that it does not hold, single ones first, then double
ones. The last kind is not used either where a dollar sign stands before a brace. -/
def quoteFor (t : Text) : UInt16 :=
  if !t.contains singleQuote then singleQuote
  else if !t.contains doubleQuote then doubleQuote
  else if !t.contains 96 ∧ (cut? "$\x7b" t).isNone then 96
  else singleQuote

/-- A unit that has no partner, between quotes of the given kind. -/
def escapedUnit (quote u : UInt16) : Text :=
  if u = backslash ∨ u = quote then [backslash, u]
  else if u = lineFeed then [backslash, 'n']
  else if u = 9 then [backslash, 't']
  else if u = 8 then [backslash, 'b']
  else if u = 12 then [backslash, 'f']
  else if u = carriageReturn then [backslash, 'r']
  else if u < 32 ∨ 127 ≤ u ∧ u < 160 then
    backslash :: 'x' :: padLeft 2 '0' ((Nat.toDigits 16 u.toNat).map fun c => unit c.toUpper)
  else if isHighSurrogate u ∨ isLowSurrogate u then
    backslash :: 'u' :: (Nat.toDigits 16 u.toNat).map unit
  else [u]

def escaped (quote : UInt16) : Text → Text
  | [] => []
  | [u] => escapedUnit quote u
  | u :: v :: rest =>
    if isHighSurrogate u && isLowSurrogate v then u :: v :: escaped quote rest
    else escapedUnit quote u ++ escaped quote (v :: rest)

def literal (t : Text) : Text := quoteFor t :: escaped (quoteFor t) t ++ [quoteFor t]

/-- The lines of a text, each with the line feed that ends it. -/
def endedLines : Text → List Text
  | [] => []
  | u :: rest =>
    if u = lineFeed then [u] :: endedLines rest
    else match endedLines rest with
      | [] => [[u]]
      | line :: lines => (u :: line) :: lines

/-- The length from which on each line is shown by itself. -/
def longText : Nat := 77

/-- The length of the beginning of a text that decides what is shown. -/
def mostShown : Nat := 10000

/-- The greatest length that is shown whole. -/
def mostReported : Nat := 128

/-- The text of a refused value. -/
def shown (t : Text) : Text :=
  let t := t.take mostShown
  let s := if longText ≤ t.length then joinWith " +\n  " ((endedLines t).map literal) else literal t
  if mostReported < s.length then s.take mostReported ++ "..." else s

end LuaBundle.Text
