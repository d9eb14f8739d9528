import LuaBundle.Source.Escape

/-! String literals between double quotes. Every quote, backslash and control character is written
as an escape, the ones without a letter with three decimal digits, so that a digit after them
cannot join them and every version of Lua reads the literal back. -/

namespace LuaBundle.Quoted

open Text

def isControl (u : UInt16) : Bool := u < 32 || u == 127

/-- A backslash and three decimal digits. -/
def numeric (u : UInt16) : Text := backslash :: padLeft 3 '0' (decimal u.toNat)

def encodeUnit (u : UInt16) : Text :=
  if u = backslash ∨ u = doubleQuote then [backslash, u]
  else if u = lineFeed then [backslash, 'n']
  else if u = carriageReturn then [backslash, 'r']
  else if u = 9 then [backslash, 't']
  else if isControl u then numeric u
  else [u]

def encode (t : Text) : Text := doubleQuote :: t.flatMap encodeUnit ++ [doubleQuote]

end LuaBundle.Quoted
