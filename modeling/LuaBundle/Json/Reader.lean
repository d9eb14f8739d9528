import LuaBundle.Json.Basic
import LuaBundle.Number.Binary

/-! Reading JSON by the strict grammar of RFC 8259: no comments, no trailing commas, no byte order
mark, blanks only of the four kinds. -/

namespace LuaBundle.Json

open Text

/-- What is wrong where a text stops being JSON. -/
inductive Cause where
  | unexpected
  | noDigitAfterMinus
  deriving DecidableEq

structure ReadError where
  cause : Cause
  /-- The text from the fault on; empty at the end of the input. -/
  rest : Text
  deriving DecidableEq

abbrev Reading (α : Type) := Except ReadError (α × Text)

def unexpectedAt {α : Type} (rest : Text) : Reading α := .error ⟨.unexpected, rest⟩

def isSpace (u : UInt16) : Bool := u == space || u == 9 || u == lineFeed || u == carriageReturn

def skipSpaces (t : Text) : Text := t.dropWhile isSpace

def readName : Text → Text → Reading Unit
  | [], t => .ok ((), t)
  | n :: name, u :: t => if u = n then readName name t else unexpectedAt (u :: t)
  | _ :: _, [] => unexpectedAt []

def letterEscape? (u : UInt16) : Option UInt16 :=
  if u = doubleQuote ∨ u = backslash ∨ u = slash then some u
  else if u = 'b' then some 8
  else if u = 'f' then some 12
  else if u = 'n' then some lineFeed
  else if u = 'r' then some carriageReturn
  else if u = 't' then some 9
  else none

/-- The rest of a string, after its opening quote. -/
def readString : Text → Reading Text
  | [] => unexpectedAt []
  | u :: rest =>
    if u = doubleQuote then .ok ([], rest)
    else if u < 32 then unexpectedAt (u :: rest)
    else if u = backslash then
      match rest with
      | [] => unexpectedAt []
      | v :: after =>
        match letterEscape? v with
        | some w => (readString after).map fun (t, r) => (w :: t, r)
        | none =>
          if v = 'u' then
            match after with
            | a :: b :: c :: d :: after =>
              if [a, b, c, d].all isHexDigit then
                (readString after).map fun (t, r) =>
                  ((digitsValue 16 [a, b, c, d]).toUInt16 :: t, r)
              else unexpectedAt after
            | _ => unexpectedAt []
          else unexpectedAt (v :: after)
    else (readString rest).map fun (t, r) => (u :: t, r)

def readDigits (t : Text) : Reading Text :=
  match t.takeWhile isDigit with
  | [] => unexpectedAt t
  | digits => .ok (digits, t.dropWhile isDigit)

def readFraction : Text → Reading Text
  | [] => .ok ([], [])
  | u :: rest => if u = dot then readDigits rest else .ok ([], u :: rest)

def readExponent : Text → Reading Int
  | [] => .ok (0, [])
  | u :: rest =>
    if u = 'e' ∨ u = 'E' then
      let (negative, rest) : Bool × Text :=
        match rest with
        | [] => (false, [])
        | v :: after => if v = dash then (true, after)
          else if v = '+' then (false, after) else (false, v :: after)
      (readDigits rest).map fun (digits, r) =>
        (if negative then -(digitsValue 10 digits : Int) else digitsValue 10 digits, r)
    else .ok (0, u :: rest)

def readUnsigned (negative : Bool) (t : Text) : Except ReadError (Number × Text) := do
  let (whole, t) ←
    match t with
    | [] => unexpectedAt []
    | u :: rest => if u = '0' then .ok ([u], rest) else readDigits (u :: rest)
  let (fraction, t) ← readFraction t
  let (exponent, t) ← readExponent t
  .ok (Number.ofDecimal negative (digitsValue 10 (whole ++ fraction)) (exponent - fraction.length),
    t)

def readNumber : Text → Reading Number
  | [] => unexpectedAt []
  | u :: rest =>
    if u = dash then
      if (rest.head?.map isDigit).getD false then readUnsigned true rest
      else .error ⟨.noDigitAfterMinus, rest⟩
    else readUnsigned false (u :: rest)

mutual

/-- A value at the start of a text without leading blanks. The fuel bounds the steps; twice the
length of the text is enough. -/
def readValue : Nat → Text → Reading Json
  | 0, t => unexpectedAt t
  | _ + 1, [] => unexpectedAt []
  | fuel + 1, u :: rest =>
    if u = leftBrace then
      match skipSpaces rest with
      | [] => unexpectedAt []
      | v :: after =>
        if v = rightBrace then .ok (object [], after)
        else (readMembers fuel (v :: after)).map fun (members, r) => (object members, r)
    else if u = leftBracket then
      match skipSpaces rest with
      | [] => unexpectedAt []
      | v :: after =>
        if v = rightBracket then .ok (array [], after)
        else (readItems fuel (v :: after)).map fun (items, r) => (array items, r)
    else if u = doubleQuote then (readString rest).map fun (t, r) => (string t, r)
    else if u = 't' then (readName "rue" rest).map fun (_, r) => (bool true, r)
    else if u = 'f' then (readName "alse" rest).map fun (_, r) => (bool false, r)
    else if u = 'n' then (readName "ull" rest).map fun (_, r) => (null, r)
    else (readNumber (u :: rest)).map fun (n, r) => (number n, r)

def readItems : Nat → Text → Reading (List Json)
  | 0, t => unexpectedAt t
  | fuel + 1, t =>
    match readValue fuel t with
    | .error e => .error e
    | .ok (item, r) =>
      match skipSpaces r with
      | [] => unexpectedAt []
      | u :: after =>
        if u = rightBracket then .ok ([item], after)
        else if u = comma then
          (readItems fuel (skipSpaces after)).map fun (items, r) => (item :: items, r)
        else unexpectedAt (u :: after)

def readMembers : Nat → Text → Reading (List (Text × Json))
  | 0, t => unexpectedAt t
  | _ + 1, [] => unexpectedAt []
  | fuel + 1, u :: t =>
    if u = doubleQuote then
      match readString t with
      | .error e => .error e
      | .ok (name, r) =>
        match skipSpaces r with
        | [] => unexpectedAt []
        | v :: r =>
          if v = colon then
            match readValue fuel (skipSpaces r) with
            | .error e => .error e
            | .ok (value, r) =>
              match skipSpaces r with
              | [] => unexpectedAt []
              | w :: after =>
                if w = rightBrace then .ok ([(name, value)], after)
                else if w = comma then
                  (readMembers fuel (skipSpaces after)).map fun (members, r) =>
                    ((name, value) :: members, r)
                else unexpectedAt (w :: after)
          else unexpectedAt (v :: r)
    else unexpectedAt (u :: t)

end

def read (t : Text) : Except ReadError Json :=
  match readValue (2 * t.length + 2) (skipSpaces t) with
  | .error e => .error e
  | .ok (value, r) =>
    match skipSpaces r with
    | [] => .ok value
    | rest => .error ⟨.unexpected, rest⟩

end LuaBundle.Json
