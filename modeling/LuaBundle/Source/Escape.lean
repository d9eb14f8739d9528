import LuaBundle.Text.Basic

/-! Escape sequences of quoted strings. `decode` gives the content that the text between two
quotes stands for; a backslash that starts no escape stands for itself. Escapes of bytes and of
code points both give the code point of their number. -/

namespace LuaBundle.Escape

open Text

def isBreak (u : UInt16) : Bool := u == lineFeed || u == carriageReturn

/-- The blanks of ASCII, which `\z` takes with it. -/
def isAsciiBlank (u : UInt16) : Bool := (9 ≤ u && u ≤ 13) || u == 32

/-- The unit that a one-letter escape stands for. -/
def letter? (u : UInt16) : Option UInt16 :=
  if u = 'n' then some lineFeed
  else if u = 't' then some 9
  else if u = 'r' then some carriageReturn
  else if u = 'a' then some 7
  else if u = 'b' then some 8
  else if u = 'f' then some 12
  else if u = 'v' then some 11
  else if u = backslash ∨ u = doubleQuote ∨ u = singleQuote then some u
  else none

/-- What follows a line break that starts with `u`: the other break unit belongs to it. -/
def afterBreak (u : UInt16) : Text → Text
  | [] => []
  | v :: rest => if isBreak v && v != u then rest else v :: rest

/-- Two hexadecimal digits. -/
def hex? : Text → Option (Text × Text)
  | a :: b :: rest =>
    if isHexDigit a && isHexDigit b then some ([(digitsValue 16 [a, b]).toUInt16], rest) else none
  | _ => none

/-- One to eight hexadecimal digits in braces, for a code point of Unicode. -/
def codePoint? : Text → Option (Text × Text)
  | [] => none
  | u :: rest =>
    let digits := rest.takeWhile isHexDigit
    match rest.dropWhile isHexDigit with
    | v :: after =>
      if u = leftBrace ∧ v = rightBrace ∧ 1 ≤ digits.length ∧ digits.length ≤ 8 ∧
          digitsValue 16 digits ≤ 0x10FFFF then
        some (ofCodePoint (digitsValue 16 digits), after)
      else none
    | [] => none

/-- One to three decimal digits, for a number up to 255. -/
def decimal? (t : Text) : Option (Text × Text) :=
  let digits := (t.take 3).takeWhile isDigit
  if 1 ≤ digits.length ∧ digitsValue 10 digits ≤ 255 then
    some ([(digitsValue 10 digits).toUInt16], t.drop digits.length)
  else none

/-- The escape that follows a backslash: its content, and the text after it. -/
def read? : Text → Option (Text × Text)
  | [] => none
  | u :: rest =>
    match letter? u with
    | some v => some ([v], rest)
    | none =>
      if isBreak u then some ([lineFeed], afterBreak u rest)
      else if u = 'z' then some ([], rest.dropWhile isAsciiBlank)
      else if u = 'x' then hex? rest
      else if u = 'u' then codePoint? rest
      else decimal? (u :: rest)

theorem length_afterBreak_le (u : UInt16) (t : Text) : (afterBreak u t).length ≤ t.length := by
  cases t with
  | nil => simp [afterBreak]
  | cons v rest =>
    simp only [afterBreak]
    split <;> simp

theorem length_hex? {t value rest : Text} (h : hex? t = some (value, rest)) :
    rest.length ≤ t.length := by
  unfold hex? at h
  split at h
  · split at h
    · simp only [Option.some.injEq, Prod.mk.injEq] at h
      simp [← h.2]
      omega
    · simp at h
  · simp at h

theorem length_codePoint? {t value rest : Text} (h : codePoint? t = some (value, rest)) :
    rest.length ≤ t.length := by
  cases t with
  | nil => simp [codePoint?] at h
  | cons u t =>
    simp only [codePoint?] at h
    split at h
    · rename_i v after hd
      split at h
      · simp only [Option.some.injEq, Prod.mk.injEq] at h
        have := length_dropWhile_le isHexDigit t
        rw [hd] at this
        simp only [List.length_cons, ← h.2] at this ⊢
        omega
      · simp at h
    · simp at h

theorem length_decimal? {t value rest : Text} (h : decimal? t = some (value, rest)) :
    rest.length ≤ t.length := by
  simp only [decimal?] at h
  split at h
  · simp only [Option.some.injEq, Prod.mk.injEq] at h
    simp [← h.2]
  · simp at h

/-- An escape leaves no more than stood after its backslash. -/
theorem length_read? {t value rest : Text} (h : read? t = some (value, rest)) :
    rest.length ≤ t.length := by
  cases t with
  | nil => simp [read?] at h
  | cons u t =>
    simp only [read?] at h
    split at h
    · simp only [Option.some.injEq, Prod.mk.injEq] at h
      simp [← h.2]
    · split at h
      · simp only [Option.some.injEq, Prod.mk.injEq] at h
        have := length_afterBreak_le u t
        simp only [List.length_cons, ← h.2]
        omega
      · split at h
        · simp only [Option.some.injEq, Prod.mk.injEq] at h
          have := length_dropWhile_le isAsciiBlank t
          simp only [List.length_cons, ← h.2]
          omega
        · split at h
          · have := length_hex? h
            simp only [List.length_cons]
            omega
          · split at h
            · have := length_codePoint? h
              simp only [List.length_cons]
              omega
            · exact length_decimal? h

/-- The content of a quoted string, from the text between its quotes. -/
def decode : Text → Text
  | [] => []
  | u :: rest =>
    if u = backslash then
      match _h : read? rest with
      | some (value, after) => value ++ decode after
      | none => u :: decode rest
    else u :: decode rest
termination_by t => t.length
decreasing_by
  · have := length_read? _h
    simp only [List.length_cons]
    omega
  · simp
  · simp

/-- What the escape after a backslash takes while the end of a string is looked for: any unit, with
`\z` all blanks after it, with one line break unit the other. The two parts make up the text. -/
def skip : Text → Text × Text
  | [] => ([], [])
  | u :: rest =>
    if u = 'z' then (u :: rest.takeWhile isBlank, rest.dropWhile isBlank)
    else if isBreak u then
      match rest with
      | [] => ([u], [])
      | v :: rest => if isBreak v && v != u then ([u, v], rest) else ([u], v :: rest)
    else ([u], rest)

theorem skip_append (t : Text) : (skip t).1 ++ (skip t).2 = t := by
  cases t with
  | nil => rfl
  | cons u t =>
    simp only [skip]
    split
    · simp
    · split
      · split
        · rfl
        · split <;> simp
      · simp

end LuaBundle.Escape
