/-! Text as a sequence of UTF-16 code units. A module name decoded from its escapes may hold a
surrogate without its partner, so a text is not a string of characters; lengths, columns and
offsets count units. The operations here are the ones every other module builds on: the blank and
word classes, trimming, splitting, joining, and the way to and from `String`. -/

namespace LuaBundle

abbrev Text := List UInt16

namespace Text

/-- The code unit of a character of the basic plane. -/
abbrev unit (c : Char) : UInt16 := c.toNat.toUInt16

instance : Coe Char UInt16 := ⟨unit⟩

/-- The two units of a code point from `0x10000` on, the one unit of any other. -/
def ofCodePoint (n : Nat) : Text :=
  if n < 0x10000 then [n.toUInt16]
  else [(0xD800 + (n - 0x10000) / 0x400).toUInt16, (0xDC00 + (n - 0x10000) % 0x400).toUInt16]

def ofString (s : String) : Text := s.toList.flatMap fun c => ofCodePoint c.toNat

instance : Coe String Text := ⟨ofString⟩

def isHighSurrogate (u : UInt16) : Bool := 0xD800 ≤ u && u ≤ 0xDBFF

def isLowSurrogate (u : UInt16) : Bool := 0xDC00 ≤ u && u ≤ 0xDFFF

/-- The code points of a text; a surrogate without its partner counts as `U+FFFD`. -/
def codePoints : Text → List Nat
  | [] => []
  | [u] => [if isHighSurrogate u || isLowSurrogate u then 0xFFFD else u.toNat]
  | u :: v :: rest =>
    if isHighSurrogate u && isLowSurrogate v then
      (0x10000 + (u.toNat - 0xD800) * 0x400 + (v.toNat - 0xDC00)) :: codePoints rest
    else
      (if isHighSurrogate u || isLowSurrogate u then 0xFFFD else u.toNat) :: codePoints (v :: rest)

def toString (t : Text) : String := String.ofList ((codePoints t).map Char.ofNat)

/-- The text with every unpaired surrogate replaced by `U+FFFD`, as files and names store it. -/
def wellFormed (t : Text) : Text := (codePoints t).flatMap ofCodePoint

/-! The units that the formats of this library give a meaning. -/

abbrev lineFeed : UInt16 := 10
abbrev carriageReturn : UInt16 := 13
abbrev space : UInt16 := 32
abbrev doubleQuote : UInt16 := 34
abbrev hash : UInt16 := 35
abbrev singleQuote : UInt16 := 39
abbrev leftParen : UInt16 := 40
abbrev rightParen : UInt16 := 41
abbrev comma : UInt16 := 44
abbrev dash : UInt16 := 45
abbrev dot : UInt16 := 46
abbrev slash : UInt16 := 47
abbrev colon : UInt16 := 58
abbrev equals : UInt16 := 61
abbrev leftBracket : UInt16 := 91
abbrev backslash : UInt16 := 92
abbrev rightBracket : UInt16 := 93
abbrev leftBrace : UInt16 := 123
abbrev rightBrace : UInt16 := 125

/-- Tab, the line breaks and form feeds, the space separators of Unicode, the line and paragraph
separators, and the byte order mark. -/
def isBlank (u : UInt16) : Bool :=
  (9 ≤ u && u ≤ 13) || u == 32 || u == 0xA0 || u == 0x1680 || (0x2000 ≤ u && u ≤ 0x200A) ||
    u == 0x2028 || u == 0x2029 || u == 0x202F || u == 0x205F || u == 0x3000 || u == 0xFEFF

def isDigit (u : UInt16) : Bool := 48 ≤ u && u ≤ 57

def isHexDigit (u : UInt16) : Bool :=
  isDigit u || (65 ≤ u && u ≤ 70) || (97 ≤ u && u ≤ 102)

/-- The units of a name: ASCII letters, digits and the underscore. -/
def isWordUnit (u : UInt16) : Bool :=
  isDigit u || (65 ≤ u && u ≤ 90) || (97 ≤ u && u ≤ 122) || u == 95

/-- The value of a hexadecimal digit. -/
def hexValue (u : UInt16) : Nat :=
  if isDigit u then u.toNat - 48 else if u ≤ 70 then u.toNat - 55 else u.toNat - 87

/-- The number that digits of the given base spell, most significant first. -/
def digitsValue (base : Nat) (digits : Text) : Nat :=
  digits.foldl (fun n d => n * base + hexValue d) 0

/-- A natural number in decimal, without leading zeros. -/
def decimal (n : Nat) : Text := (Nat.toDigits 10 n).map unit

/-- `t` led by as many copies of `u` as make it `width` units long. -/
def padLeft (width : Nat) (u : UInt16) (t : Text) : Text := List.replicate (width - t.length) u ++ t

/-- `t` followed by as many spaces as make it `width` units long. -/
def padRight (width : Nat) (t : Text) : Text := t ++ List.replicate (width - t.length) space

def trimLeft (t : Text) : Text := t.dropWhile isBlank

def trimRight (t : Text) : Text := (t.reverse.dropWhile isBlank).reverse

def trim (t : Text) : Text := trimRight (trimLeft t)

/-- `collapseFrom` inside a run of blanks (`true`) drops the rest of the run. -/
def collapseFrom : Bool → Text → Text
  | _, [] => []
  | inRun, u :: rest =>
    if isBlank u then
      if inRun then collapseFrom true rest else space :: collapseFrom true rest
    else u :: collapseFrom false rest

/-- Every run of blanks as one space. -/
def collapseBlanks (t : Text) : Text := collapseFrom false t

def firstLine (t : Text) : Text := t.takeWhile (· != lineFeed)

def afterFirstLine (t : Text) : Text := (t.dropWhile (· != lineFeed)).tail

/-- The parts of a text between the units that satisfy `sep`: one more than there are such units. -/
def splitOn (sep : UInt16 → Bool) : Text → List Text
  | [] => [[]]
  | u :: rest =>
    if sep u then [] :: splitOn sep rest
    else match splitOn sep rest with
      | [] => [[u]]
      | part :: parts => (u :: part) :: parts

def joinWith (sep : Text) (parts : List Text) : Text := sep.intercalate parts

def isSuffix (suffix t : Text) : Bool := suffix.isSuffixOf t

/-- `t` without `suffix`, where it ends with it. -/
def dropSuffix (suffix t : Text) : Text :=
  if isSuffix suffix t then t.take (t.length - suffix.length) else t

/-- The text before and the text after the first occurrence of `needle`. -/
def cut? (needle : Text) : Text → Option (Text × Text)
  | [] => if needle.isEmpty then some ([], []) else none
  | u :: rest =>
    if needle.isPrefixOf (u :: rest) then some ([], (u :: rest).drop needle.length)
    else (cut? needle rest).map fun (before, after) => (u :: before, after)

/-- The text between single quotes, as messages name things. -/
def inSingleQuotes (t : Text) : Text := singleQuote :: t ++ [singleQuote]

theorem splitOn_ne_nil (sep : UInt16 → Bool) (t : Text) : splitOn sep t ≠ [] := by
  cases t with
  | nil => simp [splitOn]
  | cons u rest =>
    simp only [splitOn]
    split
    · simp
    · split <;> simp

theorem cut?_eq_some {needle t before after : Text} (h : cut? needle t = some (before, after)) :
    before ++ needle ++ after = t := by
  induction t generalizing before after with
  | nil =>
    simp only [cut?] at h
    split at h
    · rename_i hn
      simp only [Option.some.injEq, Prod.mk.injEq] at h
      rw [← h.1, ← h.2, List.isEmpty_iff.1 hn]
      rfl
    · simp at h
  | cons u t ih =>
    simp only [cut?] at h
    split at h
    · rename_i hp
      simp only [Option.some.injEq, Prod.mk.injEq] at h
      obtain ⟨tail, ht⟩ := List.isPrefixOf_iff_prefix.1 hp
      rw [← h.1, ← h.2, ← ht, List.drop_left]
      rfl
    · obtain ⟨⟨b, a⟩, hc, he⟩ := Option.map_eq_some_iff.1 h
      simp only [Prod.mk.injEq] at he
      rw [← he.1, ← he.2, List.cons_append, List.cons_append, ih hc]

theorem length_dropWhile_le (p : UInt16 → Bool) (t : Text) : (t.dropWhile p).length ≤ t.length :=
  (List.dropWhile_sublist p).length_le

end Text

end LuaBundle
