import LuaBundle.Text.Basic

/-! UTF-8, the form texts take in files. Encoding writes an unpaired surrogate as `U+FFFD`.
Decoding never fails: each longest run of bytes that starts a character but does not complete one,
and each byte that can start none, becomes one `U+FFFD`. A byte order mark is a character like any
other. -/

namespace LuaBundle

abbrev Bytes := List UInt8

namespace Utf8

def encodeCodePoint (n : Nat) : Bytes :=
  if n < 0x80 then [n.toUInt8]
  else if n < 0x800 then [(0xC0 + n / 0x40).toUInt8, (0x80 + n % 0x40).toUInt8]
  else if n < 0x10000 then
    [(0xE0 + n / 0x1000).toUInt8, (0x80 + n / 0x40 % 0x40).toUInt8, (0x80 + n % 0x40).toUInt8]
  else
    [(0xF0 + n / 0x40000).toUInt8, (0x80 + n / 0x1000 % 0x40).toUInt8,
      (0x80 + n / 0x40 % 0x40).toUInt8, (0x80 + n % 0x40).toUInt8]

def encode (t : Text) : Bytes := t.codePoints.flatMap encodeCodePoint

/-- A character begun but not complete: the bits read, the number of bytes owed, and the bounds of
the next one. -/
structure Begun where
  bits : Nat
  owed : Nat
  low : UInt8
  high : UInt8
  deriving DecidableEq

def replacement : UInt16 := 0xFFFD

/-- The first byte of a character: the text it gives at once, and what it begins. -/
def first (b : UInt8) : Text × Option Begun :=
  if b < 0x80 then ([b.toUInt16], none)
  else if 0xC2 ≤ b ∧ b ≤ 0xDF then ([], some ⟨b.toNat - 0xC0, 1, 0x80, 0xBF⟩)
  else if b = 0xE0 then ([], some ⟨0, 2, 0xA0, 0xBF⟩)
  else if b = 0xED then ([], some ⟨0xD, 2, 0x80, 0x9F⟩)
  else if 0xE1 ≤ b ∧ b ≤ 0xEF then ([], some ⟨b.toNat - 0xE0, 2, 0x80, 0xBF⟩)
  else if b = 0xF0 then ([], some ⟨0, 3, 0x90, 0xBF⟩)
  else if 0xF1 ≤ b ∧ b ≤ 0xF3 then ([], some ⟨b.toNat - 0xF0, 3, 0x80, 0xBF⟩)
  else if b = 0xF4 then ([], some ⟨4, 3, 0x80, 0x8F⟩)
  else ([replacement], none)

/-- A byte after what is begun, if anything is. -/
def next (begun : Option Begun) (b : UInt8) : Text × Option Begun :=
  match begun with
  | none => first b
  | some c =>
    if c.low ≤ b ∧ b ≤ c.high then
      let bits := c.bits * 0x40 + (b.toNat - 0x80)
      if c.owed ≤ 1 then (Text.ofCodePoint bits, none)
      else ([], some ⟨bits, c.owed - 1, 0x80, 0xBF⟩)
    else
      let (text, begun) := first b
      (replacement :: text, begun)

def decodeFrom : Option Begun → Bytes → Text
  | none, [] => []
  | some _, [] => [replacement]
  | begun, b :: rest =>
    let (text, begun) := next begun b
    text ++ decodeFrom begun rest

def decode (bytes : Bytes) : Text := decodeFrom none bytes

end Utf8

end LuaBundle
