import TraceRegex.Text.Printable
import TraceRegex.Text.Utf8

/-! # Hexadecimal digits and quoted text

Lower-case hexadecimal text of numbers and bytes, and text between double quotes, in which quotes,
backslashes and what cannot be printed are escaped.
-/

namespace TraceRegex.Text

/-! ## Hexadecimal digits -/

def hexDigit (n : Nat) : Char := Nat.digitChar (n % 16)

/-- The number in hexadecimal, with at least `width` digits. -/
def hex (width n : Nat) : String :=
  let digits := Nat.toDigits 16 n
  String.ofList (List.replicate (width - digits.length) '0' ++ digits)

def hexValue? (c : Char) : Option Nat :=
  if '0' ≤ c ∧ c ≤ '9' then some (c.toNat - '0'.toNat)
  else if 'a' ≤ c ∧ c ≤ 'f' then some (c.toNat - 'a'.toNat + 10)
  else if 'A' ≤ c ∧ c ≤ 'F' then some (c.toNat - 'A'.toNat + 10)
  else none

def hexOfBytes (bytes : List UInt8) : String :=
  String.ofList (bytes.flatMap fun b => [hexDigit (b.toNat / 16), hexDigit b.toNat])

def bytesOfHex? : List Char → Option (List UInt8)
  | [] => some []
  | [_] => none
  | c :: d :: rest => do
    let hi ← hexValue? c
    let lo ← hexValue? d
    let bytes ← bytesOfHex? rest
    return (hi * 16 + lo).toUInt8 :: bytes

/-! ## Quotes -/

/-- The text of a character between quotes: the usual control characters have a letter, others that
    cannot be printed have their number in two, four or eight hexadecimal digits. -/
def quoteChar (c : Char) : String :=
  if c = '"' then "\\\""
  else if c = '\\' then "\\\\"
  else if isPrintable c then c.toString
  else if c.toNat = 7 then "\\a"
  else if c.toNat = 8 then "\\b"
  else if c.toNat = 12 then "\\f"
  else if c = '\n' then "\\n"
  else if c = '\r' then "\\r"
  else if c = '\t' then "\\t"
  else if c.toNat = 11 then "\\v"
  else if c.toNat < 0x80 then "\\x" ++ hex 2 c.toNat
  else if c.toNat < 0x10000 then "\\u" ++ hex 4 c.toNat
  else "\\U" ++ hex 8 c.toNat

def quoted (cs : List Char) : String := "\"" ++ String.join (cs.map quoteChar) ++ "\""

/-- The texts of characters between quotes, where the bytes that hold them show what an invalid byte
    was. -/
def quoteGlyphs : List Glyph → List UInt8 → List String
  | [], _ => []
  | g :: rest, bytes =>
    let text := if g = ⟨replacement, 1⟩ then "\\x" ++ hex 2 (bytes.headD 0).toNat else quoteChar g.char
    text :: quoteGlyphs rest (bytes.drop g.width)

def quotedBytes (bytes : List UInt8) : String :=
  "\"" ++ String.join (quoteGlyphs (glyphsOfBytes bytes) bytes) ++ "\""

end TraceRegex.Text
