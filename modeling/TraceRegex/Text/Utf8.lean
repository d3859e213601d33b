/-! # Characters of a byte string

Bytes are read as UTF-8.  A byte that does not take part in a valid encoding counts as one
replacement character.
-/

namespace TraceRegex.Text

/-- A character together with the number of bytes that it takes up in its source. -/
structure Glyph where
  char : Char
  width : Nat
deriving DecidableEq, Repr, Inhabited

/-- The character that stands for an invalid byte. -/
def replacement : Char := '�'

/-- The six bits that a continuation byte carries. -/
def continuation? (b : UInt8) : Option Nat :=
  if 0x80 ≤ b ∧ b < 0xc0 then some (b.toNat - 0x80) else none

/-- A character of the given number of bytes, unless its number is too small for them or not that of
    a character. -/
def glyph? (least code width : Nat) : Option Glyph :=
  if least ≤ code ∧ code.isValidChar then some ⟨Char.ofNat code, width⟩ else none

/-- The character at the front of the bytes, if they start with a valid encoding. -/
def frontGlyph? : List UInt8 → Option Glyph
  | [] => none
  | b :: rest =>
    if b < 0x80 then some ⟨Char.ofNat b.toNat, 1⟩
    -- a continuation byte cannot come first
    else if b < 0xc0 then none
    else if b < 0xe0 then
      match rest with
      | c :: _ => do glyph? 0x80 ((b.toNat - 0xc0) * 64 + (← continuation? c)) 2
      | _ => none
    else if b < 0xf0 then
      match rest with
      | c :: d :: _ => do
        glyph? 0x800 (((b.toNat - 0xe0) * 64 + (← continuation? c)) * 64 + (← continuation? d)) 3
      | _ => none
    else if b < 0xf8 then
      match rest with
      | c :: d :: e :: _ => do
        let high := (b.toNat - 0xf0) * 64 + (← continuation? c)
        glyph? 0x10000 ((high * 64 + (← continuation? d)) * 64 + (← continuation? e)) 4
      | _ => none
    else none

/-- Adds the characters of a byte string, in reverse, to those found so far.  The second argument
    counts the bytes that still belong to the character found last. -/
def glyphsOnto (found : List Glyph) : Nat → List UInt8 → List Glyph
  | _, [] => found
  | skip + 1, _ :: rest => glyphsOnto found skip rest
  | 0, b :: rest =>
    match frontGlyph? (b :: rest) with
    | some g => glyphsOnto (g :: found) (g.width - 1) rest
    | none => glyphsOnto (⟨replacement, 1⟩ :: found) 0 rest

def glyphsOfBytes (bytes : List UInt8) : List Glyph := (glyphsOnto [] 0 bytes).reverse

def glyphsOfString (s : String) : List Glyph := s.toList.map fun c => ⟨c, c.utf8Size⟩

def charsOfBytes (bytes : List UInt8) : List Char := (glyphsOfBytes bytes).map Glyph.char

/-- The text of a byte string all of which is valid. -/
def textOfBytes? (bytes : List UInt8) : Option String := String.fromUTF8? ⟨bytes.toArray⟩

def bytesOfString (s : String) : List UInt8 := s.toUTF8.toList

end TraceRegex.Text
