import TraceRegex.Yaml.Error

/-! # Characters of a YAML text

A text is UTF-8, or UTF-16 if it starts with a mark that says so.  It must not hold control
characters.  It is taken in piece by piece, so that something wrong far behind the part that matters
is never seen.
-/

namespace TraceRegex.Yaml

def isAllowed (code : Nat) : Bool :=
  code == 0x09 || code == 0x0a || code == 0x0d || (0x20 ≤ code && code ≤ 0x7e) || code == 0x85
    || (0xa0 ≤ code && code ≤ 0xd7ff) || (0xe000 ≤ code && code ≤ 0xfffd) || 0x10000 ≤ code

/-- The characters of a text, up to the first that cannot be read. -/
structure Source where
  chars : List Char
  /-- What cannot be read, and how many characters can be had before it shows. -/
  flaw : Option (Nat × Problem)
deriving Inhabited

namespace Source

def charOf (code : Nat) : Except Problem Char :=
  if !code.isValidChar then .error .noCharacter
  else if !isAllowed code then .error .controlCharacter
  else .ok (Char.ofNat code)

/-! ## UTF-8 -/

/-- How many octets a character has, by its first one. -/
def octetCount? (b : UInt8) : Option Nat :=
  if b < 0x80 then some 1
  else if b < 0xc0 then none
  else if b < 0xe0 then some 2
  else if b < 0xf0 then some 3
  else if b < 0xf8 then some 4
  else none

/-- The smallest number of a character with so many octets. -/
def leastOf : Nat → Nat
  | 2 => 0x80
  | 3 => 0x800
  | 4 => 0x10000
  | _ => 0

/-- Adds the bits of the octets after the first one. -/
def addOctets (code : Nat) : List UInt8 → Except Problem Nat
  | [] => .ok code
  | b :: rest =>
    if 0x80 ≤ b && b < 0xc0 then addOctets (code * 64 + (b.toNat - 0x80)) rest
    else .error .badTrailingOctet

/-- The character of some octets, as many as the first of them asks for. -/
def charOfOctets (count : Nat) (first : UInt8) (others : List UInt8) : Except Problem Char := do
  let bits := if count = 1 then first.toNat
    else if count = 2 then first.toNat - 0xc0
    else if count = 3 then first.toNat - 0xe0
    else first.toNat - 0xf0
  let code ← addOctets bits others
  if code < leastOf count then throw .badOctetCount
  charOf code

/-- How many octets are taken in at a time. -/
def pieceLength : Nat := 512

/-- Reads octets.  `skip` of them belong to the character read last, `left` are left of the current
    piece, `ready` characters were there before that piece, and `found` holds what was read, in
    reverse, `count` characters. -/
def readOctets (found : List Char) (count ready : Nat) : (skip left : Nat) → List UInt8 → Source
  | _, _, [] => ⟨found.reverse, none⟩
  | skip + 1, left, _ :: rest => readOctets found count ready skip left rest
  | 0, left, b :: rest =>
    let (ready, left) := if left = 0 then (count, pieceLength) else (ready, left)
    match octetCount? b with
    | none => ⟨found.reverse, some (ready, .badLeadingOctet)⟩
    | some width =>
      -- a character across the border of two pieces waits for the second
      let (ready, left) := if left < width then (count, pieceLength) else (ready, left)
      let others := rest.take (width - 1)
      if others.length < width - 1 then ⟨found.reverse, some (count, .missingOctets)⟩
      else
        match charOfOctets width b others with
        | .ok c => readOctets (c :: found) (count + 1) ready (width - 1) (left - width) rest
        | .error problem => ⟨found.reverse, some (ready, problem)⟩

/-! ## UTF-16 -/

/-- The units of 16 bits, and whether half of one is left. -/
def unitsOf (isBigEndian : Bool) : List UInt8 → List Nat × Bool
  | a :: b :: rest =>
    let (units, isOdd) := unitsOf isBigEndian rest
    let (high, low) := if isBigEndian then (a, b) else (b, a)
    ((high.toNat * 256 + low.toNat) :: units, isOdd)
  | [_] => ([], true)
  | [] => ([], false)

/-- The character that starts with a unit, and whether the next unit belongs to it. -/
def charOfUnits (u : Nat) (next : Option Nat) : Except Problem (Char × Bool) := do
  if 0xdc00 ≤ u && u < 0xe000 then throw .lowSurrogate
  else if 0xd800 ≤ u && u < 0xdc00 then
    match next with
    | none => throw .missingSurrogate
    | some v =>
      if 0xdc00 ≤ v && v < 0xe000 then
        return (← charOf (0x10000 + (u - 0xd800) * 1024 + (v - 0xdc00)), true)
      else throw .noLowSurrogate
  else return (← charOf u, false)

/-- Reads units of 16 bits, the first of which may belong to the character read last. -/
def readUnits (isOdd : Bool) (found : List Char) : (skip : Bool) → List Nat → Source
  | _, [] => ⟨found.reverse, if isOdd then some (found.length, .halfUnit) else none⟩
  | true, _ :: rest => readUnits isOdd found false rest
  | false, u :: rest =>
    match charOfUnits u rest.head? with
    | .ok (c, isPair) => readUnits isOdd (c :: found) isPair rest
    | .error problem => ⟨found.reverse, some (0, problem)⟩

/-! ## Texts -/

/-- The characters of a byte string.  Nothing counts as an empty line. -/
def ofBytes : List UInt8 → Source
  | [] => ⟨['\n'], none⟩
  | 0xff :: 0xfe :: rest => let (units, isOdd) := unitsOf false rest; readUnits isOdd [] false units
  | 0xfe :: 0xff :: rest => let (units, isOdd) := unitsOf true rest; readUnits isOdd [] false units
  | 0xef :: 0xbb :: 0xbf :: rest => readOctets [] 0 0 0 (pieceLength - 3) rest
  | bytes => readOctets [] 0 0 0 pieceLength bytes

end Source

end TraceRegex.Yaml
