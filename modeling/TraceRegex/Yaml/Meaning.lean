import TraceRegex.Yaml.Error

/-! # What plain scalars mean

A plain scalar can stand for nothing, a truth value, a number or a point in time; all else is text.
Tags name these kinds.
-/

namespace TraceRegex.Yaml

/-! ## Tags -/

/-- The front of the tags that every document knows, which is written as two marks for short. -/
def standardTagStart : String := "tag:yaml.org,2002:"

def shortTag (tag : String) : String :=
  if standardTagStart.toList.isPrefixOf tag.toList then
    "!!" ++ String.ofList (tag.toList.drop standardTagStart.length)
  else tag

def nullTag : String := "!!null"
def truthTag : String := "!!bool"
def integerTag : String := "!!int"
def floatTag : String := "!!float"
def timeTag : String := "!!timestamp"
def textTag : String := "!!str"
def binaryTag : String := "!!binary"
def mergeTag : String := "!!merge"
def sequenceTag : String := "!!seq"
def mappingTag : String := "!!map"

inductive Meaning where
  | null
  | truth (value : Bool)
  /-- An integer; `isWide` if it needs all 64 bits for its value and none is left for a sign. -/
  | integer (isWide : Bool)
  | float
  | time
  | text
deriving DecidableEq, Repr, Inhabited

def Meaning.tag : Meaning → String
  | null => nullTag
  | truth _ => truthTag
  | integer _ => integerTag
  | float => floatTag
  | time => timeTag
  | text => textTag

/-! ## Numbers -/

def digitIn? (base : Nat) (c : Char) : Option Nat :=
  let d := if c.isDigit then c.toNat - '0'.toNat
    else if 'a' ≤ c && c ≤ 'z' then c.toNat - 'a'.toNat + 10
    else if 'A' ≤ c && c ≤ 'Z' then c.toNat - 'A'.toNat + 10
    else base
  if d < base then some d else none

def natIn? (base : Nat) (digits : List Char) : Option Nat :=
  if digits.isEmpty then none
  else digits.foldlM (fun n c => (digitIn? base c).map (n * base + ·)) 0

/-- A sign, which is minus if `true`, and what follows it. -/
def splitSign : List Char → Bool × List Char
  | '-' :: rest => (true, rest)
  | '+' :: rest => (false, rest)
  | cs => (false, cs)

def splitBase : List Char → Nat × List Char
  | '0' :: m :: d :: rest =>
    if m == 'b' || m == 'B' then (2, d :: rest)
    else if m == 'o' || m == 'O' then (8, d :: rest)
    else if m == 'x' || m == 'X' then (16, d :: rest)
    else (8, m :: d :: rest)
  | '0' :: c :: rest => (8, c :: rest)
  | cs => (10, cs)

/-- Whether a number fits into 64 bits with a sign. -/
def fitsSigned (isNegative : Bool) (n : Nat) : Bool :=
  n < 0x8000000000000000 || (isNegative && n == 0x8000000000000000)

/-- The meaning of digits with a sign, if they spell an integer of 64 bits. -/
def integerIn? (base : Nat) (hasSign isNegative : Bool) (digits : List Char) : Option Meaning := do
  let n ← natIn? base digits
  if fitsSigned isNegative n then some (.integer false)
  else if !hasSign && n ≤ 0xffffffffffffffff then some (.integer true)
  else none

def signedIn? (base : Nat) (cs : List Char) : Option Meaning :=
  let (isNegative, digits) := splitSign cs
  integerIn? base (digits.length < cs.length) isNegative digits

/-- The meaning of a text that is an integer.  The base may be shown by a letter behind a zero. -/
def integer? (cs : List Char) : Option Meaning :=
  let (isNegative, digits) := splitSign cs
  let (base, digits') := splitBase digits
  integerIn? base (digits.length < cs.length) isNegative digits'

/-- The meaning of a text that is an integer whose sign stands behind the base. -/
def integerWithInnerSign? : List Char → Option Meaning
  | '0' :: 'b' :: rest => signedIn? 2 rest
  | '0' :: 'o' :: rest => signedIn? 8 rest
  | _ => none

/-- The parts of a decimal fraction: the digits before the point, those behind it, and the exponent. -/
structure Decimal where
  whole : List Char
  fraction : List Char
  exponent : Int
deriving DecidableEq, Repr, Inhabited

def exponent? : List Char → Option Int
  | [] => some 0
  | e :: rest =>
    if e == 'e' || e == 'E' then
      let (isNegative, digits) := splitSign rest
      (natIn? 10 digits).map fun n => if isNegative then -(n : Int) else n
    else none

def decimal? (cs : List Char) : Option Decimal := do
  let whole := cs.takeWhile Char.isDigit
  match cs.drop whole.length with
  | '.' :: rest =>
    let fraction := rest.takeWhile Char.isDigit
    if whole.isEmpty && fraction.isEmpty then none
    return ⟨whole, fraction, ← exponent? (rest.drop fraction.length)⟩
  | rest =>
    if whole.isEmpty then none
    return ⟨whole, [], ← exponent? rest⟩

/-- The least number that is too large for a double, halfway between the largest and the next. -/
def doubleLimit : Nat := Nat.pow 2 1024 - Nat.pow 2 970

def Decimal.isFinite (d : Decimal) : Bool :=
  let digits := (d.whole ++ d.fraction).dropWhile (· == '0')
  let n := (natIn? 10 digits).getD 0
  let shift := d.exponent - d.fraction.length
  if n = 0 then true
  else if 400 < digits.length + shift then false
  else if digits.length + shift < -400 then true
  else if 0 ≤ shift then n * Nat.pow 10 shift.toNat < doubleLimit
  else n < doubleLimit * Nat.pow 10 (-shift).toNat

/-- Whether a text is a number with a point or an exponent that a double can hold. -/
def isFloat (cs : List Char) : Bool := ((decimal? (splitSign cs).2).map (·.isFinite)).getD false

/-! ## Points in time -/

def shortNumber? (cs : List Char) : Option (Nat × List Char) := do
  let digits := (cs.take 2).takeWhile Char.isDigit
  return (← natIn? 10 digits, cs.drop digits.length)

def daysIn (year month : Nat) : Nat :=
  if month = 2 then
    if year % 4 = 0 && (year % 100 != 0 || year % 400 = 0) then 29 else 28
  else if month = 4 || month = 6 || month = 9 || month = 11 then 30
  else 31

/-- Reads a date, and returns what follows it. -/
def date? (cs : List Char) : Option (List Char) := do
  let year := cs.takeWhile Char.isDigit
  if year.length != 4 then none
  match cs.drop 4 with
  | '-' :: rest =>
    let (month, rest) ← shortNumber? rest
    match rest with
    | '-' :: rest =>
      let (day, rest) ← shortNumber? rest
      let year := (natIn? 10 year).getD 0
      if 1 ≤ month && month ≤ 12 && 1 ≤ day && day ≤ daysIn year month then some rest else none
    | _ => none
  | _ => none

/-- Reads a number below a limit and the colon behind it. -/
def clockPart? (limit : Nat) (cs : List Char) : Option (List Char) := do
  let (n, rest) ← shortNumber? cs
  match rest with
  | ':' :: rest => if n < limit then some rest else none
  | _ => none

def dropFraction : List Char → List Char
  | m :: d :: rest =>
    if (m == '.' || m == ',') && d.isDigit then rest.dropWhile Char.isDigit else m :: d :: rest
  | cs => cs

def clock? (cs : List Char) : Option (List Char) := do
  let (second, rest) ← shortNumber? (← clockPart? 60 (← clockPart? 24 cs))
  if second < 60 then some (dropFraction rest) else none

/-- Whether a text is the distance of a time zone. -/
def isZone : List Char → Bool
  | ['Z'] => true
  | [sign, a, b, ':', c, d] =>
    (sign == '+' || sign == '-')
      && (((natIn? 10 [a, b]).map (decide <| · ≤ 24)).getD false)
      && (((natIn? 10 [c, d]).map (decide <| · ≤ 60)).getD false)
  | _ => false

/-- Whether a text is a date, or a date with a time of the day. -/
def isTime (cs : List Char) : Bool :=
  match date? cs with
  | none => false
  | some [] => true
  | some (' ' :: rest) => clock? (rest.dropWhile (· == ' ')) == some []
  | some (m :: rest) => (m == 'T' || m == 't') && ((clock? rest).map isZone).getD false

/-! ## Meanings -/

def wordMeaning? (text : String) : Option Meaning :=
  if ["", "~", "null", "Null", "NULL"].contains text then some .null
  else if ["true", "True", "TRUE"].contains text then some (.truth true)
  else if ["false", "False", "FALSE"].contains text then some (.truth false)
  else if [".nan", ".NaN", ".NAN", ".inf", ".Inf", ".INF", "+.inf", "+.Inf", "+.INF", "-.inf",
    "-.Inf", "-.INF"].contains text then some .float
  else none

/-- The meaning of a text that starts with a digit or a sign.  Underscores between digits do not
    count. -/
def numberMeaning (mayBeTime : Bool) (cs : List Char) : Meaning :=
  if mayBeTime && isTime cs then .time
  else
    let plain := cs.filter (· != '_')
    match integer? plain with
    | some m => m
    | none => if isFloat plain then .float else (integerWithInnerSign? plain).getD .text

def meaningOf (mayBeTime : Bool) (text : String) : Meaning :=
  match wordMeaning? text with
  | some m => m
  | none =>
    match text.toList with
    | [] => .null
    | c :: rest =>
      if c == '.' then if isFloat (c :: rest) then .float else .text
      else if c.isDigit || c == '+' || c == '-' then numberMeaning mayBeTime (c :: rest)
      else .text

/-- The meaning of a scalar with a tag, which has to fit.  Everything is text if the tag says so, and an
    integer can be a number with a point. -/
def meaningAs (tag text : String) : Except Problem Meaning :=
  if tag = textTag || tag = binaryTag then .ok .text
  else
    let m := meaningOf (tag.isEmpty || tag = timeTag) text
    if tag.isEmpty || m.tag = tag then .ok m
    else if tag = floatTag && m = .integer false then .ok .float
    else .error (.wrongTag m.tag text tag)

end TraceRegex.Yaml
