import TraceRegex.Yaml.Source

/-! # Reading a YAML text

A cursor stands at a place in a text and knows its line and column.
-/

namespace TraceRegex.Yaml

/-! ## Characters -/

/-- What is read behind the end of a text.  No text holds this character. -/
def endChar : Char := '\x00'

def isBlank (c : Char) : Bool := c == ' ' || c == '\t'

def isBreak (c : Char) : Bool :=
  c == '\n' || c == '\r' || c == '\u0085' || c == '\u2028' || c == '\u2029'

def endsLine (c : Char) : Bool := isBreak c || c == endChar

def endsWord (c : Char) : Bool := isBlank c || endsLine c

def isNameChar (c : Char) : Bool := c.isAlphanum || c == '_' || c == '-'

def hexDigit? (c : Char) : Option Nat :=
  if c.isDigit then some (c.toNat - '0'.toNat)
  else if 'a' ≤ c && c ≤ 'f' then some (c.toNat - 'a'.toNat + 10)
  else if 'A' ≤ c && c ≤ 'F' then some (c.toNat - 'A'.toNat + 10)
  else none

/-! ## Cursors -/

structure Mark where
  /-- The number of characters before it. -/
  index : Nat
  line : Nat
  column : Nat
deriving DecidableEq, Repr, Inhabited

def Mark.first : Mark := ⟨0, 0, 0⟩

structure Cursor where
  rest : List Char
  mark : Mark
  /-- The number of lines that have ended since something else than blanks was read. -/
  breaks : Nat
  flaw : Option (Nat × Problem)
  length : Nat
deriving Inhabited

def Cursor.start (source : Source) : Cursor where
  rest := source.chars
  mark := .first
  breaks := 0
  flaw := source.flaw
  length := source.chars.length

abbrev Read := StateT Cursor (Except Error)

namespace Read

def mark : Read Mark := do return (← get).mark

def column : Read Nat := do return (← get).mark.column

/-- Fails because of a problem here in something that started at `context`. -/
def fail {α : Type} (context : Mark) (problem : Problem) : Read α := do
  let here ← mark
  let line := if context.line = 0 then here.line else context.line
  throw ⟨problem, if line = 0 then none else some (line + 1)⟩

/-- Makes sure that the next characters can be had. -/
def need (n : Nat) : Read Unit := do
  let c ← get
  match c.flaw with
  | some (ready, problem) => if ready < c.mark.index + n then throw ⟨problem, none⟩
  | none => return ()

def peekAt (n : Nat) : Read Char := do return (← get).rest.getD n endChar

def peek : Read Char := peekAt 0

/-- An upper bound for the steps of a loop that reads something in each of them. -/
def bound : Read Nat := do return (← get).length + 1

/-- Takes the next characters, which are on one line. -/
def take (n : Nat) : Read (List Char) := do
  let c ← get
  let taken := c.rest.take n
  set { c with
    rest := c.rest.drop n
    mark := { c.mark with index := c.mark.index + n, column := c.mark.column + n }
    breaks := if taken.all isBlank then c.breaks else 0 }
  return taken

def skip (n : Nat) : Read Unit := do let _ ← take n

/-- Takes characters of one line as long as they satisfy a condition. -/
def takeWhile (p : Char → Bool) : Read (List Char) := do
  let n := ((← get).rest.takeWhile p).length
  let taken ← take n
  need 1
  return taken

def skipWhile (p : Char → Bool) : Read Unit := do let _ ← takeWhile p

/-- Takes the end of a line, if one is here.  All ends but the separators of Unicode are read as line
    feeds. -/
def takeBreak : Read (List Char) := do
  let c ← get
  let go (n : Nat) (rest text : List Char) : Read (List Char) := do
    set { c with
      rest
      mark := { index := c.mark.index + n, line := c.mark.line + 1, column := 0 }
      breaks := c.breaks + 1 }
    return text
  match c.rest with
  | '\r' :: '\n' :: rest => go 2 rest ['\n']
  | '\r' :: rest => go 1 rest ['\n']
  | '\n' :: rest => go 1 rest ['\n']
  | '\u0085' :: rest => go 1 rest ['\n']
  | '\u2028' :: rest => go 1 rest ['\u2028']
  | '\u2029' :: rest => go 1 rest ['\u2029']
  | _ => return []

def skipBreak : Read Unit := do let _ ← takeBreak

def skipLine : Read Unit := skipWhile (!endsLine ·)

/-- Whether three characters and the end of a word are next. -/
def startsWith (c : Char) : Read Bool := do
  return (← peekAt 0) == c && (← peekAt 1) == c && (← peekAt 2) == c && endsWord (← peekAt 3)

/-- Whether a line starts here that starts or ends a document. -/
def atMarker : Read Bool := do
  return (← column) == 0 && ((← startsWith '-') || (← startsWith '.'))

/-! ## Comments -/

/-- How far comments are looked for. -/
def maxCommentGap : Nat := 512

/-- How many blanks are in front of a comment, or blanks and line ends if it may be on another line.
    The first argument bounds their number, the second counts them. -/
def commentGap? (onLine : Bool) : Nat → Nat → List Char → Option Nat
  | 0, _, _ => none
  | _, _, [] => none
  | n + 1, gap, c :: rest =>
    if isBlank c || (!onLine && (c == '\n' || c == '\r')) then commentGap? onLine n (gap + 1) rest
    else if c == '#' then some gap
    else none

/-- Drops blanks and line ends up to a place.  The first argument bounds their number. -/
def skipGap : Nat → Nat → Read Unit
  | 0, _ => return ()
  | fuel + 1, stop => do
    if (← mark).index < stop then
      if isBreak (← peek) then skipBreak else skip 1
      skipGap fuel stop

def skipComment (gap : Nat) : Read Unit := do
  skipGap gap ((← mark).index + gap)
  skipLine

/-- Drops a comment on the line of the token that was just read. -/
def skipLineComment : Read Unit := do
  let c ← get
  if c.breaks = 0 then
    need ((c.rest.take maxCommentGap).takeWhile isBlank).length
    match commentGap? true maxCommentGap 0 c.rest with
    | some gap => skipComment gap
    | none => return ()

/-- Drops a comment that starts here, and those on the following lines, whatever blanks are in front
    of them. -/
def skipComments : Nat → Read Unit
  | 0 => return ()
  | n + 1 => do
    skipLine
    match (← get).rest with
    | c :: rest =>
      if c == '\n' || c == '\r' then
        need (((c :: rest).take maxCommentGap).takeWhile endsWord).length
        match commentGap? false (maxCommentGap - 1) 1 rest with
        | some gap => skipComment gap; skipComments n
        | none => return ()
    | [] => return ()

end Read

end TraceRegex.Yaml
