import TraceRegex.Yaml.Property
import TraceRegex.Yaml.Scalar

/-! # Tokens

The tokens of a text are found one after the other, and only as many as are asked for.  In block style
the column of a token decides which collections end before it.  A token that may be a key without a
mark of its own is kept until a colon shows that it is one, or until the line has ended or the colon is
too far off.
-/

namespace TraceRegex.Yaml

inductive TokenKind where
  | streamEnd
  | directive (directive : Directive)
  | documentStart
  | documentEnd
  | blockSequenceStart
  | blockMappingStart
  | blockEnd
  | flowSequenceStart
  | flowSequenceEnd
  | flowMappingStart
  | flowMappingEnd
  | blockEntry
  | flowEntry
  | key
  | value
  | alias (name : String)
  | anchor (name : String)
  | tag (text : TagText)
  | scalar (text : String) (isPlain : Bool)
deriving DecidableEq, Repr

structure Token where
  kind : TokenKind
  start : Mark
deriving DecidableEq, Repr

instance : Inhabited Token := ⟨⟨.streamEnd, .first⟩⟩

/-- A token that may be a key; there is room for one on each level of flow style. -/
structure KeySlot where
  /-- The token and where it starts. -/
  number : Nat
  mark : Mark
  isPossible : Bool
  /-- Whether the token cannot be anything but a key. -/
  isRequired : Bool
  /-- Whether the token waits for its colon before it is handed out. -/
  isAwaited : Bool
deriving DecidableEq, Repr, Inhabited

structure Lexer where
  cursor : Cursor
  tokens : Array Token
  /-- The number of tokens that have been handed out. -/
  taken : Nat
  /-- The column of the innermost collection in block style, and those around it. -/
  indent : Int
  outerIndents : List Int
  /-- Whether a key without a mark of its own may start here. -/
  keyAllowed : Bool
  /-- The innermost level of flow style comes first. -/
  slots : List KeySlot
  flowLevel : Nat
deriving Inhabited

def maxDepth : Nat := 10000

/-- How many characters a key without a mark of its own can have. -/
def maxKeyLength : Nat := 1024

def Lexer.start (source : Source) : Lexer where
  cursor := .start source
  tokens := #[]
  taken := 0
  indent := -1
  outerIndents := []
  keyAllowed := true
  slots := [⟨0, .first, false, false, false⟩]
  flowLevel := 0

abbrev Lex := StateT Lexer (Except Error)

namespace Lex

def reading {α : Type} (read : Read α) : Lex α := fun s =>
  match read.run s.cursor with
  | .ok (a, cursor) => .ok (a, { s with cursor })
  | .error e => .error e

def mark : Lex Mark := do return (← get).cursor.mark

def fail {α : Type} (context : Mark) (problem : Problem) : Lex α := reading (Read.fail context problem)

def push (kind : TokenKind) (start : Mark) : Lex Unit :=
  modify fun s => { s with tokens := s.tokens.push ⟨kind, start⟩ }

/-- Adds a token in front of the one with the given number, if there is one. -/
def insert (number : Option Nat) (kind : TokenKind) (start : Mark) : Lex Unit :=
  match number with
  | some i => modify fun s => { s with tokens := s.tokens.insertIdxIfInBounds i ⟨kind, start⟩ }
  | none => push kind start

def allowKey (isAllowed : Bool) : Lex Unit := modify fun s => { s with keyAllowed := isAllowed }

/-! ## Keys -/

/-- Whether the colon of a key may still come. -/
def isFresh (here : Mark) (slot : KeySlot) : Bool :=
  slot.isPossible && here.line ≤ slot.mark.line && here.index ≤ slot.mark.index + maxKeyLength

def setSlot (slot : KeySlot) : Lex Unit := modify fun s => { s with slots := slot :: s.slots.tail }

def slot : Lex KeySlot := do return (← get).slots.headD default

/-- Gives up on a key.  A token that has to be a key is an error then. -/
def dropKey (slot : KeySlot) : Lex KeySlot := do
  if slot.isPossible && slot.isRequired then fail slot.mark .missingColon
  return { slot with isPossible := false, isAwaited := false }

def clearKey : Lex Unit := do setSlot (← dropKey (← slot))

/-- Notes that the next token may be a key. -/
def noteKey : Lex Unit := do
  let s ← get
  if s.keyAllowed then
    clearKey
    setSlot {
      number := s.tokens.size
      mark := s.cursor.mark
      isPossible := true
      isRequired := s.flowLevel = 0 && s.indent = s.cursor.mark.column
      isAwaited := true }

/-- Whether the next token to be handed out waits for its colon. -/
def isWaiting : Lex Bool := do
  let s ← get
  let here := s.cursor.mark
  let waits (slot : KeySlot) : Bool := slot.isAwaited && slot.number == s.taken
  match s.slots.find? waits with
  | none => return false
  | some slot =>
    if isFresh here slot then return true
    let dropped ← dropKey slot
    modify fun s => { s with slots := s.slots.map fun t => if waits t then dropped else t }
    return false

/-! ## Levels -/

/-- Starts a collection in block style at a column, unless it has started already. -/
def openBlock (column : Nat) (number : Option Nat) (kind : TokenKind) (start : Mark) :
    Lex Unit := do
  let s ← get
  if s.flowLevel = 0 && s.indent < column then
    if maxDepth ≤ s.outerIndents.length then fail (s.slots.headD default).mark .tooDeep
    set { s with indent := column, outerIndents := s.indent :: s.outerIndents }
    insert number kind start

/-- The collections that end in front of a column, with the column of each, and what is left. -/
def closing (column : Int) (indent : Int) : List Int → Nat × Int × List Int
  | [] => (0, indent, [])
  | outer :: rest =>
    if column < indent then
      let (n, indent, rest) := closing column outer rest
      (n + 1, indent, rest)
    else (0, indent, outer :: rest)

/-- Ends the collections in block style that stand further right than a column. -/
def closeBlocks (column : Int) (start : Mark) : Lex Unit := do
  let s ← get
  if s.flowLevel = 0 then
    let (n, indent, outerIndents) := closing column s.indent s.outerIndents
    set { s with indent, outerIndents }
    (List.replicate n ()).forM fun _ => push .blockEnd start

def enterFlow : Lex Unit := do
  let s ← get
  if maxDepth ≤ s.flowLevel then fail s.cursor.mark .tooDeep
  set { s with
    slots := ⟨s.tokens.size, s.cursor.mark, false, false, false⟩ :: s.slots
    flowLevel := s.flowLevel + 1 }

/-- Leaves a collection in flow style.  If nothing in it could be a key, its first token does not wait
    for a colon any longer. -/
def leaveFlow : Lex Unit := modify fun s =>
  match s.slots with
  | inner :: outer :: rest =>
    let isAwaited := outer.isAwaited && outer.number != inner.number
    { s with slots := { outer with isAwaited } :: rest, flowLevel := s.flowLevel - 1 }
  | _ => s

/-! ## Tokens -/

def takeMark (kind : TokenKind) (length : Nat) : Lex Unit := do
  let start ← mark
  reading (Read.skip length)
  push kind start

def flowStart (kind : TokenKind) : Lex Unit := do
  noteKey
  enterFlow
  allowKey true
  takeMark kind 1

def flowEnd (kind : TokenKind) : Lex Unit := do
  clearKey
  leaveFlow
  allowKey false
  takeMark kind 1

def flowEntry : Lex Unit := do
  clearKey
  allowKey true
  takeMark .flowEntry 1

/-- In block style, makes sure that an entry may start here, and starts its collection. -/
def startEntry (problem : Problem) (kind : TokenKind) : Lex Unit := do
  let s ← get
  if s.flowLevel = 0 then
    if !s.keyAllowed then fail s.cursor.mark problem
    openBlock s.cursor.mark.column none kind s.cursor.mark

def blockEntry : Lex Unit := do
  startEntry .entryNotAllowed .blockSequenceStart
  clearKey
  allowKey true
  takeMark .blockEntry 1

def keyMark : Lex Unit := do
  startEntry .keyNotAllowed .blockMappingStart
  clearKey
  allowKey ((← get).flowLevel = 0)
  takeMark .key 1

/-- Takes the colon of a value.  If the key had no mark of its own, it gets one now. -/
def valueMark : Lex Unit := do
  let slot ← slot
  if isFresh (← mark) slot then
    insert (some slot.number) .key slot.mark
    openBlock slot.mark.column (some slot.number) .blockMappingStart slot.mark
    setSlot { slot with isPossible := false, isAwaited := false }
    allowKey false
  else
    setSlot (← dropKey slot)
    startEntry .valueNotAllowed .blockMappingStart
    allowKey ((← get).flowLevel = 0)
  takeMark .value 1

/-- Takes a token that may be a key. -/
def keyLike (read : Read TokenKind) : Lex Unit := do
  noteKey
  allowKey false
  let start ← mark
  push (← reading read) start

def blockScalar : Lex Unit := do
  clearKey
  allowKey true
  let start ← mark
  let least := ((← get).indent + 1).toNat
  push (.scalar (← reading (Read.block least)) false) start

def plainScalar : Lex Unit := do
  noteKey
  allowKey false
  let s ← get
  let (text, isBroken) ← reading (Read.plain (s.indent + 1).toNat (s.flowLevel != 0))
  -- the line ends behind the scalar were read with it, so the next token starts a line
  if isBroken then allowKey true
  push (.scalar text true) s.cursor.mark

/-- Ends what is open in block style, in front of something that is not part of a node. -/
def closeDocument : Lex Unit := do
  closeBlocks (-1) (← mark)
  clearKey
  allowKey false

def streamEnd : Lex Unit := do
  -- the end counts as the start of a line
  modify fun s =>
    let m := s.cursor.mark
    if m.column = 0 then s
    else { s with cursor := { s.cursor with mark := { m with line := m.line + 1, column := 0 } } }
  closeDocument
  push .streamEnd (← mark)

/-- Drops blanks, comments and line ends.  A tab must not be where a key may start. -/
def skipToToken : Nat → Lex Unit
  | 0 => return ()
  | n + 1 => do
    reading (Read.need 1)
    let s ← get
    reading do
      -- a byte order mark
      if s.cursor.mark.index = 0 && (← Read.peek) == '\ufeff' then Read.skip 1
      Read.skipWhile fun c => c == ' ' || (c == '\t' && (s.flowLevel != 0 || !s.keyAllowed))
      if (← Read.peek) == '#' then Read.skipComments (← Read.bound)
    if isBreak (← reading Read.peek) then
      reading do
        Read.need 2
        Read.skipBreak
      -- in block style a key may start on every line
      if s.flowLevel = 0 then allowKey true
      skipToToken n

/-- Whether a plain scalar can start with a character in front of another. -/
def startsPlain (inFlow : Bool) (c next : Char) : Bool :=
  if c == '-' then !isBlank next
  else if c == '?' || c == ':' then !inFlow && !endsWord next
  else !endsWord c && !",[]\x7b\x7d#&*!|>'\"%@\x60".toList.contains c

/-- Takes the token of a node that starts with a character in front of another. -/
def nodeToken (inFlow : Bool) (c next : Char) : Lex Unit := do
  if c == '[' then flowStart .flowSequenceStart
  else if c == '\x7b' then flowStart .flowMappingStart
  else if c == ']' then flowEnd .flowSequenceEnd
  else if c == '\x7d' then flowEnd .flowMappingEnd
  else if c == ',' then flowEntry
  else if c == '-' && endsWord next then blockEntry
  else if c == '?' && (inFlow || endsWord next) then keyMark
  else if c == ':' && (inFlow || endsWord next) then valueMark
  else if c == '*' then keyLike (do return .alias (← Read.anchorName))
  else if c == '&' then keyLike (do return .anchor (← Read.anchorName))
  else if c == '!' then keyLike (do return .tag (← Read.tag))
  else if (c == '|' || c == '>') && !inFlow then blockScalar
  else if c == '\'' || c == '"' then keyLike (do return .scalar (← Read.quoted) false)
  else if startsPlain inFlow c next then plainScalar
  else fail (← mark) .noToken

def next : Lex Unit := do
  let before ← mark
  reading (Read.need 1)
  skipToToken (← reading Read.bound)
  closeBlocks (← mark).column before
  reading (Read.need 4)
  let c ← reading Read.peek
  let isFirst := (← mark).column = 0
  if c == endChar then streamEnd
  else if isFirst && c == '%' then
    closeDocument
    let start ← mark
    push (.directive (← reading Read.directive)) start
  else if isFirst && (← reading (Read.startsWith '-')) then
    closeDocument
    takeMark .documentStart 3
  else if isFirst && (← reading (Read.startsWith '.')) then
    closeDocument
    takeMark .documentEnd 3
  else
    nodeToken ((← get).flowLevel != 0) c (← reading (Read.peekAt 1))
    -- a comment behind the dash of an entry belongs to what follows
    if ((← get).tokens.back?.map (·.kind)) != some .blockEntry then reading Read.skipLineComment

/-! ## Handing out tokens -/

/-- How many tokens are found ahead of the one that is asked for. -/
def lookahead : Nat := 2

/-- Finds tokens until the next one can be handed out. -/
def fill : Nat → Lex Unit
  | 0 => return ()
  | n + 1 => do
    let s ← get
    let isReady ← if s.taken + lookahead < s.tokens.size then do pure !(← isWaiting) else pure false
    if !isReady then
      next
      fill n

def peek : Lex Token := do
  fill (← reading Read.bound)
  let s ← get
  return s.tokens.getD s.taken default

def take : Lex Unit := modify fun s => { s with taken := s.taken + 1 }

end Lex

end TraceRegex.Yaml
