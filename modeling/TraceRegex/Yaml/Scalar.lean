import TraceRegex.Yaml.Cursor

/-! # Scalars

A scalar is plain, in single or double quotes, or a block under a bar or an angle.  In all but literal
blocks lines are folded: one line end becomes a space, and of several all but the first stay.
-/

namespace TraceRegex.Yaml

/-! ## Gaps -/

/-- The blanks and line ends between two words. -/
structure Gap where
  /-- The blanks, if there is no line end. -/
  blanks : List Char
  isBroken : Bool
  /-- The first line end, unless it is escaped. -/
  first : List Char
  others : List Char
deriving DecidableEq, Repr, Inhabited

namespace Gap

def empty : Gap := ⟨[], false, [], []⟩

def escaped : Gap := ⟨[], true, [], []⟩

/-- What a gap becomes. -/
def folded (g : Gap) : List Char :=
  if !g.isBroken then g.blanks
  else if g.first.head? == some '\n' then if g.others.isEmpty then [' '] else g.others
  else g.first ++ g.others

end Gap

namespace Read

/-- Goes on with a gap.  A tab in front of the first word of a line may be refused. -/
def gap (refuseTab : Read Unit) : Nat → Gap → Read Gap
  | 0, g => return g
  | n + 1, g => do
    let c ← peek
    if isBlank c then
      if g.isBroken then
        if c == '\t' then refuseTab
        skip 1
        need 1
        gap refuseTab n g
      else
        let blanks ← takeWhile isBlank
        gap refuseTab n { g with blanks := g.blanks ++ blanks }
    else if isBreak c then
      need 2
      let lineEnd ← takeBreak
      need 1
      if g.isBroken then gap refuseTab n { g with others := g.others ++ lineEnd }
      -- blanks in front of a line end are not part of the text
      else gap refuseTab n { g with blanks := [], isBroken := true, first := lineEnd }
    else return g

/-! ## Plain scalars -/

/-- The characters that structure flow style. -/
def isFlowMark (c : Char) : Bool :=
  c == ',' || c == '[' || c == ']' || c == '\x7b' || c == '\x7d'

/-- The number of characters, added to `n`, before a plain scalar ends or a gap comes. -/
def wordLength (inFlow : Bool) (n : Nat) : List Char → Nat
  | [] => n
  | c :: rest =>
    let next := rest.headD endChar
    if endsWord c || (c == ':' && endsWord next) then n
    else if inFlow && (isFlowMark c || (c == '?' && (next == ' ' || endsLine next))) then n
    else wordLength inFlow (n + 1) rest

/-- Goes on with a plain scalar, of which `done` is the text so far, in reverse, and `g` the gap behind
    it.  Outside of flow style its lines stand at the column `indent` or further right. -/
def plainFrom (start : Mark) (indent : Nat) (inFlow : Bool) :
    Nat → List Char → Gap → Read (List Char × Gap)
  | 0, done, g => return (done, g)
  | n + 1, done, g => do
    need 4
    if (← atMarker) || (← peek) == '#' then return (done, g)
    let length := wordLength inFlow 0 (← get).rest
    if length != 0 then need (length + 2)
    let word ← take length
    -- a gap is part of the text only if a word follows
    let (done, g) := if word.isEmpty then (done, g)
      else (word.reverse ++ g.folded.reverse ++ done, Gap.empty)
    let c ← peek
    if !isBlank c && !isBreak c then return (done, g)
    let refuseTab : Read Unit := do
      if (← column) < indent then fail start .tabInScalar
    let g ← gap refuseTab (← bound) g
    if !inFlow && (← column) < indent then return (done, g)
    plainFrom start indent inFlow n done g

/-- Reads a plain scalar: its text, and whether line ends were read behind it. -/
def plain (indent : Nat) (inFlow : Bool) : Read (String × Bool) := do
  let (done, g) ← plainFrom (← mark) indent inFlow (← bound) [] .empty
  return (String.ofList done.reverse, g.isBroken)

/-! ## Quoted scalars -/

/-- What a letter behind a backslash stands for. -/
def escapeOf? : Char → Option Char
  | '0' => some '\x00'
  | 'a' => some '\x07'
  | 'b' => some '\x08'
  | 't' => some '\t'
  | '\t' => some '\t'
  | 'n' => some '\n'
  | 'v' => some '\x0b'
  | 'f' => some '\x0c'
  | 'r' => some '\r'
  | 'e' => some '\x1b'
  | ' ' => some ' '
  | '"' => some '"'
  | '\'' => some '\''
  | '\\' => some '\\'
  | 'N' => some '\u0085'
  | '_' => some '\u00a0'
  | 'L' => some '\u2028'
  | 'P' => some '\u2029'
  | _ => none

/-- How many digits follow a letter behind a backslash. -/
def escapeDigits : Char → Nat
  | 'x' => 2
  | 'u' => 4
  | 'U' => 8
  | _ => 0

def numberedChar (start : Mark) (digits : Nat) : Read Char := do
  need digits
  match ((← get).rest.take digits).mapM hexDigit? with
  | none => fail start .badEscapeDigits
  | some values =>
    let code := values.foldl (fun n d => n * 16 + d) 0
    if values.length < digits then fail start .badEscapeDigits
    else if !code.isValidChar then fail start .badEscapeValue
    else
      skip digits
      return Char.ofNat code

def escape (start : Mark) : Read Char := do
  let c ← peekAt 1
  match escapeOf? c with
  | some d => skip 2; return d
  | none =>
    if escapeDigits c = 0 then fail start .unknownEscape
    else
      skip 2
      numberedChar start (escapeDigits c)

/-- Reads up to a gap or the closing quote.  The result says what the gap starts with. -/
def quotedWord (start : Mark) (quote : Char) : Nat → List Char → Read (List Char × Gap)
  | 0, done => return (done, .empty)
  | n + 1, done => do
    let run ← takeWhile fun c => !endsWord c && c != quote && (quote == '\'' || c != '\\')
    need 2
    let done := run.reverse ++ done
    let c ← peek
    if c == quote then
      -- two single quotes stand for one
      if quote == '\'' && (← peekAt 1) == quote then
        skip 2
        quotedWord start quote n (quote :: done)
      else return (done, .empty)
    else if quote == '"' && c == '\\' then
      -- an escaped line end joins two lines without a blank
      if isBreak (← peekAt 1) then
        need 3
        skip 1
        skipBreak
        return (done, .escaped)
      else
        let d ← escape start
        quotedWord start quote n (d :: done)
    else return (done, .empty)

/-- Goes on with a scalar in quotes, of which `done` is the text so far, in reverse. -/
def quotedFrom (start : Mark) (quote : Char) : Nat → List Char → Read (List Char)
  | 0, done => return done
  | n + 1, done => do
    need 4
    if ← atMarker then fail start .markerInScalar
    if (← peek) == endChar then fail start .endInScalar
    let (done, g) ← quotedWord start quote (← bound) done
    need 1
    if (← peek) == quote then return done
    let g ← gap (return ()) (← bound) g
    quotedFrom start quote n (g.folded.reverse ++ done)

def quoted : Read String := do
  let start ← mark
  let quote ← peek
  skip 1
  let done ← quotedFrom start quote (← bound) []
  skip 1
  return String.ofList done.reverse

/-! ## Block scalars -/

/-- What becomes of the line ends behind a block. -/
inductive Chomping where
  | strip
  | clip
  | keep
deriving DecidableEq, Repr

def chomping? : Read (Option Chomping) := do
  let c ← peek
  if c == '+' then skip 1; return some .keep
  else if c == '-' then skip 1; return some .strip
  else return none

/-- Reads the digit that says how far a block is indented; without one it is zero. -/
def indentDigit (start : Mark) : Read Nat := do
  let c ← peek
  if !c.isDigit then return 0
  if c == '0' then fail start .zeroIndent
  skip 1
  return c.toNat - '0'.toNat

def blockHeader (start : Mark) : Read (Chomping × Nat) := do
  need 1
  -- the sign and the digit may come in either order
  let (chomping, indent) ← match ← chomping? with
    | some chomping => do
      need 1
      pure (chomping, ← indentDigit start)
    | none => do
      let indent ← indentDigit start
      need 1
      if indent = 0 then pure (.clip, 0) else pure ((← chomping?).getD .clip, indent)
  need 1
  skipWhile isBlank
  if (← peek) == '#' then skipLine
  if !endsLine (← peek) then fail start .missingCommentOrBreak
  need 2
  skipBreak
  return (chomping, indent)

/-- Reads line ends and the blanks in front of a line of a block.  The indent is zero as long as it is
    not known.  Returns the line ends and the largest column that blanks led to. -/
def blockBreaks (start : Mark) (indent : Nat) :
    Nat → Nat → List Char → Read (List Char × Nat)
  | 0, widest, breaks => return (breaks, widest)
  | n + 1, widest, breaks => do
    need 1
    let spaces := ((← get).rest.takeWhile (· == ' ')).length
    let here ← column
    skip (if indent = 0 then spaces else min spaces (indent - here))
    need 1
    let column ← column
    let widest := max widest column
    if (indent = 0 || column < indent) && (← peek) == '\t' then fail start .tabInIndent
    if !isBreak (← peek) then return (breaks, widest)
    need 2
    let lineEnd ← takeBreak
    blockBreaks start indent n widest (breaks ++ lineEnd)

structure BlockText where
  /-- The text, in reverse. -/
  done : List Char
  lineEnd : List Char
  breaks : List Char
  /-- Whether the last line started with a blank. -/
  isIndented : Bool
deriving Inhabited

/-- Joins a line to those before it; `isIndented` says whether it starts with a blank. -/
def BlockText.join (b : BlockText) (isLiteral isIndented : Bool) : List Char :=
  let isFolded := !isLiteral && !b.isIndented && !isIndented && b.lineEnd.head? == some '\n'
  let lineEnd := if isFolded then if b.breaks.isEmpty then [' '] else [] else b.lineEnd
  b.breaks.reverse ++ lineEnd.reverse ++ b.done

def blockLines (start : Mark) (isLiteral : Bool) (indent : Nat) : Nat → BlockText → Read BlockText
  | 0, b => return b
  | n + 1, b => do
    if (← column) != indent || (← peek) == endChar then return b
    let isIndented := isBlank (← peek)
    let done := b.join isLiteral isIndented
    let line ← takeWhile (!endsLine ·)
    need 2
    let lineEnd ← takeBreak
    let (breaks, _) ← blockBreaks start indent (← bound) 0 []
    blockLines start isLiteral indent n ⟨line.reverse ++ done, lineEnd, breaks, isIndented⟩

/-- Reads a block under a parent whose column is one less than `least`. -/
def block (least : Nat) : Read String := do
  let start ← mark
  let isLiteral := (← peek) == '|'
  skip 1
  let (chomping, digit) ← blockHeader start
  let asked := if digit = 0 then 0 else least - 1 + digit
  let (breaks, widest) ← blockBreaks start asked (← bound) 0 []
  -- without a digit, the first line of the text and the blank lines before it show the indent
  let indent := if asked = 0 then max (max widest least) 1 else asked
  let b ← blockLines start isLiteral indent (← bound) ⟨[], [], breaks, false⟩
  let done := match chomping with
    | .strip => b.done
    | .clip => b.lineEnd.reverse ++ b.done
    | .keep => b.breaks.reverse ++ b.lineEnd.reverse ++ b.done
  return String.ofList done.reverse

end Read

end TraceRegex.Yaml
