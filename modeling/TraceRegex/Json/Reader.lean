import TraceRegex.Json.Basic

/-! # Reading JSON

Reading goes through a list of tokens.  A scanner takes the characters one at a time and remembers
only the token that it is in the middle of; an assembler takes the tokens one at a time and
remembers the containers that are open and what may come next.
-/

namespace TraceRegex.Json

/-! ## Strings -/

/-- A part of a string: a character that stands for itself or after a backslash, or a unit given by
    four hexadecimal digits. -/
inductive Piece where
  | char (c : Char)
  | unit (code : Nat)

/-- The character with a given number; one that is not a character is replaced. -/
def charOfCode (code : Nat) : Char :=
  if code.isValidChar then Char.ofNat code else '�'

/-- The text of a string.  Two units that form a surrogate pair make one character, and a surrogate
    that stands alone is replaced. -/
def textOfPieces : List Piece → List Char
  | [] => []
  | .char c :: rest => c :: textOfPieces rest
  | .unit hi :: .unit lo :: rest =>
    if 0xd800 ≤ hi ∧ hi < 0xdc00 ∧ 0xdc00 ≤ lo ∧ lo < 0xe000 then
      charOfCode (0x10000 + (hi - 0xd800) * 0x400 + (lo - 0xdc00)) :: textOfPieces rest
    else charOfCode hi :: textOfPieces (.unit lo :: rest)
  | .unit code :: rest => charOfCode code :: textOfPieces rest

def unescape? : Char → Option Char
  | '"' => some '"'
  | '\\' => some '\\'
  | '/' => some '/'
  | 'b' => some '\x08'
  | 'f' => some '\x0c'
  | 'n' => some '\n'
  | 'r' => some '\r'
  | 't' => some '\t'
  | _ => none

/-! ## Numbers -/

def dropDigits? : List Char → Option (List Char)
  | c :: rest => if c.isDigit then some (rest.dropWhile Char.isDigit) else none
  | [] => none

/-- Drops the integer part of a number: a zero alone or digits that do not start with zero. -/
def dropInteger? : List Char → Option (List Char)
  | '0' :: rest => some rest
  | cs => dropDigits? cs

def dropFraction? : List Char → Option (List Char)
  | '.' :: rest => dropDigits? rest
  | cs => some cs

def dropExponent? : List Char → Option (List Char)
  | [] => some []
  | c :: rest =>
    if c = 'e' ∨ c = 'E' then
      match rest with
      | '+' :: digits | '-' :: digits => dropDigits? digits
      | digits => dropDigits? digits
    else some (c :: rest)

def isNumber (cs : List Char) : Bool :=
  let unsigned := match cs with
    | '-' :: rest => rest
    | cs => cs
  (do dropExponent? (← dropFraction? (← dropInteger? unsigned))) == some []

/-! ## Tokens -/

inductive Token where
  | openArray | closeArray | openObject | closeObject | comma | colon
  | text (s : String)
  | scalar (v : Value)

/-- The token that the scanner is in the middle of. -/
inductive Pending where
  | nothing
  /-- A number or a word, with the characters seen so far in reverse. -/
  | bare (chars : List Char)
  | string (pieces : List Piece)
  | escape (pieces : List Piece)
  /-- A string, after the given number of hexadecimal digits of a unit. -/
  | digits (pieces : List Piece) (count code : Nat)

def isBare (c : Char) : Bool := c.isAlphanum || c == '+' || c == '-' || c == '.'

def bareToken? (chars : List Char) : Option Token :=
  if chars = "null".toList then some (.scalar .null)
  else if chars = "true".toList then some (.scalar (.bool true))
  else if chars = "false".toList then some (.scalar (.bool false))
  else if isNumber chars then some (.scalar (.number (String.ofList chars)))
  else none

def startToken? (c : Char) : Option (List Token × Pending) :=
  match c with
  | '[' => some ([.openArray], .nothing)
  | ']' => some ([.closeArray], .nothing)
  | '\x7b' => some ([.openObject], .nothing)
  | '\x7d' => some ([.closeObject], .nothing)
  | ',' => some ([.comma], .nothing)
  | ':' => some ([.colon], .nothing)
  | '"' => some ([], .string [])
  | c =>
    if c = ' ' ∨ c = '\t' ∨ c = '\n' ∨ c = '\r' then some ([], .nothing)
    else if isBare c then some ([], .bare [c])
    else none

/-- Takes one character: gives the tokens that it completes, in reverse, and what is pending after
    it. -/
def scanChar? (pending : Pending) (c : Char) : Option (List Token × Pending) :=
  match pending with
  | .nothing => startToken? c
  | .bare chars =>
    -- only the character behind a bare word shows that it has ended
    if isBare c then some ([], .bare (c :: chars))
    else do
      let token ← bareToken? chars.reverse
      let (tokens, pending) ← startToken? c
      return (tokens ++ [token], pending)
  | .string pieces =>
    if c = '"' then some ([.text (String.ofList (textOfPieces pieces.reverse))], .nothing)
    else if c = '\\' then some ([], .escape pieces)
    else if c.toNat < 32 then none
    else some ([], .string (.char c :: pieces))
  | .escape pieces =>
    if c = 'u' then some ([], .digits pieces 0 0)
    else (unescape? c).map fun d => ([], .string (.char d :: pieces))
  | .digits pieces count code =>
    (Text.hexValue? c).map fun d =>
      let code := code * 16 + d
      if count = 3 then ([], .string (.unit code :: pieces))
      else ([], .digits pieces (count + 1) code)

/-- The tokens of a text, added in reverse to those found so far. -/
def scan? (found : List Token) (pending : Pending) : List Char → Option (List Token)
  | [] =>
    match pending with
    | .nothing => some found
    | .bare chars => (bareToken? chars.reverse).map (· :: found)
    | _ => none
  | c :: cs =>
    match scanChar? pending c with
    | some (tokens, pending) => scan? (tokens ++ found) pending cs
    | none => none

def tokens? (text : List Char) : Option (List Token) := (scan? [] .nothing text).map List.reverse

/-! ## Documents -/

/-- An open container, with its elements so far in reverse. -/
inductive Container where
  | array (items : List Value)
  /-- An object, with the key whose value comes next. -/
  | object (members : List (String × Value)) (key : String)

inductive Phase where
  | value
  | itemOrClose
  | keyOrClose
  | key
  | colon
  | commaOrClose
  | finished (document : Value)

/-- The open containers, innermost first, and what may come next. -/
structure Assembly where
  containers : List Container
  phase : Phase

/-- Hands a complete value to the innermost container. -/
def Assembly.deliver (v : Value) : List Container → Assembly
  | [] => ⟨[], .finished v⟩
  | .array items :: outer => ⟨.array (v :: items) :: outer, .commaOrClose⟩
  | .object members key :: outer => ⟨.object ((key, v) :: members) "" :: outer, .commaOrClose⟩

def Assembly.enter? (c : Container) (phase : Phase) (outer : List Container) : Option Assembly :=
  if outer.length < maxDepth then some ⟨c :: outer, phase⟩ else none

/-- Takes a token where a value must come. -/
def Assembly.value? (containers : List Container) : Token → Option Assembly
  | .openArray => enter? (.array []) .itemOrClose containers
  | .openObject => enter? (.object [] "") .keyOrClose containers
  | .text s => some (deliver (.string s) containers)
  | .scalar v => some (deliver v containers)
  | _ => none

def Assembly.step? (a : Assembly) (t : Token) : Option Assembly :=
  match a.phase, t, a.containers with
  | .value, t, containers => value? containers t
  | .itemOrClose, .closeArray, .array items :: outer => some (deliver (.array items.reverse) outer)
  | .itemOrClose, t, containers => value? containers t
  | .keyOrClose, .closeObject, .object members _ :: outer =>
    some (deliver (.object members.reverse) outer)
  | .keyOrClose, .text s, .object members _ :: outer => some ⟨.object members s :: outer, .colon⟩
  -- a comma must be followed by a key, so here the object cannot be closed
  | .key, .text s, .object members _ :: outer => some ⟨.object members s :: outer, .colon⟩
  | .colon, .colon, containers => some ⟨containers, .value⟩
  | .commaOrClose, .comma, .array items :: outer => some ⟨.array items :: outer, .value⟩
  | .commaOrClose, .comma, .object members key :: outer =>
    some ⟨.object members key :: outer, .key⟩
  | .commaOrClose, .closeArray, .array items :: outer =>
    some (deliver (.array items.reverse) outer)
  | .commaOrClose, .closeObject, .object members _ :: outer =>
    some (deliver (.object members.reverse) outer)
  | _, _, _ => none

/-- Reads a document that makes up the whole text. -/
def parse? (text : List Char) : Option Value := do
  let tokens ← tokens? text
  let final ← tokens.foldlM Assembly.step? ⟨[], .value⟩
  match final.phase with
  | .finished v => some v
  | _ => none

end TraceRegex.Json
