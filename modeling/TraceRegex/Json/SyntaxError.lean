import TraceRegex.Json.Reader
import TraceRegex.Text.Quoted

/-! # What is wrong with a text that is not JSON

A text is read byte by byte.  The first byte that cannot be there is the error, and what was expected
in its place tells what the text is in the middle of.
-/

namespace TraceRegex.Json

inductive SyntaxError where
  | endOfText
  /-- A byte that cannot be where it is. -/
  | invalidByte (byte : UInt8) (place : String)
deriving DecidableEq, Repr

/-- A byte between single quotes, as the character with its number. -/
def quoteByte (b : UInt8) : String :=
  let c := Char.ofNat b.toNat
  if c = '\'' then "'\\''" else if c = '"' then "'\"'" else "'" ++ Text.quoteChar c ++ "'"

def SyntaxError.message : SyntaxError → String
  | .endOfText => "unexpected end of JSON input"
  | .invalidByte b place => "invalid character " ++ quoteByte b ++ " " ++ place

/-- What an open container waits for the end of. -/
inductive Inside where
  | key
  | member
  | item
deriving DecidableEq, Repr

/-- Where an error behind a complete value is. -/
def Inside.place : Inside → String
  | .key => "after object key"
  | .member => "after object key:value pair"
  | .item => "after array element"

inductive Middle where
  | value
  | itemOrClose
  | keyOrClose
  | key
  | complete
  | string
  | escape
  | digits (left : Nat)
  | minus
  | zero
  | integer
  | point
  | fraction
  | exponentSign
  | exponent
  | exponentDigits
  /-- A word, with the letters that are still to come. -/
  | word (whole : String) (left : List Char)
deriving DecidableEq, Repr

/-- How far a text has been read: what it is in the middle of, and the open containers. -/
structure Progress where
  middle : Middle
  inside : List Inside
deriving DecidableEq, Repr

namespace Progress

def start : Progress := ⟨.value, []⟩

def enter (p : Progress) (b : UInt8) (inside : Inside) (middle : Middle) :
    Except SyntaxError Progress :=
  if p.inside.length < maxDepth then .ok ⟨middle, inside :: p.inside⟩
  else .error (.invalidByte b "exceeded max depth")

def startValue (p : Progress) (b : UInt8) : Except SyntaxError Progress :=
  let go (middle : Middle) : Except SyntaxError Progress := .ok { p with middle }
  match Char.ofNat b.toNat with
  | '\x7b' => p.enter b .key .keyOrClose
  | '[' => p.enter b .item .itemOrClose
  | '"' => go .string
  | '-' => go .minus
  | '0' => go .zero
  | 't' => go (.word "true" ['r', 'u', 'e'])
  | 'f' => go (.word "false" ['a', 'l', 's', 'e'])
  | 'n' => go (.word "null" ['u', 'l', 'l'])
  | c => if c.isDigit then go .integer
    else .error (.invalidByte b "looking for beginning of value")

/-- Ends a value or a key, with what comes right behind it. -/
def afterValue (p : Progress) (b : UInt8) : Except SyntaxError Progress :=
  let c := Char.ofNat b.toNat
  match p.inside with
  | [] =>
    if c.isWhitespace then .ok { p with middle := .complete }
    else .error (.invalidByte b "after top-level value")
  | inside :: outer =>
    if c.isWhitespace then .ok { p with middle := .complete }
    else
      match inside, c with
      | .key, ':' => .ok ⟨.value, .member :: outer⟩
      | .member, ',' => .ok ⟨.key, .key :: outer⟩
      | .member, '\x7d' => .ok ⟨.complete, outer⟩
      | .item, ',' => .ok ⟨.value, .item :: outer⟩
      | .item, ']' => .ok ⟨.complete, outer⟩
      | _, _ => .error (.invalidByte b inside.place)

def startKey (p : Progress) (b : UInt8) : Except SyntaxError Progress :=
  if b.toNat = '"'.toNat then .ok { p with middle := .string }
  else .error (.invalidByte b "looking for beginning of object key string")

def step (p : Progress) (b : UInt8) : Except SyntaxError Progress :=
  let c := Char.ofNat b.toNat
  let go (middle : Middle) : Except SyntaxError Progress := .ok { p with middle }
  let stop (place : String) : Except SyntaxError Progress := .error (.invalidByte b place)
  match p.middle with
  | .value => if c.isWhitespace then .ok p else p.startValue b
  | .itemOrClose =>
    if c.isWhitespace then .ok p
    else if c = ']' then .ok ⟨.complete, p.inside.tail⟩
    else p.startValue b
  | .keyOrClose =>
    if c.isWhitespace then .ok p
    else if c = '\x7d' then .ok ⟨.complete, p.inside.tail⟩
    else p.startKey b
  | .key => if c.isWhitespace then .ok p else p.startKey b
  | .complete => p.afterValue b
  | .string =>
    if c = '"' then go .complete
    else if c = '\\' then go .escape
    else if b < 0x20 then stop "in string literal"
    else .ok p
  | .escape =>
    if c = 'u' then go (.digits 4)
    else if (unescape? c).isSome then go .string
    else stop "in string escape code"
  | .digits left =>
    if (Text.hexValue? c).isNone then stop "in \\u hexadecimal character escape"
    else if left ≤ 1 then go .string
    else go (.digits (left - 1))
  | .minus =>
    if c = '0' then go .zero
    else if c.isDigit then go .integer
    else stop "in numeric literal"
  -- nothing marks the end of a number, so what follows it is already what follows a value
  | .integer => if c.isDigit then .ok p else afterInteger c
  | .zero => afterInteger c
  | .point => if c.isDigit then go .fraction else stop "after decimal point in numeric literal"
  | .fraction =>
    if c.isDigit then .ok p
    else if c = 'e' || c = 'E' then go .exponentSign
    else p.afterValue b
  | .exponentSign =>
    if c = '+' || c = '-' then go .exponent
    else if c.isDigit then go .exponentDigits
    else stop "in exponent of numeric literal"
  | .exponent =>
    if c.isDigit then go .exponentDigits else stop "in exponent of numeric literal"
  | .exponentDigits => if c.isDigit then .ok p else p.afterValue b
  | .word whole left =>
    match left with
    | [] => p.afterValue b
    | d :: left =>
      if c = d then if left.isEmpty then go .complete else go (.word whole left)
      else stop ("in literal " ++ whole ++ " (expecting '" ++ d.toString ++ "')")
where
  afterInteger (c : Char) : Except SyntaxError Progress :=
    if c = '.' then .ok { p with middle := .point }
    else if c = 'e' || c = 'E' then .ok { p with middle := .exponentSign }
    else p.afterValue b

def isComplete (p : Progress) : Bool := p.middle == .complete && p.inside.isEmpty

/-- What is wrong with the end of the text.  A blank behind it ends a number. -/
def finish (p : Progress) : Option SyntaxError :=
  if p.isComplete then none
  else
    match p.step 0x20 with
    | .error e => some e
    | .ok p => if p.isComplete then none else some .endOfText

end Progress

/-- What is wrong with a text, if it is not JSON. -/
def syntaxError? (bytes : List UInt8) : Option SyntaxError :=
  match bytes.foldlM Progress.step .start with
  | .ok p => p.finish
  | .error e => some e

end TraceRegex.Json
