import TraceRegex.Expression.SyntaxError
import TraceRegex.Text.Utf8

/-! # Tokens

The text of an expression is cut into numbers, words and symbols; blanks only separate.  The scanner
takes the characters one at a time and remembers only the token that it is in the middle of.
-/

namespace TraceRegex

inductive TokenKind where
  | int
  | ident
  | symbol
  | eof
deriving DecidableEq, Repr, Inhabited

structure Token where
  kind : TokenKind
  text : String
  offset : Nat
  /-- The offset where the source before the token ends, apart from spaces, tabs and line ends. -/
  edge : Nat
deriving DecidableEq, Repr, Inhabited

namespace Token

/-! ## Character classes -/

def startsWord (c : Char) : Bool := c.isAlpha || c == '_'

def continuesWord (c : Char) : Bool := c.isAlphanum || c == '_'

def isSeparator (c : Char) : Bool :=
  c == ' ' || c == '\t' || c == '\n' || c == '\r' || c == '\x0c'

/-- Whether the character can be trimmed off the end of a stretch of source. -/
def isTrimmed (c : Char) : Bool := c == ' ' || c == '\t' || c == '\n' || c == '\r'

def symbols : List Char := "[]()\x7b\x7d;:!~*+,".toList

/-! ## Scanning -/

/-- The token that the scanner is in the middle of, with its offset and edge. -/
inductive Pending where
  | nothing
  | digits (chars : List Char) (offset edge : Nat)
  | word (chars : List Char) (offset edge : Nat)
  /-- A bar or an ampersand, which the same character again would make a connective. -/
  | single (char : Char) (offset edge : Nat)

structure Scan where
  found : List Token
  pending : Pending
  offset : Nat
  /-- The offset where the source so far ends, apart from spaces, tabs and line ends. -/
  edge : Nat

def Pending.token? : Pending → Option Token
  | .nothing => none
  | .digits chars offset edge => some ⟨.int, String.ofList chars.reverse, offset, edge⟩
  | .word chars offset edge => some ⟨.ident, String.ofList chars.reverse, offset, edge⟩
  | .single c offset edge => some ⟨.symbol, c.toString, offset, edge⟩

/-- The pending token with the character added, if it can go on with it. -/
def Pending.extend? (p : Pending) (c : Char) : Option (Pending ⊕ Token) :=
  match p with
  | .nothing => none
  | .digits chars offset edge =>
    if c.isDigit then some (.inl (.digits (c :: chars) offset edge)) else none
  | .word chars offset edge =>
    if continuesWord c then some (.inl (.word (c :: chars) offset edge)) else none
  | .single d offset edge =>
    if c = d then some (.inr ⟨.symbol, String.ofList [d, c], offset, edge⟩) else none

def start? (c : Char) (offset edge : Nat) : Option (Pending × List Token) :=
  if c.isDigit then some (.digits [c] offset edge, [])
  else if startsWord c then some (.word [c] offset edge, [])
  else if c = '|' ∨ c = '&' then some (.single c offset edge, [])
  else if symbols.contains c then some (.nothing, [⟨.symbol, c.toString, offset, edge⟩])
  else if isSeparator c then some (.nothing, [])
  else none

/-- Takes a character, if a token or a blank can be made of it. -/
def step? (s : Scan) (g : Text.Glyph) : Option Scan :=
  let c := g.char
  let offset := s.offset + g.width
  let edge := if isTrimmed c then s.edge else offset
  match s.pending.extend? c with
  | some (.inl pending) => some { s with pending, offset, edge }
  | some (.inr token) => some { found := token :: s.found, pending := .nothing, offset, edge }
  | none =>
    (start? c s.offset s.edge).map fun (pending, tokens) =>
      { found := tokens ++ s.pending.token?.toList ++ s.found, pending, offset, edge }

def scan (s : Scan) : List Text.Glyph → Except SyntaxError (List Token)
  | [] =>
    let eof : Token := ⟨.eof, "<EOF>", s.offset, s.edge⟩
    .ok (eof :: (s.pending.token?.toList ++ s.found)).reverse
  | g :: rest =>
    match step? s g with
    | some s => scan s rest
    | none => .error ⟨s.offset, s.offset + 1, .invalidText ((g :: rest).map Text.Glyph.char)⟩

/-- The tokens of a text, the last of which is its end. -/
def tokenize (source : List Text.Glyph) : Except SyntaxError (List Token) :=
  scan { found := [], pending := .nothing, offset := 0, edge := 0 } source

end Token

end TraceRegex
