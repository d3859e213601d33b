import TraceRegex.Expression.Grammar

/-! # Parsing

The parser tries the patterns of the grammar with limited backtracking.  A pattern matches, does not
match, or raises an error when it breaks off in the middle.  After an error, a choice goes on to its
next option and a repetition stops, unless the broken attempt had gone more than `lookahead` tokens
ahead.

Along the way the parser remembers the error that lies deepest in the text.  If in the end some
tokens are left over and that error lies beyond them, it is the one to report.
-/

namespace TraceRegex

namespace Grammar

/-- How far ahead of a choice an error is forgiven. -/
def lookahead : Nat := 2

/-- A token that does not fit, by its place, and what was expected instead. -/
structure Mismatch where
  token : Nat
  expected : Option String
deriving DecidableEq, Repr, Inhabited

/-- Where the parser stands, and the deepest error so far. -/
structure Cursor where
  position : Nat
  deepest : Option Mismatch
  depth : Nat
deriving DecidableEq, Repr, Inhabited

namespace Cursor

def accept (c attempt : Cursor) : Cursor :=
  if c.depth ≤ attempt.depth then attempt else { c with position := attempt.position }

/-- Remembers an error at the current position, if it is the deepest. -/
def note (c : Cursor) (e : Mismatch) : Cursor :=
  if c.depth ≤ c.position then { c with deepest := some e, depth := c.position } else c

def noteAttempt (c : Cursor) (e : Mismatch) (attempt : Cursor) : Cursor :=
  if c.depth ≤ attempt.position then
    { c with deepest := some e, depth := max attempt.position attempt.depth }
  else c

/-- Whether an attempt went too far ahead for its error to be forgiven. -/
def isCommitted (c attempt : Cursor) : Bool := c.position + lookahead < attempt.position

end Cursor

inductive Outcome where
  | matched (trees : List Tree)
  | unmatched
  | raised (e : Mismatch)
deriving Inhabited

def takeToken (tokens : Array Token) (test : Token → Bool) (c : Cursor) : Outcome × Cursor :=
  match tokens[c.position]? with
  | some t =>
    if test t then (.matched [.leaf c.position], { c with position := c.position + 1 })
    else (.unmatched, c)
  | none => (.unmatched, c)

mutual

/-- Tries a pattern.  The first number bounds the depth of the recursion. -/
def run (tokens : Array Token) : Nat → Pattern → Cursor → Outcome × Cursor
  | 0, _, c => (.raised ⟨c.position, none⟩, c)
  | _ + 1, .literal text, c => takeToken tokens (fun t => t.kind != .eof && t.text == text) c
  | _ + 1, .int, c => takeToken tokens (·.kind == .int) c
  | _ + 1, .ident, c => takeToken tokens (·.kind == .ident) c
  | n + 1, .symbol s, c =>
    match run tokens n (body s) c with
    | (.matched trees, c') => (.matched [.node s c.position c'.position trees], c')
    | (.unmatched, c') => (.unmatched, c')
    | (.raised e, c') => (.raised e, c'.note e)
  | n + 1, .seq items, c => runItems tokens n true [] items c
  | n + 1, .choice options, c => runOptions tokens n none 0 options c
  | n + 1, .star p, c => runMany tokens n p false [] c
  | n + 1, .optional p, c => runMany tokens n p true [] c

/-- Tries patterns in a row.  Only at the head may one fail to match without an error. -/
def runItems (tokens : Array Token) :
    Nat → Bool → List Tree → List Pattern → Cursor → Outcome × Cursor
  | 0, _, _, _, c => (.raised ⟨c.position, none⟩, c)
  | _ + 1, _, trees, [], c => (.matched trees, c)
  | n + 1, atHead, trees, item :: rest, c =>
    match run tokens n item c with
    | (.matched more, c) => runItems tokens n false (trees ++ more) rest c
    | (.unmatched, c) =>
      -- nothing was taken at the head, so that another option may still match
      if atHead then (.unmatched, c)
      else (.raised ⟨c.position, some (describeItems (item :: rest))⟩, c)
    | (.raised e, c) => (.raised e, c)

/-- Tries options one after the other.  If none matches, the error that came last among those that
    went furthest is raised. -/
def runOptions (tokens : Array Token) :
    Nat → Option Mismatch → Nat → List Pattern → Cursor → Outcome × Cursor
  | 0, _, _, _, c => (.raised ⟨c.position, none⟩, c)
  | _ + 1, some e, _, [], c => (.raised e, c.note e)
  | _ + 1, none, _, [], c => (.unmatched, c)
  | n + 1, furthest, reach, option :: rest, c =>
    match run tokens n option c with
    | (.matched trees, attempt) => (.matched trees, c.accept attempt)
    | (.unmatched, _) => runOptions tokens n furthest reach rest c
    | (.raised e, attempt) =>
      let noted := c.noteAttempt e attempt
      -- an attempt that went past the lookahead is not taken back
      if c.isCommitted attempt then (.raised e, noted.accept attempt)
      else if reach ≤ attempt.position then
        runOptions tokens n (some e) attempt.position rest noted
      else runOptions tokens n furthest reach rest noted

/-- Tries a pattern again and again, or only once. -/
def runMany (tokens : Array Token) :
    Nat → Pattern → Bool → List Tree → Cursor → Outcome × Cursor
  | 0, _, _, _, c => (.raised ⟨c.position, none⟩, c)
  | n + 1, p, once, trees, c =>
    match run tokens n p c with
    | (.matched more, attempt) =>
      if once then (.matched (trees ++ more), c.accept attempt)
      else runMany tokens n p once (trees ++ more) (c.accept attempt)
    | (.unmatched, attempt) => (.matched trees, c.accept attempt)
    | (.raised e, attempt) =>
      -- a short attempt is forgotten, but its error may still be the deepest
      let noted := (c.note e).noteAttempt e attempt
      if c.isCommitted attempt then (.raised e, noted.accept attempt) else (.matched trees, noted)

end

/-- A bound on the depth of the recursion: between two tokens it goes down through each level of the
    grammar at most once. -/
def depthBound (tokens : Array Token) : Nat := 64 * (tokens.size + 2)

/-- Whether all tokens before the end of the text were taken. -/
def atEnd (tokens : Array Token) (position : Nat) : Bool :=
  match tokens[position]? with
  | some t => t.kind == .eof
  | none => true

def parse (tokens : Array Token) : Except Mismatch Tree :=
  let leftOver (c : Cursor) : Mismatch :=
    if c.position < c.depth then c.deepest.getD ⟨c.position, none⟩ else ⟨c.position, none⟩
  match run tokens (depthBound tokens) (.symbol .union) ⟨0, none, 0⟩ with
  | (.matched [tree], c) => if atEnd tokens c.position then .ok tree else .error (leftOver c)
  | (.matched _, c) => .error (leftOver c)
  | (.unmatched, c) => .error (leftOver c)
  | (.raised e, _) => .error e

end Grammar

end TraceRegex
