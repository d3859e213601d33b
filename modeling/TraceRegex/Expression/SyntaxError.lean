import TraceRegex.Expression.Basic
import TraceRegex.Text.Quoted

/-! # Syntax errors

An error in the text of an expression, with the stretch of the source that it is about.
-/

namespace TraceRegex

inductive SyntaxError.Cause where
  /-- No token starts with the rest of the text. -/
  | invalidText (rest : List Char)
  /-- A token stands where it cannot, or where something else was expected. -/
  | unexpected (token : String) (expected : Option String)
  | notBoolean (op : String) (operand : Expression)
  | invalidRange (lo hi : Nat)
  | invalidCount (text : String)
  | unknownExpression
deriving DecidableEq, Repr

/-- An error about the bytes from `start` up to `stop` of a text. -/
structure SyntaxError where
  start : Nat
  stop : Nat
  cause : SyntaxError.Cause
deriving DecidableEq, Repr

namespace SyntaxError

/-- How many characters of an unreadable text are shown. -/
def shownChars : Nat := 16

def Cause.message : Cause → String
  | .invalidText rest =>
    let shown := if shownChars < rest.length then rest.take shownChars ++ "...".toList else rest
    "invalid input text " ++ Text.quoted shown
  | .unexpected token expected =>
    s!"unexpected token \"{token}\"" ++ match expected with
      | some text => s!" (expected {text})"
      | none => ""
  | .notBoolean op operand => s!"operand of {op} is not boolean (" ++ operand.render ++ ")"
  | .invalidRange lo hi => s!"invalid range \x7b{lo},{hi}\x7d"
  | .invalidCount text => s!"invalid repetition count {text}"
  | .unknownExpression => "unknown expression"

def message (e : SyntaxError) : String := e.cause.message

def render (e : SyntaxError) : String := s!"{e.start}:{e.stop}:" ++ e.message

end SyntaxError

end TraceRegex
