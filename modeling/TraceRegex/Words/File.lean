import TraceRegex.Letter.Text
import TraceRegex.Text.Lines
import TraceRegex.Text.Utf8

/-! # Word files

A word file holds one word on each line, as a JSON list of letters, each of which is the list of the
atoms that hold.  Blank lines do not count as words.
-/

namespace TraceRegex

inductive WordFileError where
  | unknownAtom (line : Nat) (cause : UnknownAtom)
  /-- The line is not JSON or not of the right shape. -/
  | notJson (line : Nat)
  | lineTooLong
deriving DecidableEq, Repr

def WordFileError.message : WordFileError → String
  | .unknownAtom line cause => s!"{line}: " ++ cause.message
  | .notJson line => toString line
  | .lineTooLong => Text.lineTooLong

namespace Word

/-! ## Writing -/

def toJsonLine (names : List String) (w : Word) : String :=
  let letters := w.map fun l => Json.Value.array ((l.toTexts names).map Json.Value.string)
  (Json.Value.array letters).compact

def fileOf (names : List String) (words : List Word) : String :=
  String.join (words.map fun w => Word.toJsonLine names w ++ "\n")

/-! ## Reading -/

/-- The letters of a line, as the texts of their atoms. -/
def lettersOfJson? (text : List Char) : Option (List (List String)) :=
  (Json.parse? text).bind (Json.decodeList [] fun _ => Json.decodeList "" Json.updateString)

/-- Reads the line with the given number; a blank line has no word. -/
def ofLine (names : List String) (line : Nat) (text : List Char) :
    Except WordFileError (Option Word) :=
  let text := Text.trimBlanks text
  if text.isEmpty then .ok none
  else
    match lettersOfJson? text with
    | none => .error (.notJson line)
    | some letters =>
      match letters.mapM (Letter.ofTexts names) with
      | .ok word => .ok (some word)
      | .error cause => .error (.unknownAtom line cause)

def ofLines (names : List String) (line : Nat) :
    List (List UInt8) → Except WordFileError (List Word)
  | [] => .ok []
  | bytes :: rest => do
    let word ← ofLine names line (Text.charsOfBytes bytes)
    let words ← ofLines names (line + 1) rest
    return word.toList ++ words

def ofFile (names : List String) (bytes : List UInt8) : Except WordFileError (List Word) := do
  let lines := Text.linesOfBytes bytes
  let words ← ofLines names 1 lines.lines
  if lines.isCut then throw .lineTooLong
  return words

end Word

end TraceRegex
