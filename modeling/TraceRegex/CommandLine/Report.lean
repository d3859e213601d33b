import TraceRegex.Snapshot.Search
import TraceRegex.Letter.Text
import TraceRegex.Expression.SyntaxError
import TraceRegex.Text.Utf8

/-! # Reports

The texts that commands print: syntax errors with the line that they are in, verdicts, and the parts
of a snapshot.  Escapes set and reset the colour of a text on a terminal.
-/

namespace TraceRegex

namespace Text

structure Colour where
  number : UInt64
deriving DecidableEq, Repr, Inhabited

namespace Colour

def red : Colour := ⟨1⟩
def green : Colour := ⟨2⟩
def yellow : Colour := ⟨3⟩

def escape (parameter : UInt64) : String := s!"\x1b[{parameter}m"

/-- The text in a colour, or as it is when colours are off. -/
def paint (c : Colour) (enabled : Bool) (text : String) : String :=
  if enabled then escape (30 + c.number) ++ text ++ escape 0 else text

end Colour

end Text

namespace CommandLine

/-! ## Syntax errors -/

structure EnclosingLine where
  bytes : List UInt8
  start : Nat
  /-- Its number; the first line has the number one. -/
  number : Nat
deriving DecidableEq, Repr, Inhabited

/-- Looks for the byte `index` from the line on that starts at `start` and whose bytes so far are
    `current`, in reverse. -/
def findLine (index start number : Nat) (current : List UInt8) (offset : Nat) :
    List UInt8 → EnclosingLine
  | [] => ⟨[], 0, number⟩
  | b :: rest =>
    if offset = index then
      ⟨current.reverse ++ (b :: rest).takeWhile (· != 10), start, number⟩
    else if b = 10 then findLine index (offset + 1) (number + 1) [] (offset + 1) rest
    else findLine index start number (b :: current) (offset + 1) rest

/-- The line that holds a byte.  What lies beyond the text counts as its last byte. -/
def enclosingLine (index : Nat) (text : List UInt8) : EnclosingLine :=
  findLine (min index (text.length - 1)) 0 1 [] 0 text

/-- A syntax error: its message, the line that it is in, and a mark under its place. -/
def syntaxReport (text : List UInt8) (e : SyntaxError) : List UInt8 :=
  let line := enclosingLine e.start text
  let indent := String.ofList (List.replicate (e.start - line.start) ' ')
  let mark := String.ofList (List.replicate (max 1 (e.stop - e.start)) '^')
  Text.bytesOfString (s!"<expr>:{line.number}: " ++ e.message ++ "\n")
    ++ line.bytes ++ Text.bytesOfString ("\n" ++ indent ++ mark ++ "\n")

/-! ## Verdicts -/

def padStart (width : Nat) (text : String) : String :=
  String.ofList (List.replicate (width - text.length) ' ') ++ text

def padEnd (width : Nat) (text : String) : String :=
  text ++ String.ofList (List.replicate (width - text.length) ' ')

/-- The line of a verdict: the number of the step, the letter and the verdict. -/
def verdictLine (step : Nat) (letter verdict : String) : String :=
  padStart 4 (toString step) ++ " " ++ padEnd 20 letter ++ " " ++ verdict

def verdictColour : Verdict → Text.Colour
  | .ok => .green
  | .pending => .yellow
  | .failed => .red

def searchColour : SearchVerdict → Text.Colour
  | .ok .. => .green
  | .pending _ => .yellow
  | .failed => .red

/-- The lines of a run: one before the first letter and one after each. -/
def runLines (names : List String) (word : Word) (verdicts : List String) : List String :=
  (verdicts.zip ("" :: word.map (Letter.render names))).zipIdx.map fun ((verdict, letter), step) =>
    verdictLine step letter verdict

/-! ## Snapshots -/

def ruleLine (names : List String) (r : CodedRule) : Except Fault String := do
  let guard ← (r.guard.decompile.run.run Context.empty).1
  return "\t--[ " ++ guard.render names ++ s!" ]--> {r.target}\t({r.guard.length} bytes)"

def snapshotLines (s : Snapshot) (names : List String) : Except Fault (List String) := do
  let atoms := if names.isEmpty then "" else " (" ++ ", ".intercalate names ++ ")"
  let states ← s.transitions.zipIdx.mapM fun (rules, q) => do
    return s!"state {q}:" :: (← rules.mapM (ruleLine names))
  return [
    "kind: " ++ s.kind.name,
    s!"atoms: {s.atomCount}" ++ atoms,
    s!"states: {s.stateCount}",
    "initial: " ++ Automaton.renderStates s.initials,
    "final: " ++ Automaton.renderStates s.finals] ++ states.flatten

end CommandLine

end TraceRegex
