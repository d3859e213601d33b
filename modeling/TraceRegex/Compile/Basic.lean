import TraceRegex.Automaton.Minimize
import TraceRegex.Expression.Lower
import TraceRegex.Expression.Syntax
import TraceRegex.Snapshot.Document

/-! # Compilation

An expression is lowered to an automaton, which is minimized or cleaned and, if the target asks for
it, made deterministic.  The result can be written as a snapshot in either format.
-/

namespace TraceRegex

structure Compiled where
  format : Format
  names : List String
  /-- The cleaned and possibly minimized automaton. -/
  automaton : Automaton
  /-- The deterministic automaton, if that is the target. -/
  deterministic : Option Automaton
deriving Inhabited

namespace Compiled

/-- The automaton that is asked for. -/
def result (c : Compiled) : Automaton := c.deterministic.getD c.automaton

def snapshot (c : Compiled) : Except TooLarge Snapshot :=
  match c.deterministic with
  | some d => Snapshot.ofAutomaton .deterministic d
  | none => Snapshot.ofAutomaton .nondeterministic c.automaton

def document (c : Compiled) : SnapshotDoc where
  kind := (if c.deterministic.isSome then Target.deterministic else .nondeterministic).name
  names := c.names
  automaton := some (AutomatonDoc.ofAutomaton c.result)

/-- Why a compiled expression cannot be written.  The binary format has fields of a fixed width, and a
    document can only nest so deeply. -/
inductive WriteError where
  | tooLarge (cause : TooLarge)
  | tooDeep
deriving DecidableEq, Repr

def WriteError.message : WriteError → String
  | .tooLarge cause => cause.message
  | .tooDeep => Json.tooDeep

def documentText (c : Compiled) : Except WriteError String :=
  match c.document.toJson.pretty? with
  | some text => .ok text
  | none => .error .tooDeep

def bytes (c : Compiled) : Except WriteError (List UInt8) :=
  match c.format with
  | .json => do return Text.bytesOfString (← c.documentText)
  | .binary => (do (← c.snapshot).encode).mapError .tooLarge

end Compiled

namespace Expression

/-- Compiles an expression.  Every name is part of the alphabet, even one that does not occur. -/
def compile (settings : Settings) (e : Expression) (names : List String) : Build Compiled := do
  let lowered ← e.lower
  let widened := { lowered with atomCount := max lowered.atomCount names.length }
  let automaton ← if settings.minimize then widened.minimize else widened.clean
  let deterministic ← match settings.target with
    | .deterministic => some <$> automaton.determinize
    | .nondeterministic => pure none
  return { format := settings.format, names, automaton, deterministic }

/-- Compiles the text of an expression, in a context of its own. -/
def compileText (settings : Settings) (source : List Text.Glyph) :
    Except SyntaxError (Compiled × Context) := do
  let (e, names) ← parse source
  return (e.compile settings names).run Context.empty

end Expression

end TraceRegex
