import TraceRegex.Automaton.Document
import TraceRegex.Snapshot.Basic
import TraceRegex.Table.Basic

/-! # Tables as documents and snapshots

A table is written like an automaton, with its final states in the order in which it lists them.
Before it is written it has to fit: there is no place for a list of rules beyond the last state, and
guards that nest too deeply cannot be laid out.
-/

namespace TraceRegex

namespace Table

def document (t : Table) : AutomatonDoc :=
  { AutomatonDoc.ofAutomaton t.toAutomaton with finals := t.finals.toList }

inductive WriteError where
  | fault (cause : Fault)
  /-- A guard nests too deeply. -/
  | tooDeep
deriving DecidableEq, Repr

def WriteError.message? : WriteError → Option String
  | .fault cause => cause.message?
  | .tooDeep => some Json.tooDeep

/-- The table as indented JSON.  A state without a list of rules has `null` in its place. -/
def toJsonText (t : Table) : Except WriteError String :=
  match t.fitted with
  | .error cause => .error (.fault cause)
  | .ok _ =>
    match t.document.toJson.pretty? with
    | some text => .ok text
    | none => .error .tooDeep

/-- The table as a line of JSON.  A state without a list of rules has an empty one. -/
def toJsonLine (t : Table) : Except Fault String := do
  return (← t.fitted).document.toJson.compact

def snapshot (kind : SnapshotKind) (t : Table) : Except Fault (Except TooLarge Snapshot) := do
  let fitted ← t.fitted
  return do
    let s ← Snapshot.ofAutomaton kind fitted.toAutomaton
    return { s with finals := t.finals.toList }

end Table

end TraceRegex
