import TraceRegex.Automaton.Deterministic
import TraceRegex.Formula.Document

/-! # Automata as JSON documents

An automaton is written as an object with its counts, its initial and final states, and one list of
rules for each state.  Reading decodes the document first and then builds the automaton from it,
guard by guard; the automaton is validated at the end.
-/

namespace TraceRegex

structure RuleDoc where
  guard : FormulaDoc
  target : Nat
deriving DecidableEq, Repr, Inhabited

structure AutomatonDoc where
  atomCount : Nat
  stateCount : Nat
  initial : Nat
  finals : List Nat
  transitions : List (List RuleDoc)
deriving DecidableEq, Repr, Inhabited

inductive AutomatonDocError where
  | guard (state : Nat) (cause : FormulaDocError)
  | defect (cause : Automaton.Defect)
deriving DecidableEq, Repr

def AutomatonDocError.message : AutomatonDocError → String
  | .guard q cause => s!"state {q}: " ++ cause.message
  | .defect d => d.message

/-! ## From and to JSON -/

namespace RuleDoc

def blank : RuleDoc := ⟨.missing, 0⟩

def updateMember (doc : RuleDoc) (member : String × Json.Value) : Option RuleDoc := do
  let (key, v) := member
  if Json.isKey "phi" key then return { doc with guard := ← doc.guard.update v }
  else if Json.isKey "state" key then return { doc with target := ← Json.updateNat doc.target v }
  else return doc

/-- Decodes a rule into one that may already hold some parts. -/
def update (old : RuleDoc) : Json.Value → Option RuleDoc
  | .null => some old
  | .object members => members.foldlM updateMember old
  | _ => none

def toJson (doc : RuleDoc) : Json.Value :=
  .object [("phi", doc.guard.toJson), ("state", .ofNat doc.target)]

end RuleDoc

structure AutomatonDraft where
  atomCount : Nat
  stateCount : Nat
  initial : Nat
  finals : Json.Slots Nat
  transitions : Json.Slots (Json.Slots RuleDoc)
deriving DecidableEq, Repr, Inhabited

namespace AutomatonDraft

def blank : AutomatonDraft := ⟨0, 0, 0, .empty, .empty⟩

def updateMember (draft : AutomatonDraft) (member : String × Json.Value) :
    Option AutomatonDraft := do
  let (key, v) := member
  if Json.isKey "atomicCount" key then
    return { draft with atomCount := ← Json.updateNat draft.atomCount v }
  else if Json.isKey "stateCount" key then
    return { draft with stateCount := ← Json.updateNat draft.stateCount v }
  else if Json.isKey "initial" key then
    return { draft with initial := ← Json.updateNat draft.initial v }
  else if Json.isKey "finals" key then
    return { draft with finals := ← draft.finals.update 0 Json.updateNat v }
  else if Json.isKey "transitions" key then
    let rules := Json.Slots.update RuleDoc.blank RuleDoc.update
    return { draft with transitions := ← draft.transitions.update .empty rules v }
  else return draft

def update (old : AutomatonDraft) : Json.Value → Option AutomatonDraft
  | .object members => members.foldlM updateMember old
  | _ => none

def doc (draft : AutomatonDraft) : AutomatonDoc where
  atomCount := draft.atomCount
  stateCount := draft.stateCount
  initial := draft.initial
  finals := draft.finals.items
  transitions := draft.transitions.items.map Json.Slots.items

end AutomatonDraft

namespace AutomatonDoc

/-- Decodes a document that stands alone; there, `null` gives nothing. -/
def ofJson : Json.Value → Option AutomatonDoc
  | .null => some AutomatonDraft.blank.doc
  | v => (AutomatonDraft.blank.update v).map AutomatonDraft.doc

/-- The document as an object.  A state without a list of rules has `null` in its place. -/
def toJson (doc : AutomatonDoc) : Json.Value :=
  .object [
    ("atomicCount", .ofNat doc.atomCount),
    ("stateCount", .ofNat doc.stateCount),
    ("initial", .ofNat doc.initial),
    ("finals", .array (doc.finals.map Json.Value.ofNat)),
    ("transitions", .array <|
      (doc.transitions.map fun rules => Json.Value.array (rules.map RuleDoc.toJson))
        ++ List.replicate (doc.stateCount - doc.transitions.length) .null)]

/-! ## From and to automata -/

def buildRules (q : Nat) (rules : List RuleDoc) : ExceptT AutomatonDocError Build (List Rule) :=
  rules.mapM fun r => do
    let guard ← ExceptT.adapt (.guard q) r.guard.build
    return ⟨guard, r.target⟩

/-- Builds the automaton that a document describes, and checks that it is well formed. -/
def build (doc : AutomatonDoc) : ExceptT AutomatonDocError Build Automaton := do
  if doc.transitions.length ≠ doc.stateCount then
    throw (.defect (.wrongListCount doc.stateCount doc.transitions.length))
  let transitions ← doc.transitions.zipIdx.mapM fun (rules, q) => buildRules q rules
  let a : Automaton :=
    { atomCount := doc.atomCount
      stateCount := doc.stateCount
      initial := doc.initial
      finals := .ofList doc.finals
      transitions }
  match a.validate with
  | .ok () => return a
  | .error d => throw (.defect d)

def buildDeterministic (doc : AutomatonDoc) : ExceptT AutomatonDocError Build Automaton := do
  let a ← doc.build
  ExceptT.adapt .defect a.validateDeterministic
  return a

def ofAutomaton (a : Automaton) : AutomatonDoc where
  atomCount := a.atomCount
  stateCount := a.stateCount
  initial := a.initial
  finals := a.finals.toList
  transitions := a.transitions.map fun rules =>
    rules.map fun r => ⟨FormulaDoc.ofFormula r.guard, r.target⟩

end AutomatonDoc

namespace Automaton

inductive ReadError where
  | notJson
  | invalid (cause : AutomatonDocError)
deriving DecidableEq, Repr

def ofJsonText (text : List Char) : ExceptT ReadError Build Automaton := do
  match (Json.parse? text).bind AutomatonDoc.ofJson with
  | none => throw .notJson
  | some doc => ExceptT.adapt .invalid doc.build

def deterministicOfJsonText (text : List Char) : ExceptT ReadError Build Automaton := do
  match (Json.parse? text).bind AutomatonDoc.ofJson with
  | none => throw .notJson
  | some doc => ExceptT.adapt .invalid doc.buildDeterministic

end Automaton

end TraceRegex
