import TraceRegex.Automaton.Document
import TraceRegex.Compile.Settings
import TraceRegex.Json.SyntaxError
import TraceRegex.Snapshot.Binary
import TraceRegex.Snapshot.Mismatch
import TraceRegex.Text.Utf8

/-! # Snapshots as JSON documents

Besides the binary format, a snapshot can be written as a JSON document, which also keeps the names
of the atoms.  `Snapshot.decode` reads either format.
-/

namespace TraceRegex

structure SnapshotDoc where
  kind : String
  names : List String
  automaton : Option AutomatonDoc
deriving DecidableEq, Repr, Inhabited

/-- Why bytes are not a snapshot in either format. -/
inductive DecodeError where
  | binary (cause : LoadError)
  | notJson (cause : Option Json.SyntaxError)
  | wrongShape (cause : Option DocMismatch)
  | missingAutomaton
  | invalidAutomaton (cause : AutomatonDocError)
  | unsupportedKind (kind : String)
  | tooLarge (cause : TooLarge)
deriving DecidableEq, Repr

def DecodeError.message : DecodeError → String
  | .binary cause => cause.message
  | .notJson cause => malformed ((cause.map Json.SyntaxError.message).getD "")
  | .wrongShape cause => malformed ((cause.map DocMismatch.message).getD "")
  | .missingAutomaton => malformed "missing automaton"
  | .invalidAutomaton cause => malformed cause.message
  | .unsupportedKind kind => "unsupported snapshot kind: " ++ Text.quoted kind.toList
  | .tooLarge cause => cause.message

/-- The document of a snapshot while it is decoded. -/
structure SnapshotDraft where
  kind : String
  names : Json.Slots String
  automaton : Option AutomatonDraft
deriving DecidableEq, Repr, Inhabited

namespace SnapshotDraft

def blank : SnapshotDraft := ⟨"", .empty, none⟩

def updateMember (draft : SnapshotDraft) (member : String × Json.Value) :
    Option SnapshotDraft := do
  let (key, v) := member
  if Json.isKey "kind" key then return { draft with kind := ← Json.updateString draft.kind v }
  else if Json.isKey "atomics" key then
    return { draft with names := ← draft.names.update "" Json.updateString v }
  else if Json.isKey "fasl" key then
    match v with
    | .null => return { draft with automaton := none }
    | v => return { draft with automaton := some (← (draft.automaton.getD .blank).update v) }
  else return draft

def doc (draft : SnapshotDraft) : SnapshotDoc where
  kind := draft.kind
  names := draft.names.items
  automaton := draft.automaton.map AutomatonDraft.doc

end SnapshotDraft

namespace SnapshotDoc

def ofJson : Json.Value → Option SnapshotDoc
  | .null => some SnapshotDraft.blank.doc
  | .object members => (members.foldlM SnapshotDraft.updateMember .blank).map SnapshotDraft.doc
  | _ => none

def toJson (doc : SnapshotDoc) : Json.Value :=
  .object [
    ("kind", .string doc.kind),
    ("atomics", .array (doc.names.map Json.Value.string)),
    ("fasl", (doc.automaton.map AutomatonDoc.toJson).getD .null)]

/-- Builds the automaton of a document and takes its snapshot. -/
def build (doc : SnapshotDoc) : ExceptT DecodeError Build Snapshot := do
  let some automaton := doc.automaton | throw .missingAutomaton
  let snapshot (kind : SnapshotKind) (a : Automaton) : ExceptT DecodeError Build Snapshot :=
    match Snapshot.ofAutomaton kind a with
    | .ok s => return s
    | .error cause => throw (.tooLarge cause)
  if doc.kind = Target.nondeterministic.name then
    let a ← ExceptT.adapt .invalidAutomaton automaton.build
    snapshot .nondeterministic a
  else if doc.kind = Target.deterministic.name then
    let a ← ExceptT.adapt .invalidAutomaton automaton.buildDeterministic
    snapshot .deterministic a
  else throw (.unsupportedKind doc.kind)

end SnapshotDoc

namespace Snapshot

/-- Reads a snapshot in either format, with the names of its atoms if the format has them. -/
def decode (bytes : List UInt8) : Except DecodeError (Snapshot × List String) :=
  if isSnapshot bytes then
    match load bytes with
    | .ok s => .ok (s, [])
    | .error cause => .error (.binary cause)
  else
    match Json.parse? (Text.charsOfBytes bytes) with
    -- a text that cannot be read is gone through once more for the place of its first fault
    | none => .error (.notJson (Json.syntaxError? bytes))
    | some v =>
      match SnapshotDoc.ofJson v with
      | none => .error (.wrongShape (DocMismatch.first? .snapshot "" [] v))
      | some doc => (doc.build.run.run Context.empty).1.map (·, doc.names)

end Snapshot

end TraceRegex
