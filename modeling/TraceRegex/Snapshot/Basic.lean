import TraceRegex.Automaton.Basic
import TraceRegex.Snapshot.Bytecode

/-! # Snapshots

A snapshot is an automaton made ready to run: its guards are bytecode, and it says whether it is
meant to be run as a deterministic automaton.  A snapshot may have several initial states.
-/

namespace TraceRegex

/-- The kind of a snapshot, by its number. -/
structure SnapshotKind where
  code : UInt16
deriving DecidableEq, Repr, Inhabited

namespace SnapshotKind

/-- Run by following all enabled rules. -/
def nondeterministic : SnapshotKind := ⟨0⟩

/-- Run by following the first enabled rule. -/
def deterministic : SnapshotKind := ⟨1⟩

def isKnown (k : SnapshotKind) : Bool := k == nondeterministic || k == deterministic

def name (k : SnapshotKind) : String :=
  if k = nondeterministic then "nfasl"
  else if k = deterministic then "dfasl"
  else s!"kind({k.code})"

end SnapshotKind

/-- A rule with its guard as bytecode. -/
structure CodedRule where
  guard : Bytecode
  target : Nat
deriving DecidableEq, Repr, Inhabited

structure Snapshot where
  kind : SnapshotKind
  atomCount : Nat
  stateCount : Nat
  initials : List Nat
  finals : List Nat
  transitions : List (List CodedRule)
deriving DecidableEq, Repr, Inhabited

namespace Snapshot

/-- The snapshot is well formed: it keeps to the limits of the binary format, its states are in
    range and listed in ascending order, and its guards are code over its atoms. -/
structure WellFormed (s : Snapshot) : Prop where
  kind_known : s.kind.isKnown = true
  atomCount_le : s.atomCount ≤ maxWord16
  stateCount_pos : 0 < s.stateCount
  stateCount_le : s.stateCount ≤ maxWord16
  initials_ne_nil : s.initials ≠ []
  one_initial : s.kind = .deterministic → s.initials.length = 1
  initials_ascending : s.initials.Pairwise (· < ·)
  initials_lt : ∀ q ∈ s.initials, q < s.stateCount
  finals_ascending : s.finals.Pairwise (· < ·)
  finals_lt : ∀ q ∈ s.finals, q < s.stateCount
  length_transitions : s.transitions.length = s.stateCount
  length_rules_le : ∀ rules ∈ s.transitions, rules.length ≤ maxWord32
  length_guard_le : ∀ rules ∈ s.transitions, ∀ r ∈ rules, r.guard.length ≤ maxWord32
  guard_checked : ∀ rules ∈ s.transitions, ∀ r ∈ rules, r.guard.check s.atomCount = .ok ()
  target_lt : ∀ rules ∈ s.transitions, ∀ r ∈ rules, r.target < s.stateCount

def encodeRule (r : Rule) : Except TooLarge CodedRule := do return ⟨← r.guard.encode, r.target⟩

def ofAutomaton (kind : SnapshotKind) (a : Automaton) : Except TooLarge Snapshot := do
  let transitions ← a.transitions.mapM fun rules => rules.mapM encodeRule
  return {
    kind
    atomCount := a.atomCount
    stateCount := a.stateCount
    initials := [a.initial]
    finals := a.finals.toList
    transitions }

/-- The automaton of a snapshot, with the first of its initial states. -/
def toAutomaton (s : Snapshot) : ExceptT Fault Build Automaton := do
  match s.initials with
  | [] => throw .outOfRange
  | initial :: _ =>
    let transitions ← s.transitions.mapM fun rules => rules.mapM fun r => do
      return Rule.mk (← r.guard.decompile) r.target
    return {
      atomCount := s.atomCount
      stateCount := s.stateCount
      initial
      finals := .ofList s.finals
      transitions }

end Snapshot

end TraceRegex
