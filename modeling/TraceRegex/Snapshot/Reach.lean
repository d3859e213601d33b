import TraceRegex.Fault
import TraceRegex.Snapshot.Search

/-! # Running unchecked snapshots

The executors keep sets of states as rows of bits.  In a snapshot that was checked every state has
its bit.  One that was put together by hand can mention states that no row reaches; then the executor
cannot be made, or stops at the letter that leads to such a state.
-/

namespace TraceRegex

namespace Snapshot

/-- A snapshot without rules, if there is room for its table. -/
def blank (kind : SnapshotKind) (atomCount stateCount : Nat) (initials finals : List Nat) :
    Except Fault Snapshot := do
  checkTable stateCount ruleListBytes
  return {
    kind, atomCount, stateCount, initials, finals
    transitions := List.replicate stateCount [] }

def addRule (s : Snapshot) (q : Nat) (r : CodedRule) : Except Fault Snapshot :=
  if q < s.transitions.length then
    .ok { s with transitions := s.transitions.modify q (· ++ [r]) }
  else .error .outOfRange

/-- Checks the targets of those rules in a list that the letter enables. -/
def checkTargets (check : Nat → Except Fault Unit) (l : Letter) :
    List CodedRule → Except Fault Unit
  | [] => .ok ()
  | r :: rules => do
    if ← r.guard.eval l then check r.target
    checkTargets check l rules

/-- Checks the targets that the letter leads to from the given states. -/
def checkLeaving (s : Snapshot) (check : Nat → Except Fault Unit) (l : Letter) (live : List Nat) :
    Except Fault Unit :=
  live.forM fun q => do checkTargets check l (← s.rulesAt q)

/-- Checks that a row of bits reaches a state, and that it has a place in the table of ages. -/
def checkAged (s : Snapshot) (q : Nat) : Except Fault Unit := do
  checkRow q
  if q < s.stateCount then return () else throw .outOfRange

end Snapshot

namespace Executor

/-- The executor that follows all enabled rules, if rows of bits reach its states. -/
def openAll (s : Snapshot) : Except Fault Executor := do
  checkRows s.finals
  checkRows s.initials
  return followAll s

def openFirst (s : Snapshot) : Except Fault Executor := do
  checkRows s.finals
  followFirst s

def openSnapshot (s : Snapshot) : Except Fault Executor :=
  if s.kind = .nondeterministic then openAll s
  else if s.kind = .deterministic then openFirst s
  else .error (.unknownKind s.kind.code)

/-- Reads a letter, if rows of bits reach the states that it leads to. -/
def advanceWithin (e : Executor) (l : Letter) : Except Fault Executor := do
  match e.run with
  | .set run => unless run.verdict = .failed do e.snapshot.checkLeaving checkRow l run.live.toList
  | .state _ => pure ()
  e.advance l

end Executor

namespace SearchExecutor

def openSnapshot (s : Snapshot) : Except Fault SearchExecutor := do
  checkRows s.finals
  return ofSnapshot s

def advanceWithin (e : SearchExecutor) (l : Letter) : Except Fault SearchExecutor := do
  unless e.run.verdict = .failed do
    let live ← SearchRun.seed e.snapshot e.run.live
    e.snapshot.checkLeaving e.snapshot.checkAged l (live.map Prod.fst)
  e.advance l

end SearchExecutor

end TraceRegex
