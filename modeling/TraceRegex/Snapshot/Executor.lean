import TraceRegex.Snapshot.Basic
import TraceRegex.Verdict

/-! # Running snapshots

An executor reads a trace letter by letter and reports after each one the verdict on what it has
read since it was last reset.  There is one that follows all enabled rules and one that follows the
first.  Once the verdict is that nothing can match any more, it stays so until the next reset.
-/

namespace TraceRegex

namespace Snapshot

def rulesAt (s : Snapshot) (q : Nat) : Except Fault (List CodedRule) :=
  match s.transitions[q]? with
  | some rules => .ok rules
  | none => .error .outOfRange

def enabledTargets (l : Letter) : List CodedRule → Except Fault (List Nat)
  | [] => .ok []
  | r :: rules => do
    let enabled ← r.guard.eval l
    let targets ← enabledTargets l rules
    return if enabled then r.target :: targets else targets

/-- The target of the first rule in a list that the letter enables. -/
def firstEnabled? (l : Letter) : List CodedRule → Except Fault (Option Nat)
  | [] => .ok none
  | r :: rules => do
    if ← r.guard.eval l then return some r.target
    firstEnabled? l rules

end Snapshot

/-! ## Following all enabled rules -/

/-- The states that the letters read so far can have led to, and the verdict. -/
structure SetRun where
  live : StateSet
  verdict : Verdict
deriving DecidableEq, Repr, Inhabited

namespace SetRun

/-- The verdict on a non-empty set of live states. -/
def classify (s : Snapshot) (live : StateSet) : Verdict :=
  if s.finals.any live.contains then .ok else .pending

def start (s : Snapshot) : SetRun :=
  let live := SortedSet.ofList s.initials
  ⟨live, if s.finals.isEmpty then .failed else classify s live⟩

def advance (s : Snapshot) (run : SetRun) (l : Letter) : Except Fault SetRun := do
  if run.verdict = .failed then return run
  let targets ← run.live.toList.mapM fun q => do Snapshot.enabledTargets l (← s.rulesAt q)
  let live := SortedSet.ofList targets.flatten
  return ⟨live, if live.isEmpty then .failed else classify s live⟩

end SetRun

/-! ## Following the first enabled rule -/

/-- The state that the letters read so far have led to, and the verdict. -/
structure StateRun where
  current : Nat
  verdict : Verdict
deriving DecidableEq, Repr, Inhabited

namespace StateRun

def classify (s : Snapshot) (q : Nat) : Verdict := if s.finals.contains q then .ok else .pending

def start (s : Snapshot) : Except Fault StateRun :=
  match s.initials with
  | [] => .error .outOfRange
  | q :: _ => .ok ⟨q, if s.finals.isEmpty then .failed else classify s q⟩

def advance (s : Snapshot) (run : StateRun) (l : Letter) : Except Fault StateRun := do
  if run.verdict = .failed then return run
  match ← Snapshot.firstEnabled? l (← s.rulesAt run.current) with
  | some q => return ⟨q, classify s q⟩
  | none => return { run with verdict := .failed }

end StateRun

/-! ## Executors -/

inductive Run where
  | set (run : SetRun)
  | state (run : StateRun)
deriving DecidableEq, Repr, Inhabited

structure Executor where
  snapshot : Snapshot
  run : Run
deriving DecidableEq, Repr, Inhabited

namespace Executor

def verdict (e : Executor) : Verdict :=
  match e.run with
  | .set run => run.verdict
  | .state run => run.verdict

def followAll (s : Snapshot) : Executor := ⟨s, .set (.start s)⟩

def followFirst (s : Snapshot) : Except Fault Executor := do
  return ⟨s, .state (← StateRun.start s)⟩

/-- The executor that the kind of the snapshot asks for. -/
def ofSnapshot (s : Snapshot) : Except Fault Executor :=
  if s.kind = .nondeterministic then .ok (followAll s)
  else if s.kind = .deterministic then followFirst s
  else .error (.unknownKind s.kind.code)

/-- Forgets what was read. -/
def reset (e : Executor) : Except Fault Executor :=
  match e.run with
  | .set _ => .ok (followAll e.snapshot)
  | .state _ => followFirst e.snapshot

def advance (e : Executor) (l : Letter) : Except Fault Executor :=
  match e.run with
  | .set run => do return { e with run := .set (← run.advance e.snapshot l) }
  | .state run => do return { e with run := .state (← run.advance e.snapshot l) }

/-- The verdicts after each letter of a word. -/
def trace (e : Executor) : Word → Except Fault (List Verdict)
  | [] => .ok []
  | l :: w => do
    let e ← e.advance l
    return e.verdict :: (← e.trace w)

end Executor

end TraceRegex
