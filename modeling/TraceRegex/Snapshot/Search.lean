import TraceRegex.Snapshot.Executor

/-! # Searching for matching suffixes

A search executor looks for matches that end at the letter just read and may start anywhere.  It
starts a new run before every letter and keeps, for each live state, the age of the runs that are in
it: how many letters the oldest and the youngest of them have read.  From the ages of the final
states it reports the lengths of the shortest and the longest matching suffix.
-/

namespace TraceRegex

/-! ## Ages -/

/-- How many letters the runs in a state have read: the oldest and the youngest run.  A state that no
    run is in has no age. -/
structure Age where
  longest : Nat
  shortest : Nat
  defined : Bool
deriving DecidableEq, Repr, Inhabited

namespace Age

def undefined : Age := ⟨0, 0, false⟩

/-- The age after a new run has joined. -/
def started (a : Age) : Age := if a.defined then ⟨a.longest, 0, true⟩ else ⟨0, 0, true⟩

def step (a : Age) : Age :=
  if a.defined then ⟨a.longest + 1, a.shortest + 1, true⟩ else ⟨0, 0, true⟩

/-- The age of the runs of both. -/
def merge (a b : Age) : Age :=
  if !b.defined then a
  else if !a.defined then b
  else ⟨max a.longest b.longest, min a.shortest b.shortest, true⟩

/-- How many ages a counter of 64 bits can tell apart. -/
def counterSize : Nat := 0x10000000000000000

/-- The age as two counters of 64 bits show it.  A count that has outgrown its counter starts again
    at zero. -/
def counted (a : Age) : Age :=
  { a with longest := a.longest % counterSize, shortest := a.shortest % counterSize }

end Age

/-! ## Runs -/

/-- The live states with their ages, in ascending order. -/
abbrev AgedStates := List (Nat × Age)

namespace AgedStates

def age (states : AgedStates) (q : Nat) : Age := (states.lookup q).getD .undefined

def set (q : Nat) (a : Age) : AgedStates → AgedStates
  | [] => [(q, a)]
  | (p, b) :: rest =>
    if q < p then (q, a) :: (p, b) :: rest
    else if q = p then (q, a) :: rest
    else (p, b) :: AgedStates.set q a rest

def start (states : AgedStates) (q : Nat) : AgedStates := states.set q (states.age q).started

/-- Adds runs of the given age to a state. -/
def join (states : AgedStates) (q : Nat) (a : Age) : AgedStates :=
  states.set q ((states.age q).merge a)

end AgedStates

structure SearchRun where
  live : AgedStates
  verdict : SearchVerdict
deriving DecidableEq, Repr, Inhabited

/-- The lengths of the matches seen so far: shortest and longest. -/
structure MatchLengths where
  shortest : Nat
  longest : Nat

def MatchLengths.add (lengths : Option MatchLengths) (a : Age) : MatchLengths :=
  match lengths with
  | none => ⟨a.shortest, a.longest⟩
  | some m => ⟨min m.shortest a.shortest, max m.longest a.longest⟩

namespace SearchRun

def classify (s : Snapshot) (live : AgedStates) : SearchVerdict :=
  let horizon := live.foldl (fun h (_, a) => max h a.longest) 0
  let lengths := live.foldl
    (fun m (q, a) => if s.finals.contains q then some (MatchLengths.add m a) else m) none
  match lengths with
  | some m => .ok m.shortest m.longest horizon
  | none => .pending horizon

def start (s : Snapshot) : SearchRun := ⟨[], if s.finals.isEmpty then .failed else .pending 0⟩

/-- Starts a run in each initial state, which must have a place in the table of ages. -/
def seed (s : Snapshot) (live : AgedStates) : Except Fault AgedStates :=
  s.initials.foldlM (fun live q => if q < s.stateCount then .ok (live.start q)
    else .error .outOfRange) live

/-- Moves the runs of one state along the rules that the letter enables. -/
def moveState (s : Snapshot) (l : Letter) (a : Age) (next : AgedStates) :
    List CodedRule → Except Fault AgedStates
  | [] => .ok next
  | r :: rules => do
    if ← r.guard.eval l then
      if r.target < s.stateCount then moveState s l a (next.join r.target a) rules
      else throw .outOfRange
    else moveState s l a next rules

def move (s : Snapshot) (l : Letter) (live : AgedStates) : Except Fault AgedStates :=
  live.foldlM (fun next (q, a) => do moveState s l a.step next (← s.rulesAt q)) []

def advance (s : Snapshot) (run : SearchRun) (l : Letter) : Except Fault SearchRun := do
  if run.verdict = .failed then return run
  let live ← move s l (← seed s run.live)
  return ⟨live, classify s live⟩

end SearchRun

structure SearchExecutor where
  snapshot : Snapshot
  run : SearchRun
deriving DecidableEq, Repr, Inhabited

namespace SearchExecutor

def ofSnapshot (s : Snapshot) : SearchExecutor := ⟨s, .start s⟩

def verdict (e : SearchExecutor) : SearchVerdict := e.run.verdict

def reset (e : SearchExecutor) : SearchExecutor := ofSnapshot e.snapshot

def advance (e : SearchExecutor) (l : Letter) : Except Fault SearchExecutor := do
  return { e with run := ← e.run.advance e.snapshot l }

/-- The verdicts after each letter of a word. -/
def trace (e : SearchExecutor) : Word → Except Fault (List SearchVerdict)
  | [] => .ok []
  | l :: w => do
    let e ← e.advance l
    return e.verdict :: (← e.trace w)

end SearchExecutor

end TraceRegex
