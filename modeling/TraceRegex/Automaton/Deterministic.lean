import TraceRegex.Automaton.Clean
import TraceRegex.Automaton.Run
import TraceRegex.Collection.BitSet
import TraceRegex.Collection.BucketMap
import TraceRegex.Context.Simplify

/-! # Deterministic automata

An automaton is deterministic when no letter enables two rules of one state.  `determinize` reaches
one by following sets of states; `totalize` adds a sink for the letters that enable no rule; and the
complement swaps the final and the other states of the total automaton.
-/

namespace TraceRegex

namespace Automaton

/-- No letter satisfies the guards of two rules at different places of one state's list. -/
def Deterministic (a : Automaton) : Prop :=
  ∀ rules ∈ a.transitions, rules.Pairwise fun r r' => ∀ l, ¬(r.guard.eval l ∧ r'.guard.eval l)

/-! ## Checking -/

/-- The first two rules of a list that some letter enables both. -/
def overlap? (rules : List Rule) : Build (Option (Nat × Nat)) :=
  rules.zipIdx.findSomeM? fun (r, i) =>
    (rules.zipIdx.drop (i + 1)).findSomeM? fun (r', j) => do
      return if ← Build.sat (← Build.and r.guard r'.guard) then some (i, j) else none

def overlapDefect? (transitions : List (List Rule)) : Build (Option Defect) :=
  transitions.zipIdx.findSomeM? fun (rules, q) => do
    return (← overlap? rules).map fun (i, j) => .overlappingRules q i j

def deterministicDefect? (a : Automaton) : Build (Option Defect) := do
  match a.defect? with
  | some d => return some d
  | none => overlapDefect? a.transitions

def validateDeterministic (a : Automaton) : ExceptT Defect Build Unit := do
  match ← a.deterministicDefect? with
  | some d => throw d
  | none => return ()

/-! ## Running -/

def firstTarget? (a : Automaton) (l : Letter) (q : Nat) : Option Nat :=
  ((a.rulesFrom q).find? (·.guard.eval l)).map Rule.target

def evalFirstFrom (a : Automaton) (q : Nat) : Word → Verdict
  | [] => if a.isFinal q then .ok else .pending
  | l :: w =>
    match a.firstTarget? l q with
    | some t => a.evalFirstFrom t w
    | none => .failed

def evalFirst (a : Automaton) (w : Word) : Verdict :=
  if a.finals.isEmpty then .failed else a.evalFirstFrom a.initial w

/-! ## Determinisation -/

/-- Adds a rule's guard to the disjunction for its target; targets keep the order in which they
    first came. -/
def joinGuard (groups : List (Nat × Formula)) (r : Rule) : Build (List (Nat × Formula)) :=
  match groups with
  | [] => return [(r.target, r.guard)]
  | (t, guard) :: rest => do
    if t = r.target then return (t, ← Build.or guard r.guard) :: rest
    else return (t, guard) :: (← joinGuard rest r)

/-- The ways in which a letter that satisfies `upper` can enable some targets and not the others:
    for each way that some letter takes and that enables a target, a formula for these letters and
    the set of targets that they enable. -/
def regions (upper : Formula) (enabled : StateSet) :
    List (Nat × Formula) → Build (List (Formula × StateSet))
  | [] => do
    if enabled.isEmpty then return [] else return [(← Build.simplify upper, enabled)]
  | (target, guard) :: rest => do
    let within ← Build.and upper guard
    let without ← Build.and upper (← Build.not guard)
    -- a side that no letter is on is not looked at further
    let inside ← if ← Build.sat within then regions within (enabled.insert target) rest
      else pure []
    let outside ← if ← Build.sat without then regions without enabled rest else pure []
    return inside ++ outside

def regionsFrom (a : Automaton) (states : StateSet) : Build (List (Formula × StateSet)) := do
  let groups ← (states.toList.flatMap a.rulesFrom).foldlM joinGuard []
  regions (.const true) ∅ groups

/-- Sets of states, numbered in order of discovery.  The number of a set is looked up by its row of
    bits. -/
structure Numbering where
  sets : List StateSet
  ids : BucketMap BitSet Nat

namespace Numbering

def empty : Numbering := ⟨[], .empty⟩

/-- The number of a set, which is added if it is new. -/
def number (n : Numbering) (s : StateSet) : Nat × Numbering :=
  let row := BitSet.ofMembers s.toList
  match n.ids.get? row with
  | some i => (i, n)
  | none => (n.sets.length, ⟨n.sets ++ [s], (n.ids.insert row n.sets.length).2⟩)

def rules (n : Numbering) : List (Formula × StateSet) → List Rule × Numbering
  | [] => ([], n)
  | (guard, s) :: rest =>
    let (target, n) := n.number s
    let (rules, n) := n.rules rest
    (⟨guard, target⟩ :: rules, n)

end Numbering

/-- The sets found so far, and the rules of those that were explored. -/
structure Subsets extends Numbering where
  transitions : List (List Rule)

namespace Subsets

def start (initial : Nat) : Subsets where
  toNumbering := (Numbering.empty.number (.singleton initial)).2
  transitions := []

/-- Adds the rules of the first set that was not explored yet.  New sets are put behind those that
    wait. -/
def expand (s : Subsets) (regions : List (Formula × StateSet)) : Subsets :=
  let numbered := s.rules regions
  ⟨numbered.2, s.transitions ++ [numbered.1]⟩

def explore (a : Automaton) : Nat → Subsets → Build Subsets
  | 0, s => return s
  | rounds + 1, s =>
    match s.sets[s.transitions.length]? with
    | none => return s
    | some states => do explore a rounds (s.expand (← a.regionsFrom states))

/-- The automaton of the explored sets.  A set is final if one of the given states is in it. -/
def toAutomaton (s : Subsets) (atomCount : Nat) (finals : List Nat) : Automaton where
  atomCount
  stateCount := s.sets.length
  initial := 0
  finals := .ofList ((List.range s.sets.length).filter fun i =>
    finals.any (s.sets.getD i ∅).contains)
  transitions := s.transitions

end Subsets

/-- A deterministic automaton for the same language, whose states stand for the sets of states that
    some word leads to.  There are no more of them than subsets of the states. -/
def determinize (a : Automaton) : Build Automaton := do
  let s ← Subsets.explore a (Nat.pow 2 a.stateCount) (.start a.initial)
  return s.toAutomaton a.atomCount a.finals.toList

/-! ## Totalisation and complement -/

/-- The rules of a state, and one that leads the letters that enable none of them to a sink. -/
def withSink (sink : Nat) (rules : List Rule) : Build (List Rule) := do
  let rest ← Build.simplify (← Build.not (← Build.disjunction (rules.map Rule.guard)))
  return if ← Build.sat rest then rules ++ [⟨rest, sink⟩] else rules

def sinkRules (sink : Nat) : List Rule := [⟨.const true, sink⟩]

/-- A deterministic automaton in which every letter enables a rule of every state: the letters that
    enabled none now lead to a sink. -/
def totalize (a : Automaton) : Build Automaton := do
  let transitions ← a.transitions.mapM (withSink a.stateCount)
  return {
    a with
    stateCount := a.stateCount + 1
    transitions := transitions ++ [sinkRules a.stateCount] }

def swapFinals (a : Automaton) : Automaton :=
  { a with finals := (SortedSet.range a.stateCount).difference a.finals }

def invert (a : Automaton) : Build Automaton := do (← a.totalize).swapFinals.clean

def complement (a : Automaton) : Build Automaton := do (← a.determinize).invert

end Automaton

end TraceRegex
