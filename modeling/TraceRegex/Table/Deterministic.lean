import TraceRegex.Automaton.Deterministic
import TraceRegex.Table.Clean

/-! # Running and determinising tables

Evaluation, determinisation and what builds on it, on tables of which nothing has been checked.
-/

namespace TraceRegex

namespace Table

/-! ## Running -/

/-- Adds the targets of the rules that the letter enables. -/
def addTargets (l : Letter) (next : StateSet) (rules : List Rule) : Except Fault StateSet :=
  rules.foldlM (fun next r => do
    if r.guard.eval l then
      checkRow r.target
      return next.insert r.target
    else return next) next

def step (t : Table) (l : Letter) (live : StateSet) : Except Fault StateSet :=
  live.toList.foldlM (fun next q => do addTargets l next (← t.rulesAt q)) ∅

def evalFrom (t : Table) (live : StateSet) : Word → Except Fault Verdict
  | [] => .ok (if t.finals.any live.contains then .ok else .pending)
  | l :: w => do
    let next ← t.step l live
    if next.isEmpty then return .failed else t.evalFrom next w

def eval (t : Table) (w : Word) : Except Fault Verdict := do
  if t.finals.isEmpty then return .failed
  checkRow t.initial
  t.evalFrom (.singleton t.initial) w

/-- Reads a word from a state on, following the first enabled rule each time. -/
def evalFirstFrom (t : Table) (q : Nat) : Word → Except Fault Verdict
  | [] => .ok (if t.isFinal q then .ok else .pending)
  | l :: w => do
    match (← t.rulesAt q).find? (·.guard.eval l) with
    | some r => t.evalFirstFrom r.target w
    | none => return .failed

def evalFirst (t : Table) (w : Word) : Except Fault Verdict :=
  if t.finals.isEmpty then .ok .failed else t.evalFirstFrom t.initial w

/-! ## Checking -/

/-- Why a table cannot be taken for a deterministic automaton. -/
inductive NotDeterministic where
  | fault (cause : Fault)
  | defect (cause : Automaton.Defect)
deriving DecidableEq, Repr

/-- Checks that a table can be taken for a deterministic automaton.  Here states may lack their lists
    of rules. -/
def checkDeterministic (t : Table) : ExceptT NotDeterministic Build Unit := do
  match t.fitted with
  | .error cause => throw (.fault cause)
  | .ok fitted =>
    if let some d := fitted.defect? then throw (.defect d)
    if let some d ← Automaton.overlapDefect? t.transitions.toList then throw (.defect d)

/-! ## Determinisation -/

/-- The regions of the letters that satisfy `upper`, as for automata, where each set of targets needs
    its row of bits. -/
def regions (upper : Formula) (enabled : StateSet) :
    List (Nat × Formula) → Lookup (List (Formula × StateSet))
  | [] => do
    if enabled.isEmpty then return [] else return [(← Build.simplify upper, enabled)]
  | (target, guard) :: rest => do
    let within ← Build.and upper guard
    let without ← Build.and upper (← Build.not guard)
    let inside ← do
      if ← Build.sat within then
        checkRow target
        regions within (enabled.insert target) rest
      else pure []
    let outside ← do
      if ← Build.sat without then regions without enabled rest else pure []
    return inside ++ outside

def regionsFrom (t : Table) (states : StateSet) : Lookup (List (Formula × StateSet)) := do
  let groups ← states.toList.foldlM (fun groups q => do
    (← t.rulesAt q).foldlM (fun groups r => Automaton.joinGuard groups r) groups) []
  regions (.const true) ∅ groups

def explore (t : Table) : Nat → Automaton.Subsets → Lookup Automaton.Subsets
  | 0, s => return s
  | rounds + 1, s =>
    match s.sets[s.transitions.length]? with
    | none => return s
    | some states => do explore t rounds (s.expand (← t.regionsFrom states))

/-- A deterministic automaton for the language of a table.  A set with a state that has no list of
    rules ends the exploration, so that the number of lists bounds the number of sets. -/
def determinize (t : Table) : Lookup Automaton := do
  checkRow t.initial
  let s ← t.explore (Nat.pow 2 t.transitions.size) (.start t.initial)
  return s.toAutomaton t.atomCount t.finals.toList

/-! ## Totalisation and complement -/

/-- The list of rules at the place `q` with a rule to the sink.  There is no place beyond that of the
    sink itself. -/
def completedList (t : Table) (rules : List Rule) (q : Nat) : Lookup (List Rule) :=
  if t.stateCount < q then throw .outOfRange else Automaton.withSink t.stateCount rules

/-- A deterministic table in which every letter enables a rule of every state that has a list.  A
    list in the place of the sink is lost. -/
def totalize (t : Table) : Lookup Table := do
  let transitions ← t.transitions.toList.zipIdx.mapM fun p => t.completedList p.1 p.2
  let fitted ← { t with transitions := (transitions.take t.stateCount).toArray }.fitted
  return { fitted with
    stateCount := t.stateCount + 1
    transitions := fitted.transitions.push (Automaton.sinkRules t.stateCount) }

/-- Accepts what the table does not accept. -/
def complement (t : Table) : Lookup Table := do
  return ofAutomaton (← (← t.determinize).invert)

end Table

end TraceRegex
