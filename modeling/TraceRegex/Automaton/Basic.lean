import TraceRegex.Collection.SortedSet
import TraceRegex.Context.Basic
import TraceRegex.Formula.Printer

/-! # Symbolic automata

A symbolic automaton reads a trace letter by letter.  Its rules are guarded by formulas: in a state,
a letter enables the rules whose guards it satisfies, and each enabled rule leads to a next state.
Several rules may be enabled at once.

States and atoms are numbered from zero.  The type does not ask that the numbers in an automaton are
below its counts; `Automaton.validate` checks it.
-/

namespace TraceRegex

abbrev StateSet := SortedSet Nat

/-- A rule: under a letter that satisfies the guard, go to the target. -/
structure Rule where
  guard : Formula
  target : Nat
deriving DecidableEq, Inhabited

structure Automaton where
  atomCount : Nat
  stateCount : Nat
  initial : Nat
  finals : StateSet
  transitions : List (List Rule)
deriving DecidableEq, Inhabited

namespace Automaton

def rulesFrom (a : Automaton) (q : Nat) : List Rule := a.transitions.getD q []

def isFinal (a : Automaton) (q : Nat) : Bool := a.finals.contains q

def ruleCount (a : Automaton) : Nat := a.transitions.flatten.length

/-! ## Well-formed automata -/

inductive Defect where
  | noStates
  | initialOutOfBounds (state : Nat)
  | wrongListCount (expected found : Nat)
  | finalOutOfBounds (state : Nat)
  | targetOutOfBounds (state target : Nat)
  | atomOutOfBounds (state atom : Nat)
  | overlappingRules (state first second : Nat)
deriving DecidableEq, Repr

def Defect.message : Defect → String
  | .noStates => "automaton has no states"
  | .initialOutOfBounds q => s!"initial state {q} out-of-bounds"
  | .wrongListCount expected found => s!"expected {expected} transition lists, found {found}"
  | .finalOutOfBounds q => s!"final state {q} out-of-bounds"
  | .targetOutOfBounds q t => s!"state {q} has rule targeting {t} (out-of-bounds)"
  | .atomOutOfBounds q i => s!"state {q} has guard referring to atom {i} (out-of-bounds)"
  | .overlappingRules q i j => s!"state {q} has overlapping rules {i} and {j}"

def Rule.defect? (atomCount stateCount : Nat) (q : Nat) (r : Rule) : Option Defect :=
  if stateCount ≤ r.target then some (.targetOutOfBounds q r.target)
  else if atomCount < r.guard.varCount then some (.atomOutOfBounds q (r.guard.varCount - 1))
  else none

def defectOf? (atomCount stateCount initial : Nat) (finals : List Nat)
    (transitions : List (List Rule)) : Option Defect :=
  if stateCount = 0 then some .noStates
  else if stateCount ≤ initial then some (.initialOutOfBounds initial)
  else if transitions.length ≠ stateCount then
    some (.wrongListCount stateCount transitions.length)
  else
    match finals.find? (stateCount ≤ ·) with
    | some q => some (.finalOutOfBounds q)
    | none => transitions.zipIdx.findSome? fun (rules, q) =>
        rules.findSome? (Rule.defect? atomCount stateCount q)

def defect? (a : Automaton) : Option Defect :=
  defectOf? a.atomCount a.stateCount a.initial a.finals.toList a.transitions

/-- Checks that every number in the automaton is below the count that bounds it. -/
def validate (a : Automaton) : Except Defect Unit :=
  match a.defect? with
  | some d => .error d
  | none => .ok ()

/-- The automaton is well formed: it has states, one list of rules for each of them, and every
    state and atom that it mentions is one of its own. -/
structure Valid (a : Automaton) : Prop where
  initial_lt : a.initial < a.stateCount
  length_transitions : a.transitions.length = a.stateCount
  finals_lt : ∀ q ∈ a.finals, q < a.stateCount
  target_lt : ∀ rules ∈ a.transitions, ∀ r ∈ rules, r.target < a.stateCount
  varCount_le : ∀ rules ∈ a.transitions, ∀ r ∈ rules, r.guard.varCount ≤ a.atomCount

/-! ## Text -/

def renderStates (states : List Nat) : String :=
  "[" ++ " ".intercalate (states.map toString) ++ "]"

def renderRule (names : List String) (q : Nat) (r : Rule) : String :=
  s!"  {q} --[" ++ r.guard.render names ++ s!"]--> {r.target}\n"

/-- The parts of an automaton as text: a line with its states, then a line for each rule. -/
def renderParts (stateCount initial : Nat) (finals : List Nat) (transitions : List (List Rule))
    (names : List String) : String :=
  s!"states {stateCount}, initial {initial}, finals " ++ renderStates finals ++ "\n"
    ++ String.join (transitions.zipIdx.map fun (rules, q) =>
        String.join (rules.map (renderRule names q)))

def render (a : Automaton) (names : List String) : String :=
  renderParts a.stateCount a.initial a.finals.toList a.transitions names

def dotState (isFinal : Nat → Bool) (q : Nat) : String :=
  let shape := if isFinal q then "doublecircle" else "circle"
  s!"    q{q} [shape={shape}, label=\"{q}\"];\n"

/-- A line of a graph description for a rule of the state `q`; quotes in the label are escaped. -/
def dotRule (names : List String) (q : Nat) (r : Rule) : String :=
  let label := (r.guard.render names).replace "\"" "\\\""
  s!"    q{q} -> q{r.target} [label=\"{label}\"];\n"

def dotParts (stateCount initial : Nat) (isFinal : Nat → Bool) (transitions : List (List Rule))
    (names : List String) : String :=
  "digraph nfasl \x7b\n    rankdir=LR;\n    start [shape=point, style=invis];\n"
    ++ String.join ((List.range stateCount).map (dotState isFinal))
    ++ s!"    start -> q{initial};\n"
    ++ String.join (transitions.zipIdx.map fun (rules, q) =>
        String.join (rules.map (dotRule names q)))
    ++ "\x7d\n"

def dot (a : Automaton) (names : List String) : String :=
  dotParts a.stateCount a.initial a.isFinal a.transitions names

end Automaton

end TraceRegex
