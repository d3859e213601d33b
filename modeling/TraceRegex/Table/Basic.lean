import TraceRegex.Automaton.Basic
import TraceRegex.Fault

/-! # Transition tables

A table is an automaton as it was handed in, before anything was checked.  It may have more or fewer
lists of rules than states, it may mention states that it does not have, and its final states may
stand in any order.  Its numbers have 64 bits, and sums and products of them wrap around.

The operations on tables look up entry by entry, and end in a fault where an entry is missing.  On the
tables of automata they are the operations on automata, as long as there is room for the result.
-/

namespace TraceRegex

/-- An automaton of which nothing has been checked. -/
structure Table where
  atomCount : Nat
  stateCount : Nat
  initial : Nat
  finals : Array Nat
  transitions : Array (List Rule)
deriving DecidableEq, Inhabited

/-- A computation on tables, which may look for an entry that is not there. -/
abbrev Lookup := ExceptT Fault Build

namespace Table

/-- What is left of a number in 64 bits. -/
def wrap (n : Nat) : Nat := n % (maxWord + 1)

def blank (atomCount stateCount initial : Nat) (finals : Array Nat) : Except Fault Table := do
  checkTable stateCount ruleListBytes
  return ⟨atomCount, stateCount, initial, finals, Array.replicate stateCount []⟩

/-! ## Tables and automata -/

def ofAutomaton (a : Automaton) : Table where
  atomCount := a.atomCount
  stateCount := a.stateCount
  initial := a.initial
  finals := a.finals.items
  transitions := a.transitions.toArray

/-- The automaton with the same entries, whether or not they make sense. -/
def toAutomaton (t : Table) : Automaton where
  atomCount := t.atomCount
  stateCount := t.stateCount
  initial := t.initial
  finals := .ofList t.finals.toList
  transitions := t.transitions.toList

/-! ## Entries -/

def rulesAt (t : Table) (q : Nat) : Except Fault (List Rule) :=
  match t.transitions[q]? with
  | some rules => .ok rules
  | none => .error .outOfRange

def addRule (t : Table) (q : Nat) (r : Rule) : Except Fault Table :=
  if q < t.transitions.size then
    .ok { t with transitions := t.transitions.modify q (· ++ [r]) }
  else .error .outOfRange

def addRules (t : Table) (q : Nat) (rules : List Rule) : Except Fault Table :=
  rules.foldlM (fun t r => t.addRule q r) t

def rules (t : Table) : List (Nat × Rule) :=
  t.transitions.toList.zipIdx.flatMap fun (rules, q) => rules.map (q, ·)

def ruleCount (t : Table) : Nat := t.rules.length

/-- The place of a number among the final states, which is sought by bisection. -/
def placeOf (finals : Array Nat) (q : Nat) : Nat := SortedSet.bisect finals q 0 finals.size

def isFinal (t : Table) (q : Nat) : Bool := t.finals[placeOf t.finals q]? == some q

/-- Whether there is a place for each list of rules, and room for those that are missing. -/
def Fits (t : Table) : Prop :=
  t.transitions.size ≤ t.stateCount ∧
    (t.transitions.size < t.stateCount → t.stateCount * ruleListBytes ≤ maxTableBytes)

instance (t : Table) : Decidable t.Fits := inferInstanceAs (Decidable (_ ∧ (_ → _)))

/-- The table with one list of rules for each state.  A state without a list gets an empty one; a list
    beyond the last state has no place. -/
def fitted (t : Table) : Except Fault Table :=
  if t.Fits then
    let missing := t.stateCount - t.transitions.size
    .ok { t with transitions := t.transitions ++ Array.replicate missing [] }
  else .error .outOfRange

/-! ## Checking and text -/

def defect? (t : Table) : Option Automaton.Defect :=
  Automaton.defectOf? t.atomCount t.stateCount t.initial t.finals.toList t.transitions.toList

def validate (t : Table) : Except Automaton.Defect Unit :=
  match t.defect? with
  | some d => .error d
  | none => .ok ()

def render (t : Table) (names : List String) : String :=
  Automaton.renderParts t.stateCount t.initial t.finals.toList t.transitions.toList names

def dot (t : Table) (names : List String) : String :=
  Automaton.dotParts t.stateCount t.initial t.isFinal t.transitions.toList names

end Table

end TraceRegex
