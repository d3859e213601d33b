import TraceRegex.Automaton.Minimize
import TraceRegex.Table.Basic

/-! # Cleaning and minimising tables

The removal of what no accepted word can use, on tables of which nothing has been checked.
-/

namespace TraceRegex

namespace Table

/-- Whether some letter enables a rule of the state `q`.  If so, both its ends have to be states. -/
def isLive (t : Table) (q : Nat) (r : Rule) : Lookup Bool := do
  let live ← Build.sat r.guard
  if live ∧ ¬(q < t.stateCount ∧ r.target < t.stateCount) then throw .outOfRange
  return live

/-- Checks states from which others are to be found: all of them are marked before the first one is
    looked up. -/
def checkRoots (t : Table) (roots : List Nat) : Except Fault Unit := do
  checkRows roots
  if roots.all (· < t.stateCount) then return () else throw .outOfRange

def dropDeadRules (t : Table) : Lookup Table := do
  let transitions ← t.transitions.toList.zipIdx.mapM fun (rules, q) => rules.filterM (t.isLive q)
  return { t with transitions := transitions.toArray }

def clean (t : Table) : Lookup Table := do
  checkTable t.stateCount ruleListBytes
  let live ← t.dropDeadRules
  t.checkRoots [t.initial]
  t.checkRoots t.finals.toList
  let a := live.toAutomaton
  let keep := if a.useful.isEmpty then [t.initial] else a.useful
  if keep.all (· < t.transitions.size) then
    let finals := (t.finals.filter keep.contains).map keep.idxOf
    return { ofAutomaton (a.restrict keep) with finals }
  else throw .outOfRange

def prefixClosure (t : Table) : Lookup Table := do
  let c ← t.clean
  return if c.finals.isEmpty then c else { c with finals := Array.range c.stateCount }

def minimize (t : Table) : Lookup Table := do
  return ofAutomaton (← (← t.clean).toAutomaton.merge)

end Table

end TraceRegex
