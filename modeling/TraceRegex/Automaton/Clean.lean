import TraceRegex.Automaton.Basic
import TraceRegex.Context.Solver

/-! # Cleaning

Cleaning removes what no accepted word can use: rules with unsatisfiable guards, states that cannot
be reached, and states from which no final state can be reached.  Afterwards every live state can
still lead to a match, so the verdict on a word is exact.
-/

namespace TraceRegex

/-! ## Reachability -/

/-- Follows arcs from the frontier on, for a given number of rounds. -/
def reachFrom (arcs : Nat → List Nat) : Nat → (visited frontier : List Nat) → List Nat
  | 0, visited, _ => visited
  | rounds + 1, visited, frontier =>
    let next := (frontier.flatMap arcs).eraseDups.filter (!visited.contains ·)
    if next.isEmpty then visited else reachFrom arcs rounds (visited ++ next) next

/-- What can be reached from the roots along arcs.  Each round finds something new among the given
    number of nodes, so that number bounds the rounds. -/
def reachable (arcs : Nat → List Nat) (count : Nat) (roots : List Nat) : List Nat :=
  reachFrom arcs count roots.eraseDups roots.eraseDups

namespace Automaton

def dropDeadRules (a : Automaton) : Build Automaton := do
  let transitions ← a.transitions.mapM fun rules => rules.filterM fun r => Build.sat r.guard
  return { a with transitions }

def successors (a : Automaton) (q : Nat) : List Nat := (a.rulesFrom q).map Rule.target

def predecessors (a : Automaton) (q : Nat) : List Nat :=
  (a.transitions.zipIdx.filter fun (rules, _) => rules.any (·.target == q)).map Prod.snd

/-- The states on some way from the initial state to a final one, in ascending order. -/
def useful (a : Automaton) : List Nat :=
  let forward := reachable a.successors a.stateCount [a.initial]
  let backward := reachable a.predecessors a.stateCount a.finals.toList
  (List.range a.stateCount).filter fun q => forward.contains q && backward.contains q

/-- The automaton cut down to the kept states, which are renumbered in order. -/
def restrict (a : Automaton) (keep : List Nat) : Automaton :=
  { atomCount := a.atomCount
    stateCount := keep.length
    initial := keep.idxOf a.initial
    finals := .ofList ((a.finals.toList.filter keep.contains).map keep.idxOf)
    transitions := keep.map fun q =>
      ((a.rulesFrom q).filter fun r => keep.contains r.target).map fun r =>
        { r with target := keep.idxOf r.target } }

/-- The automaton cut down to its useful states; if there are none, to its initial state. -/
def trim (a : Automaton) : Automaton :=
  let keep := a.useful
  a.restrict (if keep.isEmpty then [a.initial] else keep)

/-- The automaton without what no accepted word can use. -/
def clean (a : Automaton) : Build Automaton := do return (← a.dropDeadRules).trim

/-- Accepts the prefixes of the accepted words: in a clean automaton that accepts something, every
    state can still lead to a match, so every state becomes final. -/
def prefixClosure (a : Automaton) : Build Automaton := do
  let c ← a.clean
  return if c.finals.isEmpty then c else { c with finals := .range c.stateCount }

end Automaton

end TraceRegex
