import TraceRegex.Automaton.Basic

/-! # The algebra of automata

Constructions that combine automata: union, intersection, concatenation, fusion (the last letter of
the first part is the first letter of the second), and repetition.  Each keeps the states of its
operands and appends, so that a state of the result says which operand it came from.
-/

namespace TraceRegex

def Rule.shift (r : Rule) (offset : Nat) : Rule := { r with target := r.target + offset }

namespace Automaton

def shiftRules (transitions : List (List Rule)) (offset : Nat) : List (List Rule) :=
  transitions.map fun rules => rules.map (·.shift offset)

def initialRules (a : Automaton) : List Rule := a.rulesFrom a.initial

def acceptsEmpty (a : Automaton) : Bool := a.isFinal a.initial

/-- Accepts the empty word only. -/
def eps : Automaton where
  atomCount := 0
  stateCount := 1
  initial := 0
  finals := .singleton 0
  transitions := [[]]

/-- Accepts the words of one letter that satisfies the guard. -/
def phi (guard : Formula) : Automaton where
  atomCount := guard.varCount
  stateCount := 2
  initial := 0
  finals := .singleton 1
  transitions := [[⟨guard, 1⟩], []]

/-- Accepts what either automaton accepts.  A new initial state has the rules of both initial
    states. -/
def union (a b : Automaton) : Automaton :=
  let offset := a.stateCount
  let initial := a.stateCount + b.stateCount
  let finals := a.finals.union (b.finals.shift offset)
  { atomCount := max a.atomCount b.atomCount
    stateCount := a.stateCount + b.stateCount + 1
    initial
    finals := if a.acceptsEmpty || b.acceptsEmpty then finals.insert initial else finals
    transitions :=
      a.transitions ++ shiftRules b.transitions offset
        ++ [a.initialRules ++ b.initialRules.map (·.shift offset)] }

/-- Accepts what both automata accept.  A state of the product is a pair of states, numbered row by
    row. -/
def intersect (a b : Automaton) : Build Automaton := do
  let width := b.stateCount
  let pair (p q : Nat) : Nat := p * width + q
  let rows ← a.transitions.mapM fun rules => b.transitions.mapM fun rules' => do
    let products ← rules.mapM fun r => rules'.mapM fun r' => do
      return Rule.mk (← Build.and r.guard r'.guard) (pair r.target r'.target)
    return products.flatten
  return {
    atomCount := max a.atomCount b.atomCount
    stateCount := a.stateCount * width
    initial := pair a.initial b.initial
    finals := .ofList (a.finals.toList.flatMap fun p => b.finals.toList.map (pair p))
    transitions := rows.flatten }

/-- Accepts a word of the first automaton followed by a word of the second: a final state of the
    first also has the rules of the second's initial state. -/
def concat (a b : Automaton) : Automaton :=
  let offset := a.stateCount
  let entry := b.initialRules.map (·.shift offset)
  { atomCount := max a.atomCount b.atomCount
    stateCount := a.stateCount + b.stateCount
    initial := a.initial
    finals := (if b.acceptsEmpty then a.finals else ∅).union (b.finals.shift offset)
    transitions :=
      (a.transitions.zipIdx.map fun (rules, q) => if a.isFinal q then rules ++ entry else rules)
        ++ shiftRules b.transitions offset }

/-- The rule itself, and after it, when it leads to a final state of the first automaton, its
    fusions with the rules that leave the second's initial state. -/
def fuseRule (a b : Automaton) (r : Rule) : Build (List Rule) := do
  if a.isFinal r.target then
    let fused ← b.initialRules.mapM fun r' => do
      return Rule.mk (← Build.and r.guard r'.guard) (r'.target + a.stateCount)
    return r :: fused
  else return [r]

/-- Accepts a word of the first automaton and a word of the second that share one letter: the last
    of the one is the first of the other. -/
def fuse (a b : Automaton) : Build Automaton := do
  let fused ← a.transitions.mapM fun rules => do
    return (← rules.mapM (fuseRule a b)).flatten
  return {
    atomCount := max a.atomCount b.atomCount
    stateCount := a.stateCount + b.stateCount
    initial := a.initial
    finals := b.finals.shift a.stateCount
    transitions := fused ++ shiftRules b.transitions a.stateCount }

/-- Accepts one or more words of the automaton in a row: a final state also has the rules of the
    initial state. -/
def plus (a : Automaton) : Automaton :=
  { a with
    transitions := a.transitions.zipIdx.map fun (rules, q) =>
      if a.isFinal q then rules ++ a.initialRules else rules }

def isReentrant (a : Automaton) : Bool :=
  a.transitions.any fun rules => rules.any (·.target == a.initial)

/-- The same language with an initial state that no rule leads to. -/
def isolate (a : Automaton) : Automaton :=
  if a.isReentrant then
    { a with
      stateCount := a.stateCount + 1
      initial := a.stateCount
      finals := if a.acceptsEmpty then a.finals.insert a.stateCount else a.finals
      transitions := a.transitions ++ [a.initialRules] }
  else a

/-- Accepts any number of words of the automaton in a row.  The initial state is made final, which
    is harmless once no rule leads to it. -/
def star (a : Automaton) : Automaton :=
  let b := a.isolate.plus
  { b with finals := b.finals.insert b.initial }

end Automaton

end TraceRegex
