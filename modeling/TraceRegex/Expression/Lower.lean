import TraceRegex.Automaton.Algebra
import TraceRegex.Automaton.Deterministic
import TraceRegex.Expression.Basic

/-! # Lowering expressions to automata

Each operator of an expression has its construction on automata.
-/

namespace TraceRegex

namespace Expression

/-- An automaton for the language of an expression, operands built from left to right. -/
def lower : Expression → Build Automaton
  | .condition c => do return .phi (← c.toFormula)
  | .empty => return .eps
  | .union e f => do
    let a ← e.lower
    let b ← f.lower
    return a.union b
  | .intersect e f => do
    let a ← e.lower
    let b ← f.lower
    a.intersect b
  | .concat e f => do
    let a ← e.lower
    let b ← f.lower
    return a.concat b
  | .fusion e f => do
    let a ← e.lower
    let b ← f.lower
    a.fuse b
  | .star e => do return (← e.lower).star
  | .plus e => do return (← e.lower).plus
  | .prefixes e => do (← e.lower).prefixClosure
  | .complement e => do (← e.lower).complement

end Expression

end TraceRegex
