import TraceRegex.Automaton.Basic
import TraceRegex.Expression.Basic
import TraceRegex.Random.Generator

/-! # Random samples

Random formulas, expressions, automata and words.  Operands are drawn from left to right.
-/

namespace TraceRegex

/-- A computation that draws from ranges, some of which may be empty, into tables, some of which may be
    too long. -/
abbrev Drawing := ExceptT DrawError Sampler

namespace Drawing

def below (n : Nat) : Drawing Nat := Sampler.below n.toUInt64

/-- Asks for a table with the given number of entries. -/
def table (entries entryBytes : Nat) : Drawing Unit :=
  liftExcept ((checkTable entries entryBytes).mapError .fault)
where
  liftExcept (r : Except DrawError Unit) : Drawing Unit := ExceptT.mk (pure r)

/-- A formula over the given number of atoms, nested to the given depth at most. -/
def formula (atoms : Nat) : Nat → Drawing Formula
  | 0 => leaf
  | depth + 1 => do
    if (← below 4) = 0 then leaf
    else
      match ← below 3 with
      | 0 => return .not (← formula atoms depth)
      | 1 =>
        let f ← formula atoms depth
        return .and f (← formula atoms depth)
      | _ =>
        let f ← formula atoms depth
        return .or f (← formula atoms depth)
where
  leaf : Drawing Formula := do
    match ← below (atoms + 2) with
    | 0 => return .const true
    | 1 => return .const false
    | k + 2 => return .atom k

def condition (atoms : Nat) : Nat → Drawing Condition
  | 0 => leaf
  | depth + 1 => do
    if (← below 3) = 0 then leaf
    else
      match ← below 3 with
      | 0 => return .not (← condition atoms depth)
      | 1 =>
        let c ← condition atoms depth
        return .and c (← condition atoms depth)
      | _ =>
        let c ← condition atoms depth
        return .or c (← condition atoms depth)
where
  leaf : Drawing Condition := do
    match ← below (atoms + 1) with
    | 0 => return if (← below 2) = 0 then .true else .false
    | k + 1 => return .atom k

/-- The empty word or a condition. -/
def shortExpression (atoms : Nat) : Drawing Expression := do
  if (← below 8) = 0 then return .empty
  else return .condition (← condition atoms 2)

/-- An expression over the given number of atoms, nested to the given depth at most.  Prefix closures
    do not occur, and complements are shallow. -/
def expression (atoms : Nat) : Nat → Drawing Expression
  | 0 => shortExpression atoms
  | depth + 1 => do
    if (← below 4) = 0 then shortExpression atoms
    else
      let operator ← below 15
      if operator = 14 then
        -- a complement is at most two levels deep
        match depth with
        | 0 => return .complement (← expression atoms 0)
        | _ + 1 => return .complement (← expression atoms 1)
      else
        let e ← expression atoms depth
        if operator ≤ 1 then return .union e (← expression atoms depth)
        else if operator ≤ 3 then return .intersect e (← expression atoms depth)
        else if operator ≤ 6 then return .concat e (← expression atoms depth)
        else if operator ≤ 8 then return .fusion e (← expression atoms depth)
        else if operator ≤ 10 then return .star e
        else if operator ≤ 12 then return .plus e
        else
          let lo ← below 2
          let hi ← below 2
          return e.between lo (1 + hi)

def rules (atoms states : Nat) : Nat → Drawing (List Rule)
  | 0 => return []
  | n + 1 => do
    let guard ← formula atoms 2
    let target ← below states
    return ⟨guard, target⟩ :: (← rules atoms states n)

/-- An automaton with the given number of states, each with at most the given number of rules. -/
def automaton (atoms states maxRules : Nat) : Drawing Automaton := do
  let initial ← below states
  table states ruleListBytes
  let drawn ← (List.range states).mapM fun q => do
    let isFinal ← below 3
    let count ← below (maxRules + 1)
    return (if isFinal = 0 then [q] else [], ← rules atoms states count)
  return {
    atomCount := atoms
    stateCount := states
    initial
    finals := .ofList (drawn.flatMap Prod.fst)
    transitions := drawn.map Prod.snd }

end Drawing

namespace Sampler

/-- A letter in which each of the given number of atoms holds with even chance. -/
def letter (atoms : Nat) : Sampler Letter := do
  let drawn ← (List.range atoms).mapM fun i => do return if ← coin then [i] else []
  return .ofList drawn.flatten

def letters (atoms : Nat) : Nat → Sampler Word
  | 0 => return []
  | n + 1 => do
    let l ← letter atoms
    return l :: (← letters atoms n)

end Sampler

namespace Drawing

def word (atoms length : Nat) : Drawing Word := do
  table length 8
  Sampler.letters atoms length

end Drawing

end TraceRegex
