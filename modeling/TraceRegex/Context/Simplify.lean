import TraceRegex.Context.NormalForm
import TraceRegex.Context.Solver

/-! # Simplification

A leaf of a formula is redundant when it can be replaced by a constant without changing the meaning
of the whole.  `simplify` brings a formula into normal form and then removes redundant leaves, one
at a time and from left to right, until none is left.

In a normal form every leaf occurs positively: putting *true* for it can only weaken the formula,
putting *false* can only strengthen it.  So one implication decides each replacement.
-/

namespace TraceRegex

namespace Formula

def leafCount : Formula → Nat
  | .const _ | .var _ => 1
  | .not f => f.leafCount
  | .and f g | .or f g => f.leafCount + g.leafCount

end Formula

/-- One step on the way from a subformula to the whole: the connective above it, the side on which
    it stands, and the other operand. -/
inductive Frame where
  | andLeft (rhs : Formula)
  | andRight (lhs : Formula)
  | orLeft (rhs : Formula)
  | orRight (lhs : Formula)
deriving DecidableEq

/-- The formula around a subformula, from the inside out. -/
abbrev Path := List Frame

def Frame.fill (f : Formula) : Frame → Formula
  | .andLeft rhs => .and f rhs
  | .andRight lhs => .and lhs f
  | .orLeft rhs => .or f rhs
  | .orRight lhs => .or lhs f

/-- How many connectives the search for redundant leaves descends through.  What is deeper counts
    as one leaf. -/
def simplifyDepth : Nat := 2048

namespace Build

/-- The whole formula with `pos` and with `neg` at the end of the path.  The two grow together, one
    connective at a time. -/
def plug : Path → Formula → Formula → Build (Formula × Formula)
  | [], pos, neg => return (pos, neg)
  | frame :: path, pos, neg => do
    let pos ← cons (frame.fill pos)
    let neg ← cons (frame.fill neg)
    plug path pos neg

/-- Tries to replace the subformula at the end of the path in `top` by a constant. -/
def reduceLeaf (top : Formula) (path : Path) : Build (Option Formula) := do
  let plugged ← plug path (.const true) (.const false)
  let pos ← nnf plugged.1
  let neg ← nnf plugged.2
  if ← (if pos = top then pure false else do prove (← implies pos top)) then
    return some pos
  else if ← (if neg = top then pure false else do prove (← implies top neg)) then
    return some neg
  else
    return none

/-- Tries the leaves of the subformula at the end of the path, from left to right, until one can be
    replaced.  The first argument bounds the depth. -/
def reduceFirst (top : Formula) : Nat → Path → Formula → Build (Option Formula)
  | room + 1, path, .and lhs rhs => do
    match ← reduceFirst top room (.andLeft rhs :: path) lhs with
    | some f => return some f
    | none => reduceFirst top room (.andRight lhs :: path) rhs
  | room + 1, path, .or lhs rhs => do
    match ← reduceFirst top room (.orLeft rhs :: path) lhs with
    | some f => return some f
    | none => reduceFirst top room (.orRight lhs :: path) rhs
  | _, [], _ => return none
  | _, path, _ => reduceLeaf top path

/-- Replaces leaves until none can be replaced.  Each replacement removes a leaf, so the number of
    leaves bounds the number of rounds. -/
def reduceAll : Nat → Formula → Build Formula
  | 0, top => return top
  | rounds + 1, top => do
    match ← reduceFirst top simplifyDepth [] top with
    | some f => reduceAll rounds f
    | none => return top

/-- An equivalent formula in normal form without redundant leaves. -/
def simplify (f : Formula) : Build Formula := do
  let top ← nnf f
  reduceAll top.leafCount top

end Build

end TraceRegex
