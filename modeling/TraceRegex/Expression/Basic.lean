import TraceRegex.Context.Basic

/-! # Sequence expressions

A condition is a propositional formula over atoms, as it is written in the surface syntax.  An
expression describes a set of words: a condition stands for the words of one letter that satisfies
it, and expressions are combined by the regular operators, intersection, complement, fusion (two
words that share a letter) and prefix closure.
-/

namespace TraceRegex

inductive Condition where
  | true
  | false
  | atom (index : Nat)
  | not (arg : Condition)
  | and (lhs rhs : Condition)
  | or (lhs rhs : Condition)
deriving DecidableEq, Repr, Inhabited

inductive Expression where
  | condition (c : Condition)
  | empty
  | union (lhs rhs : Expression)
  | intersect (lhs rhs : Expression)
  | concat (lhs rhs : Expression)
  /-- Two words that overlap in one letter. -/
  | fusion (lhs rhs : Expression)
  | star (arg : Expression)
  | plus (arg : Expression)
  /-- The prefixes of words. -/
  | prefixes (arg : Expression)
  /-- The other words. -/
  | complement (arg : Expression)
deriving DecidableEq, Repr, Inhabited

/-! ## Text -/

def infixText (lhs op rhs : String) : String := "(" ++ lhs ++ " " ++ op ++ " " ++ rhs ++ ")"

namespace Condition

/-- The condition as text, fully bracketed. -/
def render : Condition → String
  | .true => "true"
  | .false => "false"
  | .atom i => s!"x{i}"
  | .not c => "!(" ++ c.render ++ ")"
  | .and c d => infixText c.render "&&" d.render
  | .or c d => infixText c.render "||" d.render

def holds (l : Letter) : Condition → Bool
  | .true => Bool.true
  | .false => Bool.false
  | .atom i => l.holds i
  | .not c => !c.holds l
  | .and c d => c.holds l && d.holds l
  | .or c d => c.holds l || d.holds l

def toFormula : Condition → Build Formula
  | .true => return .const Bool.true
  | .false => return .const Bool.false
  | .atom i => return .atom i
  | .not c => do Build.not (← c.toFormula)
  | .and c d => do
    let f ← c.toFormula
    let g ← d.toFormula
    Build.and f g
  | .or c d => do
    let f ← c.toFormula
    let g ← d.toFormula
    Build.or f g

end Condition

namespace Expression

/-- The expression as text, fully bracketed. -/
def render : Expression → String
  | .condition c => c.render
  | .empty => "()"
  | .union e f => infixText e.render "|" f.render
  | .intersect e f => infixText e.render "&" f.render
  | .concat e f => infixText e.render ";" f.render
  | .fusion e f => infixText e.render ":" f.render
  | .star e => "(" ++ e.render ++ ")[*]"
  | .plus e => "(" ++ e.render ++ ")[+]"
  | .prefixes e => "PARTIAL(" ++ e.render ++ ")"
  | .complement e => "~(" ++ e.render ++ ")"

/-! ## Derived forms -/

/-- `n + 1` copies in a row, nested to the left. -/
def power (e : Expression) : Nat → Expression
  | 0 => e
  | n + 1 => .concat (e.power n) e

/-- Up to `n + 1` copies in a row. -/
def upTo (e : Expression) : Nat → Expression
  | 0 => .union .empty e
  | n + 1 => .union .empty (.concat e (e.upTo n))

def between (e : Expression) (lo hi : Nat) : Expression :=
  match lo, hi - lo with
  | 0, 0 => .empty
  | lo + 1, 0 => e.power lo
  | 0, more + 1 => e.upTo more
  | lo + 1, more + 1 => .concat (e.power lo) (e.upTo more)

def atLeast (e : Expression) : Nat → Expression
  | 0 => .star e
  | 1 => .plus e
  | lo + 1 => .concat (e.power lo) (.star e)

/-- The word of the first expression, or a prefix of such a word followed by a word of the
    second. -/
def abort (body exit : Expression) : Expression :=
  .union (.concat (.prefixes body) exit) body

/-- The union of a list of expressions that starts with `first`, nested to the left. -/
def unionOf (first : Expression) (rest : List Expression) : Expression := rest.foldl .union first

/-- All ways to pick one element of a list, each with the elements that remain. -/
def picks {α : Type} : List α → List (α × List α)
  | [] => []
  | x :: xs => (x, xs) :: (picks xs).map fun (y, ys) => (y, x :: ys)

/-- The expressions in a row, in any order.  The first argument is how many there are. -/
def permuteOf : Nat → List Expression → Expression
  | 0, _ => .empty
  | _, [] => .empty
  | _, [e] => e
  | n + 1, es =>
    match (picks es).map fun (e, rest) => Expression.concat e (permuteOf n rest) with
    | [] => .empty
    | first :: rest => unionOf first rest

def permute (es : List Expression) : Expression := permuteOf es.length es

end Expression

end TraceRegex
