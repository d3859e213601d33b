import TraceRegex.Formula.Basic

/-! # Formulas as text

Negation binds tighter than conjunction, and conjunction tighter than disjunction.  Both connectives
associate to the left; a right operand of the same strength is bracketed, so that the text shows the
exact shape of the formula.
-/

namespace TraceRegex

/-- The name of the atom `i`: the given one, or else `x` followed by its number. -/
def atomName (names : List String) (i : Nat) : String := names.getD i s!"x{i}"

namespace Formula

/-- The strength of disjunction, conjunction and negation as contexts of an operand. -/
def strengthOr : Nat := 1
def strengthAnd : Nat := 2
def strengthNot : Nat := 3

def bracketIf (needed : Bool) (text : String) : String :=
  if needed then "(" ++ text ++ ")" else text

/-- The text of a formula that stands in a context of the given strength. -/
def renderAt (names : List String) (outer : Nat) : Formula → String
  | .const b => if b then "true" else "false"
  | .var i => atomName names i.toNat
  | .not f => "!" ++ f.renderAt names strengthNot
  | .and f g =>
    bracketIf (strengthAnd < outer)
      (f.renderAt names strengthAnd ++ " && " ++ g.renderAt names (strengthAnd + 1))
  | .or f g =>
    bracketIf (strengthOr < outer)
      (f.renderAt names strengthOr ++ " || " ++ g.renderAt names (strengthOr + 1))

def render (f : Formula) (names : List String) : String := f.renderAt names 0

end Formula

end TraceRegex
