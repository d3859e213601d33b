import TraceRegex.Expression.Basic

/-! # The language of an expression

`Matches` says which words an expression stands for.  `accepts` decides it by trying all ways to
take a word apart, for expressions without prefix closures: whether a word can be extended to one
of the language is nothing that trying its parts can tell.
-/

namespace TraceRegex

/-- The word is a concatenation of `n` words with the property. -/
inductive Power (holds : Word → Prop) : Nat → Word → Prop where
  | zero : Power holds 0 []
  | succ {n : Nat} {u v : Word} (head : holds u) (tail : Power holds n v) :
      Power holds (n + 1) (u ++ v)

namespace Expression

/-- The words that an expression stands for. -/
def Matches : Expression → Word → Prop
  | .condition c, w => ∃ l, w = [l] ∧ c.holds l = true
  | .empty, w => w = []
  | .union e f, w => e.Matches w ∨ f.Matches w
  | .intersect e f, w => e.Matches w ∧ f.Matches w
  | .concat e f, w => ∃ u v, w = u ++ v ∧ e.Matches u ∧ f.Matches v
  | .fusion e f, w => ∃ u l v, w = u ++ l :: v ∧ e.Matches (u ++ [l]) ∧ f.Matches (l :: v)
  | .star e, w => ∃ n, Power e.Matches n w
  | .plus e, w => ∃ n, Power e.Matches (n + 1) w
  | .prefixes e, w => ∃ v, e.Matches (w ++ v)
  | .complement e, w => ¬e.Matches w

/-- The expression has a prefix closure where the word at hand asks for it. -/
inductive Unsupported where
  | prefixes
deriving DecidableEq, Repr

def anyOf {α : Type} (test : α → Except Unsupported Bool) : List α → Except Unsupported Bool
  | [] => .ok false
  | x :: xs => do if ← test x then return true else anyOf test xs

/-- The first test, and then the second if the first succeeded. -/
def both (first second : Except Unsupported Bool) : Except Unsupported Bool := do
  if ← first then second else return false

/-- Whether a word is a concatenation of one or more non-empty words that pass the test.  The first
    argument bounds how many. -/
def repeats (test : Word → Except Unsupported Bool) : Nat → Word → Except Unsupported Bool
  | 0, _ => .ok false
  | n + 1, w =>
    anyOf (fun i =>
      both (test (w.take i)) (if i = w.length then .ok true else repeats test n (w.drop i)))
      (List.range' 1 w.length)

def accepts : Expression → Word → Except Unsupported Bool
  | .condition c, w =>
    match w with
    | [l] => .ok (c.holds l)
    | _ => .ok false
  | .empty, w => .ok w.isEmpty
  | .union e f, w => do if ← e.accepts w then return true else f.accepts w
  | .intersect e f, w => both (e.accepts w) (f.accepts w)
  | .concat e f, w =>
    anyOf (fun i => both (e.accepts (w.take i)) (f.accepts (w.drop i)))
      (List.range (w.length + 1))
  | .fusion e f, w =>
    -- the two words share a letter
    anyOf (fun i => both (e.accepts (w.take i)) (f.accepts (w.drop (i - 1))))
      (List.range' 1 w.length)
  | .star e, w => if w.isEmpty then .ok true else repeats e.accepts w.length w
  | .plus e, w => do
    if ← repeats e.accepts w.length w then return true
    -- repeating takes non-empty words only
    else if w.isEmpty then e.accepts w
    else return false
  | .prefixes _, _ => .error .prefixes
  | .complement e, w => do return !(← e.accepts w)

end Expression

end TraceRegex
