import TraceRegex.Expression.Parser

/-! # Reading expressions

The derivation of a text is read as an expression.  Atoms are numbered in the order in which their
names first occur.  A repetition of no times at all stands for the empty word whatever is in front
of it, so what is in front of it is not looked at and its names are not numbered.
-/

namespace TraceRegex

/-- Reading numbers the names that it meets, and can fail. -/
abbrev Reading := StateT (List String) (Except SyntaxError)

namespace Reading

/-- The number of a name, which is the next free one if the name is new. -/
def atom (name : String) : Reading Nat := do
  let names ← get
  match names.idxOf? name with
  | some i => return i
  | none => set (names ++ [name]); return names.length

/-- The condition of an operand, which must be one. -/
def asCondition (op : String) (start : Nat) : Expression → Reading Condition
  | .condition c => return c
  | e => throw ⟨start, start + 1, .notBoolean op e⟩

end Reading

/-! ## Repetitions -/

/-- A repetition, its counts still as text. -/
inductive Repetition where
  | star
  | plus
  | exactly (count : String)
  | atLeast (lo : String)
  | between (lo hi : String)
deriving DecidableEq, Repr

namespace Repetition

def maxCount : Nat := 65535

def count? (text : String) : Option Nat :=
  let n := text.toList.foldl (fun n c => 10 * n + (c.toNat - '0'.toNat)) 0
  if n ≤ maxCount then some n else none

def ofTokens? : List String → Option Repetition
  | ["[", "*", "]"] => some .star
  | ["[", "+", "]"] => some .plus
  | ["\x7b", n, "\x7d"] => some (.exactly n)
  | ["\x7b", lo, ",", "\x7d"] => some (.atLeast lo)
  | ["\x7b", lo, ",", hi, "\x7d"] => some (.between lo hi)
  | _ => none

/-- Whether only the empty word is left of whatever is repeated. -/
def isZeroWidth : Repetition → Bool
  | .exactly n => count? n == some 0
  | .between lo hi => count? lo == some 0 && count? hi == some 0
  | _ => false

def readCount (text : String) : Except SyntaxError.Cause Nat :=
  match count? text with
  | some n => .ok n
  | none => .error (.invalidCount text)

def apply (e : Expression) : Repetition → Except SyntaxError.Cause Expression
  | .star => return .star e
  | .plus => return .plus e
  | .exactly text => do
    let n ← readCount text
    return e.between n n
  | .atLeast text => do
    let n ← readCount text
    return e.atLeast n
  | .between loText hiText => do
    let lo ← readCount loText
    let hi ← readCount hiText
    if hi < lo then throw (.invalidRange lo hi)
    return e.between lo hi

end Repetition

/-! ## Derivations -/

namespace Grammar

/-- The token at a place; beyond the text there is only its end. -/
def tokenAt (tokens : Array Token) (i : Nat) : Token := tokens.getD i default

/-- The stretch of source of the tokens from `first` up to `next`, without the blanks at its end. -/
def spanOf (tokens : Array Token) (first next : Nat) : Nat × Nat :=
  let start := (tokenAt tokens first).offset
  (start, max (start + 1) (tokenAt tokens next).edge)

def errorAt (tokens : Array Token) (first next : Nat) (cause : SyntaxError.Cause) : SyntaxError :=
  let (start, stop) := spanOf tokens first next
  ⟨start, stop, cause⟩

def Mismatch.toError (tokens : Array Token) (m : Mismatch) : SyntaxError :=
  let token := tokenAt tokens m.token
  ⟨token.offset, token.offset + 1, .unexpected token.text m.expected⟩

namespace Tree

def first : Tree → Nat
  | .leaf i => i
  | .node _ first _ _ => first

def isNode : Tree → Bool
  | .leaf _ => false
  | .node .. => true

/-- The texts of the tokens that stand directly among the trees. -/
def texts (tokens : Array Token) (trees : List Tree) : List String :=
  trees.filterMap fun
    | .leaf i => some (tokenAt tokens i).text
    | .node .. => none

def repetition? (tokens : Array Token) : Tree → Option (Repetition × Nat × Nat)
  | .node .repetition first next children =>
    (Repetition.ofTokens? (texts tokens children)).map (·, first, next)
  | _ => none

def repeatAll (tokens : Array Token) (e : Expression) :
    List (Repetition × Nat × Nat) → Except SyntaxError Expression
  | [] => .ok e
  | (r, first, next) :: rest =>
    match r.apply e with
    | .ok e => repeatAll tokens e rest
    | .error cause => .error (errorAt tokens first next cause)

/-- The repetitions after the last one of zero width, if there is one. -/
def afterZeroWidth? (reps : List (Repetition × Nat × Nat)) :
    Option (List (Repetition × Nat × Nat)) :=
  if reps.any (·.1.isZeroWidth) then
    some (reps.reverse.takeWhile (!·.1.isZeroWidth)).reverse
  else none

/-- Applies operators in front of an expression, the innermost, which is the last one, first. -/
def applyOperators (start : Nat) (e : Expression) : List String → Reading Expression
  | [] => return e
  | op :: ops => do
    let e ← applyOperators start e ops
    if op = "!" then
      let c ← Reading.asCondition "!" start e
      return .condition (.not c)
    else return .complement e

/-- The expressions of a chain, joined from the left. -/
def join (combine : Expression → Expression → Expression) :
    List Expression → Expression
  | [] => .empty
  | e :: es => es.foldl combine e

def joinConditions (combine : Condition → Condition → Condition) : List Condition → Expression
  | [] => .empty
  | c :: cs => .condition (cs.foldl combine c)

mutual

def toExpression (tokens : Array Token) : Tree → Reading Expression
  | .leaf i => throw (errorAt tokens i (i + 1) .unknownExpression)
  | .node .union _ _ children => do return join .union (← operands tokens children)
  | .node .intersection _ _ children => do return join .intersect (← operands tokens children)
  | .node .concatenation _ _ children => do return join .concat (← operands tokens children)
  | .node .fusion _ _ children => do return join .fusion (← operands tokens children)
  | .node .disjunction _ _ [child] => child.toExpression tokens
  | .node .disjunction _ _ children => do
    return joinConditions .or (← conditions tokens "||" children)
  | .node .conjunction _ _ [child] => child.toExpression tokens
  | .node .conjunction _ _ children => do
    return joinConditions .and (← conditions tokens "&&" children)
  | .node .unary first _ children => do
    let e := join .concat (← operands tokens children)
    applyOperators (tokenAt tokens first).offset e (texts tokens children)
  | .node .repeated _ _ [] => return .empty
  | .node .repeated _ _ (arg :: reps) => do
    let reps := reps.filterMap (repetition? tokens)
    -- what is repeated zero times is not read: its atoms get no numbers, its faults no errors
    match afterZeroWidth? reps with
    | some reps => repeatAll tokens .empty reps
    | none =>
      let e ← arg.toExpression tokens
      repeatAll tokens e reps
  | .node .repetition first next _ => throw (errorAt tokens first next .unknownExpression)
  | .node .primary first next children => do
    -- the leaves tell the forms apart, the other children are the operands
    match texts tokens children, ← operands tokens children with
    | ["(", ")"], [] => return .empty
    | ["(", ")"], [e] => return e
    | ["PARTIAL", "(", ")"], [e] => return .prefixes e
    | ["ABORT"], [e] => return e
    | ["PERMUTE"], [e] => return e
    | ["true"], [] => return .condition .true
    | ["false"], [] => return .condition .false
    | [name], [] => return .condition (.atom (← Reading.atom name))
    | _, _ => throw (errorAt tokens first next .unknownExpression)
  | .node .abort first next children => do
    match ← operands tokens children with
    | [body, exit] => return body.abort exit
    | _ => throw (errorAt tokens first next .unknownExpression)
  | .node .permute _ _ children => do return Expression.permute (← operands tokens children)

def operands (tokens : Array Token) : List Tree → Reading (List Expression)
  | [] => return []
  | t :: ts => do
    if t.isNode then
      let e ← t.toExpression tokens
      return e :: (← operands tokens ts)
    else operands tokens ts

def conditions (tokens : Array Token) (op : String) : List Tree → Reading (List Condition)
  | [] => return []
  | t :: ts => do
    if t.isNode then
      let e ← t.toExpression tokens
      let c ← Reading.asCondition op (tokenAt tokens t.first).offset e
      return c :: (← conditions tokens op ts)
    else conditions tokens op ts

end

/-- Without repetitions, what they could follow is read alone. -/
theorem toExpression_repeated (tokens : Array Token) (i j : Nat) (arg : Tree) :
    (node .repeated i j [arg]).toExpression tokens = arg.toExpression tokens := by
  have done (e : Expression) : (liftM (Except.ok e : Except SyntaxError Expression) :
      Reading Expression) = pure e := rfl
  simp [toExpression, afterZeroWidth?, repeatAll, done]

theorem toExpression_unary (tokens : Array Token) (i j : Nat) (s : NonTerminal) (first next : Nat)
    (ts : List Tree) :
    (node .unary i j [.node s first next ts]).toExpression tokens =
      (node s first next ts).toExpression tokens := by
  simp [toExpression, operands, isNode, join, texts, applyOperators]

end Tree

end Grammar

namespace Expression

/-- Reads the text of an expression.  The result comes with the names of its atoms, by number. -/
def parse (source : List Text.Glyph) : Except SyntaxError (Expression × List String) := do
  let tokens := (← Token.tokenize source).toArray
  match Grammar.parse tokens with
  | .ok tree => tree.toExpression tokens []
  | .error m => throw (m.toError tokens)

end Expression

end TraceRegex
