import TraceRegex.Expression.Token

/-! # The grammar of expressions

The grammar is data: each symbol has a pattern of tokens and symbols.  From the loosest to the
tightest, the operators are union, intersection, concatenation, fusion, the two connectives of
conditions, negation and complement, and repetition.
-/

namespace TraceRegex

namespace Grammar

inductive NonTerminal where
  | union | intersection | concatenation | fusion
  | disjunction | conjunction
  | unary | repeated | repetition
  | primary | abort | permute
deriving DecidableEq, Repr, Inhabited

/-- The name of a symbol in error messages. -/
def NonTerminal.name : NonTerminal → String
  | .union => "UnionNode"
  | .intersection => "IntersectNode"
  | .concatenation => "ConcatNode"
  | .fusion => "FusionNode"
  | .disjunction => "BoolOrNode"
  | .conjunction => "BoolAndNode"
  | .unary => "PrefixNode"
  | .repeated => "PostfixNode"
  | .repetition => "RepeatNode"
  | .primary => "PrimaryNode"
  | .abort => "AbortNode"
  | .permute => "PermuteNode"

inductive Pattern where
  | literal (text : String)
  | int
  | ident
  | symbol (s : NonTerminal)
  | seq (items : List Pattern)
  | choice (options : List Pattern)
  | star (body : Pattern)
  | optional (body : Pattern)
deriving Inhabited

/-- A chain of operands with an operator between them. -/
def chain (operand : NonTerminal) (op : String) : Pattern :=
  .seq [.symbol operand, .star (.seq [.literal op, .symbol operand])]

def body : NonTerminal → Pattern
  | .union => chain .intersection "|"
  | .intersection => chain .concatenation "&"
  | .concatenation => chain .fusion ";"
  | .fusion => chain .disjunction ":"
  | .disjunction => chain .conjunction "||"
  | .conjunction => chain .unary "&&"
  | .unary => .seq [.star (.choice [.literal "!", .literal "~"]), .symbol .repeated]
  | .repeated => .seq [.symbol .primary, .star (.symbol .repetition)]
  | .repetition => .choice [
      .seq [.literal "[", .choice [.literal "*", .literal "+"], .literal "]"],
      .seq [.literal "\x7b", .int, .optional (.seq [.literal ",", .optional .int]),
        .literal "\x7d"]]
  | .primary => .choice [
      .seq [.literal "(", .literal ")"],
      .seq [.literal "(", .symbol .union, .literal ")"],
      .seq [.literal "PARTIAL", .literal "(", .symbol .union, .literal ")"],
      .seq [.literal "ABORT", .symbol .abort],
      .seq [.literal "PERMUTE", .symbol .permute],
      .literal "true",
      .literal "false",
      .ident]
  | .abort =>
    .seq [.literal "(", .symbol .union, .literal ",", .symbol .union, .literal ")"]
  | .permute => .seq [
      .literal "(",
      .optional (.seq [.symbol .union, .star (.seq [.literal ",", .symbol .union])]),
      .literal ")"]

/-! ## Text -/

/-- Whether a pattern needs brackets inside another one. -/
def Pattern.isCompound : Pattern → Bool
  | .seq _ | .choice _ => true
  | _ => false

def bracketed (p : Pattern) (text : String) : String :=
  if p.isCompound then "(" ++ text ++ ")" else text

mutual

def Pattern.describe : Pattern → String
  | .literal text => "\"" ++ text ++ "\""
  | .int => "<int>"
  | .ident => "<ident>"
  | .symbol s => s.name
  | .seq items => " ".intercalate (describeAll items)
  | .choice options => " | ".intercalate (describeAll options)
  | .star p => bracketed p p.describe ++ "*"
  | .optional p => bracketed p p.describe ++ "?"

def describeAll : List Pattern → List String
  | [] => []
  | p :: ps => bracketed p p.describe :: describeAll ps

end

def describeItems (items : List Pattern) : String := " ".intercalate (describeAll items)

/-! ## Trees -/

/-- A derivation: tokens, by their place in the text, under the symbols that they are derived
    from. -/
inductive Tree where
  | leaf (token : Nat)
  /-- A symbol with its derivation; it covers the tokens from `first` up to `next`. -/
  | node (symbol : NonTerminal) (first next : Nat) (children : List Tree)
deriving Repr, Inhabited

end Grammar

end TraceRegex
