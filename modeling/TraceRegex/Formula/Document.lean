import TraceRegex.Context.Basic
import TraceRegex.Json.Decode

/-! # Formulas as JSON documents

A formula is written as an object that names its connective under `kind`, and holds the value of a
constant, the number of an atom, or the operands.  Reading goes in two steps: the document is
decoded into a `FormulaDoc`, in which any part may be missing, and the formula is then built from
it, operands from left to right.
-/

namespace TraceRegex

/-- The decoded document of a formula.  Only the parts that its kind asks for matter. -/
inductive FormulaDoc where
  | missing
  | node (kind : String) (value : Option Bool) (index : Option Nat) (arg lhs rhs : FormulaDoc)
deriving DecidableEq, Repr, Inhabited

inductive FormulaDocError where
  | missingFormula
  | missingValue
  | missingIndex
  | unknownKind (kind : String)
deriving DecidableEq, Repr

def FormulaDocError.message : FormulaDocError → String
  | .missingFormula => "missing formula"
  | .missingValue => "constant missing value"
  | .missingIndex => "variable missing index"
  | .unknownKind kind => s!"unknown formula kind \"{kind}\""

namespace FormulaDoc

def blank : FormulaDoc := .node "" none none .missing .missing .missing

/-! ## From and to JSON -/

/-- Decodes a document into one that may already hold some parts. -/
def update (old : FormulaDoc) : Json.Value → Option FormulaDoc
  | .null => some .missing
  | .object members => go members old
  | _ => none
where
  go : List (String × Json.Value) → FormulaDoc → Option FormulaDoc
    | [], .missing => some blank
    | [], doc => some doc
    | (key, v) :: rest, doc =>
      match (match doc with | .missing => blank | doc => doc) with
      | .missing => none
      | .node kind value index arg lhs rhs =>
        if Json.isKey "kind" key then do
          go rest (.node (← Json.updateString kind v) value index arg lhs rhs)
        else if Json.isKey "value" key then do
          go rest (.node kind (← Json.optionalBool v) index arg lhs rhs)
        else if Json.isKey "variable" key then do
          go rest (.node kind value (← Json.optionalNat v) arg lhs rhs)
        else if Json.isKey "arg" key then do
          go rest (.node kind value index (← arg.update v) lhs rhs)
        else if Json.isKey "arg0" key then do
          go rest (.node kind value index arg (← lhs.update v) rhs)
        else if Json.isKey "arg1" key then do
          go rest (.node kind value index arg lhs (← rhs.update v))
        else go rest (.node kind value index arg lhs rhs)

/-- Decodes a document that stands alone; there, `null` gives nothing. -/
def ofJson : Json.Value → Option FormulaDoc
  | .null => some blank
  | v => update .missing v

def toJson : FormulaDoc → Json.Value
  | .missing => .null
  | .node kind value index arg lhs rhs =>
    .object <|
      [("kind", .string kind)]
        ++ (value.map fun b => ("value", Json.Value.bool b)).toList
        ++ (index.map fun i => ("variable", Json.Value.ofNat i)).toList
        ++ operand "arg" arg.toJson ++ operand "arg0" lhs.toJson ++ operand "arg1" rhs.toJson
where
  operand (key : String) : Json.Value → List (String × Json.Value)
    | .null => []
    | v => [(key, v)]

/-! ## From and to formulas -/

def build : FormulaDoc → ExceptT FormulaDocError Build Formula
  | .missing => throw .missingFormula
  | .node kind value index arg lhs rhs => do
    if kind = "const" then
      match value with
      | some b => return .const b
      | none => throw .missingValue
    else if kind = "var" then
      match index with
      | some i => return .atom i
      | none => throw .missingIndex
    else if kind = "not" then
      let f ← build arg
      Build.not f
    else if kind = "and" then
      let f ← build lhs
      let g ← build rhs
      Build.and f g
    else if kind = "or" then
      let f ← build lhs
      let g ← build rhs
      Build.or f g
    else throw (.unknownKind kind)

def ofFormula : Formula → FormulaDoc
  | .const b => .node "const" (some b) none .missing .missing .missing
  | .var i => .node "var" none (some i.toNat) .missing .missing .missing
  | .not f => .node "not" none none (ofFormula f) .missing .missing
  | .and f g => .node "and" none none .missing (ofFormula f) (ofFormula g)
  | .or f g => .node "or" none none .missing (ofFormula f) (ofFormula g)

end FormulaDoc

namespace Formula

inductive ReadError where
  /-- The text is not JSON or not of the right shape. -/
  | notJson
  | invalid (cause : FormulaDocError)
deriving DecidableEq, Repr

def toJsonText (f : Formula) : String := (FormulaDoc.ofFormula f).toJson.compact

def ofJsonText (text : List Char) : ExceptT ReadError Build Formula := do
  match (Json.parse? text).bind FormulaDoc.ofJson with
  | none => throw .notJson
  | some doc => ExceptT.adapt .invalid doc.build

end Formula

end TraceRegex
