import TraceRegex.Json.Decode

/-! # Documents of the wrong shape

A document of a snapshot has records, lists, texts, numbers and truth values in fixed places.  The
first value that is of another kind than its place asks for is told by the names of the fields that
lead to it.
-/

namespace TraceRegex

/-- What a place in a document asks for. -/
inductive DocShape where
  | text
  | kind
  | number
  | truth
  | list (item : DocShape)
  | snapshot
  | automaton
  | rule
  | formula
deriving DecidableEq, Repr

namespace DocShape

def record? : DocShape → Option String
  | .snapshot => some "JsonSnapshot"
  | .automaton => some "JsonAutomaton"
  | .rule => some "JsonRule"
  | .formula => some "JsonExpr"
  | _ => none

/-- The name under which messages show what is asked for. -/
def name : DocShape → String
  | .text => "string"
  | .kind => "sere.Target"
  | .number => "uint"
  | .truth => "bool"
  | .list item => "[]" ++ item.name
  | .snapshot => "sere.JsonSnapshot"
  | .automaton => "nfasl.JsonAutomaton"
  | .rule => "nfasl.JsonRule"
  | .formula => "boolean.JsonExpr"

def fields : DocShape → List (String × DocShape)
  | .snapshot => [("kind", .kind), ("atomics", .list .text), ("fasl", .automaton)]
  | .automaton => [("atomicCount", .number), ("stateCount", .number), ("initial", .number),
      ("finals", .list .number), ("transitions", .list (.list .rule))]
  | .rule => [("phi", .formula), ("state", .number)]
  | .formula => [("kind", .text), ("value", .truth), ("variable", .number), ("arg", .formula),
      ("arg0", .formula), ("arg1", .formula)]
  | _ => []

end DocShape

/-- A value that is of another kind than its place asks for. -/
structure DocMismatch where
  found : String
  wanted : DocShape
  /-- The name of the innermost record around it. -/
  record : String
  /-- The fields that lead to it. -/
  path : List String
deriving DecidableEq, Repr

def DocMismatch.message (m : DocMismatch) : String :=
  "json: cannot unmarshal " ++ m.found ++ " into Go "
    ++ (if m.path.isEmpty then "value"
        else "struct field " ++ m.record ++ "." ++ ".".intercalate m.path)
    ++ " of type " ++ m.wanted.name

namespace DocMismatch

mutual

/-- The first mismatch of a value in a place, of which the innermost record and the path are given.
    `null` is right everywhere. -/
def first? (shape : DocShape) (record : String) (path : List String) :
    Json.Value → Option DocMismatch
  | .null => none
  | .bool _ => if shape = .truth then none else some ⟨"bool", shape, record, path⟩
  | .string _ =>
    if shape = .text ∨ shape = .kind then none else some ⟨"string", shape, record, path⟩
  | .number literal =>
    if shape = .number then
      -- a number of the wrong kind is reported with its digits
      if (Json.natOfLiteral? literal).isSome then none
      else some ⟨"number " ++ literal, shape, record, path⟩
    else some ⟨"number", shape, record, path⟩
  | .array items =>
    match shape with
    | .list item => firstItem? item record path items
    | shape => some ⟨"array", shape, record, path⟩
  | .object members =>
    match shape.record? with
    | some record => firstMember? shape record path members
    | none => some ⟨"object", shape, record, path⟩

def firstItem? (item : DocShape) (record : String) (path : List String) :
    List Json.Value → Option DocMismatch
  | [] => none
  | v :: vs => first? item record path v <|> firstItem? item record path vs

def firstMember? (shape : DocShape) (record : String) (path : List String) :
    List (String × Json.Value) → Option DocMismatch
  | [] => none
  | (key, v) :: rest =>
    let found := match shape.fields.find? fun f => Json.isKey f.1 key with
      | some (field, inner) => first? inner record (path ++ [field]) v
      | none => none
    found <|> firstMember? shape record path rest

end

end DocMismatch

end TraceRegex
