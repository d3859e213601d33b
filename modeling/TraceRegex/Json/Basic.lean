import TraceRegex.Text.Quoted

/-! # JSON documents

The tree of a JSON document and its text.  Numbers keep the literal that was read or is to be
written; the members of an object keep their order.
-/

namespace TraceRegex.Json

inductive Value where
  | null
  | bool (value : Bool)
  | number (literal : String)
  | string (text : String)
  | array (items : List Value)
  | object (members : List (String × Value))
deriving Repr, Inhabited

def Value.ofNat (n : Nat) : Value := .number (toString n)

/-! ## Text of strings -/

/-- The text of a character inside a string.  Besides quotes, backslashes and control characters,
    the characters that have a meaning in markup and the two Unicode line separators are escaped. -/
def escapeChar (c : Char) : String :=
  if c = '"' then "\\\""
  else if c = '\\' then "\\\\"
  else if c = '\n' then "\\n"
  else if c = '\r' then "\\r"
  else if c = '\t' then "\\t"
  else if c.toNat = 8 then "\\b"
  else if c.toNat = 12 then "\\f"
  else if c.toNat < 32 ∨ c = '<' ∨ c = '>' ∨ c = '&' ∨ c.toNat = 0x2028 ∨ c.toNat = 0x2029 then
    "\\u" ++ Text.hex 4 c.toNat
  else c.toString

/-- The text of a string, with its quotes. -/
def quote (s : String) : String := "\"" ++ String.join (s.toList.map escapeChar) ++ "\""

/-! ## Text of documents -/

mutual

/-- The text of a document on one line, without spaces. -/
def Value.compact : Value → String
  | .null => "null"
  | .bool b => if b then "true" else "false"
  | .number literal => literal
  | .string s => quote s
  | .array items => "[" ++ ",".intercalate (compactItems items) ++ "]"
  | .object members => "\x7b" ++ ",".intercalate (compactMembers members) ++ "\x7d"

def compactItems : List Value → List String
  | [] => []
  | v :: vs => v.compact :: compactItems vs

def compactMembers : List (String × Value) → List String
  | [] => []
  | (key, v) :: ms => (quote key ++ ":" ++ v.compact) :: compactMembers ms

end

def indentation (level : Nat) : String := String.ofList (List.replicate (4 * level) ' ')

/-- The elements of a container between its brackets, one on each line; an empty container stays on
    one line. -/
def block (opening closing : String) (level : Nat) (elements : List String) : String :=
  if elements.isEmpty then opening ++ closing
  else
    opening ++ "\n"
      ++ ",\n".intercalate (elements.map (indentation (level + 1) ++ ·))
      ++ "\n" ++ indentation level ++ closing

mutual

/-- The text of a document with one element on each line, at the given level of nesting. -/
def Value.indented (level : Nat) : Value → String
  | .null => "null"
  | .bool b => if b then "true" else "false"
  | .number literal => literal
  | .string s => quote s
  | .array items => block "[" "]" level (indentedItems (level + 1) items)
  | .object members => block "\x7b" "\x7d" level (indentedMembers (level + 1) members)

def indentedItems (level : Nat) : List Value → List String
  | [] => []
  | v :: vs => v.indented level :: indentedItems level vs

def indentedMembers (level : Nat) : List (String × Value) → List String
  | [] => []
  | (key, v) :: ms => (quote key ++ ": " ++ v.indented level) :: indentedMembers level ms

end

def Value.pretty (v : Value) : String := v.indented 0

/-! ## Nesting -/

/-- How many containers may be open at a time. -/
def maxDepth : Nat := 10000

mutual

def Value.depth : Value → Nat
  | .array items => itemsDepth items + 1
  | .object members => membersDepth members + 1
  | _ => 0

def itemsDepth : List Value → Nat
  | [] => 0
  | v :: vs => max v.depth (itemsDepth vs)

def membersDepth : List (String × Value) → Nat
  | [] => 0
  | (_, v) :: ms => max v.depth (membersDepth ms)

end

/-- The text of a document with one element on each line, if the document does not nest too deeply
    to be laid out. -/
def Value.pretty? (v : Value) : Option String := if v.depth ≤ maxDepth then some v.pretty else none

/-- What is said of a document that nests too deeply, where the container in which it first does so is
    an object. -/
def tooDeep : String := "invalid character '\x7b' exceeded max depth"

end TraceRegex.Json
