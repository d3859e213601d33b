import TraceRegex.Json.Reader

/-! # Decoding JSON documents into records

A record is decoded member by member, each member replacing the value that its field had.  A value
with parts is replaced part by part, so that what the new one does not give stays.  This holds also
for the items of a list, of which some may come back when a shorter list is followed by a longer one:
a list that is decoded more than once is kept as `Slots`.  Keys are compared without regard to case,
unknown keys are skipped, and `null` leaves a plain field as it is.  A value of the wrong type makes
the whole document unusable.
-/

namespace TraceRegex.Json

/-- The lower-case form of a character under which keys are compared.  Two characters outside ASCII
    have one in ASCII: the long s and the Kelvin sign. -/
def foldChar (c : Char) : Char :=
  if c = 'ſ' then 's' else if c = 'K' then 'k' else c.toLower

def isKey (field key : String) : Bool := field.toList.map foldChar == key.toList.map foldChar

/-- The largest number that a field can hold, the largest of 64 bits. -/
def maxNumber : Nat := 0xffffffffffffffff

/-- The value of a literal that is a plain natural number and not too large. -/
def natOfLiteral? (literal : String) : Option Nat :=
  let digits := literal.toList
  if digits.all Char.isDigit then
    let n := digits.foldl (fun n d => n * 10 + (d.toNat - '0'.toNat)) 0
    if n ≤ maxNumber then some n else none
  else none

def updateNat (old : Nat) : Value → Option Nat
  | .null => some old
  | .number literal => natOfLiteral? literal
  | _ => none

def updateString (old : String) : Value → Option String
  | .null => some old
  | .string s => some s
  | _ => none

/-- An optional number; `null` is none. -/
def optionalNat : Value → Option (Option Nat)
  | .null => some none
  | .number literal => (natOfLiteral? literal).map some
  | _ => none

def optionalBool : Value → Option (Option Bool)
  | .null => some none
  | .bool b => some (some b)
  | _ => none

/-- Decodes items into those of a list.  An item for which the list has none is decoded into
    `blank`. -/
def updateItems {α : Type} (blank : α) (item : α → Value → Option α) :
    List α → List Value → Option (List α)
  | _, [] => some []
  | [], v :: vs => do return (← item blank v) :: (← updateItems blank item [] vs)
  | old :: rest, v :: vs => do return (← item old v) :: (← updateItems blank item rest vs)

/-- A list that may be replaced, with what longer lists before it have left behind its end. -/
structure Slots (α : Type) where
  items : List α
  spare : List α
deriving DecidableEq, Repr, Inhabited

def Slots.empty {α : Type} : Slots α := ⟨[], []⟩

/-- Replaces a list, item by item.  Each item is decoded into the one that was last at its place.
    `null` and the empty list leave nothing behind. -/
def Slots.update {α : Type} (blank : α) (item : α → Value → Option α) (old : Slots α) :
    Value → Option (Slots α)
  | .null => some .empty
  | .array [] => some .empty
  | .array (v :: vs) => do
    let places := old.items ++ old.spare
    return ⟨← updateItems blank item places (v :: vs), places.drop (vs.length + 1)⟩
  | _ => none

/-- Decodes a list; `null` is the empty one. -/
def decodeList {α : Type} (blank : α) (item : α → Value → Option α) (v : Value) :
    Option (List α) := do
  return (← Slots.empty.update blank item v).items

end TraceRegex.Json
