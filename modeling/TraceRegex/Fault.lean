/-! # Faults

Data that was checked can be run without further care.  Data that was not checked can ask for the
impossible: a state or a byte that is not there, a table that is too long, an instruction or a kind of
snapshot that does not exist.  Running it then ends in a fault.

A table can only be so long, and a row of bits can only reach so far.  Asking for more is a fault,
which is found before anything is built.
-/

namespace TraceRegex

/-- Why unchecked data could not be run. -/
inductive Fault where
  /-- A table has no entry at the place asked for, or cannot have as many entries as asked for. -/
  | outOfRange
  /-- A row of bits would have to be longer than any row can be. -/
  | overCapacity
  | invalidOpcode (opcode : UInt8)
  | unknownKind (code : UInt16)
deriving DecidableEq, Repr

/-- The description of a fault; a missing entry has none. -/
def Fault.message? : Fault → Option String
  | .outOfRange => none
  | .overCapacity => some "You are exceeding the capacity"
  | .invalidOpcode op => some s!"invalid opcode {op}"
  | .unknownKind code => some s!"unknown snapshot kind kind({code})"

/-! ## Room for tables -/

/-- The most bytes that one table can take up. -/
def maxTableBytes : Nat := 0x1000000000000

def maxWord : Nat := 0xffffffffffffffff

/-- Asks for a table with the given number of entries, each of which takes up `entryBytes`. -/
def checkTable (entries entryBytes : Nat) : Except Fault Unit :=
  if entries * entryBytes ≤ maxTableBytes then .ok () else .error .outOfRange

/-- How many bytes a list of rules takes up in the table of all of them. -/
def ruleListBytes : Nat := 24

/-- Asks for a row of bits, in words of eight bytes, that has a bit for `x`.  A row grows to twice the
    words that it needs, and there is no row with a bit for the largest number. -/
def checkRow (x : Nat) : Except Fault Unit :=
  if maxWord ≤ x then .error .overCapacity else checkTable (2 * (x / 64 + 1)) 8

/-- Asks for rows of bits that reach each number of a list, one after the other. -/
def checkRows : List Nat → Except Fault Unit
  | [] => .ok ()
  | x :: xs => do
    checkRow x
    checkRows xs

end TraceRegex
