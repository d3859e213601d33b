import TraceRegex.Context.Basic
import TraceRegex.Fault

/-! # Guard bytecode

A guard is stored as a string of bytes: an opcode, the two bytes of an atom's number in little-endian
order, or the operands in order.  No code is a proper beginning of another one, so a guard needs no
end mark.
-/

namespace TraceRegex

abbrev Bytecode := List UInt8

/-- The two bytes of a number below `2^16`, low byte first. -/
def bytes16 (n : Nat) : List UInt8 := [n.toUInt8, (n / 256).toUInt8]

def word16 (lo hi : UInt8) : Nat := lo.toNat + 256 * hi.toNat

def maxWord16 : Nat := 0xffff

def maxWord32 : Nat := 0xffffffff

inductive TooLarge where
  | atomOffset (atom : Nat)
  | atoms (count : Nat)
  | states (count : Nat)
  | statesInSet (count : Nat)
deriving DecidableEq, Repr

def TooLarge.message (e : TooLarge) : String :=
  "automaton too large for snapshot: " ++ match e with
    | .atomOffset i => s!"atom offset {i}"
    | .atoms n => s!"{n} atoms"
    | .states n => s!"{n} states"
    | .statesInSet n => s!"{n} states in set"

inductive BytecodeError where
  | truncated
  | atomOutOfBounds (atom : Nat)
  | invalidOpcode (opcode : UInt8)
  | trailingBytes (count : Nat)
deriving DecidableEq, Repr

/-- What is wrong, in the words of the loader. -/
def BytecodeError.detail : BytecodeError → String
  | .truncated => "truncated guard"
  | .atomOutOfBounds i => s!"atom offset {i} out-of-bounds"
  | .invalidOpcode op => s!"invalid opcode {op}"
  | .trailingBytes n => s!"{n} trailing bytes in guard"

namespace Formula

def encode : Formula → Except TooLarge Bytecode
  | .const b => .ok [if b then 1 else 0]
  | .var i =>
    if maxWord16 < i.toNat then .error (.atomOffset i.toNat) else .ok (2 :: bytes16 i.toNat)
  | .not f => do return 3 :: (← f.encode)
  | .and f g => do
    let lhs ← f.encode
    let rhs ← g.encode
    return 4 :: (lhs ++ rhs)
  | .or f g => do
    let lhs ← f.encode
    let rhs ← g.encode
    return 5 :: (lhs ++ rhs)

end Formula

namespace Bytecode

/-! ## Running a guard

The code of a formula is taken off the front of the bytes.  That may take as many steps as there are
bytes, since every step takes at least one. -/

/-- Takes the code of one formula off the front: its truth value under a letter, and the rest. -/
def evalFront (l : Letter) : Nat → Bytecode → Except Fault (Bool × Bytecode)
  | 0, _ => .error .outOfRange
  | _, [] => .error .outOfRange
  | steps + 1, op :: code =>
    if op = 0 then .ok (false, code)
    else if op = 1 then .ok (true, code)
    else if op = 2 then
      -- the number of the atom, its lower byte first
      match code with
      | lo :: hi :: code => .ok (l.holds (word16 lo hi), code)
      | _ => .error .outOfRange
    else if op = 3 then do
      let (b, code) ← evalFront l steps code
      return (!b, code)
    else if op = 4 then do
      let (b, code) ← evalFront l steps code
      let (c, code) ← evalFront l steps code
      return (b && c, code)
    else if op = 5 then do
      let (b, code) ← evalFront l steps code
      let (c, code) ← evalFront l steps code
      return (b || c, code)
    else .error (.invalidOpcode op)

def eval (l : Letter) (code : Bytecode) : Except Fault Bool := do
  return (← evalFront l code.length code).1

/-- Takes the code of one formula off the front: the formula, built in a context, and the rest. -/
def decompileFront : Nat → Bytecode → ExceptT Fault Build (Formula × Bytecode)
  | 0, _ => throw .outOfRange
  | _, [] => throw .outOfRange
  | steps + 1, op :: code =>
    if op = 0 then return (.const false, code)
    else if op = 1 then return (.const true, code)
    else if op = 2 then
      match code with
      | lo :: hi :: code => return (.atom (word16 lo hi), code)
      | _ => throw .outOfRange
    else if op = 3 then do
      let (f, code) ← decompileFront steps code
      return (← Build.not f, code)
    else if op = 4 then do
      let (f, code) ← decompileFront steps code
      let (g, code) ← decompileFront steps code
      return (← Build.and f g, code)
    else if op = 5 then do
      let (f, code) ← decompileFront steps code
      let (g, code) ← decompileFront steps code
      return (← Build.or f g, code)
    else throw (.invalidOpcode op)

def decompile (code : Bytecode) : ExceptT Fault Build Formula := do
  return (← decompileFront code.length code).1

/-! ## Checking -/

/-- Checks the code of one formula over atoms below `atomCount` at the front, giving the rest. -/
def checkFront (atomCount : Nat) : Nat → Bytecode → Except BytecodeError Bytecode
  | 0, _ => .error .truncated
  | _, [] => .error .truncated
  | steps + 1, op :: code =>
    if op = 0 ∨ op = 1 then .ok code
    else if op = 2 then
      match code with
      | lo :: hi :: code =>
        if atomCount ≤ word16 lo hi then .error (.atomOutOfBounds (word16 lo hi)) else .ok code
      | _ => .error .truncated
    else if op = 3 then checkFront atomCount steps code
    else if op = 4 ∨ op = 5 then do
      checkFront atomCount steps (← checkFront atomCount steps code)
    else .error (.invalidOpcode op)

/-- Checks that the bytes are the code of exactly one formula over atoms below `atomCount`. -/
def check (atomCount : Nat) (code : Bytecode) : Except BytecodeError Unit := do
  let rest ← checkFront atomCount code.length code
  if rest.isEmpty then return () else throw (.trailingBytes rest.length)

end Bytecode

end TraceRegex
