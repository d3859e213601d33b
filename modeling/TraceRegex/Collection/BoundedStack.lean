import TraceRegex.Fault

/-! # Stacks with a bound

A stack may have a bound on its depth.  The bound is part of the type's invariant, so no operation
can leave more items on a stack than it admits.
-/

namespace TraceRegex

inductive StackError where
  | zeroBound
  /-- There is no room for as many items as the bound admits. -/
  | noRoom (cause : Fault)
  | overflow
  | underflow
  | peekOutOfBounds
deriving DecidableEq, Repr

/-- The description of a refusal; the lack of room has that of its cause. -/
def StackError.message? : StackError → Option String
  | .zeroBound => some "stack bound must be positive"
  | .noRoom cause => cause.message?
  | .overflow => some "stack overflow"
  | .underflow => some "stack underflow"
  | .peekOutOfBounds => some "stack peek out-of-bounds"

/-- A stack, its top first. -/
structure BoundedStack (α : Type) where
  items : List α
  bound : Option Nat
  within : ∀ b, bound = some b → items.length ≤ b

namespace BoundedStack

variable {α : Type}

def unbounded : BoundedStack α := ⟨[], none, by simp⟩

/-- The empty stack with a bound, which must be positive.  Room for all items, of eight bytes each, is
    set aside. -/
def withBound (bound : Nat) : Except StackError (BoundedStack α) :=
  if bound = 0 then .error .zeroBound
  else
    match checkTable bound 8 with
    | .ok () => .ok ⟨[], some bound, by simp⟩
    | .error cause => .error (.noRoom cause)

def isEmpty (s : BoundedStack α) : Bool := s.items.isEmpty

def size (s : BoundedStack α) : Nat := s.items.length

def isFull (s : BoundedStack α) : Bool :=
  match s.bound with
  | some b => b ≤ s.size
  | none => false

/-- The item at a depth; the top has depth zero. -/
def peek (s : BoundedStack α) (depth : Nat) : Except StackError α :=
  match s.items[depth]? with
  | some x => .ok x
  | none => .error .peekOutOfBounds

theorem length_lt_of_not_isFull {s : BoundedStack α} (h : s.isFull = false) (b : Nat)
    (hb : s.bound = some b) : s.items.length < b := by
  simp only [isFull, hb, size] at h
  exact Nat.lt_of_not_le (of_decide_eq_false h)

def push (s : BoundedStack α) (x : α) : Except StackError (BoundedStack α) :=
  if h : s.isFull = false then
    .ok ⟨x :: s.items, s.bound, fun b hb => length_lt_of_not_isFull h b hb⟩
  else .error .overflow

/-- Puts items on top one after the other.  When the stack is full the remaining ones are left out,
    which is reported beside the stack. -/
def pushAll (s : BoundedStack α) : List α → BoundedStack α × Option StackError
  | [] => (s, none)
  | x :: xs =>
    match s.push x with
    | .ok s => s.pushAll xs
    | .error e => (s, some e)

def pop (s : BoundedStack α) : Except StackError (α × BoundedStack α) :=
  match s with
  | ⟨[], _, _⟩ => .error .underflow
  | ⟨x :: items, bound, within⟩ =>
    .ok (x, ⟨items, bound, fun b hb => Nat.le_of_succ_le (within b hb)⟩)

def clear (s : BoundedStack α) : BoundedStack α := ⟨[], s.bound, by simp⟩

end BoundedStack

end TraceRegex
