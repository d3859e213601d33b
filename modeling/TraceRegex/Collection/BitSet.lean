import TraceRegex.Fault

/-! # Sets as rows of bits

A set of numbers is a row of bits that has a one at each of its members, cut into words of 64 bits.
The row may be longer than its last member needs: words of zeros at its end change neither the
members nor the hash, so that two rows for one set are the same key of a map.
-/

namespace TraceRegex

/-- A row of bits.  Bit `j` of word `i` stands for the number `64 * i + j`. -/
structure BitSet where
  words : Array UInt64
deriving Repr, Inhabited

namespace BitSet

/-! ## Members -/

def empty : BitSet := ⟨#[]⟩

/-- A row of zeros with room for the numbers below `length`.  A row that would be too long has no
    words yet. -/
def zeros (length : Nat) : BitSet :=
  let words := (length + 63) / 64
  if words * 8 ≤ maxTableBytes then ⟨Array.replicate words 0⟩ else empty

/-- The word at an index; a row goes on with zeros. -/
def wordAt (s : BitSet) (i : Nat) : UInt64 := s.words.getD i 0

def contains (s : BitSet) (x : Nat) : Bool := (s.wordAt (x / 64)).toNat.testBit (x % 64)

/-- Lengthens a row to the given number of words at least. -/
def grow (s : BitSet) (count : Nat) : BitSet :=
  if s.words.size < count then ⟨s.words ++ Array.replicate (count - s.words.size) 0⟩ else s

def insert (s : BitSet) (x : Nat) : BitSet :=
  ⟨(s.grow (x / 64 + 1)).words.modify (x / 64) (· ||| 1 <<< (x % 64).toUInt64)⟩

def ofMembers (xs : List Nat) : BitSet := xs.foldl insert empty

/-- Adds every member of a list, if the row can reach them all. -/
def insertAll (s : BitSet) (xs : List Nat) : Except Fault BitSet := do
  checkRows xs
  return xs.foldl insert s

def ofList (xs : List Nat) : Except Fault BitSet := empty.insertAll xs

def wordMembers (i : Nat) (w : UInt64) : List Nat :=
  if w == 0 then [] else ((List.range 64).filter w.toNat.testBit).map (64 * i + ·)

def toList (s : BitSet) : List Nat :=
  let (_, members) := s.words.foldl
    (fun (i, members) w => (i + 1, (wordMembers i w).reverseAux members)) (0, [])
  members.reverse

/-! ## Equality and hash -/

/-- Two rows are equal keys if they have the same members. -/
instance : BEq BitSet :=
  ⟨fun s t => (max s.words.size t.words.size).all fun i _ => s.wordAt i == t.wordAt i⟩

def hashOffset : UInt64 := 14695981039346656037

def hashPrime : UInt64 := 1099511628211

def mixWord (h word : UInt64) : UInt64 := (h ^^^ word) * hashPrime

/-- The hash of a set: each word in turn is mixed in by exclusive or and multiplied by a prime.  The
    words after that of the last member do not count. -/
def bitHash (s : BitSet) : UInt64 := (s.words.popWhile (· == 0)).foldl mixWord hashOffset

instance : Hashable BitSet := ⟨bitHash⟩

end BitSet

end TraceRegex
