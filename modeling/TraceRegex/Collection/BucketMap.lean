import Std.Data.HashMap

/-! # Maps with buckets

A finite map whose keys need only a test for equality and a hash that respects it.  Keys with the
same hash share a bucket, in which they are told apart by the test.
-/

namespace TraceRegex

structure BucketMap (κ ν : Type) where
  /-- The entries, by the hash of their keys. -/
  buckets : Std.HashMap UInt64 (List (κ × ν))
  size : Nat

namespace BucketMap

variable {κ ν : Type}

def empty : BucketMap κ ν := ⟨∅, 0⟩

variable [BEq κ]

def find? (key : κ) (bucket : List (κ × ν)) : Option ν :=
  (bucket.find? fun e => key == e.1).map Prod.snd

def replace? (key : κ) (value : ν) : List (κ × ν) → Option (List (κ × ν))
  | [] => none
  | (k, v) :: rest =>
    if key == k then some ((k, value) :: rest)
    else (replace? key value rest).map ((k, v) :: ·)

variable [Hashable κ]

def bucketOf (m : BucketMap κ ν) (key : κ) : List (κ × ν) := m.buckets.getD (hash key) []

def get? (m : BucketMap κ ν) (key : κ) : Option ν := find? key (m.bucketOf key)

def contains (m : BucketMap κ ν) (key : κ) : Bool := (m.get? key).isSome

/-- Sets the value of a key, and says whether the key had one before. -/
def insert (m : BucketMap κ ν) (key : κ) (value : ν) : Bool × BucketMap κ ν :=
  let bucket := m.bucketOf key
  match replace? key value bucket with
  | some replaced => (true, { m with buckets := m.buckets.insert (hash key) replaced })
  | none =>
    (false, ⟨m.buckets.insert (hash key) (bucket ++ [(key, value)]), m.size + 1⟩)

end BucketMap

end TraceRegex
