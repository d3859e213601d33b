import Mathlib.Data.Finset.Sort
import TraceRegex.Proofs.SetMembership

/-! # Sets that are put together from operations

A set over a linear order is made by operations from listed elements and from sets that were made
before.  Whatever the operations, their order and their operands are, the array holds the members of
the finite set that the same operations give, each once and in ascending order.  Bisection, merging
and subtraction all rely on this order, and each operation restores it.
-/

namespace TraceRegex

/-- How a set was made. -/
inductive SetTerm (α : Type) where
  | empty
  | listed (xs : List α)
  | insert (s : SetTerm α) (x : α)
  | union (s t : SetTerm α)
  | difference (s t : SetTerm α)
deriving DecidableEq, Repr

namespace SetTerm

variable {α : Type} [LinearOrder α]

/-- The set, made by the operations on sorted sets. -/
def build : SetTerm α → SortedSet α
  | .empty => ∅
  | .listed xs => .ofList xs
  | .insert s x => s.build.insert x
  | .union s t => s.build.union t.build
  | .difference s t => s.build.difference t.build

/-- The members, by the operations on finite sets. -/
def members : SetTerm α → Finset α
  | .empty => ∅
  | .listed xs => xs.toFinset
  | .insert s x => Insert.insert x s.members
  | .union s t => s.members ∪ t.members
  | .difference s t => s.members \ t.members

theorem mem_build {t : SetTerm α} {x : α} : x ∈ t.build ↔ x ∈ t.members := by
  induction t with
  | empty => simp [build, members]
  | listed xs => simp [build, members]
  | insert s y ih => simp [build, members, ih]
  | union s t ihs iht => simp [build, members, ihs, iht]
  | difference s t ihs iht => simp [build, members, ihs, iht]

/-- A strictly ascending list is the listing of its members. -/
theorem eq_sort_of_mem_iff {xs : List α} (ascending : xs.Pairwise (· < ·)) {s : Finset α}
    (same : ∀ x, x ∈ xs ↔ x ∈ s) : xs = s.sort := by
  have listing : s.sort.Pairwise (· < ·) :=
    (s.pairwise_sort (· ≤ ·)).imp₂ (fun _ _ le ne => lt_of_le_of_ne le ne) (s.sort_nodup (· ≤ ·))
  exact SortedSet.eq_of_mem_iff ascending listing fun x => by rw [same, Finset.mem_sort]

/-- However a set was made, its array is strictly ascending and lists the members that it should
    have: those of the given list, one more for an insertion, those of either set for a union, and
    those of the first set that are not in the second for a difference.  Bisection finds them and
    nothing else. -/
theorem build_lists_members (t : SetTerm α) :
    t.build.toList.Pairwise (· < ·) ∧ t.build.toList = t.members.sort ∧
      ∀ x, t.build.contains x = true ↔ x ∈ t.members := by
  have listed : ∀ x, x ∈ t.build.toList ↔ x ∈ t.members := fun _ => mem_build
  exact ⟨t.build.ascending, eq_sort_of_mem_iff t.build.ascending listed,
    fun _ => SortedSet.contains_iff.trans mem_build⟩

end SetTerm

end TraceRegex
