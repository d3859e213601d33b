import TraceRegex.Collection.SortedSet

/-! # Members of sorted sets

Each operation on sorted sets, described by its members.  Since the members stand in ascending
order, a set is determined by them (`ext_mem`).
-/

namespace TraceRegex

namespace SortedSet

section

variable {α : Type} [LT α] {s : SortedSet α} {x y : α}

theorem mem_def : x ∈ s ↔ x ∈ s.toList := Iff.rfl

@[simp]
theorem toList_listing (xs : List α) (h : xs.Pairwise (· < ·)) : (listing xs h).toList = xs := rfl

@[simp]
theorem toList_empty : (∅ : SortedSet α).toList = [] := rfl

@[simp]
theorem not_mem_empty (x : α) : ¬x ∈ (∅ : SortedSet α) := List.not_mem_nil

@[simp]
theorem mem_singleton : x ∈ singleton y ↔ x = y := List.mem_singleton

theorem isEmpty_iff : s.isEmpty = true ↔ ∀ x, ¬x ∈ s := by
  simp [isEmpty, mem_def, toList, Array.eq_empty_iff_forall_not_mem]

end

section

variable {α : Type} [LT α] [LE α] [Std.LawfulOrderLT α] {s t : SortedSet α} {x y : α}

/-- Sets with the same members are equal. -/
theorem ext_mem (h : ∀ x, x ∈ s ↔ x ∈ t) : s = t := by
  have lists : s.toList = t.toList := eq_of_mem_iff s.ascending t.ascending h
  obtain ⟨xs, hxs⟩ := s
  obtain ⟨ys, hys⟩ := t
  have : xs = ys := Array.toList_inj.mp lists
  subst this
  rfl

variable [Std.IsLinearOrder α]

section

variable [DecidableEq α] [DecidableLE α]

@[simp]
theorem mem_ofList {xs : List α} : x ∈ ofList xs ↔ x ∈ xs := by
  simp [mem_def, ofList, mem_compact]

theorem toList_ofList {xs : List α} (h : xs.Pairwise (· < ·)) :
    (ofList xs).toList = xs :=
  eq_of_mem_iff (ofList xs).ascending h fun _ => mem_ofList

theorem ofList_toList (s : SortedSet α) : ofList s.toList = s := ext_mem fun _ => mem_ofList

end

variable [DecidableLT α]

@[simp]
theorem mem_insert [DecidableEq α] : x ∈ s.insert y ↔ x = y ∨ x ∈ s := by
  unfold insert
  split
  · next h =>
    have : y ∈ s := mem_of_contains h
    constructor
    · exact Or.inr
    · rintro (rfl | hx)
      · exact this
      · exact hx
  · have split : x ∈ s ↔ x ∈ s.toList.take (s.place y) ∨ x ∈ s.toList.drop (s.place y) := by
      rw [← List.mem_append, List.take_append_drop, mem_def]
    rw [mem_def, toList_listing, List.mem_append, List.mem_cons, split]
    grind

@[simp]
theorem mem_union : x ∈ s.union t ↔ x ∈ s ∨ x ∈ t := mem_mergeLists

end

/-! ## Difference -/

section

variable {α : Type} [LT α] [LE α] [DecidableLT α]

/-- What is dropped from the front of a list is below everything that is looked for. -/
theorem mem_dropWhile_lt [Std.LawfulOrderLT α] {ys : List α} {x z : α} (h : x ≤ z) :
    z ∈ ys.dropWhile (· < x) ↔ z ∈ ys := by
  constructor
  · exact fun hz => (List.dropWhile_sublist _).mem hz
  · intro hz
    rw [← List.takeWhile_append_dropWhile (p := fun y => decide (y < x)) (l := ys)] at hz
    rcases List.mem_append.mp hz with hz | hz
    · have := List.all_eq_true.mp List.all_takeWhile z hz
      simp only [decide_eq_true_eq] at this
      exact absurd h (Std.not_le_of_gt this)
    · exact hz

variable [Std.IsLinearOrder α] [Std.LawfulOrderLT α]

/-- In an ascending list, `x` can only stand right after the members below it. -/
theorem head?_dropWhile_lt {ys : List α} (hy : ys.Pairwise (· < ·)) {x : α} :
    (ys.dropWhile (· < x)).head? = some x ↔ x ∈ ys := by
  rw [← mem_dropWhile_lt (Std.le_refl x)]
  cases hd : ys.dropWhile (· < x) with
  | nil => simp
  | cons y tail =>
    have ascending := hy.sublist (List.dropWhile_sublist (fun y => decide (y < x)))
    have hyx : ¬y < x := by
      have := List.head?_dropWhile_not (fun y => decide (y < x)) ys
      rw [hd] at this
      simpa using this
    rw [hd] at ascending
    have below := (List.pairwise_cons.mp ascending).1
    simp only [List.head?_cons, Option.some.injEq, List.mem_cons]
    constructor
    · exact fun h => Or.inl h.symm
    · rintro (h | h)
      · exact h.symm
      · exact absurd (below x h) hyx

variable [DecidableEq α] {s t : SortedSet α} {x : α}

/-- Walking two ascending lists side by side finds what the second one lacks. -/
theorem mem_subtractLists {xs ys : List α} (hx : xs.Pairwise (· < ·)) (hy : ys.Pairwise (· < ·))
    {z : α} : z ∈ subtractLists xs ys ↔ z ∈ xs ∧ ¬z ∈ ys := by
  induction xs generalizing ys with
  | nil => simp [subtractLists]
  | cons x xs ih =>
    have hxs := List.pairwise_cons.mp hx
    have rest := hy.sublist (List.dropWhile_sublist (fun y => decide (y < x)))
    have later : z ∈ xs ∧ ¬z ∈ ys.dropWhile (· < x) ↔ z ∈ xs ∧ ¬z ∈ ys :=
      and_congr_right fun hz => not_congr (mem_dropWhile_lt (Std.le_of_lt (hxs.1 z hz)))
    simp only [subtractLists]
    split
    · next h =>
      -- `x` is in the second list, so it is left out
      have removed := (head?_dropWhile_lt hy).mp h
      rw [ih hxs.2 rest, later, List.mem_cons]
      grind
    · next h =>
      have kept : ¬x ∈ ys := fun hx => h ((head?_dropWhile_lt hy).mpr hx)
      rw [List.mem_cons, ih hxs.2 rest, later, List.mem_cons]
      grind

@[simp]
theorem mem_difference : x ∈ s.difference t ↔ x ∈ s ∧ ¬x ∈ t :=
  mem_subtractLists s.ascending t.ascending

end

/-! ## Sets of numbers -/

@[simp]
theorem mem_shift {s : SortedSet Nat} {offset x : Nat} :
    x ∈ s.shift offset ↔ ∃ y ∈ s, y + offset = x := by
  simp [mem_def, shift]

@[simp]
theorem mem_range {n x : Nat} : x ∈ range n ↔ x < n := by
  simp [mem_def, range]

@[simp]
theorem mem_toList {α : Type} [LT α] {s : SortedSet α} {x : α} : x ∈ s.toList ↔ x ∈ s := Iff.rfl

end SortedSet

end TraceRegex
