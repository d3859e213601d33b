/-! # Sorted sets

A set over a linear order, kept as a strictly ascending array.  Membership and insertion find their
place by bisection; union and difference walk both arrays once.

The order is part of the type, so each operation comes with the proof that it keeps it.  The one
non-trivial ingredient is `bisect_spec`: bisection finds the place that separates the members below
an element from those that are not.
-/

namespace TraceRegex

/-- A set, listed in strictly ascending order. -/
structure SortedSet (α : Type) [LT α] where
  items : Array α
  ascending : items.toList.Pairwise (· < ·)
deriving DecidableEq, Repr

namespace SortedSet

variable {α : Type}

/-! ## Ascending lists -/

section

variable [DecidableEq α]

def compact : List α → List α
  | [] => []
  | [x] => [x]
  | x :: y :: rest => if x = y then compact (y :: rest) else x :: compact (y :: rest)

theorem mem_compact {xs : List α} {z : α} : z ∈ compact xs ↔ z ∈ xs := by
  fun_induction compact xs <;> grind

end

section

variable [LT α] [DecidableLT α]

/-- Merges two ascending lists, writing a common member once. -/
def mergeLists : List α → List α → List α
  | [], ys => ys
  | x :: xs, [] => x :: xs
  | x :: xs, y :: ys =>
    if x < y then x :: mergeLists xs (y :: ys)
    else if y < x then y :: mergeLists (x :: xs) ys
    else x :: mergeLists xs ys
termination_by xs ys => xs.length + ys.length

/-- The members of the first list that are not in the second; both are ascending, so what is below
    the member at hand can be dropped from the second. -/
def subtractLists [DecidableEq α] : List α → List α → List α
  | [], _ => []
  | x :: xs, ys =>
    let rest := ys.dropWhile (· < x)
    if rest.head? = some x then subtractLists xs rest else x :: subtractLists xs rest

theorem subtractLists_sublist [DecidableEq α] (xs ys : List α) : (subtractLists xs ys).Sublist xs := by
  induction xs generalizing ys with
  | nil => exact .slnil
  | cons x xs ih =>
    simp only [subtractLists]
    split
    · exact (ih _).cons _
    · exact (ih _).cons_cons _

end

theorem eq_of_mem_iff [LT α] [LE α] [Std.LawfulOrderLT α] {l m : List α}
    (hl : l.Pairwise (· < ·)) (hm : m.Pairwise (· < ·)) (h : ∀ x, x ∈ l ↔ x ∈ m) : l = m := by
  induction l generalizing m with
  | nil =>
    cases m with
    | nil => rfl
    | cons y m => exact absurd ((h y).mpr (by simp)) (by simp)
  | cons x l ih =>
    cases m with
    | nil => exact absurd ((h x).mp (by simp)) (by simp)
    | cons y m =>
      have hx := List.pairwise_cons.mp hl
      have hy := List.pairwise_cons.mp hm
      -- each head is the least member of its list
      have hxy : x = y := by
        rcases List.mem_cons.mp ((h x).mp (by simp)) with e | hxm
        · exact e
        · rcases List.mem_cons.mp ((h y).mpr (by simp)) with e | hyl
          · exact e.symm
          · exact absurd (hx.1 y hyl) (Std.not_gt_of_lt (hy.1 x hxm))
      subst hxy
      congr 1
      refine ih hx.2 hy.2 fun z => ⟨fun hz => ?_, fun hz => ?_⟩
      · rcases List.mem_cons.mp ((h z).mp (by simp [hz])) with e | hz'
        · exact absurd (e ▸ hx.1 z hz) Std.lt_irrefl
        · exact hz'
      · rcases List.mem_cons.mp ((h z).mpr (by simp [hz])) with e | hz'
        · exact absurd (e ▸ hy.1 z hz) Std.lt_irrefl
        · exact hz'

section

variable [LT α] [LE α] [Std.IsLinearOrder α] [Std.LawfulOrderLT α]

theorem pairwise_compact [DecidableEq α] {xs : List α} (h : xs.Pairwise (· ≤ ·)) :
    (compact xs).Pairwise (· < ·) := by
  fun_induction compact xs with
  | case1 => exact .nil
  | case2 x => exact List.pairwise_singleton _ _
  | case3 x rest ih => exact ih (List.pairwise_cons.mp h).2
  | case4 x y rest hne ih =>
    have hx := List.pairwise_cons.mp h
    have hy := List.pairwise_cons.mp hx.2
    refine List.pairwise_cons.mpr ⟨fun z hz => ?_, ih hx.2⟩
    have hxy : x < y := Std.lt_of_le_of_ne (hx.1 y (by simp)) hne
    rcases List.mem_cons.mp (mem_compact.mp hz) with rfl | hz
    · exact hxy
    · exact Std.lt_of_lt_of_le hxy (hy.1 z hz)

theorem mem_mergeLists [DecidableLT α] {xs ys : List α} {z : α} :
    z ∈ mergeLists xs ys ↔ z ∈ xs ∨ z ∈ ys := by
  fun_induction mergeLists xs ys <;> grind

theorem pairwise_mergeLists [DecidableLT α] {xs ys : List α} (hx : xs.Pairwise (· < ·))
    (hy : ys.Pairwise (· < ·)) : (mergeLists xs ys).Pairwise (· < ·) := by
  fun_induction mergeLists xs ys with
  | case1 ys => exact hy
  | case2 x xs => exact hx
  | case3 x xs y ys hlt ih =>
    have := List.pairwise_cons.mp hx
    have := List.pairwise_cons.mp hy
    refine List.pairwise_cons.mpr ⟨fun z hz => ?_, ih (by grind) hy⟩
    rcases mem_mergeLists.mp hz with hz | hz <;> grind
  | case4 x xs y ys _ hlt ih =>
    have := List.pairwise_cons.mp hx
    have := List.pairwise_cons.mp hy
    refine List.pairwise_cons.mpr ⟨fun z hz => ?_, ih hx (by grind)⟩
    rcases mem_mergeLists.mp hz with hz | hz <;> grind
  | case5 x xs y ys _ _ ih =>
    have := List.pairwise_cons.mp hx
    have := List.pairwise_cons.mp hy
    refine List.pairwise_cons.mpr ⟨fun z hz => ?_, ih (by grind) (by grind)⟩
    rcases mem_mergeLists.mp hz with hz | hz <;> grind

end

/-! ## Bisection -/

/-- Bisects the places `lo, …, hi` for the first one whose member is not below `x`: the member in
    the middle decides which half to keep. -/
def bisect [LT α] [DecidableLT α] (items : Array α) (x : α) (lo hi : Nat) : Nat :=
  if lo < hi then
    let mid := (lo + hi) / 2
    if items.getD mid x < x then bisect items x (mid + 1) hi else bisect items x lo mid
  else lo
termination_by hi - lo

theorem getD_lt_getD [LT α] {items : Array α} (h : items.toList.Pairwise (· < ·)) (x : α) {i j : Nat}
    (hij : i < j) (hj : j < items.size) : items.getD i x < items.getD j x := by
  have hi : i < items.size := Nat.lt_trans hij hj
  have := List.pairwise_iff_getElem.mp h i j (by simpa using hi) (by simpa using hj) hij
  simpa [Array.getD, hi, hj] using this

/-- Bisection separates the members below `x` from the others, if the places before `lo` hold
    members below `x` and those from `hi` on hold none. -/
theorem bisect_spec [LT α] [DecidableLT α] [LE α] [Std.IsLinearOrder α] [Std.LawfulOrderLT α]
    {items : Array α} (h : items.toList.Pairwise (· < ·)) {x : α} {lo hi : Nat}
    (hle : lo ≤ hi) (hhi : hi ≤ items.size) (below : ∀ i < lo, items.getD i x < x)
    (above : ∀ i, hi ≤ i → i < items.size → x ≤ items.getD i x) :
    bisect items x lo hi ≤ items.size ∧ (∀ i < bisect items x lo hi, items.getD i x < x) ∧
      ∀ i, bisect items x lo hi ≤ i → i < items.size → x ≤ items.getD i x := by
  fun_induction bisect items x lo hi with
  | case1 lo hi hlt mid hx ih =>
    refine ih (by omega) hhi (fun i hi' => ?_) above
    rcases Nat.lt_or_ge i mid with him | him
    · exact Std.lt_trans (getD_lt_getD h x him (by omega)) hx
    · have : i = mid := by omega
      exact this ▸ hx
  | case2 lo hi hlt mid hx ih =>
    refine ih (by omega) (by omega) below (fun i hmi hi' => ?_)
    rcases Nat.lt_or_ge mid i with him | him
    · exact Std.le_of_lt (Std.lt_of_le_of_lt (Std.not_lt.mp hx) (getD_lt_getD h x him hi'))
    · have : i = mid := by omega
      exact this ▸ Std.not_lt.mp hx
  | case3 lo hi hlt =>
    exact ⟨by omega, below, fun i hi' his => above i (by omega) his⟩

/-! ## Members -/

section

variable [LT α]

def toList (s : SortedSet α) : List α := s.items.toList

instance : Membership α (SortedSet α) := ⟨fun s x => x ∈ s.toList⟩

def empty : SortedSet α := ⟨#[], .nil⟩

instance : EmptyCollection (SortedSet α) := ⟨empty⟩

instance : Inhabited (SortedSet α) := ⟨empty⟩

def size (s : SortedSet α) : Nat := s.items.size

def isEmpty (s : SortedSet α) : Bool := s.items.isEmpty

def listing (xs : List α) (h : xs.Pairwise (· < ·)) : SortedSet α := ⟨xs.toArray, h⟩

def singleton (x : α) : SortedSet α := ⟨#[x], List.pairwise_singleton _ _⟩

variable [DecidableLT α]

/-- The place where `x` stands or belongs. -/
def place (s : SortedSet α) (x : α) : Nat := bisect s.items x 0 s.items.size

def contains [DecidableEq α] (s : SortedSet α) (x : α) : Bool := s.items[s.place x]? == some x

theorem mem_of_contains [DecidableEq α] {s : SortedSet α} {x : α} (h : s.contains x = true) : x ∈ s.toList := by
  obtain ⟨hlt, hx⟩ := Array.getElem?_eq_some_iff.mp (eq_of_beq h)
  exact hx ▸ Array.mem_toList_iff.mpr (Array.getElem_mem hlt)

variable [LE α] [Std.IsLinearOrder α] [Std.LawfulOrderLT α]

/-- The place of `x` separates the members below `x` from the others. -/
theorem place_spec (s : SortedSet α) (x : α) :
    s.place x ≤ s.items.size ∧ (∀ i < s.place x, s.items.getD i x < x) ∧
      ∀ i, s.place x ≤ i → i < s.items.size → x ≤ s.items.getD i x :=
  bisect_spec s.ascending (Nat.zero_le _) (Nat.le_refl _) (fun _ h => absurd h (Nat.not_lt_zero _))
    (fun _ h h' => absurd h' (Nat.not_lt_of_le h))

theorem lt_of_mem_take_place {s : SortedSet α} {x y : α} (h : y ∈ s.toList.take (s.place x)) :
    y < x := by
  obtain ⟨i, hi, rfl⟩ := List.mem_iff_getElem.mp h
  have hlen : i < s.place x ∧ i < s.items.size := by
    simpa [toList, Nat.lt_min] using hi
  have := (place_spec s x).2.1 i hlen.1
  simpa [toList, Array.getD, hlen.2] using this

theorem le_of_mem_drop_place {s : SortedSet α} {x y : α} (h : y ∈ s.toList.drop (s.place x)) :
    x ≤ y := by
  obtain ⟨i, hi, rfl⟩ := List.mem_iff_getElem.mp h
  have hlen : s.place x + i < s.items.size := by
    have : i < s.items.size - s.place x := by simpa [toList] using hi
    omega
  have := (place_spec s x).2.2 (s.place x + i) (Nat.le_add_right _ _) hlen
  simpa [toList, Array.getD, hlen] using this

end

variable [LT α] [DecidableLT α] [DecidableEq α] [LE α] [Std.IsLinearOrder α] [Std.LawfulOrderLT α]

theorem contains_of_mem {s : SortedSet α} {x : α} (h : x ∈ s.toList) : s.contains x = true := by
  rw [← List.take_append_drop (s.place x) s.toList, List.mem_append] at h
  rcases h with h | h
  · exact absurd (lt_of_mem_take_place h) (Std.lt_irrefl)
  · -- the member at the place is the least one that is not below `x`
    obtain ⟨y, ys, hd⟩ : ∃ y ys, s.toList.drop (s.place x) = y :: ys := by
      cases hd : s.toList.drop (s.place x) with
      | nil => rw [hd] at h; exact absurd h (by simp)
      | cons y ys => exact ⟨y, ys, rfl⟩
    have hget : s.items[s.place x]? = some y := by
      have : s.toList[s.place x]? = some y := by
        have := congrArg List.head? hd
        simpa [List.head?_drop] using this
      simpa [toList] using this
    have hxy : x ≤ y := le_of_mem_drop_place (by rw [hd]; simp)
    have hasc : (y :: ys).Pairwise (· < ·) := hd ▸ s.ascending.sublist (List.drop_sublist _ _)
    rw [hd] at h
    have hyx : y ≤ x := by
      rcases List.mem_cons.mp h with rfl | h
      · exact Std.le_refl _
      · exact Std.le_of_lt (List.rel_of_pairwise_cons hasc h)
    simp [contains, hget, Std.le_antisymm hyx hxy]

theorem contains_iff {s : SortedSet α} {x : α} : s.contains x = true ↔ x ∈ s :=
  ⟨mem_of_contains, contains_of_mem⟩

/-! ## Operations -/

/-- Adds `x` at its place, unless it stands there already. -/
def insert (s : SortedSet α) (x : α) : SortedSet α :=
  if h : s.contains x = true then s
  else listing (s.toList.take (s.place x) ++ x :: s.toList.drop (s.place x)) <| by
    refine List.pairwise_append.mpr ⟨s.ascending.sublist (List.take_sublist _ _),
      List.pairwise_cons.mpr ⟨fun y hy => ?_, s.ascending.sublist (List.drop_sublist _ _)⟩,
      fun y hy z hz => ?_⟩
    · refine Std.lt_of_le_of_ne (le_of_mem_drop_place hy) fun e => h ?_
      exact contains_of_mem (e ▸ List.mem_of_mem_drop hy)
    · rcases List.mem_cons.mp hz with rfl | hz
      · exact lt_of_mem_take_place hy
      · exact Std.lt_of_lt_of_le (lt_of_mem_take_place hy) (le_of_mem_drop_place hz)

def ofList [DecidableLE α] (xs : List α) : SortedSet α :=
  listing (compact (xs.mergeSort (· ≤ ·))) <| pairwise_compact <|
    (List.pairwise_mergeSort (fun a b c => by simpa using Std.le_trans)
      (fun a b => by simpa using Std.le_total) xs).imp fun h => by simpa using h

def union (s t : SortedSet α) : SortedSet α :=
  listing (mergeLists s.toList t.toList) (pairwise_mergeLists s.ascending t.ascending)

def difference (s t : SortedSet α) : SortedSet α :=
  listing (subtractLists s.toList t.toList) (s.ascending.sublist (subtractLists_sublist _ _))

/-! ## Moved and initial segments of the numbers -/

def shift (s : SortedSet Nat) (offset : Nat) : SortedSet Nat :=
  listing (s.toList.map (· + offset)) <| by
    rw [List.pairwise_map]
    exact s.ascending.imp fun h => Nat.add_lt_add_right h offset

def range (n : Nat) : SortedSet Nat := listing (List.range n) List.pairwise_lt_range

end SortedSet

end TraceRegex
