import TraceRegex.Collection.SortedSet
import TraceRegex.Fault

/-! # Letters and words

A letter says which atoms hold at one step of a trace; a word is a finite trace.  A letter is kept
as the ascending list of the atoms that hold, so two letters are equal exactly when the same atoms
hold in both (`Letter.ext_holds`).
-/

namespace TraceRegex

/-- The atoms that hold at one step, in ascending order. -/
structure Letter where
  atoms : List Nat
  ascending : atoms.Pairwise (· < ·)
deriving DecidableEq, Repr

/-- A finite trace. -/
abbrev Word := List Letter

namespace Letter

theorem ascending_nil : ([] : List Nat).Pairwise (· < ·) := .nil

def empty : Letter := ⟨[], ascending_nil⟩

instance : EmptyCollection Letter := ⟨empty⟩

instance : Inhabited Letter := ⟨empty⟩

def holds (l : Letter) (i : Nat) : Bool := l.atoms.contains i

/-! ## Setting an atom -/

/-- Adds `a` to an ascending list, at its place. -/
def insertAtom (a : Nat) : List Nat → List Nat
  | [] => [a]
  | b :: bs => if a < b then a :: b :: bs else if a = b then b :: bs else b :: insertAtom a bs

theorem mem_insertAtom {a x : Nat} {l : List Nat} : x ∈ insertAtom a l ↔ x = a ∨ x ∈ l := by
  induction l with
  | nil => simp [insertAtom]
  | cons b bs ih => grind [insertAtom]

theorem pairwise_insertAtom {a : Nat} {l : List Nat} (h : l.Pairwise (· < ·)) :
    (insertAtom a l).Pairwise (· < ·) := by
  induction l with
  | nil => simp [insertAtom]
  | cons b bs ih =>
    have hb := List.pairwise_cons.mp h
    unfold insertAtom
    split
    · next hab =>
      refine List.pairwise_cons.mpr ⟨fun x hx => ?_, h⟩
      rcases List.mem_cons.mp hx with rfl | hx
      · exact hab
      · exact Nat.lt_trans hab (hb.1 x hx)
    · split
      · exact h
      · refine List.pairwise_cons.mpr ⟨fun x hx => ?_, ih hb.2⟩
        rcases mem_insertAtom.mp hx with rfl | hx
        · omega
        · exact hb.1 x hx

def insert (l : Letter) (a : Nat) : Letter :=
  ⟨insertAtom a l.atoms, pairwise_insertAtom l.ascending⟩

def ofList (atoms : List Nat) : Letter := atoms.foldl insert empty

/-- The letter in which exactly the listed atoms hold, if a row of bits reaches them all. -/
def ofAtoms (atoms : List Nat) : Except Fault Letter := do
  checkRows atoms
  return ofList atoms

@[simp]
theorem holds_empty (i : Nat) : empty.holds i = false := rfl

@[simp]
theorem holds_insert (l : Letter) (a i : Nat) : (l.insert a).holds i = (i == a || l.holds i) := by
  rw [Bool.eq_iff_iff]
  simp [holds, insert, mem_insertAtom]

theorem holds_foldl_insert (atoms : List Nat) (l : Letter) (i : Nat) :
    (atoms.foldl insert l).holds i = (l.holds i || atoms.contains i) := by
  induction atoms generalizing l with
  | nil => simp
  | cons a atoms ih =>
    rw [List.foldl_cons, ih, holds_insert, List.contains_cons]
    cases i == a <;> cases l.holds i <;> rfl

@[simp]
theorem holds_ofList (atoms : List Nat) (i : Nat) : (ofList atoms).holds i = atoms.contains i := by
  simp [ofList, holds_foldl_insert]

/-! ## Giving an atom a truth value -/

def erase (l : Letter) (a : Nat) : Letter := ⟨l.atoms.filter (· != a), l.ascending.filter _⟩

@[simp]
theorem holds_erase (l : Letter) (a i : Nat) : (l.erase a).holds i = (i != a && l.holds i) := by
  rw [Bool.eq_iff_iff]
  simp [holds, erase, and_comm]

/-- The letter in which the atom `a` has the given truth value. -/
def put (l : Letter) (a : Nat) (b : Bool) : Letter := if b then l.insert a else l.erase a

theorem holds_put (l : Letter) (a i : Nat) (b : Bool) :
    (l.put a b).holds i = if i = a then b else l.holds i := by
  cases b <;> by_cases h : i = a <;> simp [put, h]

/-! ## Extensionality -/

/-- Letters in which the same atoms hold are equal. -/
theorem ext_holds {l m : Letter} (h : ∀ i, l.holds i = m.holds i) : l = m := by
  obtain ⟨l, hl⟩ := l
  obtain ⟨m, hm⟩ := m
  congr
  refine SortedSet.eq_of_mem_iff hl hm fun x => ?_
  have := h x
  simp only [holds] at this
  rw [← List.contains_iff_mem, ← List.contains_iff_mem, this]

/-- Giving an atom the truth value that it has changes nothing. -/
@[simp]
theorem put_holds (l : Letter) (a : Nat) : l.put a (l.holds a) = l := by
  refine ext_holds fun i => ?_
  rw [holds_put]
  split
  · next h => rw [h]
  · rfl

end Letter

end TraceRegex
