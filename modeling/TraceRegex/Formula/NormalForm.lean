import TraceRegex.Formula.Basic

/-! # Negation normal form

In negation normal form a negation stands only in front of an atom, and a constant only alone.
`nnf` reaches it by pushing negations down to the atoms, folding constants and merging equal
operands on the way up.  It is a function of the tree alone, and it leaves normal forms as they are
(`nnf_nnf`).
-/

namespace TraceRegex

namespace Formula

/-- Conjunction of two normal forms: equal operands merge and constants fold. -/
def nnfAnd (f g : Formula) : Formula :=
  if f = g then f
  else match f, g with
    | .const true, g => g
    | .const false, _ => .const false
    | f, .const true => f
    | _, .const false => .const false
    | f, g => .and f g

def nnfOr (f g : Formula) : Formula :=
  if f = g then f
  else match f, g with
    | .const false, g => g
    | .const true, _ => .const true
    | f, .const false => f
    | _, .const true => .const true
    | f, g => .or f g

/-- Negation of a normal form, by the laws of De Morgan. -/
def nnfNot : Formula → Formula
  | .const b => .const !b
  | .var i => .not (.var i)
  | .not f => f
  | .and f g => nnfOr f.nnfNot g.nnfNot
  | .or f g => nnfAnd f.nnfNot g.nnfNot

def nnf : Formula → Formula
  | .const b => .const b
  | .var i => .var i
  | .not f => f.nnf.nnfNot
  | .and f g => nnfAnd f.nnf g.nnf
  | .or f g => nnfOr f.nnf g.nnf

/-- Constant-free with negations only in front of atoms. -/
def isNnfBody : Formula → Bool
  | .const _ => false
  | .var _ => true
  | .not f => f.isVar
  | .and f g | .or f g => f.isNnfBody && g.isNnfBody

def isNnf : Formula → Bool
  | .const _ => true
  | f => f.isNnfBody

variable {f g : Formula}

/-! ## Folding -/

/-- A conjunction is folded to one of its operands, or neither of them is a constant. -/
theorem nnfAnd_cases (f g : Formula) : nnfAnd f g = f ∨ nnfAnd f g = g ∨
    nnfAnd f g = .and f g ∧ f.isConst = false ∧ g.isConst = false := by
  unfold nnfAnd
  split
  · exact .inl rfl
  · split <;> simp_all [isConst]

theorem nnfOr_cases (f g : Formula) : nnfOr f g = f ∨ nnfOr f g = g ∨
    nnfOr f g = .or f g ∧ f.isConst = false ∧ g.isConst = false := by
  unfold nnfOr
  split
  · exact .inl rfl
  · split <;> simp_all [isConst]

theorem nnfAnd_self (f : Formula) : nnfAnd f f = f := by
  unfold nnfAnd
  exact if_pos rfl

theorem nnfOr_self (f : Formula) : nnfOr f f = f := by
  unfold nnfOr
  exact if_pos rfl

/-! ## Normal forms of normal forms -/

/-- Literals, and connectives whose operands are such formulas and differ: there is nothing left to
    fold or to merge. -/
inductive Reduced : Formula → Prop where
  | var (i : UInt32) : Reduced (.var i)
  | not (i : UInt32) : Reduced (.not (.var i))
  | and {f g : Formula} (left : Reduced f) (right : Reduced g) (differ : f ≠ g) : Reduced (.and f g)
  | or {f g : Formula} (left : Reduced f) (right : Reduced g) (differ : f ≠ g) : Reduced (.or f g)

/-- Reduced formulas that differ are conjoined as they are. -/
theorem nnfAnd_of_ne (hf : Reduced f) (hg : Reduced g) (differ : f ≠ g) : nnfAnd f g = .and f g := by
  unfold nnfAnd
  rw [if_neg differ]
  split
  · cases hf
  · cases hf
  · cases hg
  · cases hg
  · rfl

theorem nnfOr_of_ne (hf : Reduced f) (hg : Reduced g) (differ : f ≠ g) : nnfOr f g = .or f g := by
  unfold nnfOr
  rw [if_neg differ]
  split
  · cases hf
  · cases hf
  · cases hg
  · cases hg
  · rfl

/-- Negation is its own inverse on reduced formulas.  So it keeps operands apart, and what it returns
    is reduced again. -/
theorem Reduced.nnfNot (h : Reduced f) : Reduced f.nnfNot ∧ f.nnfNot.nnfNot = f := by
  induction h with
  | var i => exact ⟨.not i, rfl⟩
  | not i => exact ⟨.var i, rfl⟩
  | @and f g left right differ ihf ihg =>
    obtain ⟨reducedF, backF⟩ := ihf
    obtain ⟨reducedG, backG⟩ := ihg
    have apart : f.nnfNot ≠ g.nnfNot := fun same => differ (by rw [← backF, same, backG])
    rw [Formula.nnfNot, nnfOr_of_ne reducedF reducedG apart]
    refine ⟨.or reducedF reducedG apart, ?_⟩
    rw [Formula.nnfNot, backF, backG, nnfAnd_of_ne left right differ]
  | @or f g left right differ ihf ihg =>
    obtain ⟨reducedF, backF⟩ := ihf
    obtain ⟨reducedG, backG⟩ := ihg
    have apart : f.nnfNot ≠ g.nnfNot := fun same => differ (by rw [← backF, same, backG])
    rw [Formula.nnfNot, nnfAnd_of_ne reducedF reducedG apart]
    refine ⟨.and reducedF reducedG apart, ?_⟩
    rw [Formula.nnfNot, backF, backG, nnfOr_of_ne left right differ]

inductive Normal : Formula → Prop where
  | const (b : Bool) : Normal (.const b)
  | reduced {f : Formula} (h : Reduced f) : Normal f

theorem Normal.reduced_of_not_const (h : Normal f) (other : f.isConst = false) : Reduced f := by
  cases h with
  | const b => cases other
  | reduced h => exact h

theorem normal_nnfAnd (hf : Normal f) (hg : Normal g) : Normal (nnfAnd f g) := by
  by_cases equal : f = g
  · rw [equal, nnfAnd_self]
    exact hg
  rcases nnfAnd_cases f g with same | same | ⟨same, left, right⟩
  · rwa [same]
  · rwa [same]
  · rw [same]
    exact .reduced (.and (hf.reduced_of_not_const left) (hg.reduced_of_not_const right) equal)

theorem normal_nnfOr (hf : Normal f) (hg : Normal g) : Normal (nnfOr f g) := by
  by_cases equal : f = g
  · rw [equal, nnfOr_self]
    exact hg
  rcases nnfOr_cases f g with same | same | ⟨same, left, right⟩
  · rwa [same]
  · rwa [same]
  · rw [same]
    exact .reduced (.or (hf.reduced_of_not_const left) (hg.reduced_of_not_const right) equal)

theorem Normal.nnfNot (h : Normal f) : Normal f.nnfNot := by
  cases h with
  | const b => exact .const _
  | reduced h => exact .reduced h.nnfNot.1

theorem normal_nnf (f : Formula) : Normal f.nnf := by
  induction f with
  | const b => exact .const b
  | var i => exact .reduced (.var i)
  | not f ih => exact ih.nnfNot
  | and f g hf hg => exact normal_nnfAnd hf hg
  | or f g hf hg => exact normal_nnfOr hf hg

theorem Reduced.nnf_eq (h : Reduced f) : f.nnf = f := by
  induction h with
  | var i => rfl
  | not i => rfl
  | and left right differ ihf ihg => rw [nnf, ihf, ihg, nnfAnd_of_ne left right differ]
  | or left right differ ihf ihg => rw [nnf, ihf, ihg, nnfOr_of_ne left right differ]

theorem Normal.nnf_eq (h : Normal f) : f.nnf = f := by
  cases h with
  | const b => rfl
  | reduced h => exact h.nnf_eq

/-- The normal form of a normal form is itself. -/
theorem nnf_nnf (f : Formula) : f.nnf.nnf = f.nnf := (normal_nnf f).nnf_eq

end Formula

end TraceRegex
