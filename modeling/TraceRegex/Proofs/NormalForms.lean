import TraceRegex.Proofs.Simplification

/-! # The shape of normal forms and reductions

A normal form is built from its parts by three functions that push negations down, and each of them
returns one of its arguments unless none of these is a constant.  So what `nnf` returns is in normal
form, has no atoms that the formula does not have, and has no more leaves.  A reduction puts a
constant in the place of a subformula; the normal form folds it with what stands beside it, and so
it has fewer leaves.
-/

namespace TraceRegex

namespace Formula

variable {f g : Formula} {i : UInt32}

/-! ## Normal form -/

theorem Reduced.isNnfBody (h : Reduced f) : f.isNnfBody = true := by
  induction h with
  | var i => rfl
  | not i => rfl
  | and left right differ ihf ihg => exact (Bool.and_eq_true _ _).mpr ⟨ihf, ihg⟩
  | or left right differ ihf ihg => exact (Bool.and_eq_true _ _).mpr ⟨ihf, ihg⟩

theorem isNnf_of_isNnfBody (h : f.isNnfBody = true) : f.isNnf = true := by
  cases f with
  | const b => rfl
  | var i => exact h
  | not f => exact h
  | and f g => exact h
  | or f g => exact h

theorem Normal.isNnf (h : Normal f) : f.isNnf = true := by
  cases h with
  | const b => rfl
  | reduced h => exact isNnf_of_isNnfBody h.isNnfBody

/-- What `nnf` returns is in normal form. -/
theorem isNnf_nnf (f : Formula) : f.nnf.isNnf = true := (normal_nnf f).isNnf

/-! ## Atoms -/

theorem mentions_nnfAnd (h : (nnfAnd f g).mentions i = true) :
    f.mentions i = true ∨ g.mentions i = true := by
  rcases nnfAnd_cases f g with same | same | ⟨same, -⟩
  · exact .inl (same ▸ h)
  · exact .inr (same ▸ h)
  · rw [same] at h
    exact (Bool.or_eq_true _ _).mp h

theorem mentions_nnfOr (h : (nnfOr f g).mentions i = true) :
    f.mentions i = true ∨ g.mentions i = true := by
  rcases nnfOr_cases f g with same | same | ⟨same, -⟩
  · exact .inl (same ▸ h)
  · exact .inr (same ▸ h)
  · rw [same] at h
    exact (Bool.or_eq_true _ _).mp h

theorem mentions_nnfNot (h : f.nnfNot.mentions i = true) : f.mentions i = true := by
  induction f with
  | const b => cases h
  | var j => exact h
  | not f _ => exact h
  | and f g hf hg => exact (Bool.or_eq_true _ _).mpr ((mentions_nnfOr h).imp hf hg)
  | or f g hf hg => exact (Bool.or_eq_true _ _).mpr ((mentions_nnfAnd h).imp hf hg)

/-- A normal form mentions only atoms of its formula. -/
theorem mentions_nnf (h : f.nnf.mentions i = true) : f.mentions i = true := by
  induction f with
  | const b => exact h
  | var j => exact h
  | not f ih => exact ih (mentions_nnfNot h)
  | and f g hf hg => exact (Bool.or_eq_true _ _).mpr ((mentions_nnfAnd h).imp hf hg)
  | or f g hf hg => exact (Bool.or_eq_true _ _).mpr ((mentions_nnfOr h).imp hf hg)

/-! ## Leaves -/

theorem leafCount_pos (f : Formula) : 0 < f.leafCount := by
  induction f with
  | const b => exact Nat.one_pos
  | var i => exact Nat.one_pos
  | not f ih => exact ih
  | and f g hf _ => exact Nat.add_pos_left hf _
  | or f g hf _ => exact Nat.add_pos_left hf _

theorem leafCount_nnfAnd_le (f g : Formula) :
    (nnfAnd f g).leafCount ≤ f.leafCount + g.leafCount := by
  rcases nnfAnd_cases f g with same | same | ⟨same, -⟩ <;> rw [same]
  · exact Nat.le_add_right _ _
  · exact Nat.le_add_left _ _
  · exact Nat.le_refl _

theorem leafCount_nnfOr_le (f g : Formula) :
    (nnfOr f g).leafCount ≤ f.leafCount + g.leafCount := by
  rcases nnfOr_cases f g with same | same | ⟨same, -⟩ <;> rw [same]
  · exact Nat.le_add_right _ _
  · exact Nat.le_add_left _ _
  · exact Nat.le_refl _

theorem leafCount_nnfNot_le (f : Formula) : f.nnfNot.leafCount ≤ f.leafCount := by
  induction f with
  | const b => exact Nat.le_refl _
  | var i => exact Nat.le_refl _
  | not f _ => exact Nat.le_refl _
  | and f g hf hg => exact Nat.le_trans (leafCount_nnfOr_le _ _) (Nat.add_le_add hf hg)
  | or f g hf hg => exact Nat.le_trans (leafCount_nnfAnd_le _ _) (Nat.add_le_add hf hg)

theorem leafCount_nnf_le (f : Formula) : f.nnf.leafCount ≤ f.leafCount := by
  induction f with
  | const b => exact Nat.le_refl _
  | var i => exact Nat.le_refl _
  | not f ih => exact Nat.le_trans (leafCount_nnfNot_le _) ih
  | and f g hf hg => exact Nat.le_trans (leafCount_nnfAnd_le _ _) (Nat.add_le_add hf hg)
  | or f g hf hg => exact Nat.le_trans (leafCount_nnfOr_le _ _) (Nat.add_le_add hf hg)

theorem leafCount_nnfAnd_lt (h : f.isConst = true ∨ g.isConst = true) :
    (nnfAnd f g).leafCount < f.leafCount + g.leafCount := by
  rcases nnfAnd_cases f g with same | same | ⟨-, left, right⟩
  · rw [same]
    exact Nat.lt_add_of_pos_right g.leafCount_pos
  · rw [same]
    exact Nat.lt_add_of_pos_left f.leafCount_pos
  · simp [left, right] at h

theorem leafCount_nnfOr_lt (h : f.isConst = true ∨ g.isConst = true) :
    (nnfOr f g).leafCount < f.leafCount + g.leafCount := by
  rcases nnfOr_cases f g with same | same | ⟨-, left, right⟩
  · rw [same]
    exact Nat.lt_add_of_pos_right g.leafCount_pos
  · rw [same]
    exact Nat.lt_add_of_pos_left f.leafCount_pos
  · simp [left, right] at h

end Formula

/-! ## Reductions -/

open Formula

theorem Frame.leafCount_fill_lt_of_lt {f g : Formula} (frame : Frame)
    (h : f.nnf.leafCount < g.leafCount) :
    (frame.fill f).nnf.leafCount < (frame.fill g).leafCount := by
  cases frame with
  | andLeft rhs =>
    exact Nat.lt_of_le_of_lt (leafCount_nnfAnd_le _ _)
      (Nat.add_lt_add_of_lt_of_le h rhs.leafCount_nnf_le)
  | andRight lhs =>
    exact Nat.lt_of_le_of_lt (leafCount_nnfAnd_le _ _)
      (Nat.add_lt_add_of_le_of_lt lhs.leafCount_nnf_le h)
  | orLeft rhs =>
    exact Nat.lt_of_le_of_lt (leafCount_nnfOr_le _ _)
      (Nat.add_lt_add_of_lt_of_le h rhs.leafCount_nnf_le)
  | orRight lhs =>
    exact Nat.lt_of_le_of_lt (leafCount_nnfOr_le _ _)
      (Nat.add_lt_add_of_le_of_lt lhs.leafCount_nnf_le h)

/-- A constant is folded with the other operand. -/
theorem Frame.leafCount_fill_const_lt (frame : Frame) (b : Bool) (g : Formula) :
    (frame.fill (.const b)).nnf.leafCount < (frame.fill g).leafCount := by
  cases frame with
  | andLeft rhs =>
    exact Nat.lt_of_lt_of_le (leafCount_nnfAnd_lt (.inl rfl))
      (Nat.add_le_add g.leafCount_pos rhs.leafCount_nnf_le)
  | andRight lhs =>
    exact Nat.lt_of_lt_of_le (leafCount_nnfAnd_lt (.inr rfl))
      (Nat.add_le_add lhs.leafCount_nnf_le g.leafCount_pos)
  | orLeft rhs =>
    exact Nat.lt_of_lt_of_le (leafCount_nnfOr_lt (.inl rfl))
      (Nat.add_le_add g.leafCount_pos rhs.leafCount_nnf_le)
  | orRight lhs =>
    exact Nat.lt_of_lt_of_le (leafCount_nnfOr_lt (.inr rfl))
      (Nat.add_le_add lhs.leafCount_nnf_le g.leafCount_pos)

theorem Path.leafCount_whole_lt (path : Path) {f g : Formula} (h : f.nnf.leafCount < g.leafCount) :
    (path.whole f).nnf.leafCount < (path.whole g).leafCount := by
  induction path generalizing f g with
  | nil => exact h
  | cons frame path ih => exact ih (frame.leafCount_fill_lt_of_lt h)

/-- The whole with a constant in it has fewer leaves, whatever stands in the place of the constant. -/
theorem Path.leafCount_whole_const_lt {path : Path} (below : path ≠ []) (b : Bool) (g : Formula) :
    (path.whole (.const b)).nnf.leafCount < (path.whole g).leafCount := by
  cases path with
  | nil => exact absurd rfl below
  | cons frame path => exact Path.leafCount_whole_lt path (frame.leafCount_fill_const_lt b g)

theorem Path.mentions_whole_mono (path : Path) {f g : Formula} {i : UInt32}
    (h : f.mentions i = true → g.mentions i = true) :
    (path.whole f).mentions i = true → (path.whole g).mentions i = true := by
  induction path generalizing f g with
  | nil => exact h
  | cons frame path ih =>
    refine ih fun filled => ?_
    cases frame <;> simp only [Frame.fill, mentions, Bool.or_eq_true] at filled ⊢
    · exact filled.imp_left h
    · exact filled.imp_right h
    · exact filled.imp_left h
    · exact filled.imp_right h

namespace Formula.Reduction

variable {f g : Formula}

theorem leafCount_lt (h : f.Reduction g) : g.leafCount < f.leafCount := by
  obtain ⟨path, part, value, below, rfl, rfl⟩ := h.replaced
  exact Path.leafCount_whole_const_lt below value part

theorem normal (h : f.Reduction g) : Normal g := by
  obtain ⟨path, part, value, -, -, rfl⟩ := h.replaced
  exact normal_nnf _

theorem mentions (h : f.Reduction g) {i : UInt32} (mentioned : g.mentions i = true) :
    f.mentions i = true := by
  obtain ⟨path, part, value, -, rfl, rfl⟩ := h.replaced
  exact path.mentions_whole_mono (fun impossible => by cases impossible) (mentions_nnf mentioned)

end Formula.Reduction

end TraceRegex
