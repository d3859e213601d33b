import TraceRegex.Proofs.HashConsing
import TraceRegex.Proofs.NormalForms

/-! # Normal forms in a session

A context remembers normal forms, and it remembers each of them as its own normal form without
computing it again.  Whatever was done before in a session, the operation gives the tree that the
rewriting alone computes, and the same handle when it is applied to its own result.
-/

namespace TraceRegex

namespace Formula

/-- No constant occurs in the formula. -/
def ConstantFree : Formula → Prop
  | .const _ => False
  | .var _ => True
  | .not f => f.ConstantFree
  | .and f g | .or f g => f.ConstantFree ∧ g.ConstantFree

variable {f : Formula}

theorem Reduced.constantFree (h : Reduced f) : f.ConstantFree := by
  induction h with
  | var i => trivial
  | not i => trivial
  | and _ _ _ ihf ihg => exact ⟨ihf, ihg⟩
  | or _ _ _ ihf ihg => exact ⟨ihf, ihg⟩

theorem Normal.isConst_or_constantFree (h : Normal f) : f.isConst = true ∨ f.ConstantFree := by
  cases h with
  | const b => exact .inl rfl
  | reduced h => exact .inr h.constantFree

end Formula

namespace Session

theorem nnf_answers (f : Formula) : Build.Returns (Operation.nnf f).run (some f.nnf) :=
  (Build.nnf_returns f).map some

/-- After any operations on a context, the normal form of a formula is the tree `f.nnf`, which
    depends on the tree of the formula alone; its handle stands for it as long as the places of
    formulas have numbers of 32 bits.  It is in normal form, a constant or free of constants, and
    means the same.  Applied to it the operation gives the same handle, and so does the rewriting
    without anything remembered. -/
theorem normal_forms_exact (s : Session) (reached : start.Leads s) (f : Formula)
    (known : f ∈ s.obtained.map Prod.snd) :
    let t := s.step (.nnf f)
    ∃ h, t.obtained = s.obtained ++ [(h, f.nnf)] ∧
      ((∀ k, (t.context.ofKind k).length < UInt32.size) → t.context.Denotes h f.nnf) ∧
      (∀ ctx, ((Build.nnf f).run ctx).1 = f.nnf) ∧
      f.nnf.isNnf = true ∧ (f.nnf.isConst = true ∨ f.nnf.ConstantFree) ∧
      (∀ l, f.nnf.eval l = f.eval l) ∧
      (t.step (.nnf f.nnf)).obtained = t.obtained ++ [(h, f.nnf)] ∧ f.nnf.nnf = f.nnf := by
  intro t
  have operands : ∀ g ∈ (Operation.nnf f).operands, g ∈ s.obtained.map Prod.snd := by
    simpa [Operation.operands] using known
  obtain ⟨sound, -⟩ := reached.sound.step (.nnf f) operands
  have obtained : t.obtained = s.obtained ++ [(t.context.handle f.nnf, f.nnf)] :=
    obtained_step (nnf_answers f) s
  have last : (t.context.handle f.nnf, f.nnf) ∈ t.obtained := by simp [obtained]
  have normal := Formula.normal_nnf f
  refine ⟨_, obtained, fun room => Context.denotes_handle room (sound.held _ last).1,
    Build.nnf_run_fst f, normal.isNnf, normal.isConst_or_constantFree,
    fun l => Formula.eval_nnf l f, ?_, normal.nnf_eq⟩
  have again : Build.Returns (Operation.nnf f.nnf).run (some f.nnf) := by
    have answers := nnf_answers f.nnf
    rwa [normal.nnf_eq] at answers
  exact sound.obtained_step_of_mem (by simpa [Operation.operands] using ⟨_, last⟩) again last

/-- In a session in which the negation of a conjunction was built, its normal form is a disjunction,
    with the same handle when it is normalised again. -/
theorem normal_forms_exact_of_negation :
    ∃ (s : Session) (f g : Formula), f = .not (.and (.atom 0) (.not (.atom 1))) ∧
      g = .or (.not (.atom 0)) (.atom 1) ∧ start.Leads s ∧ f ∈ s.obtained.map Prod.snd ∧
      ∃ h, (s.step (.nnf f)).obtained = s.obtained ++ [(h, g)] ∧
        ((s.step (.nnf f)).step (.nnf g)).obtained = s.obtained ++ [(h, g), (h, g)] := by
  let f : Formula := .not (.and (.atom 0) (.not (.atom 1)))
  let g : Formula := .or (.not (.atom 0)) (.atom 1)
  have normal : f.nnf = g := by decide
  obtain ⟨s, reached, known⟩ := exists_leads start f
  obtain ⟨h, first, -, -, -, -, -, again, -⟩ := normal_forms_exact s reached f known
  rw [normal] at first again
  exact ⟨s, f, g, rfl, rfl, reached, known, h, first, by simpa [first] using again⟩

end Session

end TraceRegex
