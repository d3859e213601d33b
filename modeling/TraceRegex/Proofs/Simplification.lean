import TraceRegex.Context.Simplify
import TraceRegex.Proofs.Steady

/-! # Normal forms and simplification keep the meaning

A normal form has the truth values of its formula and no new atoms.  So has a simplified formula:
the subformulas that a replacement is tried at stand under conjunctions and disjunctions only, so
putting a constant there moves the whole in one known direction, and the implication that
`reduceLeaf` asks the solver for is the other one.
-/

namespace TraceRegex

namespace Formula

/-! ## Normal forms -/

@[simp]
theorem eval_nnfAnd (l : Letter) (f g : Formula) :
    (nnfAnd f g).eval l = (f.eval l && g.eval l) := by
  unfold nnfAnd
  split
  · next h => subst h; simp
  · split <;> simp [eval]

@[simp]
theorem eval_nnfOr (l : Letter) (f g : Formula) : (nnfOr f g).eval l = (f.eval l || g.eval l) := by
  unfold nnfOr
  split
  · next h => subst h; simp
  · split <;> simp [eval]

@[simp]
theorem eval_nnfNot (l : Letter) (f : Formula) : f.nnfNot.eval l = !f.eval l := by
  induction f with
  | const b => rfl
  | var i => rfl
  | not f => simp [nnfNot, eval]
  | and f g hf hg => simp [nnfNot, eval, hf, hg]
  | or f g hf hg => simp [nnfNot, eval, hf, hg]

/-- A formula and its normal form have the same truth values. -/
@[simp]
theorem eval_nnf (l : Letter) (f : Formula) : f.nnf.eval l = f.eval l := by
  induction f with
  | const b => rfl
  | var i => rfl
  | not f ih => simp [nnf, eval, ih]
  | and f g hf hg => simp [nnf, eval, hf, hg]
  | or f g hf hg => simp [nnf, eval, hf, hg]

theorem varCount_nnfAnd_le (f g : Formula) :
    (nnfAnd f g).varCount ≤ max f.varCount g.varCount := by
  unfold nnfAnd
  split
  · exact Nat.le_max_left _ _
  · split <;> simp only [varCount] <;> omega

theorem varCount_nnfOr_le (f g : Formula) :
    (nnfOr f g).varCount ≤ max f.varCount g.varCount := by
  unfold nnfOr
  split
  · exact Nat.le_max_left _ _
  · split <;> simp only [varCount] <;> omega

theorem varCount_nnfNot_le (f : Formula) : f.nnfNot.varCount ≤ f.varCount := by
  induction f with
  | const b => exact Nat.le_refl _
  | var i => exact Nat.le_refl _
  | not f => exact Nat.le_refl _
  | and f g hf hg =>
    have := varCount_nnfOr_le f.nnfNot g.nnfNot
    simp only [nnfNot, varCount]
    omega
  | or f g hf hg =>
    have := varCount_nnfAnd_le f.nnfNot g.nnfNot
    simp only [nnfNot, varCount]
    omega

/-- A normal form has no atoms that its formula does not have. -/
theorem varCount_nnf_le (f : Formula) : f.nnf.varCount ≤ f.varCount := by
  induction f with
  | const b => exact Nat.le_refl _
  | var i => exact Nat.le_refl _
  | not f ih => exact Nat.le_trans (varCount_nnfNot_le f.nnf) ih
  | and f g hf hg =>
    have := varCount_nnfAnd_le f.nnf g.nnf
    simp only [nnf, varCount]
    omega
  | or f g hf hg =>
    have := varCount_nnfOr_le f.nnf g.nnf
    simp only [nnf, varCount]
    omega

/-- The second formula means the same as the first and has no further atoms. -/
structure Restates (f g : Formula) : Prop where
  eval_eq : ∀ l, g.eval l = f.eval l
  varCount_le : g.varCount ≤ f.varCount

theorem Restates.refl (f : Formula) : Restates f f := ⟨fun _ => rfl, Nat.le_refl _⟩

theorem Restates.trans {f g h : Formula} (hfg : Restates f g) (hgh : Restates g h) :
    Restates f h :=
  ⟨fun l => (hgh.eval_eq l).trans (hfg.eval_eq l), Nat.le_trans hgh.varCount_le hfg.varCount_le⟩

theorem restates_nnf (f : Formula) : Restates f f.nnf := ⟨fun l => eval_nnf l f, varCount_nnf_le f⟩

end Formula

/-! ## Replacing a subformula -/

/-- The whole formula with `f` at the end of the path. -/
def Path.whole (path : Path) (f : Formula) : Formula :=
  path.foldl (fun f frame => frame.fill f) f

/-- Weakening a subformula weakens the whole. -/
theorem Path.eval_whole_mono (path : Path) {f g : Formula} {l : Letter}
    (h : f.eval l = true → g.eval l = true) :
    (path.whole f).eval l = true → (path.whole g).eval l = true := by
  induction path generalizing f g with
  | nil => exact h
  | cons frame path ih =>
    refine ih (f := frame.fill f) (g := frame.fill g) fun filled => ?_
    -- both connectives are monotone on both sides, and no frame is a negation
    cases frame <;>
      simp only [Frame.fill, Formula.eval, Bool.and_eq_true, Bool.or_eq_true] at filled ⊢
    · exact ⟨h filled.1, filled.2⟩
    · exact ⟨filled.1, h filled.2⟩
    · exact filled.imp_left h
    · exact filled.imp_right h

theorem Path.varCount_whole_mono (path : Path) {f g : Formula} (h : g.varCount ≤ f.varCount) :
    (path.whole g).varCount ≤ (path.whole f).varCount := by
  induction path generalizing f g with
  | nil => exact h
  | cons frame path ih =>
    refine ih (f := frame.fill f) (g := frame.fill g) ?_
    cases frame <;> simp only [Frame.fill, Formula.varCount] <;> omega

/-- The second formula restates the first one, and it is the normal form of that with a constant in
    the place of one of its proper subformulas. -/
structure Formula.Reduction (f g : Formula) : Prop extends Restates f g where
  replaced : ∃ (path : Path) (part : Formula) (value : Bool), path ≠ [] ∧ f = path.whole part ∧
    g = (path.whole (.const value)).nnf

namespace Build

theorem plug_returns (path : Path) (pos neg : Formula) :
    Returns (plug path pos neg) (path.whole pos, path.whole neg) := by
  induction path generalizing pos neg with
  | nil => exact Returns.pure _
  | cons frame path ih => exact (cons_returns _).bind ((cons_returns _).bind (ih _ _))

/-- The question that decides a replacement: a candidate is taken exactly if it is not the whole and
    the implication holds. -/
theorem question_returns (same : Prop) [Decidable same] (f g : Formula) :
    ∃ b, Returns (if same then pure false else do prove (← implies f g)) b ∧
      (b = true ↔ ¬same ∧ ∀ l, f.eval l = true → g.eval l = true) := by
  refine ⟨_, Returns.ite (fun _ => Returns.pure _)
    fun _ => (implies_returns f g).bind (prove_returns _).steady, ?_⟩
  by_cases h : same
  · simp [h]
  · rw [if_neg h, prove_result_iff]
    simp only [h, not_false_eq_true, true_and, Formula.eval]
    apply forall_congr'
    intro l
    cases f.eval l <;> simp

/-- What `reduceLeaf` returns: the whole weakened at the end of the path, if it is another formula and
    implies the whole; or else the whole strengthened there, if it is another formula and implied. -/
theorem reduceLeaf_returns_candidate (top : Formula) (path : Path) :
    ∃ b c, Returns (reduceLeaf top path)
        (if b then some (path.whole (.const true)).nnf
          else if c then some (path.whole (.const false)).nnf else none) ∧
      (b = true ↔ (path.whole (.const true)).nnf ≠ top ∧
        ∀ l, (path.whole (.const true)).eval l = true → top.eval l = true) ∧
      (c = true ↔ (path.whole (.const false)).nnf ≠ top ∧
        ∀ l, top.eval l = true → (path.whole (.const false)).eval l = true) := by
  let weaker := (path.whole (.const true)).nnf
  let stronger := (path.whole (.const false)).nnf
  obtain ⟨b, asked, weakerImplies⟩ := question_returns (weaker = top) weaker top
  obtain ⟨c, asked', impliesStronger⟩ := question_returns (stronger = top) top stronger
  refine ⟨b, c,
    (plug_returns path (.const true) (.const false)).bind <|
    (nnf_returns _).bind <| (nnf_returns _).bind <| asked.bind <|
    Returns.ite (fun _ => Returns.pure _) fun _ => asked'.bind <|
    Returns.ite (fun _ => Returns.pure _) fun _ => Returns.pure _, ?_, ?_⟩
  · simpa [weaker] using weakerImplies
  · simpa [stronger] using impliesStronger

/-- A replacement that `reduceLeaf` makes is a reduction of the whole. -/
theorem reduceLeaf_returns {path : Path} (below : path ≠ []) (f : Formula) :
    ∃ r, Returns (reduceLeaf (path.whole f) path) r ∧ ∀ g ∈ r, (path.whole f).Reduction g := by
  let top := path.whole f
  -- one implication between the whole and each candidate is free, the solver is asked for the other
  have up : ∀ l, top.eval l = true → (path.whole (.const true)).eval l = true := fun l =>
    path.eval_whole_mono fun _ => rfl
  have down : ∀ l, (path.whole (.const false)).eval l = true → top.eval l = true := fun l =>
    path.eval_whole_mono fun impossible => by cases impossible
  have bound : ∀ b, (path.whole (.const b)).nnf.varCount ≤ top.varCount := fun b =>
    Nat.le_trans (Formula.varCount_nnf_le _) (path.varCount_whole_mono (Nat.zero_le _))
  have reduction {b : Bool} (same : ∀ l, (path.whole (.const b)).eval l = top.eval l) :
      top.Reduction (path.whole (.const b)).nnf :=
    ⟨⟨fun l => (Formula.eval_nnf l _).trans (same l), bound b⟩, path, f, b, below, rfl, rfl⟩
  obtain ⟨b, c, returned, weakerImplies, impliesStronger⟩ := reduceLeaf_returns_candidate top path
  refine ⟨_, returned, fun g hg => ?_⟩
  cases b with
  | true =>
    cases Option.some.inj hg
    exact reduction fun l => Bool.eq_iff_iff.mpr ⟨(weakerImplies.mp rfl).2 l, up l⟩
  | false =>
    cases c with
    | true =>
      cases Option.some.inj hg
      exact reduction fun l => Bool.eq_iff_iff.mpr ⟨down l, (impliesStronger.mp rfl).2 l⟩
    | false => cases hg

/-- The first of two searches that finds a replacement decides. -/
theorem Returns.orElse {m n : Build (Option Formula)} {r s : Option Formula} (hm : Returns m r)
    (hn : Returns n s) : Returns (do match ← m with | some f => return some f | none => n)
      (r.or s) := by
  refine hm.bind ?_
  cases r with
  | some f => exact Returns.pure _
  | none => exact hn

/-- A replacement that the search for one makes is a reduction of the whole.  The subformula at hand
    and its path make up the whole at every step of the search. -/
theorem reduceFirst_returns {top : Formula} (room : Nat) (path : Path) (f : Formula)
    (h : path.whole f = top) :
    ∃ r, Returns (reduceFirst top room path f) r ∧ ∀ g ∈ r, top.Reduction g := by
  fun_induction reduceFirst top room path f with
  | case1 path room lhs rhs left right =>
    obtain ⟨r, hr, reduction⟩ := left h
    obtain ⟨s, hs, reduction'⟩ := right h
    exact ⟨_, hr.orElse hs, fun g hg => (Option.or_eq_some_iff.mp hg).elim (reduction g)
      fun hg => reduction' g hg.2⟩
  | case2 path room lhs rhs left right =>
    obtain ⟨r, hr, reduction⟩ := left h
    obtain ⟨s, hs, reduction'⟩ := right h
    exact ⟨_, hr.orElse hs, fun g hg => (Option.or_eq_some_iff.mp hg).elim (reduction g)
      fun hg => reduction' g hg.2⟩
  | case3 => exact ⟨none, Returns.pure none, fun g hg => by cases hg⟩
  | case4 path f room below =>
    -- a leaf, or anything else that is neither a conjunction nor a disjunction
    subst h
    exact reduceLeaf_returns below _

/-- What a reduction keeps is kept by any number of rounds of them. -/
theorem exists_reduceAll_returns {P : Formula → Prop}
    (step : ∀ {f g : Formula}, f.Reduction g → P f → P g) (rounds : Nat) {top : Formula}
    (h : P top) : ∃ f, Returns (reduceAll rounds top) f ∧ P f := by
  induction rounds generalizing top with
  | zero => exact ⟨top, Returns.pure top, h⟩
  | succ rounds ih =>
    obtain ⟨r, hr, reduction⟩ := reduceFirst_returns simplifyDepth [] top rfl
    cases r with
    | none => exact ⟨top, hr.bind (Returns.pure top), h⟩
    | some g =>
      obtain ⟨f, hf, kept⟩ := ih (step (reduction g rfl) h)
      exact ⟨f, hr.bind hf, kept⟩

/-- A simplified formula restates the formula, whatever the context holds. -/
theorem simplify_returns (f : Formula) :
    ∃ g, Returns (simplify f) g ∧ f.Restates g := by
  obtain ⟨g, hg, restates⟩ := exists_reduceAll_returns (P := f.Restates)
    (fun reduction restates => restates.trans reduction.toRestates) f.nnf.leafCount
    (Formula.restates_nnf f)
  exact ⟨g, (nnf_returns f).bind hg, restates⟩

theorem simplify_steady (f : Formula) : Steady (simplify f) := by
  obtain ⟨g, returned, -⟩ := simplify_returns f
  exact returned.steady

theorem restates_simplify (f : Formula) : f.Restates (simplify f).result := by
  obtain ⟨g, returned, restates⟩ := simplify_returns f
  exact returned.result_eq ▸ restates

end Build

end TraceRegex
