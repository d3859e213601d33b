import TraceRegex.Context.Solver
import TraceRegex.Context.NormalForm

/-! # Computations that do not depend on their context

What a computation returns may in principle depend on the context that it starts in.  Here it never
does: sharing, remembered normal forms and remembered answers of the solver change only the context.
`Returns` says so, with the value that is returned, and has one rule for each way to combine
computations.  `result` is the value itself, for computations that have no shorter description.
-/

namespace TraceRegex

namespace Build

variable {α β : Type}

/-- In every context the computation returns the value `x`. -/
def Returns (m : Build α) (x : α) : Prop := ∀ ctx : Context, (m.run ctx).1 = x

/-- What a computation returns in the empty context. -/
def result (m : Build α) : α := (m.run Context.empty).1

/-- A computation that returns the same in every context. -/
def Steady (m : Build α) : Prop := Returns m m.result

theorem Returns.result_eq {m : Build α} {x : α} (h : Returns m x) : m.result = x := h Context.empty

theorem Returns.steady {m : Build α} {x : α} (h : Returns m x) : Steady m := by
  intro ctx
  rw [h ctx, h.result_eq]

theorem Returns.unique {m : Build α} {x y : α} (h : Returns m x) (h' : Returns m y) : x = y :=
  (h Context.empty).symm.trans (h' Context.empty)

/-! ## Combining computations -/

theorem Returns.pure (x : α) : Returns (Pure.pure x) x := fun _ => rfl

theorem Returns.bind {m : Build α} {f : α → Build β} {x : α} {y : β} (hm : Returns m x)
    (hf : Returns (f x) y) : Returns (m >>= f) y := by
  intro ctx
  show ((f (m.run ctx).1).run (m.run ctx).2).1 = y
  rw [hm ctx]
  exact hf _

theorem Returns.map {m : Build α} {x : α} (f : α → β) (hm : Returns m x) :
    Returns (f <$> m) (f x) := by
  intro ctx
  show f (m.run ctx).1 = f x
  rw [hm ctx]

theorem Returns.ite {c : Prop} [Decidable c] {m n : Build α} {x y : α} (hm : c → Returns m x)
    (hn : ¬c → Returns n y) : Returns (if c then m else n) (if c then x else y) := by
  split
  · next h => exact hm h
  · next h => exact hn h

/-- A choice whose branches go on in the same way. -/
theorem Returns.branch {c : Prop} [Decidable c] {m n : Build α} {k : α → Build β} {x : α} {y : β}
    (h : Returns (if c then m else n) x) (hk : Returns (k x) y) :
    Returns (if c then m >>= k else n >>= k) y := by
  by_cases hc : c
  · rw [if_pos hc] at h ⊢
    exact h.bind hk
  · rw [if_neg hc] at h ⊢
    exact h.bind hk

theorem Returns.mapM {f : α → Build β} {g : α → β} {xs : List α}
    (h : ∀ x ∈ xs, Returns (f x) (g x)) : Returns (xs.mapM f) (xs.map g) := by
  induction xs with
  | nil => exact Returns.pure []
  | cons x xs ih =>
    rw [List.mapM_cons, List.map_cons]
    refine (h x (by simp)).bind ((ih fun y hy => h y (by simp [hy])).bind ?_)
    exact Returns.pure _

/-- A filter that keeps what it has kept so far in reverse. -/
theorem Returns.filterAuxM {p : α → Build Bool} {q : α → Bool} {xs : List α} (kept : List α)
    (h : ∀ x ∈ xs, Returns (p x) (q x)) :
    Returns (List.filterAuxM p xs kept) ((xs.filter q).reverse ++ kept) := by
  induction xs generalizing kept with
  | nil => exact Returns.pure kept
  | cons x xs ih =>
    rw [List.filterAuxM]
    refine (h x (by simp)).bind ?_
    -- the recursion goes on with whatever the test has made of the kept part
    have rest := ih (cond (q x) (x :: kept) kept) fun y hy => h y (by simp [hy])
    cases hx : q x with
    | true => simpa [hx] using rest
    | false => simpa [hx] using rest

theorem Returns.filterM {p : α → Build Bool} {q : α → Bool} {xs : List α}
    (h : ∀ x ∈ xs, Returns (p x) (q x)) : Returns (xs.filterM p) (xs.filter q) := by
  refine (Returns.filterAuxM [] h).bind ?_
  have reversed : ((xs.filter q).reverse ++ []).reverse = xs.filter q := by simp
  rw [reversed]
  exact Returns.pure _

theorem Returns.findSomeM? {f : α → Build (Option β)} {g : α → Option β} {xs : List α}
    (h : ∀ x ∈ xs, Returns (f x) (g x)) : Returns (xs.findSomeM? f) (xs.findSome? g) := by
  induction xs with
  | nil => exact Returns.pure none
  | cons x xs ih =>
    rw [List.findSomeM?_cons, List.findSome?_cons]
    refine (h x (by simp)).bind ?_
    cases g x with
    | some y => exact Returns.pure (some y)
    | none => exact ih fun y hy => h y (by simp [hy])

theorem Returns.foldlM {f : β → α → Build β} {g : β → α → β} {xs : List α} {b : β}
    (h : ∀ b, ∀ x ∈ xs, Returns (f b x) (g b x)) : Returns (xs.foldlM f b) (xs.foldl g b) := by
  induction xs generalizing b with
  | nil => exact Returns.pure b
  | cons x xs ih =>
    rw [List.foldlM_cons, List.foldl_cons]
    exact (h b x (by simp)).bind (ih fun b y hy => h b y (by simp [hy]))

/-! ## Computations that may fail -/

section

variable {ε ε' : Type}

theorem Returns.except_bind {m : ExceptT ε Build α} {f : α → ExceptT ε Build β} {x : α}
    {y : Except ε β} (hm : Returns m.run (.ok x)) (hf : Returns (f x).run y) :
    Returns (m >>= f).run y := by
  show Returns (m.run >>= ExceptT.bindCont f) y
  exact hm.bind hf

theorem Returns.lift {m : Build α} {x : α} (hm : Returns m x) :
    Returns (ExceptT.run (ε := ε) (liftM m)) (.ok x) :=
  hm.map Except.ok

theorem Returns.adapt {m : ExceptT ε Build α} {x : α} (g : ε → ε') (hm : Returns m.run (.ok x)) :
    Returns (ExceptT.adapt g m).run (.ok x) :=
  hm.map (Except.mapError g)

theorem Returns.except_mapM {γ : Type} {f : α → ExceptT ε Build β} {g : γ → α} {x : γ → β}
    {xs : List γ} (h : ∀ y ∈ xs, Returns (f (g y)).run (.ok (x y))) :
    Returns ((xs.map g).mapM f).run (.ok (xs.map x)) := by
  induction xs with
  | nil => exact Returns.pure _
  | cons y xs ih =>
    rw [List.map_cons, List.mapM_cons]
    exact (h y List.mem_cons_self).except_bind
      ((ih fun z hz => h z (List.mem_cons_of_mem _ hz)).except_bind (Returns.pure _))

end

/-! ## The operations of a context -/

theorem cons_returns (f : Formula) : Returns (cons f) f := cons_run_fst f

theorem not_returns (f : Formula) : Returns (not f) (.not f) := cons_returns _

theorem and_returns (f g : Formula) : Returns (and f g) (.and f g) := cons_returns _

theorem or_returns (f g : Formula) : Returns (or f g) (.or f g) := cons_returns _

theorem implies_returns (f g : Formula) : Returns (implies f g) (.or (.not f) g) :=
  (not_returns f).bind (or_returns _ _)

theorem nnf_returns (f : Formula) : Returns (nnf f) f.nnf := nnf_run_fst f

theorem sat_returns (f : Formula) : Returns (sat f) f.satisfiable := sat_run_fst f

theorem prove_returns (f : Formula) : Returns (prove f) (!(Formula.not f).satisfiable) :=
  (not_returns f).bind ((sat_returns _).bind (Returns.pure _))

/-- A formula is proved when no letter makes it false. -/
theorem prove_result_iff (f : Formula) : (prove f).result = true ↔ ∀ l, f.eval l = true := by
  have unsatisfiable : (prove f).result = true ↔ ¬(Formula.not f).Satisfiable := by
    rw [(prove_returns f).result_eq, ← Formula.satisfiable_iff]
    simp
  rw [unsatisfiable]
  constructor
  · intro none l
    cases hf : f.eval l with
    | true => rfl
    | false => exact absurd ⟨l, by simp [Formula.eval, hf]⟩ none
  · rintro all ⟨l, hl⟩
    simp [Formula.eval, all l] at hl

/-! ## Disjunctions -/

/-- Skipping false members and stopping at a true one does not change what a disjunction means. -/
theorem disjunction_go_returns (acc : Formula) (fs : List Formula) :
    ∃ g, Returns (disjunction.go acc fs) g ∧
      (∀ l, g.eval l = (acc.eval l || fs.any (·.eval l))) ∧
      ∀ n, acc.varCount ≤ n → (∀ f ∈ fs, f.varCount ≤ n) → g.varCount ≤ n := by
  induction fs generalizing acc with
  | nil => exact ⟨acc, Returns.pure acc, by simp, fun n hacc _ => hacc⟩
  | cons f fs ih =>
    match f with
    | .const true =>
      exact ⟨_, Returns.pure _, by simp [Formula.eval], by simp [Formula.varCount]⟩
    | .const false =>
      obtain ⟨g, returned, meaning, bound⟩ := ih acc
      refine ⟨g, returned, fun l => ?_, fun n hacc hfs => ?_⟩
      · simp [meaning l, Formula.eval]
      · exact bound n hacc fun f hf => hfs f (by simp [hf])
    | .var _ | .not _ | .and _ _ | .or _ _ =>
      unfold disjunction.go
      -- the first member that is kept takes the place of `false`, later ones are joined to it
      by_cases hacc : acc = .const false
      · obtain ⟨g, returned, meaning, bound⟩ := ih _
        refine ⟨g, by simpa [hacc] using returned, fun l => ?_, fun n _ hfs => ?_⟩
        · simp [meaning l, hacc, Formula.eval]
        · exact bound n (hfs _ (by simp)) fun f hf => hfs f (by simp [hf])
      · obtain ⟨g, returned, meaning, bound⟩ := ih _
        refine ⟨g, by simpa [hacc] using (or_returns _ _).bind returned, fun l => ?_,
          fun n hbound hfs => ?_⟩
        · simp [meaning l, Formula.eval, Bool.or_assoc]
        · refine bound n ?_ fun f hf => hfs f (by simp [hf])
          exact Nat.max_le.mpr ⟨hbound, hfs _ (by simp)⟩

theorem disjunction_steady (fs : List Formula) : Steady (disjunction fs) := by
  obtain ⟨g, returned, -⟩ := disjunction_go_returns (.const false) fs
  exact returned.steady

/-- A disjunction holds when one of its members does. -/
theorem eval_disjunction (fs : List Formula) (l : Letter) :
    (disjunction fs).result.eval l = fs.any (·.eval l) := by
  obtain ⟨g, returned, meaning, -⟩ := disjunction_go_returns (.const false) fs
  have : (disjunction fs).result = g := returned.result_eq
  rw [this, meaning]
  simp [Formula.eval]

theorem varCount_disjunction_le {fs : List Formula} {n : Nat} (h : ∀ f ∈ fs, f.varCount ≤ n) :
    (disjunction fs).result.varCount ≤ n := by
  obtain ⟨g, returned, -, bound⟩ := disjunction_go_returns (.const false) fs
  have : (disjunction fs).result = g := returned.result_eq
  rw [this]
  exact bound n (Nat.zero_le n) h

/-- The disjunction of a single formula is that formula. -/
theorem disjunction_singleton (f : Formula) : (disjunction [f]).result = f := by
  match f with
  | .const true | .const false => rfl
  | .var _ | .not _ | .and _ _ | .or _ _ => rfl

end Build

end TraceRegex
