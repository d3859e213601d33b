import TraceRegex.Context.Basic

/-! # Normal forms in a context

The normal form of a formula, built in a context: every formula that arises on the way is added to
the context, and the normal form of each compound formula is computed once and then remembered.  It
is remembered as its own normal form as well, without being computed again.  The result is
`Formula.nnf` whatever the context holds (`nnf_run_fst`).
-/

namespace TraceRegex

namespace Build

/-- Adds a formula to the context if it is compound. -/
def settle : Formula → Build Formula
  | .const b => pure (.const b)
  | .var i => pure (.var i)
  | f => cons f

@[simp]
theorem settle_run_fst (f : Formula) (ctx : Context) : ((settle f).run ctx).1 = f := by
  cases f with
  | const b => rfl
  | var i => rfl
  | not f => exact cons_run_fst _ ctx
  | and f g => exact cons_run_fst _ ctx
  | or f g => exact cons_run_fst _ ctx

def nnfNot : Formula → Build Formula
  | .const b => pure (.const !b)
  | .var i => not (.var i)
  | .not f => pure f
  | .and f g => do settle (Formula.nnfOr (← nnfNot f) (← nnfNot g))
  | .or f g => do settle (Formula.nnfAnd (← nnfNot f) (← nnfNot g))

@[simp]
theorem nnfNot_run_fst (f : Formula) (ctx : Context) : ((nnfNot f).run ctx).1 = f.nnfNot := by
  induction f generalizing ctx with
  | const b => rfl
  | var i => exact cons_run_fst _ ctx
  | not f => rfl
  | and f g hf hg =>
    simp only [nnfNot, Formula.nnfNot, StateT.run_bind]
    rw [← hf ctx, ← hg ((nnfNot f).run ctx).2]
    exact settle_run_fst _ _
  | or f g hf hg =>
    simp only [nnfNot, Formula.nnfNot, StateT.run_bind]
    rw [← hf ctx, ← hg ((nnfNot f).run ctx).2]
    exact settle_run_fst _ _

/-- A normal form of `f` together with the context after building it. -/
abbrev NormalFormOf (f : Formula) := { r : Formula × Context // r.1 = f.nnf }

/-- The remembered normal form of `f`, or else the computed one.  That is then remembered, both as the
    normal form of `f` and as its own. -/
def remembered (f : Formula) (compute : Context → NormalFormOf f) (ctx : Context) :
    NormalFormOf f :=
  match h : ctx.normal[f]? with
  | some g => ⟨(g, ctx), ctx.normal_eq f g h⟩
  | none =>
    let ⟨(g, ctx), hg⟩ := compute ctx
    have own : g = g.nnf := by rw [show g = f.nnf from hg, Formula.nnf_nnf]
    ⟨(g, (ctx.recordNormal f g hg).recordNormal g g own), hg⟩

/-- The normal form of `f`, with the proof that it is one. -/
def nnfOf : (f : Formula) → Context → NormalFormOf f
  | .const b, ctx => ⟨(.const b, ctx), rfl⟩
  | .var i, ctx => ⟨(.var i, ctx), rfl⟩
  | .not f, ctx =>
    remembered (.not f) (fun ctx =>
      let ⟨(f', ctx), hf⟩ := nnfOf f ctx
      ⟨(nnfNot f').run ctx, by rw [nnfNot_run_fst, Formula.nnf, ← hf]⟩) ctx
  | .and f g, ctx =>
    remembered (.and f g) (fun ctx =>
      let ⟨(f', ctx), hf⟩ := nnfOf f ctx
      let ⟨(g', ctx), hg⟩ := nnfOf g ctx
      ⟨(settle (Formula.nnfAnd f' g')).run ctx, by
        rw [settle_run_fst, Formula.nnf, ← hf, ← hg]⟩) ctx
  | .or f g, ctx =>
    remembered (.or f g) (fun ctx =>
      let ⟨(f', ctx), hf⟩ := nnfOf f ctx
      let ⟨(g', ctx), hg⟩ := nnfOf g ctx
      ⟨(settle (Formula.nnfOr f' g')).run ctx, by
        rw [settle_run_fst, Formula.nnf, ← hf, ← hg]⟩) ctx

def nnf (f : Formula) : Build Formula := fun ctx => (nnfOf f ctx).val

@[simp]
theorem nnf_run_fst (f : Formula) (ctx : Context) : ((nnf f).run ctx).1 = f.nnf :=
  (nnfOf f ctx).property

end Build

end TraceRegex
