import TraceRegex.Context.Basic

/-! # Decision procedures in a context

Satisfiability, validity and equivalence of formulas.  Constants and literals are decided at sight;
any other formula goes to the solver once, and its answer is remembered.  The answers are those of
`Formula.satisfiable` whatever the context holds (`sat_run_fst`).
-/

namespace TraceRegex

namespace Formula

/-- The answer for constants and literals, which need no solver. -/
def plainly? : Formula → Option Bool
  | .const b => some b
  | .var _ => some true
  | .not (.var _) => some true
  | _ => none

theorem satisfiable_of_plainly? {f : Formula} {b : Bool} (h : f.plainly? = some b) :
    f.satisfiable = b := by
  rw [Bool.eq_iff_iff, satisfiable_iff]
  match f, h with
  | .const c, h => cases h; exact ⟨fun ⟨_, hl⟩ => hl, fun hc => ⟨∅, hc⟩⟩
  | .var i, h =>
    cases h
    exact ⟨fun _ => rfl, fun _ => ⟨Letter.empty.put i.toNat true, by simp [eval, Letter.holds_put]⟩⟩
  | .not (.var i), h =>
    cases h
    exact ⟨fun _ => rfl, fun _ => ⟨∅, by simp [eval, EmptyCollection.emptyCollection]⟩⟩

end Formula

namespace Build

def sat (f : Formula) : Build Bool := fun ctx =>
  match f.plainly? with
  | some b => (b, ctx)
  | none =>
    match ctx.solved[f]? with
    | some b => (b, ctx)
    | none =>
      let b := f.satisfiable
      (b, ctx.countCall.recordSolved f b rfl)

/-- The answer of `sat` is that of the solver. -/
@[simp]
theorem sat_run_fst (f : Formula) (ctx : Context) : ((sat f).run ctx).1 = f.satisfiable := by
  simp only [sat, StateT.run]
  split
  · next b h => exact (Formula.satisfiable_of_plainly? h).symm
  · split
    · next b h => exact ctx.solved_eq f b h
    · rfl

def prove (f : Formula) : Build Bool := do return !(← sat (← not f))

def equivalent (f g : Formula) : Build Bool := do
  if ← prove (← implies f g) then prove (← implies g f) else return false

/-- A letter that satisfies the formula, if there is one.  It comes from the solver every time. -/
def witness (f : Formula) : Build (Option { l : Letter // f.eval l = true }) := fun ctx =>
  (f.model?, ctx.countCall)

end Build

end TraceRegex
