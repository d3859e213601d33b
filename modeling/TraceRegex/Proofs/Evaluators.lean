import TraceRegex.Proofs.Language
import TraceRegex.Proofs.PrefixCode

/-! # Evaluators

A guard is evaluated in four ways: as the condition that was written, as the tree that is built for
it, along the handles of a context, and as code.  They all agree.

The tree and the condition have the same shape.  Evaluation along handles (`Context.Evaluates`)
looks at the right operand only where the left one does not decide, so its rules do not follow the
tree; and running code reads both operands, to find out where the right one starts.
-/

namespace TraceRegex

namespace Context

/-! ## Evaluation along handles -/

/-- Following a handle to its operands gives the truth value. -/
inductive Evaluates (ctx : Context) (l : Letter) : Handle → Bool → Prop where
  | const (b : Bool) : Evaluates ctx l ⟨.const, if b then 1 else 0⟩ b
  | var (i : UInt32) : Evaluates ctx l ⟨.var, i⟩ (l.holds i.toNat)
  | not {h k : Handle} {b : Bool} (kind : h.kind = .not) (stored : ctx.operandHandles h = [k])
      (arg : Evaluates ctx l k b) : Evaluates ctx l h (!b)
  -- a connective whose left operand decides
  | andLeft {h k m : Handle} (kind : h.kind = .and) (stored : ctx.operandHandles h = [k, m])
      (left : Evaluates ctx l k false) : Evaluates ctx l h false
  | orLeft {h k m : Handle} (kind : h.kind = .or) (stored : ctx.operandHandles h = [k, m])
      (left : Evaluates ctx l k true) : Evaluates ctx l h true
  -- a connective whose right operand decides
  | andRight {h k m : Handle} {b : Bool} (kind : h.kind = .and)
      (stored : ctx.operandHandles h = [k, m]) (left : Evaluates ctx l k true)
      (right : Evaluates ctx l m b) : Evaluates ctx l h b
  | orRight {h k m : Handle} {b : Bool} (kind : h.kind = .or)
      (stored : ctx.operandHandles h = [k, m]) (left : Evaluates ctx l k false)
      (right : Evaluates ctx l m b) : Evaluates ctx l h b

variable {ctx : Context} {l : Letter} {h : Handle} {f : Formula} {b : Bool}

/-- A handle that stands for a tree evaluates to the truth value of the tree. -/
theorem Denotes.evaluates (d : ctx.Denotes h f) (l : Letter) : ctx.Evaluates l h (f.eval l) := by
  induction f generalizing h with
  | const b =>
    cases d
    exact .const b
  | var i =>
    cases d
    exact .var i
  | not f ih =>
    obtain ⟨kind, k, stored, arg⟩ := d
    exact .not kind stored (ih arg)
  | and f g ihf ihg =>
    obtain ⟨kind, k, m, stored, left, right⟩ := d
    have first := ihf left
    rw [Formula.eval]
    cases decided : f.eval l with
    | true => exact .andRight kind stored (decided ▸ first) (ihg right)
    | false => exact .andLeft kind stored (decided ▸ first)
  | or f g ihf ihg =>
    obtain ⟨kind, k, m, stored, left, right⟩ := d
    have first := ihf left
    rw [Formula.eval]
    cases decided : f.eval l with
    | true => exact .orLeft kind stored (decided ▸ first)
    | false => exact .orRight kind stored (decided ▸ first) (ihg right)

/-! The connective of a tree is that of its handle. -/

theorem Denotes.exists_not {k : Handle} (d : ctx.Denotes h f) (kind : h.kind = .not)
    (stored : ctx.operandHandles h = [k]) : ∃ g, f = .not g ∧ ctx.Denotes k g := by
  have same := kind.symm.trans d.kind_eq
  cases f with
  | not f =>
    obtain ⟨-, k, stored', inner⟩ := d
    cases stored.symm.trans stored'
    exact ⟨f, rfl, inner⟩
  | const | var | and | or => cases same

theorem Denotes.exists_and {k m : Handle} (d : ctx.Denotes h f) (kind : h.kind = .and)
    (stored : ctx.operandHandles h = [k, m]) :
    ∃ g g', f = .and g g' ∧ ctx.Denotes k g ∧ ctx.Denotes m g' := by
  have same := kind.symm.trans d.kind_eq
  cases f with
  | and f g =>
    obtain ⟨-, k, m, stored', first, second⟩ := d
    cases stored.symm.trans stored'
    exact ⟨f, g, rfl, first, second⟩
  | const | var | not | or => cases same

theorem Denotes.exists_or {k m : Handle} (d : ctx.Denotes h f) (kind : h.kind = .or)
    (stored : ctx.operandHandles h = [k, m]) :
    ∃ g g', f = .or g g' ∧ ctx.Denotes k g ∧ ctx.Denotes m g' := by
  have same := kind.symm.trans d.kind_eq
  cases f with
  | or f g =>
    obtain ⟨-, k, m, stored', first, second⟩ := d
    cases stored.symm.trans stored'
    exact ⟨f, g, rfl, first, second⟩
  | const | var | not | and => cases same

/-- It evaluates to nothing else, whichever operands are looked at. -/
theorem Evaluates.eq_eval (e : ctx.Evaluates l h b) (d : ctx.Denotes h f) : b = f.eval l := by
  induction e generalizing f with
  | const b =>
    rw [← Denotes.unique (f := .const b) rfl d, Formula.eval]
  | var i =>
    rw [← Denotes.unique (f := .var i) rfl d, Formula.eval]
  | not kind stored arg ih =>
    obtain ⟨g, rfl, inner⟩ := d.exists_not kind stored
    rw [Formula.eval, ih inner]
  | andLeft kind stored left ih =>
    obtain ⟨g, g', rfl, first, -⟩ := d.exists_and kind stored
    rw [Formula.eval, ← ih first, Bool.false_and]
  | orLeft kind stored left ih =>
    obtain ⟨g, g', rfl, first, -⟩ := d.exists_or kind stored
    rw [Formula.eval, ← ih first, Bool.true_or]
  | andRight kind stored left right ihl ihr =>
    obtain ⟨g, g', rfl, first, second⟩ := d.exists_and kind stored
    rw [Formula.eval, ← ihl first, Bool.true_and]
    exact ihr second
  | orRight kind stored left right ihl ihr =>
    obtain ⟨g, g', rfl, first, second⟩ := d.exists_or kind stored
    rw [Formula.eval, ← ihl first, Bool.false_or]
    exact ihr second

theorem Denotes.evaluates_iff (d : ctx.Denotes h f) : ctx.Evaluates l h b ↔ b = f.eval l :=
  ⟨fun e => e.eq_eval d, fun same => same ▸ d.evaluates l⟩

/-- Along its handle the formula evaluates to the truth value and to nothing else, provided that the
    places of formulas have numbers of 32 bits. -/
def EvaluatesTo (ctx : Context) (l : Letter) (f : Formula) (b : Bool) : Prop :=
  (∀ k, (ctx.ofKind k).length < UInt32.size) → ∀ b', ctx.Evaluates l (ctx.handle f) b' ↔ b' = b

theorem Holds.evaluatesTo (held : ctx.Holds f) (l : Letter) : ctx.EvaluatesTo l f (f.eval l) :=
  fun room _ => (denotes_handle room held).evaluates_iff

end Context

/-! ## Building the formula of a condition -/

theorem Formula.exists_encode_of_mentions {f : Formula}
    (small : ∀ i, f.mentions i = true → i.toNat ≤ maxWord16) : ∃ code, f.encode = .ok code := by
  rcases encode_cases f with ⟨encoded, -⟩ | ⟨i, mentioned, large, -⟩
  · exact encoded
  · exact absurd (small i mentioned) (Nat.not_le.mpr large)

/-! ## The evaluators -/

/-- The evaluators of guards agree, whatever the context was used for before.

    A condition whose atoms have numbers of two bytes holds for a letter exactly if the formula that
    is built for it is true, and running the code of the formula says the same.  Bytes that pass the
    check, for whatever number of atoms, can be run without a fault, and give the truth value of the
    formula that is read from them.  In both cases following the handle of the formula in its
    context comes to this truth value too; operations on contexts lead to grounded ones only. -/
theorem evaluators_agree (l : Letter) (ctx : Context) :
    (∀ c : Condition, (∀ i ∈ c.atoms, i ≤ maxWord16) → ∃ f later code,
      c.toFormula.run ctx = (f, later) ∧ f.encode = .ok code ∧ f.eval l = c.holds l ∧
        Bytecode.eval l code = .ok (c.holds l) ∧
        (ctx.Grounded → later.EvaluatesTo l f (c.holds l))) ∧
    ∀ n code, Bytecode.check n code = .ok () → ∃ f later b,
      (Bytecode.decompile code).run.run ctx = (.ok f, later) ∧ f.eval l = b ∧
        Bytecode.eval l code = .ok b ∧ (ctx.Grounded → later.EvaluatesTo l f b) := by
  refine ⟨fun c small => ?_, fun n code passed => ?_⟩
  · have narrow : ∀ i ∈ c.atoms, i < UInt32.size := fun i hi =>
      Nat.lt_of_le_of_lt (small i hi) (by decide)
    obtain ⟨f, returned, same, few⟩ := c.toFormula_returns narrow
    have bound : f.varCount ≤ maxWord16 + 1 := few _ fun i hi => Nat.lt_succ_of_le (small i hi)
    obtain ⟨code, encoded⟩ := Formula.exists_encode_of_mentions fun i mentioned =>
      Nat.le_of_lt_succ (Formula.varCount_le_iff.mp bound i mentioned)
    refine ⟨f, _, code, Prod.ext (returned ctx) rfl, encoded, same l, ?_, fun grounded => ?_⟩
    · rw [Bytecode.eval_of_encode encoded, same l]
    · obtain ⟨-, -, held⟩ := Build.builds_toFormula c ctx (.refl ctx) grounded
      rw [returned ctx] at held
      rw [← same l]
      exact held.evaluatesTo l
  · obtain ⟨f, encoded, -⟩ := Bytecode.exists_encode_of_check passed
    have read := Bytecode.decompile_of_encode encoded ctx
    refine ⟨f, _, _, Prod.ext read rfl, rfl, Bytecode.eval_of_encode encoded l, fun grounded => ?_⟩
    obtain ⟨-, -, held⟩ := Build.attempts_decompile code ctx (.refl ctx) grounded
    exact (held f read).evaluatesTo l

/-- A conjunction whose left operand decides, and whose right operand has the largest atom of two
    bytes. -/
theorem evaluators_agree_of_conjunction :
    let c : Condition := .and (.atom 0) (.atom 65535)
    let code : Bytecode := [4, 2, 0, 0, 2, 255, 255]
    let l : Letter := .ofList [65535]
    (∀ i ∈ c.atoms, i ≤ maxWord16) ∧ Bytecode.check 65536 code = .ok () ∧ c.holds l = false ∧
      Bytecode.eval l code = .ok false ∧ ∃ f later, c.toFormula.run .empty = (f, later) ∧
        f.encode = .ok code ∧ f.eval l = false ∧ later.Evaluates l (later.handle f) false ∧
        ∃ later', code.decompile.run.run .empty = (.ok f, later') ∧
          later'.Evaluates l (later'.handle f) false := by
  intro c code l
  have small : ∀ i ∈ c.atoms, i ≤ maxWord16 := by decide
  have passed : Bytecode.check 65536 code = .ok () := rfl
  -- only the conjunction is stored
  have room {later : Context}
      (stored : ((Build.cons (.and (.var 0) (.var 65535))).run .empty).2 = later)
      (k : Formula.Kind) : (later.ofKind k).length < UInt32.size := by
    have few : later.nodes.size ≤ 1 := stored ▸ Session.size_cons_le _ _
    exact Nat.lt_of_le_of_lt (Nat.le_trans (List.length_filter_le _ _) few) (by decide)
  obtain ⟨conditions, codes⟩ := evaluators_agree l .empty
  obtain ⟨f, later, code', built, encoded, value, run, follows⟩ := conditions c small
  obtain ⟨g, later', b, read, value', run', follows'⟩ := codes 65536 code passed
  obtain rfl : f = .and (.var 0) (.var 65535) :=
    (congrArg Prod.fst built).symm.trans (Build.cons_run_fst _ _)
  obtain rfl : code = code' := Except.ok.inj encoded
  have same := (Bytecode.decompile_of_encode encoded .empty).symm.trans (congrArg Prod.fst read)
  obtain rfl : Formula.and (.var 0) (.var 65535) = g := Except.ok.inj same
  have decided : c.holds l = false := rfl
  exact ⟨small, passed, decided, run, _, later, built, encoded, value,
    (follows Context.grounded_empty (room (congrArg Prod.snd built)) false).mpr decided.symm,
    later', read,
    (follows' Context.grounded_empty (room (congrArg Prod.snd read)) false).mpr value'⟩

end TraceRegex
