import TraceRegex.Expression.Lower
import TraceRegex.Proofs.Complement
import TraceRegex.Proofs.Language

/-! # Lowering keeps the language

The automaton of an expression is valid and accepts exactly the words that the expression stands
for, whatever the context holds in which it is built.  The proof follows the expression: each
operator has its construction, and each construction its language.
-/

namespace TraceRegex

namespace Expression

/-- The automaton accepts what the expression stands for, and is valid.  It has no more atoms than
    the expression asks for. -/
structure Recognizes (a : Automaton) (e : Expression) : Prop where
  valid : a.Valid
  atomCount_le : ∀ n, (∀ i ∈ e.atoms, i < n) → a.atomCount ≤ n
  accepts_iff : ∀ w, a.Accepts w ↔ e.Matches w

theorem Recognizes.accepts_eq {a : Automaton} {e : Expression} (h : Recognizes a e) :
    a.Accepts = e.Matches := funext fun w => propext (h.accepts_iff w)

theorem Recognizes.max_atomCount_le {a b : Automaton} {e f : Expression} (ha : Recognizes a e)
    (hb : Recognizes b f) (n : Nat) (bound : ∀ i ∈ e.atoms ++ f.atoms, i < n) :
    max a.atomCount b.atomCount ≤ n := by
  have both := List.forall_mem_append.mp bound
  exact Nat.max_le.mpr ⟨ha.atomCount_le n both.1, hb.atomCount_le n both.2⟩

theorem lower_returns (e : Expression) (small : ∀ i ∈ e.atoms, i < UInt32.size) :
    ∃ a, Build.Returns e.lower a ∧ Recognizes a e := by
  induction e with
  | condition c =>
    obtain ⟨f, returned, eval, few⟩ := c.toFormula_returns small
    refine ⟨_, returned.bind (Build.Returns.pure _), Automaton.valid_phi f, few, fun w => ?_⟩
    simp only [Automaton.accepts_phi_iff, Matches, eval]
  | empty =>
    exact ⟨_, Build.Returns.pure _, Automaton.valid_eps, fun n _ => Nat.zero_le n,
      fun w => Automaton.accepts_eps_iff⟩
  | union e f ihe ihf =>
    obtain ⟨a, left, ha⟩ := ihe fun i hi => small i (List.mem_append_left _ hi)
    obtain ⟨b, right, hb⟩ := ihf fun i hi => small i (List.mem_append_right _ hi)
    refine ⟨_, left.bind (right.bind (Build.Returns.pure _)),
      Automaton.valid_union ha.valid hb.valid, ha.max_atomCount_le hb, fun w => ?_⟩
    rw [Automaton.accepts_union_iff ha.valid hb.valid, ha.accepts_iff, hb.accepts_iff, Matches]
  | intersect e f ihe ihf =>
    obtain ⟨a, left, ha⟩ := ihe fun i hi => small i (List.mem_append_left _ hi)
    obtain ⟨b, right, hb⟩ := ihf fun i hi => small i (List.mem_append_right _ hi)
    refine ⟨_, left.bind (right.bind Automaton.intersect_returns.steady),
      Automaton.valid_intersect ha.valid hb.valid, ha.max_atomCount_le hb, fun w => ?_⟩
    rw [Automaton.accepts_intersect_iff hb.valid, ha.accepts_iff, hb.accepts_iff, Matches]
  | concat e f ihe ihf =>
    obtain ⟨a, left, ha⟩ := ihe fun i hi => small i (List.mem_append_left _ hi)
    obtain ⟨b, right, hb⟩ := ihf fun i hi => small i (List.mem_append_right _ hi)
    refine ⟨_, left.bind (right.bind (Build.Returns.pure _)),
      Automaton.valid_concat ha.valid hb.valid, ha.max_atomCount_le hb, fun w => ?_⟩
    rw [Automaton.accepts_concat_iff ha.valid hb.valid, ha.accepts_eq, hb.accepts_eq, Matches]
  | fusion e f ihe ihf =>
    obtain ⟨a, left, ha⟩ := ihe fun i hi => small i (List.mem_append_left _ hi)
    obtain ⟨b, right, hb⟩ := ihf fun i hi => small i (List.mem_append_right _ hi)
    refine ⟨_, left.bind (right.bind Automaton.fuse_returns.steady),
      Automaton.valid_fuse ha.valid hb.valid, ha.max_atomCount_le hb, fun w => ?_⟩
    rw [Automaton.accepts_fuse_iff ha.valid hb.valid, ha.accepts_eq, hb.accepts_eq, Matches]
  | star e ih =>
    obtain ⟨a, returned, ha⟩ := ih small
    refine ⟨_, returned.bind (Build.Returns.pure _), Automaton.valid_star ha.valid, ?_, fun w => ?_⟩
    · rw [Automaton.atomCount_star]
      exact ha.atomCount_le
    · rw [Automaton.accepts_star_iff ha.valid, ha.accepts_eq, Matches]
  | plus e ih =>
    obtain ⟨a, returned, ha⟩ := ih small
    refine ⟨_, returned.bind (Build.Returns.pure _), Automaton.valid_plus ha.valid,
      ha.atomCount_le, fun w => ?_⟩
    rw [Automaton.accepts_plus_iff ha.valid, ha.accepts_eq, Matches]
  | prefixes e ih =>
    obtain ⟨a, returned, ha⟩ := ih small
    refine ⟨_, returned.bind (Automaton.prefixClosure_returns a).steady,
      Automaton.valid_prefixClosure ha.valid, ?_, fun w => ?_⟩
    · rw [Automaton.atomCount_prefixClosure]
      exact ha.atomCount_le
    · rw [Automaton.accepts_prefixClosure_iff ha.valid, ha.accepts_eq, Matches]
  | complement e ih =>
    obtain ⟨a, returned, ha⟩ := ih small
    -- the complement has no closed form, since the order of the subsets is not given by one
    obtain ⟨c, complemented, trim, atoms, accepts_iff⟩ := Automaton.complement_returns ha.valid
    refine ⟨c, returned.bind complemented, trim.valid, atoms ▸ ha.atomCount_le, fun w => ?_⟩
    rw [accepts_iff, ha.accepts_iff, Matches]

/-- In every context, the automaton of an expression without prefix closures is valid, and the
    reference semantics gives an answer for every word: whether the automaton accepts it. -/
theorem accepts_eq_eval_lower (e : Expression) (noPrefixes : e.usesPrefixes = false)
    (small : ∀ i ∈ e.atoms, i < UInt32.size) (ctx : Context) (w : Word) :
    e.accepts w = .ok (decide ((e.lower.run ctx).1.eval w = .ok)) ∧
      (e.lower.run ctx).1.validate = .ok () := by
  obtain ⟨a, returned, recognizes⟩ := lower_returns e small
  rw [returned ctx]
  refine ⟨?_, Automaton.validate_iff.mpr recognizes.valid⟩
  obtain ⟨answer, answered, answer_iff⟩ := decides_accepts noPrefixes w
  have verdict : answer = true ↔ a.eval w = .ok := by
    rw [answer_iff, Automaton.eval_eq_ok_iff, recognizes.accepts_iff]
  rw [answered, Bool.eq_iff_iff.mpr (verdict.trans decide_eq_true_iff.symm)]

/-- A repetition that a complement and a fusion stand around, on a word of two letters. -/
theorem accepts_eq_eval_lower_complement :
    let e := Expression.complement
      (.fusion (.condition (.atom 0)) (.star (.condition (.not (.atom 1)))))
    let w : Word := [.ofList [0], .ofList [1]]
    e.usesPrefixes = false ∧ (∀ i ∈ e.atoms, i < UInt32.size) ∧ e.accepts w = .ok true ∧
      (e.lower.run Context.empty).1.eval w = .ok ∧
      (e.lower.run Context.empty).1.validate = .ok () := by
  intro e w
  have noPrefixes : e.usesPrefixes = false := rfl
  have small : ∀ i ∈ e.atoms, i < UInt32.size := by decide
  have answered : e.accepts w = .ok true := rfl
  obtain ⟨same, valid⟩ := accepts_eq_eval_lower e noPrefixes small Context.empty w
  refine ⟨noPrefixes, small, answered, ?_, valid⟩
  rw [answered] at same
  exact of_decide_eq_true (Except.ok.inj same).symm

end Expression

end TraceRegex
