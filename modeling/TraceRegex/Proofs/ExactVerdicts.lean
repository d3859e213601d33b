import TraceRegex.Proofs.Algebra
import TraceRegex.Proofs.Cleaning

/-! # Verdicts of intersections and prefix closures

What an operation accepts says little about its other two verdicts: a run that leads nowhere is
pending in one automaton and has failed in another one for the same language.  Here all three are
known.  The live states of an intersection are the pairs of live states of its operands, so each of
its verdicts follows from theirs.  A prefix closure has only final states or none, so it never
leaves a verdict pending.
-/

namespace TraceRegex

namespace Automaton

variable {a b : Automaton}

/-! ## Intersection -/

/-- There are no pairs when there is nothing on one of the two sides. -/
theorem forall_not_pair_iff {P Q : Nat → Prop} (pair : Nat → Nat → Nat) :
    (∀ t, ¬∃ p q, P p ∧ Q q ∧ pair p q = t) ↔ (∀ p, ¬P p) ∨ ∀ q, ¬Q q := by
  constructor
  · intro none
    by_cases left : ∃ p, P p
    · obtain ⟨p, hp⟩ := left
      exact .inr fun q hq => none _ ⟨p, q, hp, hq, rfl⟩
    · exact .inl (not_exists.mp left)
  · rintro (none | none) t ⟨p, q, hp, hq, -⟩
    · exact none p hp
    · exact none q hq

/-- The live states of the product are the pairs of live states. -/
theorem mem_after_intersect (hb : b.Valid) {w : Word} {t : Nat} :
    t ∈ (a.intersect b).result.after [(a.intersect b).result.initial] w ↔
      ∃ p q, p ∈ a.after [a.initial] w ∧ q ∈ b.after [b.initial] w ∧
        p * b.stateCount + q = t := by
  have initial : (a.intersect b).result.initial = a.initial * b.stateCount + b.initial := by
    rw [intersect_returns.result_eq]
  simp only [mem_after, List.mem_singleton, exists_eq_left, initial,
    path_intersect hb hb.initial_lt]

/-- An automaton fails on a word when it has no final states or no live ones. -/
theorem eval_eq_failed_iff_after {w : Word} :
    a.eval w = .failed ↔ (∀ q, ¬q ∈ a.finals) ∨ ∀ t, ¬t ∈ a.after [a.initial] w := by
  simp only [eval_eq_failed_iff, mem_after, List.mem_singleton, exists_eq_left]

theorem eval_intersect_eq_failed_iff (hb : b.Valid) {w : Word} :
    (a.intersect b).result.eval w = .failed ↔ a.eval w = .failed ∨ b.eval w = .failed := by
  have finals : (∀ t, ¬t ∈ (a.intersect b).result.finals) ↔
      (∀ p, ¬p ∈ a.finals) ∨ ∀ q, ¬q ∈ b.finals := by
    rw [← forall_not_pair_iff fun p q => p * b.stateCount + q]
    simp only [mem_finals_intersect, exists_and_left]
  have live : (∀ t, ¬t ∈ (a.intersect b).result.after [(a.intersect b).result.initial] w) ↔
      (∀ p, ¬p ∈ a.after [a.initial] w) ∨ ∀ q, ¬q ∈ b.after [b.initial] w := by
    simp only [mem_after_intersect hb, forall_not_pair_iff]
  simp only [eval_eq_failed_iff_after, finals, live]
  -- the same four reasons on both sides, in another order
  exact or_or_or_comm

/-- An intersection has matched when both automata have, it has failed when one of them has, and it
    is pending otherwise. -/
theorem intersect_exact (a b : Automaton) (ha : a.validate = .ok ()) (hb : b.validate = .ok ())
    (ctx : Context) :
    let c := ((a.intersect b).run ctx).1
    (∀ w, (c.eval w = .ok ↔ a.eval w = .ok ∧ b.eval w = .ok) ∧
      (c.eval w = .failed ↔ a.eval w = .failed ∨ b.eval w = .failed) ∧
      (c.eval w = .pending ↔
        ¬(a.eval w = .ok ∧ b.eval w = .ok) ∧ ¬(a.eval w = .failed ∨ b.eval w = .failed))) ∧
      c.validate = .ok () := by
  replace ha := validate_iff.mp ha
  replace hb := validate_iff.mp hb
  intro c
  have c_eq : c = (a.intersect b).result := intersect_returns.steady ctx
  refine ⟨fun w => ?_, c_eq ▸ validate_iff.mpr (valid_intersect ha hb)⟩
  have ok : c.eval w = .ok ↔ a.eval w = .ok ∧ b.eval w = .ok := by
    rw [c_eq]
    simp only [eval_eq_ok_iff, accepts_intersect_iff hb]
  have failed : c.eval w = .failed ↔ a.eval w = .failed ∨ b.eval w = .failed := by
    rw [c_eq]
    exact eval_intersect_eq_failed_iff hb
  refine ⟨ok, failed, ?_⟩
  rw [← ok, ← failed]
  cases c.eval w <;> simp

/-- Rules lead back to both initial states, and of the second automaton the only final state is its
    initial one.  A word that only the second one matches is pending, and one that only the first
    one matches has failed, as the second one has. -/
theorem intersect_exact_of_loops :
    let a : Automaton := ⟨2, 2, 0, .singleton 1, [[⟨.var 0, 0⟩, ⟨.var 1, 1⟩], []]⟩
    let b : Automaton := ⟨1, 1, 0, .singleton 0, [[⟨.var 0, 0⟩]]⟩
    let p : Letter := .ofList [0]
    let q : Letter := .ofList [1]
    let c := ((a.intersect b).run .empty).1
    a.validate = .ok () ∧ b.validate = .ok () ∧ c.eval [p, .ofList [0, 1]] = .ok ∧
      c.eval [p] = .pending ∧ a.eval [q] = .ok ∧ c.eval [q] = .failed ∧ c.validate = .ok () := by
  intro a b p q c
  have ha : a.validate = .ok () := rfl
  have hb : b.validate = .ok () := rfl
  obtain ⟨verdicts, passes⟩ := intersect_exact a b ha hb .empty
  exact ⟨ha, hb, (verdicts _).1.mpr ⟨rfl, rfl⟩, (verdicts _).2.2.mpr (by decide), rfl,
    (verdicts _).2.1.mpr (.inr rfl), passes⟩

/-! ## Prefix closure -/

/-- Without states that are not final, a word that leads somewhere is a match. -/
theorem eval_ne_pending_of_forall_final (valid : a.Valid)
    (all : ∀ q < a.stateCount, q ∈ a.finals) (w : Word) : a.eval w ≠ .pending := by
  intro pending
  have running : ¬a.eval w = .failed := by
    rw [pending]
    exact Verdict.noConfusion
  rw [eval_eq_failed_iff, not_or] at running
  obtain ⟨t, path⟩ := Classical.not_forall_not.mp running.2
  have matched : a.eval w = .ok :=
    eval_eq_ok_iff.mpr ⟨t, all t (valid.path_lt path valid.initial_lt), path⟩
  exact Verdict.noConfusion (pending.symm.trans matched)

/-- Either no state of a prefix closure is final, or every one is. -/
theorem finals_prefixClosure (a : Automaton) :
    (∀ q, ¬q ∈ a.prefixClosure.result.finals) ∨
      ∀ q < a.prefixClosure.result.stateCount, q ∈ a.prefixClosure.result.finals := by
  rw [(prefixClosure_returns a).result_eq]
  split
  · next none => exact .inl (SortedSet.isEmpty_iff.mp none)
  · exact .inr fun q hq => SortedSet.mem_range.mpr hq

theorem eval_prefixClosure_ne_pending (h : a.Valid) (w : Word) :
    a.prefixClosure.result.eval w ≠ .pending := by
  rcases finals_prefixClosure a with none | all
  · rw [eval_eq_failed_iff.mpr (.inl none)]
    exact Verdict.noConfusion
  · exact eval_ne_pending_of_forall_final (valid_prefixClosure h) all w

/-- What has a final state was made from an automaton that accepts something: the initial state is
    final as well, so the empty word is the beginning of an accepted one. -/
theorem exists_accepts_of_mem_finals_prefixClosure (h : a.Valid) {q : Nat}
    (hq : q ∈ a.prefixClosure.result.finals) : ∃ w, a.Accepts w := by
  rcases finals_prefixClosure a with none | all
  · exact absurd hq (none q)
  · have empty : a.prefixClosure.result.Accepts [] :=
      ⟨_, all _ (valid_prefixClosure h).initial_lt, .nil⟩
    exact (accepts_prefixClosure_iff h).mp empty

/-- A prefix closure matches a word as long as this can be extended to a match of the automaton, and
    fails on all others; it is never pending.  If the automaton matches nothing, the closure has no
    final states. -/
theorem prefixClosure_exact (a : Automaton) (valid : a.validate = .ok ()) (ctx : Context) :
    let c := (a.prefixClosure.run ctx).1
    (∀ w, (c.eval w = .ok ↔ ∃ u, a.eval (w ++ u) = .ok) ∧
      (c.eval w = .failed ↔ ¬∃ u, a.eval (w ++ u) = .ok) ∧ c.eval w ≠ .pending) ∧
      ((∀ w, a.eval w ≠ .ok) → ∀ q, ¬q ∈ c.finals) ∧ c.validate = .ok () := by
  have h := validate_iff.mp valid
  intro c
  have c_eq : c = a.prefixClosure.result := (prefixClosure_returns a).steady ctx
  rw [c_eq]
  refine ⟨fun w => ?_, fun nothing q hq => ?_, validate_iff.mpr (valid_prefixClosure h)⟩
  · have ok : a.prefixClosure.result.eval w = .ok ↔ ∃ u, a.eval (w ++ u) = .ok := by
      simp only [eval_eq_ok_iff, accepts_prefixClosure_iff h]
    have closed := eval_prefixClosure_ne_pending h w
    refine ⟨ok, ?_, closed⟩
    rw [← ok]
    cases verdict : a.prefixClosure.result.eval w with
    | ok => simp
    | failed => simp
    | pending => exact absurd verdict closed
  · obtain ⟨w, accepted⟩ := exists_accepts_of_mem_finals_prefixClosure h hq
    exact nothing w (eval_eq_ok_iff.mpr accepted)

/-- Of the rules of the first automaton, one leads to a state without a way out and one is never
    enabled, so after a letter without the first atom no match is possible.  The second automaton
    has a final state that cannot be reached. -/
theorem prefixClosure_exact_of_dead_ends :
    let a : Automaton := ⟨2, 4, 0, .singleton 2,
      [[⟨.var 0, 1⟩, ⟨.const true, 3⟩, ⟨.and (.var 1) (.not (.var 1)), 2⟩], [⟨.var 1, 2⟩], [], []]⟩
    let b : Automaton := ⟨0, 2, 0, .singleton 1, [[⟨.const false, 1⟩], [⟨.const true, 1⟩]]⟩
    let c := (a.prefixClosure.run .empty).1
    let d := (b.prefixClosure.run .empty).1
    a.validate = .ok () ∧ b.validate = .ok () ∧ a.eval [] = .pending ∧ c.eval [] = .ok ∧
      c.eval [.ofList [0]] = .ok ∧ a.eval [∅] = .pending ∧ c.eval [∅] = .failed ∧
      c.validate = .ok () ∧ (∀ q, ¬q ∈ d.finals) ∧ d.eval [] = .failed := by
  intro a b c d
  have ha : a.validate = .ok () := rfl
  have hb : b.validate = .ok () := rfl
  obtain ⟨verdicts, -, passes⟩ := prefixClosure_exact a ha .empty
  obtain ⟨verdicts', finals, -⟩ := prefixClosure_exact b hb .empty
  have hopeless : ¬∃ u, a.eval ([∅] ++ u) = .ok := by
    rintro ⟨u, matched⟩
    cases u with
    | nil => cases matched
    | cons l u => cases u <;> cases matched
  have nothing : ∀ w, b.eval w ≠ .ok := by
    intro w
    cases w with
    | nil => exact Verdict.noConfusion
    | cons l w => cases w <;> exact Verdict.noConfusion
  exact ⟨ha, hb, rfl, (verdicts _).1.mpr ⟨[.ofList [0], .ofList [1]], rfl⟩,
    (verdicts _).1.mpr ⟨[.ofList [1]], rfl⟩, rfl, (verdicts _).2.1.mpr hopeless, passes,
    finals nothing, (verdicts' _).2.1.mpr fun ⟨u, matched⟩ => nothing u matched⟩

end Automaton

end TraceRegex
