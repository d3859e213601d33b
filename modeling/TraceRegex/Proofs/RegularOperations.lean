import TraceRegex.Proofs.Algebra
import TraceRegex.Proofs.Language

/-! # Regular operations

What unions, concatenations, fusions and repetitions match, said by the verdicts of the automata that
they are made of.  These only have to be well formed: an initial state may be final, rules may lead
back to it, and the automata need not have the same number of atoms.
-/

namespace TraceRegex

/-! ## Words in a row -/

/-- A power is made of a list of words. -/
theorem power_iff_flatten {holds : Word → Prop} {n : Nat} {w : Word} :
    Power holds n w ↔
      ∃ parts : List Word, parts.length = n ∧ (∀ u ∈ parts, holds u) ∧ w = parts.flatten := by
  constructor
  · intro power
    induction power with
    | zero => exact ⟨[], rfl, List.forall_mem_nil _, rfl⟩
    | @succ n u v head tail ih =>
      obtain ⟨parts, length, hold, rfl⟩ := ih
      exact ⟨u :: parts, congrArg (· + 1) length, List.forall_mem_cons.mpr ⟨head, hold⟩, rfl⟩
  · rintro ⟨parts, rfl, hold, rfl⟩
    induction parts with
    | nil => exact .zero
    | cons u parts ih =>
      obtain ⟨head, tail⟩ := List.forall_mem_cons.mp hold
      exact .succ head (ih tail)

theorem exists_power_succ_iff_flatten {holds : Word → Prop} {w : Word} :
    (∃ n, Power holds (n + 1) w) ↔
      ∃ parts : List Word, parts ≠ [] ∧ (∀ u ∈ parts, holds u) ∧ w = parts.flatten := by
  simp only [power_iff_flatten]
  constructor
  · rintro ⟨n, parts, length, made⟩
    exact ⟨parts, List.ne_nil_of_length_eq_add_one length, made⟩
  · rintro ⟨parts, some, made⟩
    cases parts with
    | nil => exact absurd rfl some
    | cons u parts => exact ⟨parts.length, u :: parts, rfl, made⟩

namespace Automaton

theorem accepts_eq (a : Automaton) : a.Accepts = fun w => a.eval w = .ok :=
  funext fun _ => propext eval_eq_ok_iff.symm

/-! ## Repetition -/

/-- `plus` matches one or more matching words in a row and `star` matches the empty word too, also
    when the initial state of the automaton is final or rules lead back to it. -/
theorem repetitions_exact (a : Automaton) (valid : a.validate = .ok ()) :
    (∀ w, a.plus.eval w = .ok ↔
      ∃ parts : List Word, parts ≠ [] ∧ (∀ u ∈ parts, a.eval u = .ok) ∧ w = parts.flatten) ∧
    (∀ w, a.star.eval w = .ok ↔ w = [] ∨
      ∃ parts : List Word, parts ≠ [] ∧ (∀ u ∈ parts, a.eval u = .ok) ∧ w = parts.flatten) ∧
    a.plus.validate = .ok () ∧ a.star.validate = .ok () := by
  have ha := validate_iff.mp valid
  refine ⟨fun w => ?_, fun w => ?_, validate_iff.mpr (valid_plus ha),
    validate_iff.mpr (valid_star ha)⟩
  · rw [eval_eq_ok_iff, accepts_plus_iff ha, exists_power_succ_iff_flatten, accepts_eq]
  · rw [eval_eq_ok_iff, accepts_star_iff ha, exists_power_iff, exists_power_succ_iff_flatten, accepts_eq]

/-- A rule leads back to the initial state, which is not final.  A word that ends there is not a
    repetition, so `star` must not match it although its own initial state is final. -/
theorem repetitions_exact_of_loop :
    let a : Automaton := ⟨2, 2, 0, .singleton 1, [[⟨.var 0, 0⟩, ⟨.var 1, 1⟩], []]⟩
    let p : Letter := .ofList [0]
    let q : Letter := .ofList [1]
    a.validate = .ok () ∧ a.plus.eval [q, p, q] = .ok ∧ a.plus.eval [] ≠ .ok ∧
      a.star.eval [] = .ok ∧ a.star.eval [q, p, q] = .ok ∧
      (¬∃ parts : List Word, parts ≠ [] ∧ (∀ u ∈ parts, a.eval u = .ok) ∧ [p] = parts.flatten) ∧
      a.plus.validate = .ok () ∧ a.star.validate = .ok () := by
  intro a p q
  have valid : a.validate = .ok () := rfl
  obtain ⟨plus_iff, star_iff, plus_valid, star_valid⟩ := repetitions_exact a valid
  have repeated : ∃ parts : List Word,
      parts ≠ [] ∧ (∀ u ∈ parts, a.eval u = .ok) ∧ [q, p, q] = parts.flatten :=
    ⟨[[q], [p, q]], by decide, by decide, rfl⟩
  have unfinished : a.star.eval [p] ≠ .ok := by decide +kernel
  exact ⟨valid, (plus_iff _).mpr repeated, by decide, (star_iff _).mpr (Or.inl rfl),
    (star_iff _).mpr (Or.inr repeated),
    fun parted => unfinished ((star_iff _).mpr (Or.inr parted)), plus_valid, star_valid⟩

/-! ## Union, concatenation and fusion -/

/-- A union matches what either automaton matches, a concatenation what falls into a match of the
    first and a match of the second, and a fusion what falls into two matches that share a letter, so
    that it never matches the empty word. -/
theorem combinations_exact (a b : Automaton) (ha : a.validate = .ok ()) (hb : b.validate = .ok ())
    (ctx : Context) :
    let f := ((a.fuse b).run ctx).1
    (∀ w, (a.union b).eval w = .ok ↔ a.eval w = .ok ∨ b.eval w = .ok) ∧
      (∀ w, (a.concat b).eval w = .ok ↔
        ∃ u v, w = u ++ v ∧ a.eval u = .ok ∧ b.eval v = .ok) ∧
      (∀ w, f.eval w = .ok ↔
        ∃ u l v, w = u ++ l :: v ∧ a.eval (u ++ [l]) = .ok ∧ b.eval (l :: v) = .ok) ∧
      f.eval [] ≠ .ok ∧
      (a.union b).validate = .ok () ∧ (a.concat b).validate = .ok () ∧ f.validate = .ok () := by
  replace ha := validate_iff.mp ha
  replace hb := validate_iff.mp hb
  intro f
  have f_eq : f = (a.fuse b).result := fuse_returns.steady ctx
  have fused : ∀ w, f.eval w = .ok ↔
      ∃ u l v, w = u ++ l :: v ∧ a.eval (u ++ [l]) = .ok ∧ b.eval (l :: v) = .ok := by
    intro w
    simp only [f_eq, eval_eq_ok_iff, accepts_fuse_iff ha hb]
  refine ⟨fun w => ?_, fun w => ?_, fused, fun matched => ?_, validate_iff.mpr (valid_union ha hb),
    validate_iff.mpr (valid_concat ha hb), f_eq ▸ validate_iff.mpr (valid_fuse ha hb)⟩
  · simp only [eval_eq_ok_iff, accepts_union_iff ha hb]
  · simp only [eval_eq_ok_iff, accepts_concat_iff ha hb]
  · -- a fusion has at least the letter that its parts share
    obtain ⟨u, l, v, split, -⟩ := (fused []).mp matched
    cases u <;> cases split

/-- The initial state of the second automaton is its only final state, rules lead back to both
    initial states, and the automata have different numbers of atoms. -/
theorem combinations_exact_of_loops :
    let a : Automaton := ⟨2, 2, 0, .singleton 1, [[⟨.var 0, 0⟩, ⟨.var 1, 1⟩], []]⟩
    let b : Automaton := ⟨1, 1, 0, .singleton 0, [[⟨.var 0, 0⟩]]⟩
    let p : Letter := .ofList [0]
    let q : Letter := .ofList [1]
    let f := ((a.fuse b).run .empty).1
    a.validate = .ok () ∧ b.validate = .ok () ∧ (a.union b).eval [] = .ok ∧
      (a.union b).eval [p, q] = .ok ∧ (a.concat b).eval [p, q, p] = .ok ∧
      (a.concat b).eval [q] = .ok ∧ f.eval [p, .ofList [0, 1], p] = .ok ∧ f.eval [q] ≠ .ok ∧
      (a.union b).validate = .ok () ∧ (a.concat b).validate = .ok () ∧ f.validate = .ok () := by
  intro a b p q f
  have ha : a.validate = .ok () := rfl
  have hb : b.validate = .ok () := rfl
  obtain ⟨union_iff, concat_iff, fuse_iff, -, passes⟩ := combinations_exact a b ha hb .empty
  refine ⟨ha, hb, (union_iff _).mpr (Or.inr rfl), (union_iff _).mpr (Or.inl rfl),
    (concat_iff _).mpr ⟨[p, q], [p], rfl, rfl, rfl⟩, (concat_iff _).mpr ⟨[q], [], rfl, rfl, rfl⟩,
    (fuse_iff _).mpr ⟨[p], .ofList [0, 1], [p], rfl, rfl, rfl⟩, fun matched => ?_, passes⟩
  -- the only letter would have to match in the second automaton too
  obtain ⟨u, l, v, split, -, second⟩ := (fuse_iff _).mp matched
  cases u with
  | nil => cases split; exact absurd second (by decide)
  | cons k u => cases u <;> cases split

end Automaton

end TraceRegex
