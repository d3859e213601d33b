import TraceRegex.Expression.Language
import TraceRegex.Proofs.Steady

/-! # Deciding the language of an expression

Without prefix closures, trying all ways to take a word apart always ends with an answer, and the
answer is whether the expression stands for the word.  `Decides` states both at once, and there is
one lemma for each way in which answers are combined.
-/

namespace TraceRegex

/-! ## Words in a row -/

/-- Without a word in a row there is the empty word only. -/
theorem exists_power_iff {holds : Word → Prop} {w : Word} :
    (∃ n, Power holds n w) ↔ w = [] ∨ ∃ n, Power holds (n + 1) w := by
  constructor
  · rintro ⟨n, power⟩
    cases n with
    | zero =>
      cases power
      exact Or.inl rfl
    | succ n => exact Or.inr ⟨n, power⟩
  · rintro (rfl | ⟨n, power⟩)
    · exact ⟨0, .zero⟩
    · exact ⟨n + 1, power⟩

/-! ## Conditions -/

namespace Condition

/-- The atoms that a condition asks for. -/
def atoms : Condition → List Nat
  | .true | .false => []
  | .atom i => [i]
  | .not c => c.atoms
  | .and c d | .or c d => c.atoms ++ d.atoms

theorem toFormula_returns (c : Condition) (h : ∀ i ∈ c.atoms, i < UInt32.size) :
    ∃ f, Build.Returns c.toFormula f ∧ (∀ l, f.eval l = c.holds l) ∧
      ∀ n, (∀ i ∈ c.atoms, i < n) → f.varCount ≤ n := by
  induction c with
  | true => exact ⟨_, Build.Returns.pure _, fun _ => rfl, fun n _ => Nat.zero_le n⟩
  | false => exact ⟨_, Build.Returns.pure _, fun _ => rfl, fun n _ => Nat.zero_le n⟩
  | atom i =>
    -- the index survives the narrowing
    have small : i < UInt32.size := h i (by simp [atoms])
    have same : i.toUInt32.toNat = i := by rw [Nat.toUInt32_eq, UInt32.toNat_ofNat_of_lt' small]
    refine ⟨_, Build.Returns.pure _, fun l => congrArg l.holds same, fun n bound => ?_⟩
    show i.toUInt32.toNat + 1 ≤ n
    rw [same]
    exact bound i (by simp [atoms])
  | not c ih =>
    obtain ⟨f, hf, eval, few⟩ := ih h
    exact ⟨_, hf.bind (Build.not_returns f), fun l => congrArg (!·) (eval l), few⟩
  | and c d ihc ihd =>
    obtain ⟨f, hf, evalF, fewF⟩ := ihc fun i hi => h i (List.mem_append_left _ hi)
    obtain ⟨g, hg, evalG, fewG⟩ := ihd fun i hi => h i (List.mem_append_right _ hi)
    refine ⟨_, hf.bind (hg.bind (Build.and_returns f g)), fun l => ?_, fun n bound => ?_⟩
    · simp only [Formula.eval, holds, evalF l, evalG l]
    · have both := List.forall_mem_append.mp bound
      exact Nat.max_le.mpr ⟨fewF n both.1, fewG n both.2⟩
  | or c d ihc ihd =>
    obtain ⟨f, hf, evalF, fewF⟩ := ihc fun i hi => h i (List.mem_append_left _ hi)
    obtain ⟨g, hg, evalG, fewG⟩ := ihd fun i hi => h i (List.mem_append_right _ hi)
    refine ⟨_, hf.bind (hg.bind (Build.or_returns f g)), fun l => ?_, fun n bound => ?_⟩
    · simp only [Formula.eval, holds, evalF l, evalG l]
    · have both := List.forall_mem_append.mp bound
      exact Nat.max_le.mpr ⟨fewF n both.1, fewG n both.2⟩

end Condition

namespace Expression

/-- The atoms that an expression asks for. -/
def atoms : Expression → List Nat
  | .condition c => c.atoms
  | .empty => []
  | .union e f | .intersect e f | .concat e f | .fusion e f => e.atoms ++ f.atoms
  | .star e | .plus e | .prefixes e | .complement e => e.atoms

/-- Whether a prefix closure occurs in the expression. -/
def usesPrefixes : Expression → Bool
  | .condition _ | .empty => false
  | .union e f | .intersect e f | .concat e f | .fusion e f => e.usesPrefixes || f.usesPrefixes
  | .star e | .plus e | .complement e => e.usesPrefixes
  | .prefixes _ => true

/-! ## Answers -/

/-- The answer is there, and it is whether `p` holds. -/
def Decides (answer : Except Unsupported Bool) (p : Prop) : Prop :=
  ∃ b, answer = .ok b ∧ (b = true ↔ p)

section

variable {x y : Except Unsupported Bool} {p q : Prop}

theorem decides_ok {b : Bool} (h : b = true ↔ p) : Decides (.ok b) p := ⟨b, rfl, h⟩

theorem Decides.congr (h : Decides x p) (same : p ↔ q) : Decides x q := by
  obtain ⟨b, answer, hb⟩ := h
  exact ⟨b, answer, hb.trans same⟩

theorem Decides.both (hx : Decides x p) (hy : Decides y q) : Decides (both x y) (p ∧ q) := by
  obtain ⟨b, rfl, hb⟩ := hx
  cases b with
  | true => exact hy.congr (by simp [← hb])
  | false => exact decides_ok (by simp [← hb])

theorem Decides.either (hx : Decides x p) (hy : Decides y q) :
    Decides (do if ← x then return true else y) (p ∨ q) := by
  obtain ⟨b, rfl, hb⟩ := hx
  cases b with
  | true => exact decides_ok (by simp [← hb])
  | false => exact hy.congr (by simp [← hb])

theorem Decides.negate (hx : Decides x p) : Decides (do return !(← x)) (¬p) := by
  obtain ⟨b, rfl, hb⟩ := hx
  exact decides_ok (by simp [← hb])

theorem Decides.anyOf {α : Type} {test : α → Except Unsupported Bool} {p : α → Prop} {xs : List α}
    (h : ∀ x ∈ xs, Decides (test x) (p x)) : Decides (anyOf test xs) (∃ x ∈ xs, p x) := by
  induction xs with
  | nil => exact decides_ok (by simp)
  | cons x xs ih =>
    have rest := ih fun y hy => h y (List.mem_cons_of_mem x hy)
    exact ((h x List.mem_cons_self).either rest).congr (by simp)

end

/-! ## Repetition -/

section

variable {holds : Word → Prop}

/-- Empty words at the front of a row of words can be left out. -/
theorem exists_head_of_power {n : Nat} {w : Word} (h : Power holds n w) (nonempty : w ≠ []) :
    ∃ u v m, w = u ++ v ∧ u ≠ [] ∧ holds u ∧ Power holds m v := by
  induction h with
  | zero => exact absurd rfl nonempty
  | @succ n u v head tail ih =>
    cases u with
    | nil => exact ih nonempty
    | cons l u => exact ⟨l :: u, v, n, rfl, List.cons_ne_nil l u, head, tail⟩

theorem decides_repeats {test : Word → Except Unsupported Bool}
    (h : ∀ w, Decides (test w) (holds w)) {n : Nat} {w : Word} (bound : w.length ≤ n) :
    Decides (repeats test n w) (w ≠ [] ∧ ∃ m, Power holds m w) := by
  induction n generalizing w with
  | zero =>
    obtain rfl : w = [] := List.length_eq_zero_iff.mp (Nat.le_zero.mp bound)
    exact decides_ok (by simp)
  | succ n ih =>
    rw [repeats]
    have piece : ∀ i ∈ List.range' 1 w.length, Decides
        (both (test (w.take i)) (if i = w.length then .ok true else repeats test n (w.drop i)))
        (holds (w.take i) ∧ ∃ m, Power holds m (w.drop i)) := by
      intro i hi
      have range := List.mem_range'_1.mp hi
      refine (h _).both ?_
      -- the rest is shorter, and it is not asked for when nothing is left
      split
      · next whole =>
        have done : w.drop i = [] := List.drop_eq_nil_of_le (Nat.le_of_eq whole.symm)
        exact decides_ok (by simpa [done] using ⟨0, Power.zero⟩)
      · have shorter : (w.drop i).length ≤ n := by
          rw [List.length_drop]
          omega
        have more : w.drop i ≠ [] := by
          intro none
          have := List.drop_eq_nil_iff.mp none
          omega
        exact (ih shorter).congr (and_iff_right more)
    refine (Decides.anyOf piece).congr ?_
    constructor
    · rintro ⟨i, hi, head, m, tail⟩
      have range := List.mem_range'_1.mp hi
      refine ⟨fun none => ?_, m + 1, ?_⟩
      · rw [none, List.length_nil] at range
        omega
      · rw [← List.take_append_drop i w]
        exact .succ head tail
    · rintro ⟨nonempty, m, power⟩
      obtain ⟨u, v, m', rfl, hu, head, tail⟩ := exists_head_of_power power nonempty
      have := List.length_pos_iff.mpr hu
      refine ⟨u.length, List.mem_range'_1.mpr ?_, ?_, m', ?_⟩
      · rw [List.length_append]
        omega
      · rwa [List.take_left]
      · rwa [List.drop_left]

end

/-! ## The language -/

theorem exists_split_iff {p q : Word → Prop} {w : Word} :
    (∃ i ∈ List.range (w.length + 1), p (w.take i) ∧ q (w.drop i)) ↔
      ∃ u v, w = u ++ v ∧ p u ∧ q v := by
  constructor
  · rintro ⟨i, -, hp, hq⟩
    exact ⟨_, _, (List.take_append_drop i w).symm, hp, hq⟩
  · rintro ⟨u, v, rfl, hp, hq⟩
    refine ⟨u.length, List.mem_range.mpr ?_, ?_, ?_⟩
    · rw [List.length_append]
      omega
    · rwa [List.take_left]
    · rwa [List.drop_left]

/-- Two parts of a word that share the letter at which it is divided. -/
theorem exists_overlap_iff {p q : Word → Prop} {w : Word} :
    (∃ i ∈ List.range' 1 w.length, p (w.take i) ∧ q (w.drop (i - 1))) ↔
      ∃ u l v, w = u ++ l :: v ∧ p (u ++ [l]) ∧ q (l :: v) := by
  constructor
  · rintro ⟨i, hi, hp, hq⟩
    have range := List.mem_range'_1.mp hi
    obtain ⟨j, rfl⟩ : ∃ j, i = j + 1 := ⟨i - 1, by omega⟩
    have hj : j < w.length := by omega
    rw [Nat.add_sub_cancel] at hq
    refine ⟨w.take j, w[j], w.drop (j + 1), ?_, ?_, ?_⟩
    · rw [List.getElem_cons_drop, List.take_append_drop]
    · rwa [List.take_append_getElem]
    · rwa [List.getElem_cons_drop]
  · rintro ⟨u, l, v, rfl, hp, hq⟩
    refine ⟨u.length + 1, List.mem_range'_1.mpr ?_, ?_, ?_⟩
    · simp only [List.length_append, List.length_cons]
      omega
    · rw [List.append_cons]
      rwa [List.take_left' (by simp)]
    · rwa [Nat.add_sub_cancel, List.drop_left]

theorem exists_power_succ_nil_iff {holds : Word → Prop} :
    (∃ n, Power holds (n + 1) []) ↔ holds [] := by
  constructor
  · rintro ⟨n, power⟩
    generalize hw : ([] : Word) = w at power
    cases power with
    | succ head tail =>
      obtain ⟨rfl, rfl⟩ := List.append_eq_nil_iff.mp hw.symm
      exact head
  · exact fun h => ⟨0, .succ (v := []) h .zero⟩

/-- Trying all ways to take a word apart decides the language of an expression without prefix
    closures. -/
theorem decides_accepts {e : Expression} (h : e.usesPrefixes = false) (w : Word) :
    Decides (e.accepts w) (e.Matches w) := by
  induction e generalizing w with
  | condition c =>
    match w with
    | [] => exact decides_ok (by simp [Matches])
    | [l] => exact decides_ok (by simp [Matches])
    | _ :: _ :: _ => exact decides_ok (by simp [Matches])
  | empty => exact decides_ok List.isEmpty_iff
  | union e f ihe ihf =>
    obtain ⟨he, hf⟩ := Bool.or_eq_false_iff.mp h
    exact (ihe he w).either (ihf hf w)
  | intersect e f ihe ihf =>
    obtain ⟨he, hf⟩ := Bool.or_eq_false_iff.mp h
    exact (ihe he w).both (ihf hf w)
  | concat e f ihe ihf =>
    obtain ⟨he, hf⟩ := Bool.or_eq_false_iff.mp h
    exact (Decides.anyOf fun i _ => (ihe he _).both (ihf hf _)).congr exists_split_iff
  | fusion e f ihe ihf =>
    obtain ⟨he, hf⟩ := Bool.or_eq_false_iff.mp h
    exact (Decides.anyOf fun i _ => (ihe he _).both (ihf hf _)).congr exists_overlap_iff
  | star e ih =>
    rw [accepts]
    split
    · next h =>
      rw [List.isEmpty_iff.mp h]
      exact decides_ok (iff_of_true rfl (exists_power_iff.mpr (Or.inl rfl)))
    · next more =>
      have nonempty : w ≠ [] := fun none => more (List.isEmpty_iff.mpr none)
      exact (decides_repeats (ih h) (Nat.le_refl _)).congr (and_iff_right nonempty)
  | plus e ih =>
    -- the pieces of a repetition are never empty, so the empty word is tried by itself
    have last : Decides (if w.isEmpty then e.accepts w else .ok false) (w = [] ∧ e.Matches w) := by
      split
      · next none => exact (ih h w).congr (by simp [List.isEmpty_iff.mp none])
      · next more => exact decides_ok (by simp [← List.isEmpty_iff, more])
    refine ((decides_repeats (ih h) (Nat.le_refl _)).either last).congr ?_
    show _ ↔ ∃ n, Power e.Matches (n + 1) w
    by_cases none : w = []
    · subst none
      simp [exists_power_succ_nil_iff]
    · simp [none, exists_power_iff]
  | prefixes e _ => cases h
  | complement e ih => exact (ih h w).negate

end Expression

end TraceRegex
