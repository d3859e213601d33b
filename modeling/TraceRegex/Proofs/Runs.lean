import TraceRegex.Automaton.Run
import TraceRegex.Proofs.SetMembership

/-! # Runs and verdicts

The live states after a word are those that some run over it leads to.  So the verdict on a word
says which runs there are: one to a final state, only others, or none.
-/

namespace TraceRegex

/-! ## The verdict on a word in a language -/

/-- The verdict says exactly how a word stands to a language: it is in it, or it is not but an
    extension of it is, or no extension of it is. -/
def Verdict.Judges (v : Verdict) (language : Word → Prop) (w : Word) : Prop :=
  (v = .ok ↔ language w) ∧ (v = .pending ↔ ¬language w ∧ ∃ u, language (w ++ u)) ∧
    (v = .failed ↔ ∀ u, ¬language (w ++ u))

/-- Two of the three verdicts decide the third. -/
theorem Verdict.judges_of {v : Verdict} {language : Word → Prop} {w : Word}
    (ok : v = .ok ↔ language w) (failed : v = .failed ↔ ∀ u, ¬language (w ++ u)) :
    v.Judges language w := by
  refine ⟨ok, ?_, failed⟩
  cases v with
  | ok =>
    have inside := ok.mp rfl
    simp [inside]
  | failed =>
    have none := failed.mp rfl
    simp only [reduceCtorEq, false_iff, not_and, not_exists]
    exact fun _ => none
  | pending =>
    simp only [true_iff, reduceCtorEq, false_iff] at ok failed ⊢
    refine ⟨ok, Classical.byContradiction fun none => failed fun u hu => none ⟨u, hu⟩⟩

theorem Verdict.Judges.congr {v : Verdict} {language language' : Word → Prop} {w : Word}
    (h : v.Judges language w) (same : ∀ w, language w ↔ language' w) : v.Judges language' w := by
  have : language = language' := funext fun w => propext (same w)
  exact this ▸ h

namespace Automaton

variable {a : Automaton}

/-! ## Single steps -/

/-- The letter enables a rule from the first state to the second. -/
def Step (a : Automaton) (q : Nat) (l : Letter) (t : Nat) : Prop :=
  ∃ r ∈ a.rulesFrom q, r.guard.eval l = true ∧ r.target = t

theorem mem_targets {l : Letter} {q t : Nat} : t ∈ a.targets l q ↔ a.Step q l t := by
  simp [targets, Step, and_assoc]

theorem mem_step {l : Letter} {live : List Nat} {t : Nat} :
    t ∈ a.step l live ↔ ∃ q ∈ live, a.Step q l t := by
  simp [step, List.mem_eraseDups, mem_targets]

theorem path_nil_iff {q t : Nat} : a.Path q [] t ↔ q = t := by
  constructor
  · intro h
    cases h
    rfl
  · rintro rfl
    exact .nil

theorem path_cons_iff {q t : Nat} {l : Letter} {w : Word} :
    a.Path q (l :: w) t ↔ ∃ s, a.Step q l s ∧ a.Path s w t := by
  constructor
  · intro h
    cases h with
    | cons mem enabled rest => exact ⟨_, ⟨_, mem, enabled, rfl⟩, rest⟩
  · rintro ⟨s, ⟨r, mem, enabled, rfl⟩, rest⟩
    exact .cons mem enabled rest

theorem path_append_iff {q t : Nat} {u v : Word} :
    a.Path q (u ++ v) t ↔ ∃ s, a.Path q u s ∧ a.Path s v t := by
  induction u generalizing q with
  | nil => simp [path_nil_iff]
  | cons l u ih =>
    simp only [List.cons_append, path_cons_iff, ih]
    constructor
    · rintro ⟨s, hs, m, hu, hv⟩
      exact ⟨m, ⟨s, hs, hu⟩, hv⟩
    · rintro ⟨m, ⟨s, hs, hu⟩, hv⟩
      exact ⟨s, hs, m, hu, hv⟩

theorem path_singleton_iff {q t : Nat} {l : Letter} : a.Path q [l] t ↔ a.Step q l t := by
  simp [path_cons_iff, path_nil_iff]

/-! ## Verdicts -/

/-- The live states after a word. -/
def after (a : Automaton) (live : List Nat) (w : Word) : List Nat :=
  w.foldl (fun live l => a.step l live) live

theorem mem_after {live : List Nat} {w : Word} {t : Nat} :
    t ∈ a.after live w ↔ ∃ q ∈ live, a.Path q w t := by
  induction w generalizing live with
  | nil => simp [after, path_nil_iff]
  | cons l w ih =>
    have unfolded : a.after live (l :: w) = a.after (a.step l live) w := rfl
    rw [unfolded, ih]
    simp only [mem_step, path_cons_iff]
    constructor
    · rintro ⟨s, ⟨q, hq, hs⟩, hw⟩
      exact ⟨q, hq, s, hs, hw⟩
    · rintro ⟨q, hq, s, hs, hw⟩
      exact ⟨s, ⟨q, hq, hs⟩, hw⟩

/-- Giving up early when there are no live states does not change the verdict. -/
theorem evalFrom_eq_classify (live : List Nat) (w : Word) :
    a.evalFrom live w = a.classify (a.after live w) := by
  induction w generalizing live with
  | nil => rfl
  | cons l w ih =>
    cases live with
    | nil =>
      -- here the evaluation has given up, and no letter brings a state back
      have : ∀ w, a.after [] w = [] := fun w => by
        induction w with
        | nil => rfl
        | cons l w ih => exact ih
      rw [this]
      rfl
    | cons q live => exact ih _

theorem classify_eq_ok_iff {live : List Nat} :
    a.classify live = .ok ↔ ∃ q ∈ a.finals, q ∈ live := by
  unfold classify
  cases live with
  | nil => simp
  | cons q live =>
    simp only [List.isEmpty_cons, Bool.false_eq_true, if_false]
    split
    · next h => simpa using h
    · next h => simpa using h

theorem classify_eq_failed_iff {live : List Nat} : a.classify live = .failed ↔ live = [] := by
  unfold classify
  cases live with
  | nil => simp
  | cons q live =>
    simp only [List.isEmpty_cons, Bool.false_eq_true, if_false, reduceCtorEq, iff_false]
    split <;> simp

/-- The verdict is *ok* when a run leads to a final state. -/
theorem eval_eq_ok_iff {w : Word} : a.eval w = .ok ↔ a.Accepts w := by
  unfold eval
  split
  · next h =>
    rw [SortedSet.isEmpty_iff] at h
    simp only [reduceCtorEq, false_iff]
    rintro ⟨q, hq, -⟩
    exact h q hq
  · rw [evalFrom_eq_classify, classify_eq_ok_iff]
    simp [mem_after, Accepts]

/-- The verdict is *failed* when there is no final state or no run. -/
theorem eval_eq_failed_iff {w : Word} :
    a.eval w = .failed ↔ (∀ q, ¬q ∈ a.finals) ∨ ∀ t, ¬a.Path a.initial w t := by
  unfold eval
  split
  · next h =>
    rw [SortedSet.isEmpty_iff] at h
    simp [h]
  · next h =>
    rw [SortedSet.isEmpty_iff] at h
    rw [evalFrom_eq_classify, classify_eq_failed_iff, List.eq_nil_iff_forall_not_mem]
    simp [mem_after, h]

/-- Automata that accept the same words and fail on the same words have the same verdicts. -/
theorem eval_eq_of_iff {b : Automaton} {w : Word} (accepts : a.Accepts w ↔ b.Accepts w)
    (failed : a.eval w = .failed ↔ b.eval w = .failed) : a.eval w = b.eval w := by
  rw [← eval_eq_ok_iff, ← eval_eq_ok_iff] at accepts
  cases ha : a.eval w <;> cases hb : b.eval w <;> simp_all

/-- A run over an extension of a word starts with a run over the word. -/
theorem accepts_append_iff {w u : Word} :
    a.Accepts (w ++ u) ↔ ∃ t, a.Path a.initial w t ∧ ∃ q ∈ a.finals, a.Path t u q := by
  simp only [Accepts, path_append_iff]
  constructor
  · rintro ⟨q, hq, t, ht, hu⟩
    exact ⟨t, ht, q, hq, hu⟩
  · rintro ⟨t, ht, q, hq, hu⟩
    exact ⟨q, hq, t, ht, hu⟩

/-! ## Well-formed automata -/

/-- Parts have no defect exactly when every number in them is below the count that bounds it. -/
theorem defectOf?_eq_none_iff {atomCount stateCount initial : Nat} {finals : List Nat}
    {transitions : List (List Rule)} :
    defectOf? atomCount stateCount initial finals transitions = none ↔
      initial < stateCount ∧ transitions.length = stateCount ∧ (∀ q ∈ finals, q < stateCount) ∧
        ∀ rules ∈ transitions, ∀ r ∈ rules,
          r.target < stateCount ∧ r.guard.varCount ≤ atomCount := by
  have rules_iff : (transitions.zipIdx.findSome? fun place =>
      place.1.findSome? (Rule.defect? atomCount stateCount place.2)) = none ↔
      ∀ rules ∈ transitions, ∀ r ∈ rules,
        r.target < stateCount ∧ r.guard.varCount ≤ atomCount := by
    simp only [List.findSome?_eq_none_iff, Prod.forall]
    constructor
    · intro h rules hrules r hr
      obtain ⟨i, hi, rfl⟩ := List.mem_iff_getElem.mp hrules
      have := h _ i (List.mk_mem_zipIdx_iff_getElem?.mpr (by simp [hi])) r hr
      unfold Rule.defect? at this
      grind
    · intro h rules q hrules r hr
      have := h rules (List.fst_mem_of_mem_zipIdx hrules) r hr
      unfold Rule.defect?
      grind
  unfold defectOf?
  constructor
  · intro h
    -- the checks come one after the other, so each is read off once those before it are passed
    have hzero : stateCount ≠ 0 := by grind
    have hinitial : initial < stateCount := by grind
    have hlength : transitions.length = stateCount := by grind
    have hfinals : finals.find? (stateCount ≤ ·) = none := by
      cases hf : finals.find? (stateCount ≤ ·) with
      | none => rfl
      | some q => simp [hzero, Nat.not_le.mpr hinitial, hlength, hf] at h
    simp only [hzero, Nat.not_le.mpr hinitial, hlength, hfinals, if_false, ne_eq,
      not_true_eq_false] at h
    refine ⟨hinitial, hlength, fun q hq => ?_, rules_iff.mp h⟩
    simpa using List.find?_eq_none.mp hfinals q hq
  · rintro ⟨hinitial, hlength, hlt, h⟩
    have hzero : stateCount ≠ 0 := by omega
    have hfinals : finals.find? (stateCount ≤ ·) = none := by
      refine List.find?_eq_none.mpr fun q hq => ?_
      simpa using hlt q hq
    simp only [hzero, Nat.not_le.mpr hinitial, hlength, hfinals, if_false, ne_eq,
      not_true_eq_false]
    exact rules_iff.mpr h

theorem defect?_eq_none_iff : a.defect? = none ↔ a.Valid := by
  unfold defect?
  rw [defectOf?_eq_none_iff]
  constructor
  · rintro ⟨initial, length, finals, rules⟩
    exact ⟨initial, length, finals, fun rs hrs r hr => (rules rs hrs r hr).1,
      fun rs hrs r hr => (rules rs hrs r hr).2⟩
  · intro h
    exact ⟨h.initial_lt, h.length_transitions, h.finals_lt, fun rules hrules r hr =>
      ⟨h.target_lt rules hrules r hr, h.varCount_le rules hrules r hr⟩⟩

/-- An automaton passes the check exactly when it is well formed. -/
theorem validate_iff : a.validate = .ok () ↔ a.Valid := by
  rw [← defect?_eq_none_iff, validate]
  cases a.defect? <;> simp

/-- A state beyond the last one has no rules. -/
theorem mem_transitions_of_mem_rulesFrom {q : Nat} {r : Rule} (h : r ∈ a.rulesFrom q) :
    ∃ rules ∈ a.transitions, r ∈ rules := by
  unfold rulesFrom at h
  rw [List.getD_eq_getElem?_getD] at h
  cases hq : a.transitions[q]? with
  | none => simp [hq] at h
  | some rules => exact ⟨rules, List.mem_of_getElem? hq, by simpa [hq] using h⟩

theorem lt_length_of_mem_rulesFrom {q : Nat} {r : Rule} (h : r ∈ a.rulesFrom q) :
    q < a.transitions.length := by
  unfold rulesFrom at h
  rw [List.getD_eq_getElem?_getD] at h
  cases hq : a.transitions[q]? with
  | none => simp [hq] at h
  | some rules => exact (List.getElem?_eq_some_iff.mp hq).1

theorem Valid.target_lt_of_mem (h : a.Valid) {q : Nat} {r : Rule} (hr : r ∈ a.rulesFrom q) :
    r.target < a.stateCount := by
  obtain ⟨rules, hrules, hr⟩ := mem_transitions_of_mem_rulesFrom hr
  exact h.target_lt rules hrules r hr

theorem Valid.step_lt (h : a.Valid) {q t : Nat} {l : Letter} (hs : a.Step q l t) :
    q < a.stateCount ∧ t < a.stateCount := by
  obtain ⟨r, hr, -, rfl⟩ := hs
  exact ⟨h.length_transitions ▸ lt_length_of_mem_rulesFrom hr, h.target_lt_of_mem hr⟩

/-- Runs stay within the states. -/
theorem Valid.path_lt (h : a.Valid) {q t : Nat} {w : Word} (hp : a.Path q w t)
    (hq : q < a.stateCount) : t < a.stateCount := by
  induction hp with
  | nil => exact hq
  | cons mem enabled rest ih => exact ih (h.target_lt_of_mem mem)

/-- When the steps from a place are the steps from its state, so are the runs. -/
theorem path_copy {b : Automaton} (place : Nat → Nat)
    (steps : ∀ q l t, q < b.stateCount →
      (a.Step (place q) l t ↔ ∃ s, b.Step q l s ∧ place s = t))
    (hb : b.Valid) {q t : Nat} {w : Word} (hq : q < b.stateCount) :
    a.Path (place q) w t ↔ ∃ s, b.Path q w s ∧ place s = t := by
  induction w generalizing q with
  | nil => simp [path_nil_iff]
  | cons l w ih =>
    simp only [path_cons_iff, steps q l _ hq]
    constructor
    · rintro ⟨-, ⟨s, first, rfl⟩, rest⟩
      obtain ⟨s', behind, rfl⟩ := (ih (hb.step_lt first).2).mp rest
      exact ⟨s', ⟨s, first, behind⟩, rfl⟩
    · rintro ⟨s', ⟨s, first, rest⟩, rfl⟩
      exact ⟨_, ⟨s, first, rfl⟩, (ih (hb.step_lt first).2).mpr ⟨s', rest, rfl⟩⟩

end Automaton

end TraceRegex
