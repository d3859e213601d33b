import Mathlib.Data.List.Nodup
import TraceRegex.Proofs.Determinization
import TraceRegex.Proofs.Minimization

/-! # Determinization is the subset construction

The states of the deterministic automaton are numbered sets of states: exactly those sets, other
than the empty one, that some word leads to.  A letter takes the number of a set to the number of
the set of all states that it leads to, by one rule and no other.
-/

namespace TraceRegex

namespace Automaton

variable {a : Automaton}

/-- The states of `d` are the listed sets of states of `a`, by their places in the list. -/
structure SubsetsOf (a d : Automaton) (sets : List StateSet) : Prop where
  stateCount_eq : d.stateCount = sets.length
  nodup : sets.Nodup
  initial : sets[d.initial]? = some (.singleton a.initial)
  mem_iff : ∀ x, x ∈ sets ↔ (∃ t, t ∈ x) ∧ ∃ w, ∀ t, t ∈ x ↔ a.Path a.initial w t
  final_iff : ∀ i x, sets[i]? = some x → (i ∈ d.finals ↔ ∃ q ∈ x, q ∈ a.finals)
  -- `y` is the set of all targets of the rules that the letter enables in `x`
  fires : ∀ i x, sets[i]? = some x → ∀ l y, (∀ t, t ∈ y ↔ ∃ q ∈ x, a.Step q l t) →
    (∃ t, t ∈ y) →
    ∃ r, (d.rulesFrom i).filter (·.guard.eval l) = [r] ∧ sets[r.target]? = some y
  silent : ∀ i x, sets[i]? = some x → ∀ l, (∀ q ∈ x, ∀ t, ¬a.Step q l t) →
    (d.rulesFrom i).filter (·.guard.eval l) = []

namespace Subsets.Complete

variable {s : Subsets} {n : Nat} {finals : List Nat}

theorem mem_sets_iff (h : s.Complete a) {x : StateSet} :
    x ∈ s.sets ↔ (∃ t, t ∈ x) ∧ ∃ w, ∀ t, t ∈ x ↔ a.Path a.initial w t := by
  have reached : ∀ w t, t ∈ a.followWord w (.singleton a.initial) ↔ a.Path a.initial w t := by
    intro w t
    simp [mem_followWord]
  constructor
  · intro hx
    obtain ⟨w, rfl⟩ := h.reached x hx
    refine ⟨?_, w, reached w⟩
    apply Classical.byContradiction
    intro none
    have empty := SortedSet.isEmpty_iff.mpr (not_exists.mp none)
    rw [h.nonempty _ hx] at empty
    cases empty
  · rintro ⟨⟨t, ht⟩, w, all⟩
    have same : x = a.followWord w (.singleton a.initial) := by
      apply SortedSet.ext_mem
      intro t
      rw [all, reached]
    have some : (a.followWord w (.singleton a.initial)).isEmpty = false := by
      rw [← same, Bool.eq_false_iff]
      exact fun none => SortedSet.isEmpty_iff.mp none t ht
    rw [same]
    exact h.followWord_mem h.initial_eq.2 some

theorem idxOf_eq (h : s.Complete a) {i : Nat} {x : StateSet} (hx : s.sets[i]? = some x) :
    s.sets.idxOf x = i :=
  (idxOf_eq_iff h.nodup (List.mem_of_getElem? hx)).mpr hx

/-- A letter enables the rule to the set that it leads to, and no other. -/
theorem subsetsOf (h : s.Complete a) :
    SubsetsOf a (s.toAutomaton n a.finals.toList) s.sets := by
  refine ⟨rfl, h.nodup, ?_, fun x => h.mem_sets_iff, ?_, ?_, ?_⟩
  · have first := h.first
    rw [List.head?_eq_getElem?] at first
    exact first
  · intro i x hx
    rw [← h.idxOf_eq hx, mem_finals_iff (List.mem_of_getElem? hx)]
    exact exists_congr fun q => And.comm
  · intro i x hx l y targets some
    have mem := List.mem_of_getElem? hx
    have same : a.follow l x = y := by
      apply SortedSet.ext_mem
      intro t
      rw [mem_follow, targets]
    have alive : (a.follow l x).isEmpty = false := by
      obtain ⟨t, ht⟩ := some
      rw [same, Bool.eq_false_iff]
      exact fun none => SortedSet.isEmpty_iff.mp none t ht
    have one := h.targets_eq n a.finals.toList mem l
    rw [h.idxOf_eq hx, if_neg (Bool.eq_false_iff.mp alive), same, Automaton.targets] at one
    obtain ⟨r, enabled, target⟩ := List.map_eq_singleton_iff.mp one
    refine ⟨r, enabled, ?_⟩
    rw [target]
    exact (idxOf_eq_iff h.nodup (same ▸ h.follow_mem mem alive)).mp rfl
  · intro i x hx l none
    have empty : (a.follow l x).isEmpty = true := by
      rw [SortedSet.isEmpty_iff]
      intro t ht
      obtain ⟨q, hq, step⟩ := mem_follow.mp ht
      exact none q hq t step
    have zero := h.targets_eq n a.finals.toList (List.mem_of_getElem? hx) l
    rw [h.idxOf_eq hx, if_pos empty, Automaton.targets] at zero
    exact List.map_eq_nil_iff.mp zero

/-- If there are final states but nothing is accepted, then the empty word tells the two apart: no
    set with a final state is found, and an automaton without final states gives up at once. -/
theorem eval_toAutomaton_iff (h : s.Complete a) :
    (∀ w, (s.toAutomaton n a.finals.toList).eval w = a.eval w) ↔
      (∀ q, ¬q ∈ a.finals) ∨ ∃ w, a.Accepts w := by
  constructor
  · intro same
    by_cases accepted : ∃ w, a.Accepts w
    · exact Or.inr accepted
    · left
      have noFinals : ∀ j, ¬j ∈ (s.toAutomaton n a.finals.toList).finals := by
        intro j final
        obtain ⟨x, hx, rfl⟩ := h.exists_set
          (List.mem_range.mp (List.mem_filter.mp (SortedSet.mem_ofList.mp final)).1)
        obtain ⟨q, final, hq⟩ := (mem_finals_iff hx).mp final
        obtain ⟨-, w, reached⟩ := h.mem_sets_iff.mp hx
        exact accepted ⟨w, q, final, (reached q).mp hq⟩
      have failed : a.eval [] = .failed := by
        rw [← same, eval_eq_failed_iff]
        exact Or.inl noFinals
      cases eval_eq_failed_iff.mp failed with
      | inl none => exact none
      | inr none => exact absurd .nil (none a.initial)
  · exact fun hope w => h.eval_toAutomaton hope n w

end Subsets.Complete

/-- The exploration comes to its end by itself, the deterministic automaton is that of the sets it
    has found, and it accepts what the given one accepts.  Its verdicts are the same altogether
    exactly if the given automaton accepts something or has no final states, as after cleaning or
    minimising. -/
theorem determinize_exact (a : Automaton) (valid : a.validate = .ok ()) (ctx ctx' : Context) :
    let d := (a.determinize.run ctx).1
    ∃ s : Subsets, (Subsets.start a.initial).Explores a s ∧
      d = s.toAutomaton a.atomCount a.finals.toList ∧
      SubsetsOf a d s.sets ∧
      d.stateCount ≤ Nat.pow 2 a.stateCount ∧
      (d.validateDeterministic.run.run ctx').1 = .ok () ∧
      (∀ w, d.evalFirst w = .ok ↔ a.eval w = .ok) ∧
      ((∀ w, d.evalFirst w = a.eval w) ↔ (∀ q, ¬q ∈ a.finals) ∨ ∃ w, a.eval w = .ok) ∧
      ∀ (b : Automaton) (ctx : Context), b.validate = .ok () →
        a = (b.clean.run ctx).1 ∨ a = (b.minimize.run ctx).1 → ∀ w, d.evalFirst w = a.eval w := by
  intro d
  have ha := validate_iff.mp valid
  obtain ⟨s, complete, explores, returned⟩ := determinize_returns ha
  have d_eq : d = s.toAutomaton a.atomCount a.finals.toList := returned ctx
  have first : ∀ w, d.evalFirst w = (s.toAutomaton a.atomCount a.finals.toList).eval w := by
    intro w
    rw [d_eq, complete.deterministic.evalFirst_eq_eval]
  refine ⟨s, explores, d_eq, d_eq ▸ complete.subsetsOf, ?_, ?_, ?_, ?_, ?_⟩
  · rw [d_eq]
    exact length_le_of_subsets complete.nodup fun x hx q hq => complete.lt_stateCount ha hx hq
  · rw [d_eq]
    exact validateDeterministic_returns (complete.valid ha) complete.deterministic ctx'
  · intro w
    rw [first, eval_eq_ok_iff, eval_eq_ok_iff, complete.accepts_iff]
  · simp only [first, eval_eq_ok_iff, complete.eval_toAutomaton_iff]
  · intro b ctx valid cleaned w
    have hb := validate_iff.mp valid
    have trim : a.Trim := by
      cases cleaned with
      | inl clean => rw [clean, (clean_returns b).steady ctx]; exact trim_clean hb
      | inr minimal => rw [minimal, (minimize_returns hb).steady ctx]; exact trim_minimize hb
    rw [first, complete.eval_toAutomaton trim.accepts_of_finals]

/-- Two rules that a letter can enable at once, and a state without rules. -/
theorem determinize_exact_of_fork :
    let a : Automaton := ⟨2, 2, 0, .singleton 1, [[⟨.var 1, 0⟩, ⟨.var 0, 1⟩], []]⟩
    let d := (a.determinize.run .empty).1
    a.validate = .ok () ∧ d.stateCount ≤ 4 ∧
      (d.validateDeterministic.run.run .empty).1 = .ok () ∧
      d.evalFirst [.ofList [0, 1], .ofList [0]] = .ok ∧ d.evalFirst [.ofList [1]] = .pending ∧
      d.evalFirst [.ofList [0], .ofList [0]] = .failed := by
  intro a d
  have valid : a.validate = .ok () := rfl
  obtain ⟨s, -, -, -, few, passes, accepts, agree, -⟩ := determinize_exact a valid .empty .empty
  have accepted : a.eval [.ofList [0, 1], .ofList [0]] = .ok := rfl
  have same := agree.mpr (Or.inr ⟨_, accepted⟩)
  exact ⟨valid, few, passes, (accepts _).mpr accepted, same _, same _⟩

end Automaton

end TraceRegex
