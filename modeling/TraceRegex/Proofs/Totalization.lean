import TraceRegex.Proofs.Complement
import TraceRegex.Table.Deterministic

/-! # Totalisation of tables

The check for determinism looks at a table in which every state that lacks a list of rules has got an
empty one, but `totalize` completes the lists that are there.  So what it makes is total where the
table had lists: there, and in the sink, each letter enables exactly one rule, and in the states
without a list none.  What is matched does not change in either case, since a run that comes to a
state without a list does not get any further.
-/

namespace TraceRegex

namespace Automaton

variable {rules : List Rule} {sink : Nat} {l : Letter}

/-! ## One list of rules with its rule to the sink -/

theorem length_filter_sinking
    (apart : rules.Pairwise fun r r' => ∀ l, ¬(r.guard.eval l ∧ r'.guard.eval l)) (l : Letter) :
    ((sinking sink rules).filter (·.guard.eval l)).length = 1 := by
  have few := pairwise_disjoint_iff.mp apart l
  rw [filter_sinking]
  split
  · rfl
  · next some =>
    have := List.length_pos_iff.mpr some
    omega

theorem find?_sinking : (sinking sink rules).find? (·.guard.eval l) =
    some ((rules.find? (·.guard.eval l)).getD ⟨remainder rules, sink⟩) := by
  rw [← List.head?_filter, ← List.head?_filter, filter_sinking]
  cases rules.filter (·.guard.eval l) with
  | nil => rfl
  | cons r others => rfl

end Automaton

namespace Table

variable {t : Table}

/-! ## The check for determinism -/

/-- What the check for determinism asks of a table: a place for each list of rules and room for those
    that are missing, only states and atoms that the table has, and no letter that enables two rules
    of one list. -/
structure Deterministic (t : Table) : Prop where
  fits : t.Fits
  initial_lt : t.initial < t.stateCount
  finals_lt : ∀ q ∈ t.finals.toList, q < t.stateCount
  rules_lt : ∀ rules ∈ t.transitions.toList, ∀ r ∈ rules,
    r.target < t.stateCount ∧ r.guard.varCount ≤ t.atomCount
  apart : ∀ rules ∈ t.transitions.toList,
    rules.Pairwise fun r r' => ∀ l, ¬(r.guard.eval l ∧ r'.guard.eval l)

/-- The table with an empty list of rules for every state that lacks one. -/
def padded (t : Table) : Table :=
  { t with transitions := t.transitions ++ Array.replicate (t.stateCount - t.transitions.size) [] }

theorem fitted_eq (t : Table) :
    t.fitted = if t.Fits then .ok t.padded else .error .outOfRange := rfl

theorem fits_of_size_eq (h : t.transitions.size = t.stateCount) : t.Fits :=
  ⟨Nat.le_of_eq h, fun less => absurd h (Nat.ne_of_lt less)⟩

theorem padded_eq (h : t.transitions.size = t.stateCount) : t.padded = t := by
  have lists : t.transitions ++ Array.replicate (t.stateCount - t.transitions.size) [] =
      t.transitions := by simp [h]
  unfold padded
  rw [lists]

theorem defect?_padded_eq_none_iff (h : t.transitions.size ≤ t.stateCount) :
    t.padded.defect? = none ↔
      t.initial < t.stateCount ∧ (∀ q ∈ t.finals.toList, q < t.stateCount) ∧
        ∀ rules ∈ t.transitions.toList, ∀ r ∈ rules,
          r.target < t.stateCount ∧ r.guard.varCount ≤ t.atomCount := by
  have length : t.transitions.size + (t.stateCount - t.transitions.size) = t.stateCount := by omega
  unfold defect?
  rw [Automaton.defectOf?_eq_none_iff]
  -- an empty list has no rules to ask for anything
  simp [padded, length, or_imp, forall_and]

theorem checkDeterministic_returns (t : Table) : Build.Returns t.checkDeterministic.run
    (if t.Fits then
      match t.padded.defect?.or (Automaton.overlapDefectOf t.transitions.toList) with
      | some d => .error (.defect d)
      | none => .ok ()
    else .error (.fault .outOfRange)) := by
  unfold checkDeterministic
  rw [fitted_eq]
  by_cases fits : t.Fits
  · rw [if_pos fits, if_pos fits]
    dsimp only
    cases t.padded.defect? with
    | some d => exact Build.Returns.pure _
    | none =>
      refine (Automaton.overlapDefect?_returns _).lift.except_bind ?_
      cases Automaton.overlapDefectOf t.transitions.toList with
      | some d => exact Build.Returns.pure _
      | none => exact Build.Returns.pure _
  · rw [if_neg fits, if_neg fits]
    exact Build.Returns.pure _

/-- The check passes exactly the tables that are deterministic in this sense. -/
theorem checkDeterministic_eq_ok_iff (ctx : Context) :
    (t.checkDeterministic.run.run ctx).1 = .ok () ↔ t.Deterministic := by
  rw [checkDeterministic_returns t ctx]
  constructor
  · intro passed
    split at passed
    · next fits =>
      split at passed
      · cases passed
      · next none =>
        obtain ⟨sound, apart⟩ := Option.or_eq_none_iff.mp none
        obtain ⟨initial, finals, rules⟩ := (defect?_padded_eq_none_iff fits.1).mp sound
        exact ⟨fits, initial, finals, rules, Automaton.overlapDefectOf_eq_none_iff.mp apart⟩
    · cases passed
  · intro h
    have sound := (defect?_padded_eq_none_iff h.fits.1).mpr ⟨h.initial_lt, h.finals_lt, h.rules_lt⟩
    have apart := Automaton.overlapDefectOf_eq_none_iff.mpr h.apart
    rw [if_pos h.fits, sound, apart]
    rfl

/-! ## The table that totalisation makes -/

/-- The table with a rule to the sink in each list that needs one. -/
def completed (t : Table) : Table :=
  { t with transitions := t.transitions.map (Automaton.sinking t.stateCount) }

/-- The table that `totalize` makes of one that fits. -/
def total (t : Table) : Table :=
  { t.completed.padded with
    stateCount := t.stateCount + 1
    transitions := t.completed.padded.transitions.push (Automaton.sinkRules t.stateCount) }

theorem completedList_returns (h : t.Fits) {p : List Rule × Nat}
    (hp : p ∈ t.transitions.toList.zipIdx) :
    Build.Returns (t.completedList p.1 p.2).run (.ok (Automaton.sinking t.stateCount p.1)) := by
  have place : p.2 < t.transitions.size := (List.mem_zipIdx' hp).1
  have inside : ¬t.stateCount < p.2 := Nat.not_lt.mpr (Nat.le_of_lt (Nat.lt_of_lt_of_le place h.1))
  rw [completedList, if_neg inside]
  exact (Automaton.withSink_returns t.stateCount p.1).lift

theorem totalize_returns (h : t.Fits) : Build.Returns t.totalize.run (.ok t.total) := by
  have mapped := Build.Returns.except_mapM (f := fun p => t.completedList p.1 p.2)
    (g := fun p => p) (x := fun p => Automaton.sinking t.stateCount p.1)
    fun p hp => completedList_returns h hp
  rw [List.map_id'] at mapped
  have lists : ((t.transitions.toList.zipIdx.map
      fun p => Automaton.sinking t.stateCount p.1).take t.stateCount).toArray =
      t.completed.transitions := by
    have firsts : t.transitions.toList.zipIdx.map (fun p => Automaton.sinking t.stateCount p.1) =
        t.completed.transitions.toList := by
      rw [completed, Array.toList_map, ← List.zipIdx_map_fst 0 t.transitions.toList, List.map_map,
        List.zipIdx_map_fst]
      rfl
    rw [firsts, List.take_of_length_le (by simpa [completed] using h.1), Array.toArray_toList]
  have fits : t.completed.Fits := by
    simpa [Fits, completed] using h
  have same : { t with transitions := t.completed.transitions } = t.completed := rfl
  unfold totalize
  refine mapped.except_bind ?_
  rw [lists, same, fitted_eq, if_pos fits]
  exact Build.Returns.pure _

/-! ## Its lists of rules -/

theorem rulesAt_of_lt {q : Nat} (h : q < t.transitions.size) :
    t.rulesAt q = .ok t.transitions[q] := by
  simp [rulesAt, h]

theorem rulesAt_of_le {q : Nat} (h : t.transitions.size ≤ q) :
    t.rulesAt q = .error .outOfRange := by
  simp [rulesAt, h]

theorem rulesAt_total_of_lt {q : Nat} (h : q < t.transitions.size) :
    t.total.rulesAt q = .ok (Automaton.sinking t.stateCount t.transitions[q]) := by
  simp [rulesAt, total, padded, completed, Array.getElem?_append, h]

theorem rulesAt_total_of_le {q : Nat} (size_le : t.transitions.size ≤ q) (lt : q < t.stateCount) :
    t.total.rulesAt q = .ok [] := by
  have outside : ¬q < t.transitions.size := Nat.not_lt.mpr size_le
  have inside : q - t.transitions.size < t.stateCount - t.transitions.size := by omega
  simp [rulesAt, total, padded, completed, Array.getElem?_append, Array.getElem?_push, outside,
    Nat.ne_of_lt inside, inside]

theorem rulesAt_total_sink (h : t.transitions.size ≤ t.stateCount) :
    t.total.rulesAt t.stateCount = .ok (Automaton.sinkRules t.stateCount) := by
  simp [rulesAt, total, padded, completed, Array.getElem?_append, Array.getElem_push,
    Nat.not_lt.mpr h]

/-- In a state that had a list and in the sink, each letter enables exactly one rule; in a state
    without a list, none. -/
theorem Deterministic.countP_total (h : t.Deterministic) {q : Nat} (hq : q < t.total.stateCount) :
    ∃ rules, t.total.rulesAt q = .ok rules ∧ ∀ l, rules.countP (·.guard.eval l) =
      if q < t.transitions.size ∨ q = t.stateCount then 1 else 0 := by
  by_cases listed : q < t.transitions.size
  · refine ⟨_, rulesAt_total_of_lt listed, fun l => ?_⟩
    have apart := h.apart _ (Array.getElem_mem_toList listed)
    rw [if_pos (Or.inl listed), List.countP_eq_length_filter,
      Automaton.length_filter_sinking apart l]
  · -- beyond the lists come the states that were padded, and last the sink
    by_cases inside : q < t.stateCount
    · refine ⟨_, rulesAt_total_of_le (Nat.le_of_not_lt listed) inside, fun l => ?_⟩
      rw [if_neg (by omega)]
      rfl
    · obtain rfl : q = t.stateCount := Nat.le_antisymm (Nat.le_of_lt_succ hq) (by omega)
      exact ⟨_, rulesAt_total_sink h.fits.1, fun l => by simp [Automaton.sinkRules, Formula.eval]⟩

theorem mem_finals_of_isFinal {q : Nat} (h : t.isFinal q = true) : q ∈ t.finals.toList :=
  Array.mem_toList_iff.mpr (Array.mem_of_getElem? (eq_of_beq h))

theorem Deterministic.isFinal_sink (h : t.Deterministic) : t.isFinal t.stateCount = false :=
  Bool.of_not_eq_true fun final => Nat.lt_irrefl _ (h.finals_lt _ (mem_finals_of_isFinal final))

theorem mem_transitions_total {rules : List Rule} (h : rules ∈ t.total.transitions.toList) :
    (∃ rules' ∈ t.transitions.toList, rules = Automaton.sinking t.stateCount rules') ∨
      rules = [] ∨ rules = Automaton.sinkRules t.stateCount := by
  simp only [Table.total, padded, completed, Array.toList_push, Array.toList_append, Array.toList_map,
    Array.toList_replicate, List.mem_append, List.mem_map, List.mem_replicate,
    List.mem_singleton] at h
  rcases h with (⟨rules', mem, rfl⟩ | ⟨-, rfl⟩) | rfl
  · exact Or.inl ⟨rules', mem, rfl⟩
  · exact Or.inr (Or.inl rfl)
  · exact Or.inr (Or.inr rfl)

theorem Deterministic.total (h : t.Deterministic) : t.total.Deterministic where
  fits := by
    have size_le := h.fits.1
    apply fits_of_size_eq
    simp only [Table.total, padded, completed, Array.size_push, Array.size_append, Array.size_map,
      Array.size_replicate]
    omega
  initial_lt := Nat.lt_succ_of_lt h.initial_lt
  finals_lt q hq := Nat.lt_succ_of_lt (h.finals_lt q hq)
  rules_lt rules hrules := by
    rcases mem_transitions_total hrules with ⟨rules', mem, rfl⟩ | rfl | rfl
    · exact Automaton.sinking_lt (h.rules_lt rules' mem)
    · exact List.forall_mem_nil _
    · exact Automaton.sinkRules_lt
  apart rules hrules := by
    rcases mem_transitions_total hrules with ⟨rules', mem, rfl⟩ | rfl | rfl
    · exact Automaton.pairwise_disjoint_iff.mpr fun l =>
        Nat.le_of_eq (Automaton.length_filter_sinking (h.apart rules' mem) l)
    · exact .nil
    · exact List.pairwise_singleton _ _

/-! ## Runs -/

theorem evalFirstFrom_cons {q : Nat} {rules : List Rule} (h : t.rulesAt q = .ok rules) (l : Letter)
    (w : Word) : t.evalFirstFrom q (l :: w) =
      match rules.find? (·.guard.eval l) with
      | some r => t.evalFirstFrom r.target w
      | none => .ok .failed := by
  rw [evalFirstFrom, h]
  rfl

theorem evalFirstFrom_cons_of_le {q : Nat} (h : t.transitions.size ≤ q) (l : Letter) (w : Word) :
    t.evalFirstFrom q (l :: w) = .error .outOfRange := by
  rw [evalFirstFrom, rulesAt_of_le h]
  rfl

/-- A table with one list of rules for each state, rules that lead to states, and its final states in
    ascending order. -/
structure Sound (t : Table) : Prop where
  initial_lt : t.initial < t.stateCount
  size_eq : t.transitions.size = t.stateCount
  items_finals : t.toAutomaton.finals.items = t.finals
  target_lt : ∀ rules ∈ t.transitions.toList, ∀ r ∈ rules, r.target < t.stateCount

theorem Sound.isFinal_toAutomaton (h : t.Sound) (q : Nat) :
    t.toAutomaton.isFinal q = t.isFinal q := by
  unfold Automaton.isFinal SortedSet.contains SortedSet.place isFinal placeOf
  rw [h.items_finals]

theorem Sound.evalFirstFrom_eq (h : t.Sound) {q : Nat} (hq : q < t.stateCount) (w : Word) :
    t.evalFirstFrom q w = .ok (t.toAutomaton.evalFirstFrom q w) := by
  induction w generalizing q with
  | nil => rw [evalFirstFrom, Automaton.evalFirstFrom, h.isFinal_toAutomaton]
  | cons l w ih =>
    have listed : q < t.transitions.size := h.size_eq ▸ hq
    have rules : t.toAutomaton.rulesFrom q = t.transitions[q] := by
      simp [Automaton.rulesFrom, toAutomaton, listed]
    rw [evalFirstFrom_cons (rulesAt_of_lt listed), Automaton.evalFirstFrom, Automaton.firstTarget?,
      rules]
    cases found : t.transitions[q].find? (·.guard.eval l) with
    | none => rfl
    | some r =>
      have mem := List.mem_of_find?_eq_some found
      exact ih (h.target_lt _ (Array.getElem_mem_toList listed) r mem)

theorem Sound.evalFirst_toAutomaton (h : t.Sound) (w : Word) :
    t.evalFirst w = .ok (t.toAutomaton.evalFirst w) := by
  have none_iff : t.toAutomaton.finals.isEmpty = t.finals.isEmpty := by
    rw [SortedSet.isEmpty, h.items_finals]
  rw [evalFirst, h.evalFirstFrom_eq h.initial_lt, ← none_iff]
  show _ = Except.ok (ite _ _ _)
  split
  · rfl
  · rfl

theorem Deterministic.target_lt (h : t.Deterministic) {q : Nat} (listed : q < t.transitions.size)
    {l : Letter} {r : Rule} (found : t.transitions[q].find? (·.guard.eval l) = some r) :
    r.target < t.stateCount :=
  (h.rules_lt _ (Array.getElem_mem_toList listed) r (List.mem_of_find?_eq_some found)).1

/-- Every run in the sink stays there, and it is not final. -/
theorem Deterministic.evalFirstFrom_sink (h : t.Deterministic) (w : Word) :
    t.total.evalFirstFrom t.stateCount w = .ok .pending := by
  induction w with
  | nil =>
    have other : t.total.isFinal t.stateCount = false := h.isFinal_sink
    rw [evalFirstFrom, other]
    rfl
  | cons l w ih =>
    rw [evalFirstFrom_cons (rulesAt_total_sink h.fits.1)]
    exact ih

/-- What totalisation makes of the outcome of a run: a run that had to stop goes on in the sink,
    except where it stopped for want of a list of rules. -/
def completedVerdict : Except Fault Verdict → Verdict
  | .ok .ok => .ok
  | .ok _ => .pending
  | .error _ => .failed

theorem Deterministic.evalFirstFrom_total (h : t.Deterministic) {q : Nat} (hq : q < t.stateCount)
    (w : Word) : t.total.evalFirstFrom q w = .ok (completedVerdict (t.evalFirstFrom q w)) := by
  induction w generalizing q with
  | nil =>
    show Except.ok (if t.isFinal q then Verdict.ok else .pending) = _
    rw [evalFirstFrom]
    split
    · rfl
    · rfl
  | cons l w ih =>
    by_cases listed : q < t.transitions.size
    · rw [evalFirstFrom_cons (rulesAt_total_of_lt listed), Automaton.find?_sinking,
        evalFirstFrom_cons (rulesAt_of_lt listed)]
      cases found : t.transitions[q].find? (·.guard.eval l) with
      | some r => exact ih (h.target_lt listed found)
      | none =>
        -- the letter enabled no rule, so the run goes to the sink
        exact h.evalFirstFrom_sink w
    · -- without a list there is no next state in either table
      have unlisted := Nat.le_of_not_lt listed
      rw [evalFirstFrom_cons (rulesAt_total_of_le unlisted hq), evalFirstFrom_cons_of_le unlisted]
      rfl

theorem Deterministic.evalFirst_total (h : t.Deterministic) (w : Word) : t.total.evalFirst w =
    .ok (if t.finals.isEmpty then .failed else completedVerdict (t.evalFirst w)) := by
  unfold evalFirst
  show (if t.finals.isEmpty then _ else _) = _
  split
  · rfl
  · exact h.evalFirstFrom_total h.initial_lt w

theorem Deterministic.exists_evalFirst (h : t.Deterministic)
    (complete : t.transitions.size = t.stateCount) (w : Word) : ∃ v, t.evalFirst w = .ok v := by
  have run : ∀ q < t.stateCount, ∃ v, t.evalFirstFrom q w = .ok v := by
    induction w with
    | nil => exact fun q _ => ⟨_, rfl⟩
    | cons l w ih =>
      intro q hq
      have listed : q < t.transitions.size := complete ▸ hq
      rw [evalFirstFrom_cons (rulesAt_of_lt listed)]
      cases found : t.transitions[q].find? (·.guard.eval l) with
      | none => exact ⟨_, rfl⟩
      | some r => exact ih _ (h.target_lt listed found)
  rw [evalFirst]
  split
  · exact ⟨_, rfl⟩
  · exact run _ h.initial_lt

/-! ## Totalisation -/

/-- Totalisation of a table that passes the check for determinism gives a table that passes it too.
    The result has one state more, which is not final and cannot be left, and it matches the same
    words.  Each letter enables exactly one rule in every state that had a list of rules and in the
    new one, and none in a state without a list.  If there is no such state, no run of the given
    table ends in a fault. -/
theorem totalize_exact (t : Table) (ctx ctx' ctx'' : Context)
    (passes : (t.checkDeterministic.run.run ctx).1 = .ok ()) :
    ∃ u, (t.totalize.run.run ctx').1 = .ok u ∧ u.stateCount = t.stateCount + 1 ∧
      (u.checkDeterministic.run.run ctx'').1 = .ok () ∧
      (∀ q < u.stateCount, ∃ rules, u.rulesAt q = .ok rules ∧ ∀ l, rules.countP (·.guard.eval l) =
        if q < t.transitions.size ∨ q = t.stateCount then 1 else 0) ∧
      u.isFinal t.stateCount = false ∧
      (∀ rules, u.rulesAt t.stateCount = .ok rules → ∀ r ∈ rules, r.target = t.stateCount) ∧
      (∀ w, ∃ v, u.evalFirst w = .ok v ∧ (v = .ok ↔ t.evalFirst w = .ok .ok)) ∧
      (t.transitions.size = t.stateCount → ∀ w, ∃ v, t.evalFirst w = .ok v) := by
  have h := (checkDeterministic_eq_ok_iff ctx).mp passes
  refine ⟨t.total, totalize_returns h.fits ctx', rfl,
    (checkDeterministic_eq_ok_iff ctx'').mpr h.total, fun q hq => h.countP_total hq, h.isFinal_sink,
    fun rules listed r hr => ?_, fun w => ⟨_, h.evalFirst_total w, ?_⟩, h.exists_evalFirst⟩
  · rw [rulesAt_total_sink h.fits.1] at listed
    cases listed
    rw [List.mem_singleton.mp hr]
  · rw [evalFirst]
    split
    · simp
    · cases t.evalFirstFrom t.initial w with
      | error fault => simp [completedVerdict]
      | ok v => cases v <;> simp [completedVerdict]

/-- Two rules that exclude each other, a state with an empty list, and one without a list that two
    letters cannot get beyond. -/
theorem totalize_exact_of_missing_list :
    let t : Table := ⟨2, 3, 0, #[1, 2],
      #[[⟨.var 0, 1⟩, ⟨.and (.not (.var 0)) (.var 1), 2⟩], []]⟩
    (t.checkDeterministic.run.run .empty).1 = .ok () ∧
      ∃ u, (t.totalize.run.run .empty).1 = .ok u ∧ u.stateCount = 4 ∧
        (u.checkDeterministic.run.run .empty).1 = .ok () ∧
        (∃ rules, u.rulesAt 0 = .ok rules ∧ rules.countP (·.guard.eval ∅) = 1) ∧
        (∃ rules, u.rulesAt 1 = .ok rules ∧ rules.countP (·.guard.eval ∅) = 1) ∧
        (∃ rules, u.rulesAt 2 = .ok rules ∧ rules.countP (·.guard.eval ∅) = 0) ∧
        u.evalFirst [.ofList [1]] = .ok .ok ∧ u.evalFirst [.ofList [1], ∅] ≠ .ok .ok ∧
        t.evalFirst [.ofList [1], ∅] = .error .outOfRange := by
  intro t
  have passes : (t.checkDeterministic.run.run .empty).1 = .ok () := by
    refine (checkDeterministic_eq_ok_iff .empty).mpr ⟨by decide, by decide, by decide, by decide, ?_⟩
    simp +contextual [t, Formula.eval]
  obtain ⟨u, returned, states, again, rules, -, -, same, -⟩ :=
    totalize_exact t .empty .empty .empty passes
  have matched : t.evalFirst [.ofList [1]] = .ok .ok := by
    have final : t.isFinal 2 = true := by decide +kernel
    rw [evalFirst]
    exact congrArg (fun final => Except.ok (if final then Verdict.ok else .pending)) final
  have stuck : t.evalFirst [.ofList [1], ∅] = .error .outOfRange := rfl
  have enabled : ∀ q < 4, ∃ rules, u.rulesAt q = .ok rules ∧ rules.countP (·.guard.eval ∅) =
      if q < 2 ∨ q = 3 then 1 else 0 := by
    intro q hq
    obtain ⟨found, listed, count⟩ := rules q (states ▸ hq)
    exact ⟨found, listed, count ∅⟩
  refine ⟨passes, u, returned, states, again, enabled 0 (by decide), enabled 1 (by decide),
    enabled 2 (by decide), ?_, ?_, stuck⟩
  · obtain ⟨v, verdict, iff⟩ := same [.ofList [1]]
    rw [verdict, iff.mpr matched]
  · obtain ⟨v, verdict, iff⟩ := same [.ofList [1], ∅]
    rw [verdict]
    intro ok
    rw [iff.mp (Except.ok.inj ok)] at stuck
    cases stuck

/-- The check passes a table whose only state has no list of rules.  Totalisation adds a sink, but no
    rule that leads there, so no letter enables a rule of the initial state. -/
theorem totalize_keeps_missing_list :
    let t : Table := ⟨0, 1, 0, #[0], #[]⟩
    (t.checkDeterministic.run.run .empty).1 = .ok () ∧
      t.validate = .error (.wrongListCount 1 0) ∧
      ∃ u, (t.totalize.run.run .empty).1 = .ok u ∧ 0 < u.stateCount ∧ u.evalFirst [∅] = .ok .failed ∧
        ∀ l, ¬∃ rules, u.rulesAt 0 = .ok rules ∧ rules.countP (·.guard.eval l) = 1 := by
  refine ⟨rfl, rfl, ⟨0, 2, 0, #[0], #[[], [⟨.const true, 1⟩]]⟩, rfl, Nat.zero_lt_two,
    rfl, ?_⟩
  rintro l ⟨rules, listed, one⟩
  cases listed
  cases one

end Table

end TraceRegex
