import TraceRegex.Proofs.Algebra
import TraceRegex.Proofs.Determinization

/-! # Complements

In a total automaton every word can be read to its end, and if the automaton is deterministic in one
way only.  So a word is accepted after the final and the other states have been swapped exactly when
it was not accepted before.
-/

namespace TraceRegex

namespace Automaton

variable {a : Automaton}

/-! ## Totalisation -/

/-- A formula for the letters that enable none of the rules. -/
def remainder (rules : List Rule) : Formula :=
  (Build.simplify (.not (Build.disjunction (rules.map Rule.guard)).result)).result

theorem eval_remainder {rules : List Rule} {l : Letter} :
    (remainder rules).eval l = true ↔ ∀ r ∈ rules, ¬r.guard.eval l = true := by
  have restates := Build.restates_simplify (.not (Build.disjunction (rules.map Rule.guard)).result)
  rw [remainder, restates.eval_eq l]
  simp [Formula.eval, Build.eval_disjunction]

theorem varCount_remainder_le {rules : List Rule} {n : Nat}
    (h : ∀ r ∈ rules, r.guard.varCount ≤ n) : (remainder rules).varCount ≤ n := by
  refine Nat.le_trans (Build.restates_simplify _).varCount_le (Build.varCount_disjunction_le ?_)
  intro f hf
  obtain ⟨r, hr, rfl⟩ := List.mem_map.mp hf
  exact h r hr

/-- The rules that `withSink` makes. -/
def sinking (sink : Nat) (rules : List Rule) : List Rule :=
  if (remainder rules).satisfiable then rules ++ [⟨remainder rules, sink⟩] else rules

theorem withSink_returns (sink : Nat) (rules : List Rule) :
    Build.Returns (withSink sink rules) (sinking sink rules) := by
  refine (Build.disjunction_steady _).bind ((Build.not_returns _).bind ?_)
  refine (Build.simplify_steady _).bind ((Build.sat_returns _).bind ?_)
  exact Build.Returns.pure _

/-- A letter enables the rules that it enabled before, and the rule to the sink if it enabled none. -/
theorem filter_sinking {sink : Nat} {rules : List Rule} {l : Letter} :
    (sinking sink rules).filter (·.guard.eval l) =
      if rules.filter (·.guard.eval l) = [] then [⟨remainder rules, sink⟩]
      else rules.filter (·.guard.eval l) := by
  have rest_iff : (remainder rules).eval l = true ↔ rules.filter (·.guard.eval l) = [] := by
    rw [eval_remainder, List.filter_eq_nil_iff]
  unfold sinking
  split
  · rw [List.filter_append]
    split
    · next none => simp [none, rest_iff.mpr none]
    · next some => simp [mt rest_iff.mp some]
  · next unsatisfiable =>
    -- no rule to the sink is needed, because some rule is always enabled
    have some : rules.filter (·.guard.eval l) ≠ [] := fun none =>
      unsatisfiable (Formula.satisfiable_iff.mpr ⟨l, rest_iff.mpr none⟩)
    rw [if_neg some]

theorem leads_iff_filter {rules : List Rule} {l : Letter} {t : Nat} :
    Leads rules l t ↔ ∃ r ∈ rules.filter (·.guard.eval l), r.target = t := by
  simp only [Leads, List.mem_filter, and_assoc]

theorem leads_sinking {sink : Nat} {rules : List Rule} {l : Letter} {t : Nat} :
    Leads (sinking sink rules) l t ↔
      Leads rules l t ∨ (t = sink ∧ ∀ s, ¬Leads rules l s) := by
  simp only [leads_iff_filter, filter_sinking]
  split
  · next none => simp [none, eq_comm]
  · next some =>
    obtain ⟨r, hr⟩ := List.exists_mem_of_ne_nil _ some
    have led : ¬∀ s, ¬∃ r ∈ rules.filter (·.guard.eval l), r.target = s := fun none =>
      none _ ⟨r, hr, rfl⟩
    simp only [led, and_false, or_false]

theorem sinking_lt {sink atoms : Nat} {rules : List Rule}
    (h : ∀ r ∈ rules, r.target < sink ∧ r.guard.varCount ≤ atoms) :
    ∀ r ∈ sinking sink rules, r.target < sink + 1 ∧ r.guard.varCount ≤ atoms := by
  have own : ∀ r ∈ rules, r.target < sink + 1 ∧ r.guard.varCount ≤ atoms := fun r hr =>
    ⟨Nat.lt_succ_of_lt (h r hr).1, (h r hr).2⟩
  intro r hr
  rw [sinking] at hr
  split at hr
  · rcases List.mem_append.mp hr with hr | hr
    · exact own r hr
    · rw [List.mem_singleton.mp hr]
      exact ⟨Nat.lt_succ_self _, varCount_remainder_le fun r hr => (h r hr).2⟩
  · exact own r hr

theorem sinkRules_lt {sink atoms : Nat} :
    ∀ r ∈ sinkRules sink, r.target < sink + 1 ∧ r.guard.varCount ≤ atoms := by
  intro r hr
  rw [List.mem_singleton.mp hr]
  exact ⟨Nat.lt_succ_self _, Nat.zero_le _⟩

/-- The automaton that `totalize` makes. -/
def total (a : Automaton) : Automaton :=
  { a with
    stateCount := a.stateCount + 1
    transitions := a.transitions.map (sinking a.stateCount) ++ [sinkRules a.stateCount] }

theorem totalize_returns (a : Automaton) : Build.Returns a.totalize a.total := by
  have transitions : Build.Returns (a.transitions.mapM (withSink a.stateCount))
      (a.transitions.map (sinking a.stateCount)) :=
    Build.Returns.mapM fun rules _ => withSink_returns a.stateCount rules
  unfold totalize
  exact transitions.bind (Build.Returns.pure _)

theorem getD_map_of_lt {α β : Type} {xs : List (List α)} (f : List α → List β) {q : Nat}
    (h : q < xs.length) : (xs.map f).getD q [] = f (xs.getD q []) := by
  simp [List.getD_eq_getElem?_getD, h]

theorem rulesFrom_total {q : Nat} (ha : a.Valid) (hq : q < a.stateCount) :
    a.total.rulesFrom q = sinking a.stateCount (a.rulesFrom q) := by
  have hq' : q < a.transitions.length := ha.length_transitions ▸ hq
  have left : q < (a.transitions.map (sinking a.stateCount)).length := by
    rw [List.length_map]
    exact hq'
  exact (getD_append_left left).trans (getD_map_of_lt (sinking a.stateCount) hq')

theorem step_total {q t : Nat} {l : Letter} (ha : a.Valid) (hq : q < a.stateCount) :
    a.total.Step q l t ↔ a.Step q l t ∨ (t = a.stateCount ∧ ∀ s, ¬a.Step q l s) := by
  show Leads (a.total.rulesFrom q) l t ↔ _
  rw [rulesFrom_total ha hq]
  exact leads_sinking

theorem step_total_sink {t : Nat} {l : Letter} (ha : a.Valid) :
    a.total.Step a.stateCount l t ↔ t = a.stateCount := by
  have rules : a.total.rulesFrom a.stateCount = sinkRules a.stateCount := by
    simp [rulesFrom, total, List.getD_eq_getElem?_getD, ha.length_transitions]
  simp only [Step, rules, sinkRules, List.mem_singleton, exists_eq_left, Formula.eval, true_and]
  exact eq_comm

theorem valid_total (ha : a.Valid) : a.total.Valid := by
  refine valid_of_rules (Nat.lt_succ_of_lt ha.initial_lt) ?_
    (fun q hq => Nat.lt_succ_of_lt (ha.finals_lt q hq)) ?_
  · simp [total, ha.length_transitions]
  · intro rules hrules
    rcases List.mem_append.mp hrules with hrules | hrules
    · obtain ⟨rules', hrules', rfl⟩ := List.mem_map.mp hrules
      exact sinking_lt fun r hr =>
        ⟨ha.target_lt rules' hrules' r hr, ha.varCount_le rules' hrules' r hr⟩
    · rw [List.mem_singleton.mp hrules]
      exact sinkRules_lt

/-! ## Runs of the total automaton -/

theorem eq_sink_of_not_lt {q : Nat} (hq : q < a.total.stateCount) (outside : ¬q < a.stateCount) :
    q = a.stateCount :=
  Nat.le_antisymm (Nat.le_of_lt_succ hq) (Nat.le_of_not_lt outside)

theorem exists_step_total (ha : a.Valid) {q : Nat} (hq : q < a.total.stateCount) (l : Letter) :
    ∃ t, a.total.Step q l t := by
  by_cases inside : q < a.stateCount
  · by_cases some : ∃ s, a.Step q l s
    · obtain ⟨s, step⟩ := some
      exact ⟨s, (step_total ha inside).mpr (Or.inl step)⟩
    · exact ⟨a.stateCount, (step_total ha inside).mpr (Or.inr ⟨rfl, fun s step => some ⟨s, step⟩⟩)⟩
  · obtain rfl := eq_sink_of_not_lt hq inside
    exact ⟨_, (step_total_sink ha).mpr rfl⟩

theorem exists_path_total (ha : a.Valid) {q : Nat} (hq : q < a.total.stateCount) (w : Word) :
    ∃ t, a.total.Path q w t := by
  induction w generalizing q with
  | nil => exact ⟨q, .nil⟩
  | cons l w ih =>
    obtain ⟨s, step⟩ := exists_step_total ha hq l
    obtain ⟨t, rest⟩ := ih ((valid_total ha).step_lt step).2
    exact ⟨t, path_cons_iff.mpr ⟨s, step, rest⟩⟩

theorem step_total_unique (ha : a.Valid) (single : a.Deterministic) {q t t' : Nat} {l : Letter}
    (step : a.total.Step q l t) (step' : a.total.Step q l t') : t = t' := by
  have hq := ((valid_total ha).step_lt step).1
  by_cases inside : q < a.stateCount
  · rcases (step_total ha inside).mp step with own | ⟨sink, none⟩
    · rcases (step_total ha inside).mp step' with own' | ⟨-, none⟩
      · exact single.step_unique own own'
      · exact absurd own (none t)
    · rcases (step_total ha inside).mp step' with own' | ⟨sink', -⟩
      · exact absurd own' (none t')
      · rw [sink, sink']
  · obtain rfl := eq_sink_of_not_lt hq inside
    rw [(step_total_sink ha).mp step, (step_total_sink ha).mp step']

theorem path_total_unique (ha : a.Valid) (single : a.Deterministic) {q t t' : Nat} {w : Word}
    (path : a.total.Path q w t) (path' : a.total.Path q w t') : t = t' := by
  induction w generalizing q with
  | nil => rw [← path_nil_iff.mp path, ← path_nil_iff.mp path']
  | cons l w ih =>
    obtain ⟨s, first, rest⟩ := path_cons_iff.mp path
    obtain ⟨s', first', rest'⟩ := path_cons_iff.mp path'
    obtain rfl := step_total_unique ha single first first'
    exact ih rest rest'

theorem path_total_sink (ha : a.Valid) {t : Nat} {w : Word} (h : a.total.Path a.stateCount w t) :
    t = a.stateCount := by
  induction w with
  | nil => exact (path_nil_iff.mp h).symm
  | cons l w ih =>
    obtain ⟨s, first, rest⟩ := path_cons_iff.mp h
    exact ih ((step_total_sink ha).mp first ▸ rest)

/-- A run that does not end in the sink never was there. -/
theorem path_total_iff (ha : a.Valid) {q t : Nat} {w : Word} (hq : q < a.stateCount)
    (ht : t < a.stateCount) : a.total.Path q w t ↔ a.Path q w t := by
  induction w generalizing q with
  | nil => simp only [path_nil_iff]
  | cons l w ih =>
    simp only [path_cons_iff, step_total ha hq]
    constructor
    · rintro ⟨s, own | ⟨rfl, -⟩, rest⟩
      · exact ⟨s, own, (ih (ha.step_lt own).2).mp rest⟩
      · exact absurd (path_total_sink ha rest) (Nat.ne_of_lt ht)
    · rintro ⟨s, own, rest⟩
      exact ⟨s, Or.inl own, (ih (ha.step_lt own).2).mpr rest⟩

theorem accepts_total_iff (ha : a.Valid) {w : Word} : a.total.Accepts w ↔ a.Accepts w := by
  constructor
  · rintro ⟨q, hq, path⟩
    exact ⟨q, hq, (path_total_iff ha ha.initial_lt (ha.finals_lt q hq)).mp path⟩
  · rintro ⟨q, hq, path⟩
    exact ⟨q, hq, (path_total_iff ha ha.initial_lt (ha.finals_lt q hq)).mpr path⟩

/-! ## Swapping final and other states -/

theorem mem_finals_swapFinals {q : Nat} :
    q ∈ a.swapFinals.finals ↔ q < a.stateCount ∧ ¬q ∈ a.finals := by
  simp [swapFinals]

theorem valid_swapFinals (ha : a.Valid) : a.swapFinals.Valid :=
  ⟨ha.initial_lt, ha.length_transitions, fun _ hq => (mem_finals_swapFinals.mp hq).1, ha.target_lt,
    ha.varCount_le⟩

theorem accepts_swapFinals_total_iff (ha : a.Valid) (single : a.Deterministic) {w : Word} :
    a.total.swapFinals.Accepts w ↔ ¬a.Accepts w := by
  rw [← accepts_total_iff ha]
  have initial_lt : a.total.initial < a.total.stateCount := (valid_total ha).initial_lt
  constructor
  · rintro ⟨q, hq, path⟩ ⟨q', hq', path'⟩
    obtain rfl := path_total_unique ha single ((path_with_finals _).mp path) path'
    exact (mem_finals_swapFinals.mp hq).2 hq'
  · intro rejected
    -- totality gives a run, and where it ends decides
    obtain ⟨t, path⟩ := exists_path_total ha initial_lt w
    have other : ¬t ∈ a.total.finals := fun final => rejected ⟨t, final, path⟩
    exact ⟨t, mem_finals_swapFinals.mpr ⟨(valid_total ha).path_lt path initial_lt, other⟩,
      (path_with_finals _).mpr path⟩

theorem invert_returns (a : Automaton) :
    Build.Returns a.invert a.total.swapFinals.clean.result :=
  (totalize_returns a).bind (clean_returns _).steady

/-- The complement accepts the words that are not accepted, and like all that was cleaned it is
    trim. -/
theorem complement_returns (ha : a.Valid) : ∃ c, Build.Returns a.complement c ∧ c.Trim ∧
    c.atomCount = a.atomCount ∧ ∀ w, c.Accepts w ↔ ¬a.Accepts w := by
  obtain ⟨s, complete, -, returned⟩ := determinize_returns ha
  have valid : (s.toAutomaton a.atomCount a.finals.toList).Valid := complete.valid ha
  have swapped := valid_swapFinals (valid_total valid)
  refine ⟨_, returned.bind (invert_returns _), trim_clean swapped, ?_, fun w => ?_⟩
  · exact atomCount_clean _
  rw [accepts_clean_iff swapped, accepts_swapFinals_total_iff valid complete.deterministic,
    complete.accepts_iff]

/-- The complement is well formed, has the same atoms, and matches exactly the words that the
    automaton does not match.  It gives up on a word exactly when every extension of it is matched,
    so its verdicts are exact although those of the automaton need not be. -/
theorem complement_exact (a : Automaton) (valid : a.validate = .ok ()) (ctx : Context) :
    let c := (a.complement.run ctx).1
    (∀ w, c.eval w = .ok ↔ a.eval w ≠ .ok) ∧
      (∀ w, c.eval w = .failed ↔ ∀ u, a.eval (w ++ u) = .ok) ∧
      c.validate = .ok () ∧ c.atomCount = a.atomCount := by
  intro c
  obtain ⟨c', returned, trim, atoms, accepts_iff⟩ := complement_returns (validate_iff.mp valid)
  have c_eq : c = c' := returned ctx
  rw [c_eq]
  have judges : ∀ w, (c'.eval w).Judges (fun w => a.eval w ≠ .ok) w := fun w =>
    (trim.judges w).congr fun w => by rw [accepts_iff, ne_eq, eval_eq_ok_iff]
  refine ⟨fun w => (judges w).1, fun w => ?_, validate_iff.mpr trim.valid, atoms⟩
  rw [(judges w).2.2]
  exact forall_congr' fun u => Decidable.not_not

/-- Two rules of the initial state overlap, a third cannot be enabled and is the only one to lead to
    the second match, and one state is a dead end. -/
theorem complement_exact_of_overlap :
    let a : Automaton := ⟨2, 4, 0, .listing [1, 3] (by decide),
      [[⟨.var 0, 1⟩, ⟨.const true, 0⟩, ⟨.and (.var 1) (.not (.var 1)), 3⟩], [⟨.var 1, 2⟩], [], []]⟩
    let c := (a.complement.run .empty).1
    a.validate = .ok () ∧ c.eval [] = .ok ∧ c.eval [.ofList [0, 1]] ≠ .ok ∧
      c.eval [.ofList [0, 1], .ofList [1]] = .ok ∧ c.eval [.ofList [0]] ≠ .failed ∧
      c.validate = .ok () ∧ c.atomCount = 2 := by
  intro a c
  have valid : a.validate = .ok () := rfl
  obtain ⟨matches_iff, failed_iff, passes, atoms⟩ := complement_exact a valid .empty
  have refused : a.eval [.ofList [0], ∅] ≠ .ok := by decide
  refine ⟨valid, (matches_iff _).mpr (by decide), ?_, (matches_iff _).mpr (by decide), ?_, passes,
    atoms⟩
  · intro matched
    exact (matches_iff _).mp matched rfl
  · -- a letter without the first atom takes the match back
    intro failed
    exact refused ((failed_iff _).mp failed [∅])

end Automaton

end TraceRegex
