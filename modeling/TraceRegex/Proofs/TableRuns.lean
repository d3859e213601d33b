import TraceRegex.Proofs.SafeRuns
import TraceRegex.Proofs.Totalization
import TraceRegex.Table.Document

/-! # Executors on the snapshots of tables

A table and its snapshot list the final states in any order and as often as they like, but the
executors look at them by membership only.  So an executor that follows all enabled rules reports
what the table evaluates to, as soon as the table passes its check.

A table that passes the check for determinism may lack lists of rules.  In its snapshot the states
without a list have an empty one, and both executors report *failed* when a letter comes in such a
state.  There the evaluation of the table itself ends in a fault; apart from that the three agree.
-/

namespace TraceRegex

/-! ## Making the snapshot -/

theorem Formula.exists_encode {f : Formula} (h : f.varCount ≤ maxWord16) :
    ∃ code, f.encode = .ok code := by
  rcases encode_cases f with ⟨encoded, -⟩ | ⟨i, mentioned, large, -⟩
  · exact encoded
  · exact absurd (varCount_le_iff.mp h i mentioned) (Nat.not_lt.mpr (Nat.le_of_lt large))

theorem Snapshot.exists_ofAutomaton (kind : SnapshotKind) {a : Automaton} (ha : a.Valid)
    (atoms : a.atomCount ≤ maxWord16) : ∃ s, ofAutomaton kind a = .ok s := by
  have coded : ∀ rules ∈ a.transitions, ∃ coded, rules.mapM encodeRule = .ok coded ∧ True := by
    intro rules hrules
    obtain ⟨coded, encoded, -⟩ := exists_mapM (f := encodeRule) (p := fun _ => True) fun r hr => by
      obtain ⟨code, encoded⟩ :=
        Formula.exists_encode (Nat.le_trans (ha.varCount_le rules hrules r hr) atoms)
      exact ⟨⟨code, r.target⟩, by rw [encodeRule, encoded]; rfl, trivial⟩
    exact ⟨coded, encoded, trivial⟩
  obtain ⟨transitions, encoded, -⟩ := exists_mapM coded
  exact ⟨_, by rw [ofAutomaton, encoded]; rfl⟩

/-! ## The order of the final states -/

section

variable {s : Snapshot} {finals : List Nat}

theorem SetRun.classify_withFinals (same : ∀ q, q ∈ finals ↔ q ∈ s.finals) :
    classify { s with finals } = classify s := by
  have any (live : StateSet) : finals.any live.contains = s.finals.any live.contains := by
    rw [Bool.eq_iff_iff, List.any_eq_true, List.any_eq_true]
    simp only [same]
  funext live
  rw [classify, classify, ← any live]

theorem SetRun.start_withFinals (same : ∀ q, q ∈ finals ↔ q ∈ s.finals) :
    start { s with finals } = start s := by
  have none : finals.isEmpty = s.finals.isEmpty := by
    rw [Bool.eq_iff_iff, List.isEmpty_iff, List.isEmpty_iff, List.eq_nil_iff_forall_not_mem,
      List.eq_nil_iff_forall_not_mem]
    simp only [same]
  rw [start, start, classify_withFinals same, none]

theorem SetRun.advance_withFinals (same : ∀ q, q ∈ finals ↔ q ∈ s.finals) :
    advance { s with finals } = advance s := by
  funext run l
  rw [advance, advance, classify_withFinals same]
  rfl

theorem Snapshot.Checked.withFinals (h : s.Checked) (same : ∀ q, q ∈ finals ↔ q ∈ s.finals) :
    Snapshot.Checked { s with finals } where
  initials_lt := h.initials_lt
  length_transitions := h.length_transitions
  target_lt := h.target_lt
  guard_coded := h.guard_coded
  kind_known := h.kind_known
  initials_ne_nil := h.initials_ne_nil
  finals_lt q hq := h.finals_lt q ((same q).mp hq)
  guard_checked := h.guard_checked

end

/-! ## What executors report -/

namespace Executor

variable {s : Snapshot} {a : Automaton} {x : Executor} {verdicts : Word → Verdict → Prop}

/-- After every row of calls the executor is there with a verdict that goes with the letters read
    since the last reset.  Once that is *failed*, no letter changes anything. -/
def Reports (x : Executor) (verdicts : Word → Verdict → Prop) : Prop :=
  ∀ calls : List Call, ∃ y, calls.foldlM (Call.perform reset advanceWithin) x = .ok y ∧
    verdicts (Call.read calls) y.verdict ∧
    (y.verdict = .failed → ∀ w : Word, w.foldlM advanceWithin y = .ok y)

theorem advanceWithin_of_failed (h : x.verdict = .failed) (l : Letter) :
    x.advanceWithin l = .ok x := by
  obtain ⟨s, run⟩ := x
  cases run with
  | set run =>
    have failed : run.verdict = .failed := h
    have stays : run.advance s l = .ok run := by
      rw [SetRun.advance, if_pos failed]
      rfl
    simp only [advanceWithin, advance, failed, stays]
    rfl
  | state run =>
    have failed : run.verdict = .failed := h
    have stays : run.advance s l = .ok run := by
      rw [StateRun.advance, if_pos failed]
      rfl
    simp only [advanceWithin, advance, stays]
    rfl

theorem foldlM_of_failed (h : x.verdict = .failed) (w : Word) :
    w.foldlM advanceWithin x = .ok x := by
  induction w with
  | nil => rfl
  | cons l w ih =>
    rw [List.foldlM_cons, advanceWithin_of_failed h]
    exact ih

theorem Reports.mono {verdicts' : Word → Verdict → Prop} (h : x.Reports verdicts)
    (imp : ∀ w v, verdicts w v → verdicts' w v) : x.Reports verdicts' := by
  intro calls
  obtain ⟨y, done, verdict, sticks⟩ := h calls
  exact ⟨y, done, imp _ _ verdict, sticks⟩

/-- An executor reports what an invariant says about it that its calls keep. -/
theorem reports_of_keeps (checked : s.Checked) (fits : s.stateCount ≤ maxTableBytes)
    (inside : Inside s x) {tracks : Executor → Word → Prop}
    (keeps : Call.Keeps reset advance tracks) (h : tracks x [])
    (verdict : ∀ y w, tracks y w → verdicts w y.verdict) : x.Reports verdicts := by
  intro calls
  obtain ⟨y, done, within⟩ := inside.exists_foldlM checked calls
  obtain ⟨y', done', tracked⟩ := keeps.exists_foldlM h calls
  obtain rfl : y' = y := Except.ok.inj (done'.symm.trans done)
  exact ⟨y', within fits, verdict y' _ tracked, foldlM_of_failed⟩

/-- The executor that follows all enabled rules reports the verdicts of the automaton, in whatever
    order its snapshot lists the final states. -/
theorem reports_openAll (h : s.Represents a) (ha : a.Valid) (known : s.kind.isKnown = true)
    (fits : s.stateCount ≤ maxTableBytes) {finals : List Nat}
    (same : ∀ q, q ∈ finals ↔ q ∈ s.finals) :
    ∃ x, openAll { s with finals } = .ok x ∧ x.Reports fun w v => v = a.eval w := by
  have checked := (h.checked ha known).withFinals same
  have keeps : Call.Keeps reset advance fun x w =>
      ∃ run, x = ⟨{ s with finals }, .set run⟩ ∧ SetRun.Tracks a run w := by
    refine ⟨fun x w tracked => ?_, fun x w l tracked => ?_⟩
    · obtain ⟨run, rfl, -⟩ := tracked
      exact ⟨_, rfl, _, rfl, SetRun.start_withFinals same ▸ SetRun.tracks_start h⟩
    · obtain ⟨run, rfl, tracks⟩ := tracked
      obtain ⟨next, moved, tracks⟩ := tracks.advance h ha l
      rw [← SetRun.advance_withFinals same] at moved
      exact ⟨_, advance_set moved, next, rfl, tracks⟩
  refine ⟨_, openAll_eq checked fits, reports_of_keeps checked fits (inside_followAll checked) keeps
    ⟨_, rfl, SetRun.start_withFinals same ▸ SetRun.tracks_start h⟩ ?_⟩
  rintro y w ⟨run, rfl, tracks⟩
  exact tracks.verdict_eq

/-- The executor that follows the first enabled rule reports the verdicts of the automaton when it
    is run in this way. -/
theorem reports_openFirst (h : s.Represents a) (ha : a.Valid) (known : s.kind.isKnown = true)
    (fits : s.stateCount ≤ maxTableBytes) :
    ∃ x, openFirst s = .ok x ∧ x.Reports fun w v => v = a.evalFirst w := by
  have checked := h.checked ha known
  obtain ⟨start, started, begins⟩ := StateRun.tracks_start h ha
  have first : followFirst s = .ok ⟨s, .state start⟩ := by
    rw [followFirst, started]
    rfl
  have keeps : Call.Keeps reset advance fun x w =>
      ∃ run, x = ⟨s, .state run⟩ ∧ StateRun.Tracks a run w := by
    refine ⟨fun x w tracked => ?_, fun x w l tracked => ?_⟩
    · obtain ⟨run, rfl, -⟩ := tracked
      exact ⟨_, first, _, rfl, begins⟩
    · obtain ⟨run, rfl, tracks⟩ := tracked
      obtain ⟨next, moved, tracks⟩ := tracks.advance h ha l
      exact ⟨_, advance_state moved, next, rfl, tracks⟩
  have opened : openFirst s = .ok ⟨s, .state start⟩ := by
    rw [openFirst, checked.checkRows_finals fits]
    exact first
  obtain ⟨x, made, inside⟩ := exists_followFirst checked
  cases first.symm.trans made
  refine ⟨_, opened, reports_of_keeps checked fits inside keeps ⟨_, rfl, begins⟩ ?_⟩
  rintro y w ⟨run, rfl, tracks⟩
  exact tracks.verdict_eq

end Executor

namespace Table

variable {t : Table}

/-! ## Evaluating a table -/

theorem valid_toAutomaton (h : t.validate = .ok ()) : t.toAutomaton.Valid := by
  have none : t.defect? = none := by
    unfold validate at h
    split at h
    · cases h
    · next none => exact none
  obtain ⟨initial, length, finals, rules⟩ := Automaton.defectOf?_eq_none_iff.mp none
  exact ⟨initial, length, fun q hq => finals q (SortedSet.mem_ofList.mp hq),
    fun list hlist r hr => (rules list hlist r hr).1,
    fun list hlist r hr => (rules list hlist r hr).2⟩

theorem exists_addTargets {rules : List Rule} (small : ∀ r ∈ rules, r.target < maxTableBytes)
    (l : Letter) (next : StateSet) : ∃ next', addTargets l next rules = .ok next' ∧
      ∀ q, q ∈ next' ↔ q ∈ next ∨ ∃ r ∈ rules, r.guard.eval l = true ∧ r.target = q := by
  induction rules generalizing next with
  | nil => exact ⟨next, rfl, by simp⟩
  | cons r rules ih =>
    rw [List.forall_mem_cons] at small
    cases enabled : r.guard.eval l with
    | true =>
      obtain ⟨next', added, mem⟩ := ih small.2 (next.insert r.target)
      refine ⟨next', ?_, fun q => ?_⟩
      · rw [addTargets, List.foldlM_cons, enabled, checkRow_eq_ok small.1]
        exact added
      · rw [mem, SortedSet.mem_insert, List.exists_mem_cons_iff]
        grind
    | false =>
      obtain ⟨next', added, mem⟩ := ih small.2 next
      refine ⟨next', ?_, fun q => ?_⟩
      · rw [addTargets, List.foldlM_cons, enabled]
        exact added
      · rw [mem]
        simp [enabled]

/-- The states that a letter leads to from states in range are found, and they are those of the
    automaton. -/
theorem exists_step (ha : t.toAutomaton.Valid) (fits : t.stateCount ≤ maxTableBytes) (l : Letter)
    {live : StateSet} (inside : ∀ q ∈ live, q < t.stateCount) :
    ∃ next, t.step l live = .ok next ∧
      ∀ q, q ∈ next ↔ q ∈ t.toAutomaton.step l live.toList := by
  have collect (states : List Nat) (found : StateSet) (inside : ∀ q ∈ states, q < t.stateCount) :
      ∃ next, states.foldlM (fun next q => do addTargets l next (← t.rulesAt q)) found = .ok next ∧
        ∀ q, q ∈ next ↔ q ∈ found ∨ ∃ p ∈ states, t.toAutomaton.Step p l q := by
    induction states generalizing found with
    | nil => exact ⟨found, rfl, by simp⟩
    | cons p states ih =>
      rw [List.forall_mem_cons] at inside
      have size_eq : t.transitions.size = t.stateCount := ha.length_transitions
      have listed : p < t.transitions.size := size_eq ▸ inside.1
      have rules : t.toAutomaton.rulesFrom p = t.transitions[p] := by
        simp [Automaton.rulesFrom, toAutomaton, listed]
      have small : ∀ r ∈ t.transitions[p], r.target < maxTableBytes := fun r hr =>
        Nat.lt_of_lt_of_le (ha.target_lt _ (Array.getElem_mem_toList listed) r hr) fits
      obtain ⟨found', added, mem⟩ := exists_addTargets small l found
      obtain ⟨next, rest, mem'⟩ := ih found' inside.2
      refine ⟨next, ?_, fun q => ?_⟩
      · rw [List.foldlM_cons, rulesAt_of_lt listed]
        show (addTargets l found t.transitions[p] >>= fun next => _) = _
        rw [added]
        exact rest
      · rw [mem', mem, List.exists_mem_cons_iff, or_assoc, Automaton.Step, rules]
  obtain ⟨next, found, mem⟩ := collect live.toList ∅ inside
  refine ⟨next, found, fun q => ?_⟩
  rw [mem, Automaton.mem_step]
  simp

/-- From a set of live states on, a table reads a word as the automaton with its entries does. -/
theorem evalFrom_eq (ha : t.toAutomaton.Valid) (fits : t.stateCount ≤ maxTableBytes) (w : Word)
    {live : StateSet} {states : List Nat} (same : ∀ q, q ∈ live ↔ q ∈ states)
    (inside : ∀ q ∈ live, q < t.stateCount) (alive : states ≠ []) :
    t.evalFrom live w = .ok (t.toAutomaton.evalFrom states w) := by
  induction w generalizing live states with
  | nil =>
    have accepted :
        t.finals.any live.contains = t.toAutomaton.finals.toList.any states.contains := by
      rw [Bool.eq_iff_iff, Array.any_eq_true', List.any_eq_true]
      simp [toAutomaton, SortedSet.contains_iff, same]
    have some : ¬states.isEmpty = true := by simpa using alive
    rw [evalFrom, Automaton.evalFrom, Automaton.classify, accepted, if_neg some]
  | cons l w ih =>
    obtain ⟨next, found, mem⟩ := exists_step ha fits l inside
    have same' : ∀ q, q ∈ next ↔ q ∈ t.toAutomaton.step l states := by
      intro q
      simp only [mem, Automaton.mem_step, SortedSet.mem_toList, same]
    have inside' : ∀ q ∈ next, q < t.stateCount := by
      intro q hq
      obtain ⟨p, -, step⟩ := Automaton.mem_step.mp ((same' q).mp hq)
      exact (ha.step_lt step).2
    rw [evalFrom, found, Automaton.evalFrom, if_neg (by simpa using alive)]
    show (if next.isEmpty then _ else t.evalFrom next w) = _
    by_cases none : t.toAutomaton.step l states = []
    · have empty : next.isEmpty = true := SortedSet.isEmpty_iff.mpr (by simp [same', none])
      rw [if_pos empty, none]
      cases w <;> rfl
    · have some : ¬next.isEmpty = true := by
        simpa [SortedSet.isEmpty_iff, same', ← List.eq_nil_iff_forall_not_mem] using none
      rw [if_neg some]
      exact ih same' inside' none

/-- A table that passes its check, and that there can be, evaluates to what the automaton with its
    entries does. -/
theorem eval_eq (ha : t.toAutomaton.Valid) (fits : t.stateCount ≤ maxTableBytes) (w : Word) :
    t.eval w = .ok (t.toAutomaton.eval w) := by
  have none_iff : t.finals.isEmpty = t.toAutomaton.finals.isEmpty := by
    rw [Bool.eq_iff_iff, SortedSet.isEmpty_iff]
    simp [toAutomaton, Array.eq_empty_iff_forall_not_mem]
  have initial_lt : t.initial < t.stateCount := ha.initial_lt
  have reached : t.evalFrom (.singleton t.initial) w =
      .ok (t.toAutomaton.evalFrom [t.initial] w) :=
    evalFrom_eq ha fits w (by simp) (by simpa using initial_lt) (List.cons_ne_nil _ _)
  unfold eval
  rw [checkRow_eq_ok (Nat.lt_of_lt_of_le initial_lt fits), Automaton.eval, ← none_iff]
  show (if t.finals.isEmpty then _ else t.evalFrom (.singleton t.initial) w) = _
  rw [reached]
  split <;> rfl

/-! ## Missing lists of rules -/

theorem rulesAt_padded_of_lt {q : Nat} (h : q < t.transitions.size) :
    t.padded.rulesAt q = .ok t.transitions[q] := by
  simp [rulesAt, padded, Array.getElem?_append, h]

theorem rulesAt_padded_of_le {q : Nat} (size_le : t.transitions.size ≤ q) (lt : q < t.stateCount) :
    t.padded.rulesAt q = .ok [] := by
  have outside : ¬q < t.transitions.size := Nat.not_lt.mpr size_le
  have inside : q - t.transitions.size < t.stateCount - t.transitions.size := by omega
  simp [rulesAt, padded, Array.getElem?_append, outside, inside]

theorem Deterministic.valid_padded (h : t.Deterministic) : t.padded.toAutomaton.Valid := by
  refine valid_toAutomaton ?_
  rw [validate, (defect?_padded_eq_none_iff h.fits.1).mpr ⟨h.initial_lt, h.finals_lt, h.rules_lt⟩]

theorem Deterministic.deterministic_padded (h : t.Deterministic) :
    t.padded.toAutomaton.Deterministic := by
  intro rules hrules
  simp only [toAutomaton, padded, Array.toList_append, Array.toList_replicate, List.mem_append,
    List.mem_replicate] at hrules
  rcases hrules with listed | ⟨-, rfl⟩
  · exact h.apart rules listed
  · exact .nil

theorem Deterministic.sound_padded (h : t.Deterministic)
    (ascending : t.finals.toList.Pairwise (· < ·)) : t.padded.Sound where
  initial_lt := h.initial_lt
  size_eq := h.valid_padded.length_transitions
  items_finals := Array.toList_inj.mp (SortedSet.toList_ofList ascending)
  target_lt := h.valid_padded.target_lt

/-- A run with empty lists in the place of missing ones differs only where one without them ends in
    a fault, and there it has failed. -/
theorem Deterministic.evalFirstFrom_padded (h : t.Deterministic) {q : Nat} (hq : q < t.stateCount)
    (w : Word) : t.evalFirstFrom q w = t.padded.evalFirstFrom q w ∨
      t.evalFirstFrom q w = .error .outOfRange ∧ t.padded.evalFirstFrom q w = .ok .failed ∧
        t.transitions.size < t.stateCount := by
  induction w generalizing q with
  | nil => exact .inl rfl
  | cons l w ih =>
    by_cases listed : q < t.transitions.size
    · rw [evalFirstFrom_cons (rulesAt_of_lt listed),
        evalFirstFrom_cons (rulesAt_padded_of_lt listed)]
      cases found : t.transitions[q].find? (·.guard.eval l) with
      | some r => exact ih (h.target_lt listed found)
      | none => exact .inl rfl
    · have unlisted := Nat.le_of_not_lt listed
      refine .inr ⟨evalFirstFrom_cons_of_le unlisted l w, ?_, Nat.lt_of_le_of_lt unlisted hq⟩
      exact evalFirstFrom_cons (rulesAt_padded_of_le unlisted hq) l w

theorem Deterministic.evalFirst_padded (h : t.Deterministic)
    (ascending : t.finals.toList.Pairwise (· < ·)) (w : Word) :
    t.evalFirst w = .ok (t.padded.toAutomaton.evalFirst w) ∨
      t.evalFirst w = .error .outOfRange ∧ t.padded.toAutomaton.evalFirst w = .failed ∧
        t.transitions.size < t.stateCount := by
  have padded := (h.sound_padded ascending).evalFirst_toAutomaton w
  have same : t.padded.finals = t.finals := rfl
  rw [evalFirst, same] at padded
  rw [evalFirst]
  split at padded
  · next none =>
    rw [if_pos none]
    exact .inl padded
  · next some =>
    rw [if_neg some, ← padded]
    refine (h.evalFirstFrom_padded h.initial_lt w).imp_right fun fault => ?_
    exact ⟨fault.1, Except.ok.inj (padded.symm.trans fault.2.1), fault.2.2⟩

/-! ## Executors -/

/-- The snapshot of a table is that of the automaton with its entries, in which no list of rules is
    missing, but for the order of the final states. -/
theorem exists_snapshot (kind : SnapshotKind) (fits : t.Fits)
    (valid : t.padded.toAutomaton.Valid) (atoms : t.atomCount ≤ maxWord16) :
    ∃ s : Snapshot, t.snapshot kind = .ok (.ok { s with finals := t.finals.toList }) ∧
      s.kind = kind ∧ s.Represents t.padded.toAutomaton ∧
      ∀ q, q ∈ t.finals.toList ↔ q ∈ s.finals := by
  obtain ⟨s, made⟩ := Snapshot.exists_ofAutomaton kind valid atoms
  obtain ⟨kept, represents⟩ := Snapshot.represents_of_ofAutomaton made
  refine ⟨s, ?_, kept, represents, fun q => ?_⟩
  · rw [snapshot, fitted_eq, if_pos fits]
    show Except.ok (Snapshot.ofAutomaton kind t.padded.toAutomaton >>= fun s => _) = _
    rw [made]
    rfl
  · rw [represents.finals_eq]
    exact SortedSet.mem_ofList.symm

/-- If there is room for the lists of rules that a table has, then there is for as many as it has
    states, as soon as it fits. -/
theorem Fits.stateCount_le (h : t.Fits)
    (room : checkTable t.transitions.size ruleListBytes = .ok ()) :
    t.stateCount ≤ maxTableBytes := by
  unfold checkTable ruleListBytes at room
  split at room
  · next small =>
    rcases Nat.lt_or_eq_of_le h.1 with less | same
    · have enough := h.2 less
      unfold ruleListBytes at enough
      omega
    · omega
  · cases room

/-- The executor on the snapshot of a table that passes its check reports what the table evaluates
    to, whatever calls it has answered before.  If a table with its final states in ascending order
    passes the check for determinism, so do both executors on its snapshot, except where its own
    evaluation ends in a fault for want of a list of rules; there they report *failed*.  There is
    room for the lists that the table has, or it could not be there. -/
theorem executors_report_exactly (t : Table) (atoms : t.atomCount ≤ maxWord16)
    (room : checkTable t.transitions.size ruleListBytes = .ok ()) :
    (t.validate = .ok () → ∃ s x, t.snapshot .nondeterministic = .ok (.ok s) ∧
      Executor.openAll s = .ok x ∧ x.Reports fun w v => t.eval w = .ok v) ∧
    ∀ ctx, (t.checkDeterministic.run.run ctx).1 = .ok () → t.finals.toList.Pairwise (· < ·) →
      ∃ s x x', t.snapshot .deterministic = .ok (.ok s) ∧ Executor.openFirst s = .ok x ∧
        Executor.openAll s = .ok x' ∧ ∀ e ∈ [x, x'], e.Reports fun w v => t.evalFirst w = .ok v ∨
          t.evalFirst w = .error .outOfRange ∧ v = .failed ∧ t.transitions.size < t.stateCount := by
  refine ⟨fun passes => ?_, fun ctx passes ascending => ?_⟩
  · have valid := valid_toAutomaton passes
    have size_eq : t.transitions.size = t.stateCount := valid.length_transitions
    have complete := padded_eq size_eq
    have fits := (fits_of_size_eq size_eq).stateCount_le room
    obtain ⟨s, made, kind, represents, same⟩ :=
      exists_snapshot .nondeterministic (fits_of_size_eq size_eq) (by rwa [complete]) atoms
    rw [complete] at represents
    obtain ⟨x, opened, reports⟩ := Executor.reports_openAll represents valid (kind ▸ rfl)
      (represents.stateCount_eq ▸ fits) same
    refine ⟨_, x, made, opened, reports.mono fun w v verdict => ?_⟩
    rw [eval_eq valid fits, verdict]
  · have h := (checkDeterministic_eq_ok_iff ctx).mp passes
    have valid := h.valid_padded
    obtain ⟨s, made, kind, represents, same⟩ :=
      exists_snapshot .deterministic h.fits valid atoms
    -- final states in ascending order are those of the automaton, so this is its very snapshot
    have own : t.finals.toList = s.finals :=
      (SortedSet.toList_ofList ascending).symm.trans represents.finals_eq.symm
    rw [own] at made
    have fits' : s.stateCount ≤ maxTableBytes :=
      represents.stateCount_eq ▸ h.fits.stateCount_le room
    have known : s.kind.isKnown = true := kind ▸ rfl
    obtain ⟨x, opened, reports⟩ := Executor.reports_openFirst represents valid known fits'
    obtain ⟨x', opened', reports'⟩ := Executor.reports_openAll represents valid known fits'
      fun q => Iff.rfl
    have exactly : ∀ w v, v = t.padded.toAutomaton.evalFirst w → t.evalFirst w = .ok v ∨
        t.evalFirst w = .error .outOfRange ∧ v = .failed ∧ t.transitions.size < t.stateCount := by
      rintro w - rfl
      exact h.evalFirst_padded ascending w
    refine ⟨s, x, x', made, opened, opened', List.forall_mem_cons.mpr ⟨reports.mono exactly,
      List.forall_mem_singleton.mpr (reports'.mono fun w v verdict => exactly w v ?_)⟩⟩
    rw [verdict, h.deterministic_padded.evalFirst_eq_eval]

/-- A table with two rules for one letter and with its final states in descending order, and a
    deterministic one with a state that has no list of rules.  The executors are used, reset and
    used again. -/
theorem executors_report_exactly_after_reset :
    let t : Table := ⟨2, 3, 0, #[2, 1], #[[⟨.var 0, 1⟩, ⟨.var 0, 2⟩], [⟨.not (.var 1), 1⟩], []]⟩
    let d : Table := ⟨2, 3, 0, #[1, 2],
      #[[⟨.var 0, 1⟩, ⟨.and (.not (.var 0)) (.var 1), 2⟩], [⟨.const true, 0⟩]]⟩
    let p : Letter := .ofList [0]
    let q : Letter := .ofList [1]
    let perform := Call.perform Executor.reset Executor.advanceWithin
    t.validate = .ok () ∧ (d.checkDeterministic.run.run .empty).1 = .ok () ∧
      (∃ s x y, t.snapshot .nondeterministic = .ok (.ok s) ∧ Executor.openAll s = .ok x ∧
        [.advance p, .advance q, .reset, .advance p, .advance ∅].foldlM perform x = .ok y ∧
        t.eval [p, ∅] = .ok .ok ∧ y.verdict = .ok) ∧
      d.evalFirst [q, ∅] = .error .outOfRange ∧
      ∃ s x x', d.snapshot .deterministic = .ok (.ok s) ∧ Executor.openFirst s = .ok x ∧
        Executor.openAll s = .ok x' ∧ ∀ e ∈ [x, x'],
          (∃ y, [.advance q, .reset, .advance p, .advance ∅].foldlM perform e = .ok y ∧
            d.evalFirst [p, ∅] = .ok .pending ∧ y.verdict = .pending) ∧
          ∃ y, [.advance p, .reset, .advance q, .advance ∅].foldlM perform e = .ok y ∧
            y.verdict = .failed := by
  intro t d p q perform
  have passes : (d.checkDeterministic.run.run .empty).1 = .ok () := by
    refine (checkDeterministic_eq_ok_iff .empty).mpr
      ⟨by decide, by decide, by decide, by decide, ?_⟩
    simp +contextual [d, Formula.eval]
  have accepts : t.toAutomaton.Accepts [p, ∅] :=
    ⟨1, SortedSet.mem_ofList.mpr (by simp [t]), .cons (r := ⟨.var 0, 1⟩) List.mem_cons_self rfl
      (.cons (r := ⟨.not (.var 1), 1⟩) List.mem_cons_self rfl .nil)⟩
  have matched : t.eval [p, ∅] = .ok .ok := by
    rw [eval_eq (valid_toAutomaton rfl) ((fits_of_size_eq rfl).stateCount_le rfl), Automaton.eval_eq_ok_iff.mpr accepts]
  have halfway : d.evalFirst [p, ∅] = .ok .pending := by decide +kernel
  have stuck : d.evalFirst [q, ∅] = .error .outOfRange := by decide +kernel
  obtain ⟨s, x, made, opened, reports⟩ := (executors_report_exactly t (by decide) rfl).1 rfl
  obtain ⟨s', x', x'', made', opened', opened'', reports'⟩ :=
    (executors_report_exactly d (by decide) rfl).2 .empty passes (by decide)
  refine ⟨rfl, passes, ?_, stuck, s', x', x'', made', opened', opened'', fun e he => ⟨?_, ?_⟩⟩
  · obtain ⟨y, done, verdict, -⟩ :=
      reports [.advance p, .advance q, .reset, .advance p, .advance ∅]
    exact ⟨s, x, y, made, opened, done, matched, Except.ok.inj (verdict.symm.trans matched)⟩
  · obtain ⟨y, done, verdict, -⟩ := reports' e he [.advance q, .reset, .advance p, .advance ∅]
    refine ⟨y, done, halfway, ?_⟩
    rcases verdict with same | fault
    · exact Except.ok.inj (same.symm.trans halfway)
    · cases halfway.symm.trans fault.1
  · obtain ⟨y, done, verdict, -⟩ := reports' e he [.advance p, .reset, .advance q, .advance ∅]
    refine ⟨y, done, ?_⟩
    rcases verdict with same | fault
    · cases stuck.symm.trans same
    · exact fault.2.1

/-- The check for determinism passes a table whose only state has no list of rules.  After a letter
    both executors report *failed*, but the evaluation of the table ends in a fault. -/
theorem executors_outlast_missing_list :
    let t : Table := ⟨0, 1, 0, #[0], #[]⟩
    (t.checkDeterministic.run.run .empty).1 = .ok () ∧ t.finals.toList.Pairwise (· < ·) ∧
      ∃ s x x' y y', t.snapshot .deterministic = .ok (.ok s) ∧ Executor.openFirst s = .ok x ∧
        Executor.openAll s = .ok x' ∧ x.advanceWithin ∅ = .ok y ∧ x'.advanceWithin ∅ = .ok y' ∧
        y.verdict = .failed ∧ y'.verdict = .failed ∧ t.evalFirst [∅] = .error .outOfRange := by
  let s : Snapshot := ⟨.deterministic, 0, 1, [0], [0], [[]]⟩
  refine ⟨rfl, List.pairwise_singleton _ _, s, ⟨s, .state ⟨0, .ok⟩⟩, ⟨s, .set ⟨.singleton 0, .ok⟩⟩,
    ⟨s, .state ⟨0, .failed⟩⟩, ⟨s, .set ⟨∅, .failed⟩⟩, by decide +kernel, rfl,
    by decide +kernel, rfl, by decide +kernel, rfl, rfl, rfl⟩

end Table

end TraceRegex
