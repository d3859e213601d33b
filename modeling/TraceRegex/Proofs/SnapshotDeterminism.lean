import TraceRegex.Proofs.Acceptance
import TraceRegex.Proofs.Formats

/-! # Deterministic snapshots

A snapshot is deterministic when no letter satisfies the guards of two rules of one state.  The two
executors then agree on every word.  Documents are only accepted as deterministic when they are; the
binary format is not checked for it, and there the executor that follows the first enabled rule may
miss what the other one finds, but never finds more.
-/

namespace TraceRegex

/-- No letter satisfies the guards of two rules at different places of one state's list. -/
def Snapshot.Deterministic (s : Snapshot) : Prop :=
  ∀ rules ∈ s.transitions, rules.Pairwise fun r r' =>
    ∀ l, ¬(r.guard.eval l = .ok true ∧ r'.guard.eval l = .ok true)

/-! ## Following the first enabled rule -/

namespace Automaton

variable {a : Automaton}

/-- The state that the first enabled rules lead to is one that the word leads to. -/
theorem exists_path_of_evalFirstFrom {q : Nat} {w : Word} (h : a.evalFirstFrom q w ≠ .failed) :
    ∃ t, a.Path q w t ∧ (a.evalFirstFrom q w = .ok → t ∈ a.finals) := by
  induction w generalizing q with
  | nil =>
    refine ⟨q, .nil, fun ok => ?_⟩
    by_cases final : a.isFinal q = true
    · exact SortedSet.contains_iff.mp final
    · simp [evalFirstFrom, final] at ok
  | cons l w ih =>
    rw [evalFirstFrom] at h ⊢
    cases found : a.firstTarget? l q with
    | none =>
      rw [found] at h
      exact absurd rfl h
    | some t =>
      rw [found] at h
      obtain ⟨last, path, final⟩ := ih h
      rw [firstTarget?_eq_head?] at found
      have step : a.Step q l t := mem_targets.mp (List.mem_of_head? found)
      exact ⟨last, path_cons_iff.mpr ⟨t, step, path⟩, final⟩

/-- What is found by following the first enabled rules is found by following all. -/
theorem eval_eq_ok_of_evalFirst {w : Word} (h : a.evalFirst w = .ok) : a.eval w = .ok := by
  unfold evalFirst at h
  split at h
  next => cases h
  next =>
    obtain ⟨t, path, final⟩ := exists_path_of_evalFirstFrom (by rw [h]; decide)
    exact eval_eq_ok_iff.mpr ⟨t, final h, path⟩

/-- Where following all enabled rules fails, following the first ones does. -/
theorem evalFirst_eq_failed_of_eval {w : Word} (h : a.eval w = .failed) :
    a.evalFirst w = .failed := by
  unfold evalFirst
  split
  next => rfl
  next hope =>
    rw [SortedSet.isEmpty_iff] at hope
    by_cases running : a.evalFirstFrom a.initial w = .failed
    · exact running
    · obtain ⟨t, path, -⟩ := exists_path_of_evalFirstFrom running
      rcases eval_eq_failed_iff.mp h with none | none
      · exact absurd none hope
      · exact absurd path (none t)

end Automaton

/-! ## Snapshots of automata -/

namespace Snapshot

variable {s : Snapshot} {a : Automaton}

theorem Codes.pairwise_iff {rules : List Rule} {coded : List CodedRule} (h : Codes rules coded) :
    (coded.Pairwise fun r r' => ∀ l, ¬(r.guard.eval l = .ok true ∧ r'.guard.eval l = .ok true)) ↔
      rules.Pairwise fun r r' => ∀ l, ¬(r.guard.eval l ∧ r'.guard.eval l) := by
  induction h with
  | nil => exact iff_of_true .nil .nil
  | @cons r code rules coded guard rest ih =>
    have head : (∀ c ∈ coded, ∀ l, ¬(code.eval l = .ok true ∧ c.guard.eval l = .ok true)) ↔
        ∀ r' ∈ rules, ∀ l, ¬(r.guard.eval l ∧ r'.guard.eval l) := by
      constructor
      · intro apart r' hr' l both
        obtain ⟨c, hc, encoded, -⟩ := rest.exists_code hr'
        refine apart c hc l ?_
        rw [Bytecode.eval_of_encode guard, Bytecode.eval_of_encode encoded, both.1, both.2]
        exact ⟨rfl, rfl⟩
      · intro apart c hc l both
        obtain ⟨r', hr', encoded, -⟩ := rest.exists_rule hc
        rw [Bytecode.eval_of_encode guard, Bytecode.eval_of_encode encoded] at both
        exact apart r' hr' l ⟨Except.ok.inj both.1, Except.ok.inj both.2⟩
    rw [List.pairwise_cons, List.pairwise_cons, head, ih]

theorem Represents.deterministic_iff (h : s.Represents a) : s.Deterministic ↔ a.Deterministic := by
  constructor
  · intro apart rules hrules
    obtain ⟨q, hq⟩ := List.mem_iff_getElem?.mp hrules
    obtain ⟨inside, -⟩ := List.getElem?_eq_some_iff.mp hq
    have stands := List.getElem?_eq_getElem (h.length_eq ▸ inside)
    have codes := h.codes q _ stands
    rw [Automaton.rulesFrom, List.getD_eq_getElem?_getD, hq] at codes
    exact codes.pairwise_iff.mp (apart _ (List.mem_of_getElem? stands))
  · intro apart coded hcoded
    obtain ⟨q, hq⟩ := List.mem_iff_getElem?.mp hcoded
    obtain ⟨inside, -⟩ := List.getElem?_eq_some_iff.mp hq
    have mem : a.rulesFrom q ∈ a.transitions := by
      simp [Automaton.rulesFrom, ← h.length_eq, inside]
    exact (h.codes q coded hq).pairwise_iff.mpr (apart _ mem)

/-- What is accepted as deterministic is the snapshot of a well-formed automaton, and a document is
    only accepted if that is deterministic. -/
theorem exists_automaton_of_decode {bytes : List UInt8} {names : List String}
    (decoded : decode bytes = .ok (s, names)) (kind : s.kind = .deterministic) :
    ∃ a, s.Represents a ∧ a.Valid ∧ (isSnapshot bytes = false → a.Deterministic) := by
  rcases of_decode decoded with ⟨binary, wellFormed⟩ | ⟨-, v, doc, -, -, built⟩
  · obtain ⟨a, represents, valid⟩ := wellFormed.exists_automaton (wellFormed.one_initial kind)
    exact ⟨a, represents, valid, fun text => Bool.noConfusion (binary.symm.trans text)⟩
  · obtain ⟨given, kind', a, -, built, taken, deterministic, -⟩ := SnapshotDoc.of_build built
    obtain ⟨same, represents⟩ := represents_of_ofAutomaton taken
    exact ⟨a, represents, (AutomatonDoc.of_build built).1,
      fun _ => deterministic (same.symm.trans kind)⟩

/-- A document that is accepted as deterministic is so.  In either format, the two executors of a
    snapshot that is accepted as deterministic never fail to answer, their answers are the same if it
    is deterministic, and in any case the one that follows the first enabled rules finds no more than
    the other. -/
theorem executors_agree_of_decode {bytes : List UInt8} {names : List String}
    (decoded : decode bytes = .ok (s, names)) (kind : s.kind = .deterministic) :
    (isSnapshot bytes = false → s.Deterministic) ∧
      ∃ x, Executor.followFirst s = .ok x ∧ ∀ u : Word, ∃ y y',
        u.foldlM Executor.advance x = .ok y ∧ y.reset = .ok x ∧
        u.foldlM Executor.advance (Executor.followAll s) = .ok y' ∧
        y'.reset = .ok (Executor.followAll s) ∧
        (s.Deterministic → y.verdict = y'.verdict) ∧
        (y.verdict = .ok → y'.verdict = .ok) ∧ (y'.verdict = .failed → y.verdict = .failed) := by
  obtain ⟨a, represents, valid, deterministic⟩ := exists_automaton_of_decode decoded kind
  refine ⟨fun text => represents.deterministic_iff.mpr (deterministic text), ?_⟩
  obtain ⟨x, started, first⟩ := Executor.followFirst_reports represents valid
  refine ⟨x, started, fun u => ?_⟩
  obtain ⟨y, read, reset, verdict⟩ := first u
  obtain ⟨y', read', reset', verdict'⟩ := Executor.followAll_reports represents valid u
  refine ⟨y, y', read, reset, read', reset', ?_, ?_, ?_⟩
  · intro apart
    rw [verdict, verdict', (represents.deterministic_iff.mp apart).evalFirst_eq_eval]
  · rw [verdict, verdict']
    exact Automaton.eval_eq_ok_of_evalFirst
  · rw [verdict, verdict']
    exact Automaton.evalFirst_eq_failed_of_eval

/-- An automaton with two rules of one state, of which each letter satisfies exactly one. -/
def switch : Automaton := ⟨1, 2, 0, .ofList [1], [[⟨.var 0, 1⟩, ⟨.not (.var 0), 0⟩], []]⟩

theorem executors_agree_of_decode_of_switch :
    ∃ s, decode (Text.bytesOfString
        (SnapshotDoc.ofAutomaton .deterministic ["a"] switch).toJson.pretty) = .ok (s, ["a"]) ∧
      s.kind = .deterministic ∧ s.Deterministic ∧
      ∃ x, Executor.followFirst s = .ok x ∧ ∀ u : Word, ∃ y y',
        u.foldlM Executor.advance x = .ok y ∧ y.reset = .ok x ∧
        u.foldlM Executor.advance (Executor.followAll s) = .ok y' ∧
        y'.reset = .ok (Executor.followAll s) ∧ y.verdict = y'.verdict := by
  have valid : switch.Valid := Automaton.validate_iff.mp (by cbv)
  have apart : switch.Deterministic := by
    simp [Automaton.Deterministic, switch, Formula.eval]
  have taken : ofAutomaton Target.deterministic.kind switch =
      .ok ⟨.deterministic, 1, 2, [0], [1], [[⟨[2, 0, 0], 1⟩, ⟨[3, 2, 0, 0], 0⟩], []]⟩ := by cbv
  have shallow : switch.Shallow := by
    simp [Automaton.Shallow, switch, Formula.height, Json.maxDepth]
  have decoded : decode (Text.bytesOfString
      (SnapshotDoc.ofAutomaton .deterministic ["a"] switch).toJson.pretty) = .ok (_, ["a"]) :=
    decode_document_of_shallow valid (fun _ => apart) shallow taken (by decide) (by decide)
  obtain ⟨deterministic, x, started, reads⟩ := executors_agree_of_decode decoded rfl
  have same := deterministic (isSnapshot_document _)
  refine ⟨_, decoded, rfl, same, x, started, fun u => ?_⟩
  obtain ⟨y, y', read, reset, read', reset', agree, -⟩ := reads u
  exact ⟨y, y', read, reset, read', reset', agree same⟩

/-- An automaton with two rules of one state that every letter satisfies both. -/
def fork : Automaton :=
  ⟨0, 3, 0, .ofList [2], [[⟨.const true, 1⟩, ⟨.const true, 2⟩], [], []]⟩

/-- Its snapshot. -/
def forked : Snapshot := ⟨.deterministic, 0, 3, [0], [2], [[⟨[1], 1⟩, ⟨[1], 2⟩], [], []]⟩

/-- The binary format is not checked for overlapping guards: the snapshot is accepted as
    deterministic, and the two executors answer differently after the first letter. -/
theorem decode_accepts_overlap :
    decode [0x62, 0x74, 0x33, 0x82, 1, 0, 0, 0, 3, 0, 1, 0, 0, 0, 1, 0, 2, 0, 2, 0, 0, 0, 1, 0, 0,
        0, 1, 1, 0, 1, 0, 0, 0, 1, 2, 0, 0, 0, 0, 0, 0, 0, 0, 0] = .ok (forked, []) ∧
      forked.kind = .deterministic ∧ ¬forked.Deterministic ∧
      ∃ x y y', Executor.followFirst forked = .ok x ∧
        [Letter.ofList []].foldlM Executor.advance x = .ok y ∧
        [Letter.ofList []].foldlM Executor.advance (Executor.followAll forked) = .ok y' ∧
        y.verdict = .pending ∧ y'.verdict = .ok := by
  have taken : ofAutomaton .deterministic fork = .ok forked := by cbv
  have valid : fork.Valid := Automaton.validate_iff.mp (by cbv)
  obtain ⟨-, represents⟩ := represents_of_ofAutomaton taken
  have wellFormed : forked.WellFormed :=
    represents.wellFormed valid rfl (by decide) (by decide) (by decide) (by decide)
  refine ⟨wellFormed.decode_encode rfl, rfl, ?_, ?_⟩
  · intro apart
    have pair := apart _ List.mem_cons_self
    rw [List.pairwise_cons] at pair
    exact pair.1 _ List.mem_cons_self (.ofList []) ⟨rfl, rfl⟩
  · -- the first rule leads to a state that is not final, the second one to the final state
    have second : fork.Path 0 [.ofList []] 2 :=
      .cons (r := ⟨.const true, 2⟩) (by simp [fork, Automaton.rulesFrom]) rfl .nil
    have accepted := Automaton.eval_eq_ok_iff.mpr ⟨2, SortedSet.mem_ofList.mpr (by simp), second⟩
    obtain ⟨y', read', -, verdict'⟩ :=
      Executor.followAll_reports represents valid [.ofList []]
    exact ⟨⟨forked, .state ⟨0, .pending⟩⟩, ⟨forked, .state ⟨1, .pending⟩⟩, y', rfl, rfl, read', rfl,
      verdict'.trans accepted⟩

end Snapshot

end TraceRegex
