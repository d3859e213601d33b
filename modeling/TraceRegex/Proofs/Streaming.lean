import TraceRegex.Proofs.BinaryFormat
import TraceRegex.Proofs.Determinization
import TraceRegex.Snapshot.Executor

/-! # Running the snapshot of an automaton

A snapshot represents an automaton when its rules are those of the automaton with their guards
encoded.  Its executors then report, letter by letter, the verdicts of the automaton on the word
read so far, and they never fault.
-/

namespace TraceRegex

namespace Snapshot

/-! ## The snapshot of an automaton -/

/-- The coded rules are the rules with their guards encoded, in order. -/
inductive Codes : List Rule → List CodedRule → Prop where
  | nil : Codes [] []
  | cons {r : Rule} {code : Bytecode} {rules : List Rule} {coded : List CodedRule}
      (guard : r.guard.encode = .ok code) (rest : Codes rules coded) :
      Codes (r :: rules) (⟨code, r.target⟩ :: coded)

theorem codes_of_mapM {rules : List Rule} {coded : List CodedRule}
    (h : rules.mapM encodeRule = .ok coded) : Codes rules coded := by
  induction rules generalizing coded with
  | nil =>
    cases h
    exact .nil
  | cons r rules ih =>
    rw [List.mapM_cons] at h
    obtain ⟨first, encoded, h⟩ := bind_eq_ok h
    obtain ⟨later, rest, h⟩ := bind_eq_ok h
    obtain ⟨code, guard, made⟩ := bind_eq_ok encoded
    cases h
    cases made
    exact .cons guard (ih rest)

theorem codes_getD_of_mapM {transitions : List (List Rule)} {coded : List (List CodedRule)}
    (h : (transitions.mapM fun rules => rules.mapM encodeRule) = .ok coded) :
    coded.length = transitions.length ∧
      ∀ q rules, coded[q]? = some rules → Codes (transitions.getD q []) rules := by
  induction transitions generalizing coded with
  | nil =>
    cases h
    exact ⟨rfl, nofun⟩
  | cons rules transitions ih =>
    rw [List.mapM_cons] at h
    obtain ⟨first, encoded, h⟩ := bind_eq_ok h
    obtain ⟨later, rest, h⟩ := bind_eq_ok h
    cases h
    obtain ⟨length, codes⟩ := ih rest
    refine ⟨congrArg Nat.succ length, ?_⟩
    intro q rules' hq
    cases q with
    | zero =>
      cases hq
      exact codes_of_mapM encoded
    | succ q => exact codes q rules' hq

/-- The snapshot is that of the automaton. -/
structure Represents (s : Snapshot) (a : Automaton) : Prop where
  atomCount_eq : s.atomCount = a.atomCount
  stateCount_eq : s.stateCount = a.stateCount
  initials_eq : s.initials = [a.initial]
  finals_eq : s.finals = a.finals.toList
  length_eq : s.transitions.length = a.transitions.length
  codes : ∀ q rules, s.transitions[q]? = some rules → Codes (a.rulesFrom q) rules

theorem represents_of_ofAutomaton {kind : SnapshotKind} {a : Automaton} {s : Snapshot}
    (h : ofAutomaton kind a = .ok s) : s.kind = kind ∧ s.Represents a := by
  obtain ⟨transitions, encoded, made⟩ := bind_eq_ok h
  obtain ⟨length, codes⟩ := codes_getD_of_mapM encoded
  cases made
  exact ⟨rfl, rfl, rfl, rfl, rfl, length, codes⟩

theorem Codes.exists_rule {rules : List Rule} {coded : List CodedRule} (h : Codes rules coded)
    {c : CodedRule} (hc : c ∈ coded) :
    ∃ r ∈ rules, r.guard.encode = .ok c.guard ∧ r.target = c.target := by
  induction h with
  | nil => cases hc
  | @cons r code rules coded guard rest ih =>
    cases hc with
    | head => exact ⟨r, List.mem_cons_self, guard, rfl⟩
    | tail _ hc =>
      obtain ⟨r', hr', same⟩ := ih hc
      exact ⟨r', List.mem_cons_of_mem _ hr', same⟩

theorem Codes.exists_code {rules : List Rule} {coded : List CodedRule} (h : Codes rules coded)
    {r : Rule} (hr : r ∈ rules) :
    ∃ c ∈ coded, r.guard.encode = .ok c.guard ∧ r.target = c.target := by
  induction h with
  | nil => cases hr
  | @cons r' code rules coded guard rest ih =>
    cases hr with
    | head => exact ⟨_, List.mem_cons_self, guard, rfl⟩
    | tail _ hr =>
      obtain ⟨c, hc, same⟩ := ih hr
      exact ⟨c, List.mem_cons_of_mem _ hc, same⟩

theorem Codes.length_eq {rules : List Rule} {coded : List CodedRule} (h : Codes rules coded) :
    coded.length = rules.length := by
  induction h with
  | nil => rfl
  | cons guard rest ih => simp [ih]

theorem Represents.exists_rule {s : Snapshot} {a : Automaton} (h : s.Represents a)
    {rules : List CodedRule} (hrules : rules ∈ s.transitions) {c : CodedRule} (hc : c ∈ rules) :
    ∃ q, ∃ r ∈ a.rulesFrom q, r.guard.encode = .ok c.guard ∧ r.target = c.target := by
  obtain ⟨q, hq⟩ := List.mem_iff_getElem?.mp hrules
  exact ⟨q, (h.codes q rules hq).exists_rule hc⟩

/-- What running a snapshot needs: its states are in range, and its guards are code. -/
structure Runnable (s : Snapshot) : Prop where
  initials_lt : ∀ q ∈ s.initials, q < s.stateCount
  length_transitions : s.transitions.length = s.stateCount
  target_lt : ∀ rules ∈ s.transitions, ∀ r ∈ rules, r.target < s.stateCount
  guard_coded : ∀ rules ∈ s.transitions, ∀ r ∈ rules, ∃ f : Formula, f.encode = .ok r.guard

theorem Represents.runnable {s : Snapshot} {a : Automaton} (h : s.Represents a) (ha : a.Valid) :
    s.Runnable where
  initials_lt := by
    rw [h.initials_eq, h.stateCount_eq]
    exact List.forall_mem_singleton.mpr ha.initial_lt
  length_transitions := by rw [h.length_eq, ha.length_transitions, h.stateCount_eq]
  target_lt := by
    intro rules hrules c hc
    obtain ⟨q, r, hr, -, target⟩ := h.exists_rule hrules hc
    rw [h.stateCount_eq, ← target]
    exact ha.target_lt_of_mem hr
  guard_coded := by
    intro rules hrules c hc
    obtain ⟨q, r, -, encoded, -⟩ := h.exists_rule hrules hc
    exact ⟨r.guard, encoded⟩

theorem Represents.guard_checked {s : Snapshot} {a : Automaton} (h : s.Represents a) (ha : a.Valid)
    {rules : List CodedRule} (hrules : rules ∈ s.transitions) {c : CodedRule} (hc : c ∈ rules) :
    c.guard.check s.atomCount = .ok () := by
  obtain ⟨q, r, hr, encoded, -⟩ := h.exists_rule hrules hc
  obtain ⟨list, hlist, hr⟩ := Automaton.mem_transitions_of_mem_rulesFrom hr
  rw [h.atomCount_eq]
  exact Bytecode.check_of_encode encoded (ha.varCount_le list hlist r hr)

/-- The snapshot of a well-formed automaton is well formed, if it keeps to the limits of the binary
    format. -/
theorem Represents.wellFormed {s : Snapshot} {a : Automaton} (h : s.Represents a) (ha : a.Valid)
    (known : s.kind.isKnown = true) (atoms : s.atomCount ≤ maxWord16)
    (states : s.stateCount ≤ maxWord16)
    (shortLists : ∀ rules ∈ s.transitions, rules.length ≤ maxWord32)
    (shortGuards : ∀ rules ∈ s.transitions, ∀ r ∈ rules, r.guard.length ≤ maxWord32) :
    s.WellFormed where
  kind_known := known
  atomCount_le := atoms
  stateCount_pos := by
    rw [h.stateCount_eq]
    exact Nat.zero_lt_of_lt ha.initial_lt
  stateCount_le := states
  initials_ne_nil := by
    rw [h.initials_eq]
    exact List.cons_ne_nil _ _
  one_initial := fun _ => by
    rw [h.initials_eq]
    rfl
  initials_ascending := by
    rw [h.initials_eq]
    exact List.pairwise_singleton _ _
  initials_lt := (h.runnable ha).initials_lt
  finals_ascending := by
    rw [h.finals_eq]
    exact a.finals.ascending
  finals_lt := by
    rw [h.finals_eq, h.stateCount_eq]
    exact ha.finals_lt
  length_transitions := (h.runnable ha).length_transitions
  length_rules_le := shortLists
  length_guard_le := shortGuards
  guard_checked := fun _ hrules _ hc => h.guard_checked ha hrules hc
  target_lt := (h.runnable ha).target_lt

/-! ## Enabled rules -/

theorem Codes.enabledTargets_eq {rules : List Rule} {coded : List CodedRule} (h : Codes rules coded)
    (l : Letter) :
    enabledTargets l coded = .ok ((rules.filter (·.guard.eval l)).map Rule.target) := by
  induction h with
  | nil => rfl
  | @cons r code rules coded guard rest ih =>
    rw [enabledTargets, Bytecode.eval_of_encode guard l, ih, List.filter_cons]
    cases r.guard.eval l with
    | true => rfl
    | false => rfl

theorem Codes.firstEnabled?_eq {rules : List Rule} {coded : List CodedRule} (h : Codes rules coded)
    (l : Letter) :
    firstEnabled? l coded = .ok ((rules.find? (·.guard.eval l)).map Rule.target) := by
  induction h with
  | nil => rfl
  | @cons r code rules coded guard rest ih =>
    rw [firstEnabled?, Bytecode.eval_of_encode guard l, ih, List.find?_cons]
    cases r.guard.eval l with
    | true => rfl
    | false => rfl

theorem Represents.exists_rules {s : Snapshot} {a : Automaton} (h : s.Represents a) (ha : a.Valid)
    {q : Nat} (hq : q < a.stateCount) :
    ∃ rules, s.rulesAt q = .ok rules ∧ Codes (a.rulesFrom q) rules := by
  have inside : q < s.transitions.length := by rwa [h.length_eq, ha.length_transitions]
  have stands := List.getElem?_eq_getElem inside
  refine ⟨_, ?_, h.codes q _ stands⟩
  rw [rulesAt, stands]

theorem Represents.isEmpty_finals {s : Snapshot} {a : Automaton} (h : s.Represents a) :
    s.finals.isEmpty = true ↔ ∀ q, ¬q ∈ a.finals := by
  rw [h.finals_eq, List.isEmpty_iff, List.eq_nil_iff_forall_not_mem]
  rfl

end Snapshot

/-! ## Following all enabled rules -/

theorem mapM_eq_ok {ε α β : Type} {f : α → Except ε β} {g : α → β} {xs : List α}
    (h : ∀ x ∈ xs, f x = .ok (g x)) : xs.mapM f = .ok (xs.map g) := by
  induction xs with
  | nil => rfl
  | cons x xs ih =>
    rw [List.mapM_cons, h x List.mem_cons_self, ih fun y hy => h y (List.mem_cons_of_mem _ hy)]
    rfl

namespace SetRun

variable {s : Snapshot} {a : Automaton}

/-- The run has read the word: it has the verdict on it and, unless that is *failed*, the states
    that it leads to. -/
structure Tracks (a : Automaton) (run : SetRun) (w : Word) : Prop where
  verdict_eq : run.verdict = a.eval w
  mem_live : run.verdict ≠ .failed → ∀ q, q ∈ run.live ↔ a.Path a.initial w q

theorem classify_eq_eval (h : s.Represents a) {live : StateSet} {w : Word}
    (reached : ∀ q, q ∈ live ↔ a.Path a.initial w q) (alive : ∃ q, q ∈ live)
    (hope : ∃ q, q ∈ a.finals) : classify s live = a.eval w := by
  have accepted : s.finals.any live.contains = true ↔ a.Accepts w := by
    rw [h.finals_eq, List.any_eq_true]
    simp only [SortedSet.contains_iff, reached]
    rfl
  have running : a.eval w ≠ .failed := by
    rw [ne_eq, Automaton.eval_eq_failed_iff]
    rintro (none | none)
    · obtain ⟨q, hq⟩ := hope
      exact none q hq
    · obtain ⟨q, hq⟩ := alive
      exact none q ((reached q).mp hq)
  unfold classify
  split
  next ok => exact (Automaton.eval_eq_ok_iff.mpr (accepted.mp ok)).symm
  next other =>
    rw [accepted, ← Automaton.eval_eq_ok_iff] at other
    cases verdict : a.eval w with
    | ok => exact absurd verdict other
    | pending => rfl
    | failed => exact absurd verdict running

theorem tracks_start (h : s.Represents a) : Tracks a (start s) [] := by
  have reached : ∀ q, q ∈ SortedSet.ofList s.initials ↔ a.Path a.initial [] q := by
    intro q
    rw [h.initials_eq, SortedSet.mem_ofList, List.mem_singleton, Automaton.path_nil_iff, eq_comm]
  have verdict : (start s).verdict = a.eval [] := by
    unfold start
    dsimp only
    split
    next none =>
      exact (Automaton.eval_eq_failed_iff.mpr (.inl (h.isEmpty_finals.mp none))).symm
    next some =>
      rw [h.isEmpty_finals, Classical.not_forall_not] at some
      exact classify_eq_eval h reached ⟨a.initial, (reached _).mpr .nil⟩ some
  exact ⟨verdict, fun _ => reached⟩

theorem live_targets (h : s.Represents a) (ha : a.Valid) {live : List Nat}
    (inside : ∀ q ∈ live, q < a.stateCount) (l : Letter) :
    (live.mapM fun q => do Snapshot.enabledTargets l (← s.rulesAt q))
      = .ok (live.map (a.targets l)) := by
  refine mapM_eq_ok fun q hq => ?_
  obtain ⟨rules, found, codes⟩ := h.exists_rules ha (inside q hq)
  rw [found]
  exact codes.enabledTargets_eq l

/-- What one letter does: the run never faults, and it has read one letter more. -/
theorem Tracks.advance (h : s.Represents a) (ha : a.Valid) {run : SetRun} {w : Word}
    (tracks : Tracks a run w) (l : Letter) :
    ∃ run', run.advance s l = .ok run' ∧ Tracks a run' (w ++ [l]) := by
  have longer : ∀ t, a.Path a.initial (w ++ [l]) t ↔ ∃ q, a.Path a.initial w q ∧ a.Step q l t := by
    intro t
    simp only [Automaton.path_append_iff, Automaton.path_singleton_iff]
  by_cases failed : run.verdict = .failed
  · -- nothing can match any more, and the run stays as it is
    have still : a.eval (w ++ [l]) = .failed := by
      have before := tracks.verdict_eq.symm.trans failed
      rw [Automaton.eval_eq_failed_iff] at before ⊢
      rcases before with none | none
      · exact .inl none
      · refine .inr fun t path => ?_
        obtain ⟨q, path, -⟩ := (longer t).mp path
        exact none q path
    refine ⟨run, ?_, failed.trans still.symm, fun other => absurd failed other⟩
    rw [SetRun.advance, if_pos failed]
    rfl
  · have live := tracks.mem_live failed
    have inside : ∀ q ∈ run.live.toList, q < a.stateCount := fun q hq =>
      ha.path_lt ((live q).mp hq) ha.initial_lt
    obtain ⟨next, found⟩ :
        ∃ next, next = SortedSet.ofList (run.live.toList.map (a.targets l)).flatten := ⟨_, rfl⟩
    have reached : ∀ t, t ∈ next ↔ a.Path a.initial (w ++ [l]) t := by
      intro t
      simp only [found, SortedSet.mem_ofList, List.mem_flatten, List.mem_map, longer]
      constructor
      · rintro ⟨-, ⟨q, hq, rfl⟩, ht⟩
        exact ⟨q, (live q).mp hq, Automaton.mem_targets.mp ht⟩
      · rintro ⟨q, path, step⟩
        exact ⟨_, ⟨q, (live q).mpr path, rfl⟩, Automaton.mem_targets.mpr step⟩
    -- without final states the verdict would have been *failed* from the start
    have hope : ∃ q, q ∈ a.finals := by
      refine Classical.not_forall_not.mp fun none => failed ?_
      exact tracks.verdict_eq.trans (Automaton.eval_eq_failed_iff.mpr (.inl none))
    refine ⟨⟨next, if next.isEmpty then .failed else classify s next⟩, ?_, ?_, fun _ => reached⟩
    · rw [SetRun.advance, if_neg failed, live_targets h ha inside l, found]
      rfl
    · dsimp only
      split
      next none =>
        rw [SortedSet.isEmpty_iff] at none
        refine (Automaton.eval_eq_failed_iff.mpr (.inr fun t path => ?_)).symm
        exact none t ((reached t).mpr path)
      next some =>
        rw [SortedSet.isEmpty_iff, Classical.not_forall_not] at some
        exact classify_eq_eval h reached some hope

end SetRun

/-! ## Following the first enabled rule -/

namespace StateRun

variable {s : Snapshot} {a : Automaton}

/-- The run has read the word: either nothing can match any more, or the rest of any longer word is
    read from the current state on. -/
inductive Tracks (a : Automaton) : StateRun → Word → Prop where
  | failed {q : Nat} {w : Word} (h : ∀ u, a.evalFirst (w ++ u) = .failed) : Tracks a ⟨q, .failed⟩ w
  | running {q : Nat} {w : Word} (inside : q < a.stateCount)
      (h : ∀ u, a.evalFirst (w ++ u) = a.evalFirstFrom q u) :
      Tracks a ⟨q, a.evalFirstFrom q []⟩ w

theorem Tracks.verdict_eq {run : StateRun} {w : Word} (h : Tracks a run w) :
    run.verdict = a.evalFirst w := by
  cases h with
  | failed h =>
    have now := h []
    rw [List.append_nil] at now
    exact now.symm
  | running inside h =>
    have now := h []
    rw [List.append_nil] at now
    exact now.symm

theorem classify_eq (h : s.Represents a) (q : Nat) : classify s q = a.evalFirstFrom q [] := by
  have final : s.finals.contains q = a.isFinal q := by
    rw [Bool.eq_iff_iff, h.finals_eq, List.contains_iff_mem, Automaton.isFinal,
      SortedSet.contains_iff]
    rfl
  rw [classify, final, Automaton.evalFirstFrom]

theorem tracks_start (h : s.Represents a) (ha : a.Valid) :
    ∃ run, start s = .ok run ∧ Tracks a run [] := by
  by_cases none : s.finals.isEmpty = true
  · refine ⟨⟨a.initial, .failed⟩, ?_, .failed fun u => ?_⟩
    · rw [start, h.initials_eq]
      dsimp only
      rw [if_pos none]
    · have empty := h.isEmpty_finals.mp none
      rw [List.nil_append, Automaton.evalFirst, if_pos (SortedSet.isEmpty_iff.mpr empty)]
  · refine ⟨⟨a.initial, a.evalFirstFrom a.initial []⟩, ?_, .running ha.initial_lt fun u => ?_⟩
    · rw [start, h.initials_eq]
      dsimp only
      rw [if_neg none, classify_eq h]
    · have some : ¬a.finals.isEmpty = true := fun empty =>
        none (h.isEmpty_finals.mpr (SortedSet.isEmpty_iff.mp empty))
      rw [List.nil_append, Automaton.evalFirst, if_neg some]

theorem Tracks.advance (h : s.Represents a) (ha : a.Valid) {run : StateRun} {w : Word}
    (tracks : Tracks a run w) (l : Letter) :
    ∃ run', run.advance s l = .ok run' ∧ Tracks a run' (w ++ [l]) := by
  cases tracks with
  | @failed q w always =>
    refine ⟨⟨q, .failed⟩, ?_, .failed fun u => ?_⟩
    · rw [StateRun.advance, if_pos rfl]
      rfl
    · rw [List.append_assoc]
      exact always ([l] ++ u)
  | @running q w inside reads =>
    obtain ⟨rules, found, codes⟩ := h.exists_rules ha inside
    have target : Snapshot.firstEnabled? l rules = .ok (a.firstTarget? l q) :=
      codes.firstEnabled?_eq l
    have alive : ¬a.evalFirstFrom q [] = .failed := by
      rw [Automaton.evalFirstFrom]
      split <;> simp
    have later : ∀ u, a.evalFirst ((w ++ [l]) ++ u) = a.evalFirstFrom q (l :: u) := by
      intro u
      rw [List.append_assoc]
      exact reads ([l] ++ u)
    have moved : StateRun.advance s ⟨q, a.evalFirstFrom q []⟩ l =
        .ok ((a.firstTarget? l q).elim ⟨q, .failed⟩ fun t => ⟨t, classify s t⟩) := by
      rw [StateRun.advance, if_neg alive, found]
      show (Snapshot.firstEnabled? l rules >>= fun first => _) = _
      rw [target]
      cases a.firstTarget? l q with
      | some t => rfl
      | none => rfl
    rw [moved]
    -- a failed run keeps its last state, of which nothing is asked any more
    cases goal : a.firstTarget? l q with
    | some t =>
      refine ⟨⟨t, a.evalFirstFrom t []⟩, ?_, .running ?_ fun u => ?_⟩
      · rw [Option.elim_some, classify_eq h]
      · rw [Automaton.firstTarget?_eq_head?] at goal
        exact (ha.step_lt (Automaton.mem_targets.mp (List.mem_of_head? goal))).2
      · rw [later, Automaton.evalFirstFrom, goal]
    | none =>
      refine ⟨⟨q, .failed⟩, rfl, .failed fun u => ?_⟩
      rw [later, Automaton.evalFirstFrom, goal]

end StateRun

/-! ## Executors -/

/-- What holds after one more letter holds after a whole word. -/
theorem exists_foldlM {α : Type} {advance : α → Letter → Except Fault α} {tracks : α → Word → Prop}
    (step : ∀ x w l, tracks x w → ∃ y, advance x l = .ok y ∧ tracks y (w ++ [l])) {x : α} {w : Word}
    (h : tracks x w) (u : Word) : ∃ y, u.foldlM advance x = .ok y ∧ tracks y (w ++ u) := by
  induction u generalizing x w with
  | nil => exact ⟨x, rfl, by rwa [List.append_nil]⟩
  | cons l u ih =>
    obtain ⟨next, first, tracked⟩ := step x w l h
    obtain ⟨last, rest, done⟩ := ih tracked
    refine ⟨last, ?_, ?_⟩
    · rw [List.foldlM_cons, first]
      exact rest
    · rwa [List.append_assoc] at done

namespace Executor

variable {s : Snapshot} {a : Automaton}

theorem advance_set {run next : SetRun} {l : Letter} (h : run.advance s l = .ok next) :
    advance ⟨s, .set run⟩ l = .ok ⟨s, .set next⟩ := by
  show (run.advance s l >>= fun next => _) = _
  rw [h]
  rfl

theorem advance_state {run next : StateRun} {l : Letter} (h : run.advance s l = .ok next) :
    advance ⟨s, .state run⟩ l = .ok ⟨s, .state next⟩ := by
  show (run.advance s l >>= fun next => _) = _
  rw [h]
  rfl

/-- The executor that follows all enabled rules reports the verdicts of the automaton, and a reset
    takes it back to its start. -/
theorem followAll_reports (h : s.Represents a) (ha : a.Valid) (u : Word) :
    ∃ y, u.foldlM advance (followAll s) = .ok y ∧ y.reset = .ok (followAll s)
      ∧ y.verdict = a.eval u := by
  have step (x : Executor) (w : Word) (l : Letter)
      (tracked : ∃ run, x = ⟨s, .set run⟩ ∧ SetRun.Tracks a run w) :
      ∃ y, x.advance l = .ok y ∧ ∃ run, y = ⟨s, .set run⟩ ∧ SetRun.Tracks a run (w ++ [l]) := by
    obtain ⟨run, rfl, tracks⟩ := tracked
    obtain ⟨next, moved, tracks⟩ := tracks.advance h ha l
    exact ⟨_, advance_set moved, next, rfl, tracks⟩
  obtain ⟨y, read, run, rfl, tracks⟩ :=
    exists_foldlM step ⟨SetRun.start s, rfl, SetRun.tracks_start h⟩ u
  exact ⟨_, read, rfl, tracks.verdict_eq⟩

/-- The executor that follows the first enabled rule reports the verdicts of the automaton when it
    is run in this way, and a reset takes it back to its start. -/
theorem followFirst_reports (h : s.Represents a) (ha : a.Valid) :
    ∃ x, followFirst s = .ok x ∧ ∀ u : Word, ∃ y, u.foldlM advance x = .ok y ∧ y.reset = .ok x
      ∧ y.verdict = a.evalFirst u := by
  obtain ⟨start, started, begins⟩ := StateRun.tracks_start h ha
  have first : followFirst s = .ok ⟨s, .state start⟩ := by
    rw [followFirst, started]
    rfl
  refine ⟨_, first, fun u => ?_⟩
  have step (x : Executor) (w : Word) (l : Letter)
      (tracked : ∃ run, x = ⟨s, .state run⟩ ∧ StateRun.Tracks a run w) :
      ∃ y, x.advance l = .ok y
        ∧ ∃ run, y = ⟨s, .state run⟩ ∧ StateRun.Tracks a run (w ++ [l]) := by
    obtain ⟨run, rfl, tracks⟩ := tracked
    obtain ⟨next, moved, tracks⟩ := tracks.advance h ha l
    exact ⟨_, advance_state moved, next, rfl, tracks⟩
  obtain ⟨y, read, run, rfl, tracks⟩ := exists_foldlM step ⟨start, rfl, begins⟩ u
  exact ⟨_, read, first, tracks.verdict_eq⟩

end Executor

end TraceRegex
