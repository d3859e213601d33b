import TraceRegex.Proofs.BinaryLayout
import TraceRegex.Proofs.Documents
import TraceRegex.Proofs.Streaming

/-! # What an accepted document holds

The stages of decoding are followed backwards: where the last one succeeds, each stage before it has
succeeded as well, and what came out of a stage has passed its checks.
-/

namespace TraceRegex

/-! ## Computations that succeed -/

namespace Build

section

variable {ε ε' α β : Type} {m : ExceptT ε Build α}

theorem eq_ok_of_mapError {g : ε → ε'} {r : Except ε α} {x : α} (h : r.mapError g = .ok x) :
    r = .ok x := by
  cases r with
  | error e => cases h
  | ok y =>
    cases h
    rfl

theorem eq_error_of_mapError {g : ε → ε'} {r : Except ε α} {e : ε'} (h : r.mapError g = .error e) :
    ∃ cause, e = g cause := by
  cases r with
  | error cause =>
    cases h
    exact ⟨cause, rfl⟩
  | ok y => cases h

/-- In some context the computation succeeds with the value. -/
def Succeeds (m : ExceptT ε Build α) (x : α) : Prop := ∃ ctx : Context, (m.run.run ctx).1 = .ok x

theorem Succeeds.of_bind {k : α → ExceptT ε Build β} {y : β} (h : Succeeds (m >>= k) y) :
    ∃ x, Succeeds m x ∧ Succeeds (k x) y := by
  obtain ⟨ctx, done⟩ := h
  change ((ExceptT.bindCont k (m.run.run ctx).1).run (m.run.run ctx).2).1 = _ at done
  cases first : (m.run.run ctx).1 with
  | error e =>
    rw [first] at done
    cases done
  | ok x =>
    rw [first] at done
    exact ⟨x, ⟨ctx, first⟩, _, done⟩

theorem Succeeds.of_pure {x y : α} (h : Succeeds (pure x : ExceptT ε Build α) y) : x = y := by
  obtain ⟨ctx, done⟩ := h
  cases done
  rfl

theorem not_succeeds_throw {e : ε} {x : α} : ¬Succeeds (throw e : ExceptT ε Build α) x := by
  rintro ⟨ctx, done⟩
  cases done

theorem Succeeds.of_adapt {g : ε → ε'} {x : α} (h : Succeeds (ExceptT.adapt g m) x) :
    Succeeds m x := by
  obtain ⟨ctx, done⟩ := h
  exact ⟨ctx, eq_ok_of_mapError done⟩

/-- A computation that returns the same in every context succeeds only with that. -/
theorem Succeeds.eq_of_returns {x : α} {r : Except ε α} (h : Succeeds m x)
    (returns : Returns m.run r) : r = .ok x := by
  obtain ⟨ctx, done⟩ := h
  exact (returns ctx).symm.trans done

theorem Succeeds.of_mapM {f : α → ExceptT ε Build β} {xs : List α} {ys : List β}
    (h : Succeeds (xs.mapM f) ys) : ∀ x ∈ xs, ∃ y ∈ ys, Succeeds (f x) y := by
  induction xs generalizing ys with
  | nil => exact nofun
  | cons x xs ih =>
    rw [List.mapM_cons] at h
    obtain ⟨y, first, h⟩ := h.of_bind
    obtain ⟨rest, later, h⟩ := h.of_bind
    cases h.of_pure
    intro z mem
    cases mem with
    | head => exact ⟨y, List.mem_cons_self, first⟩
    | tail _ mem =>
      obtain ⟨w, inside, read⟩ := ih later z mem
      exact ⟨w, List.mem_cons_of_mem _ inside, read⟩

/-- In some context the computation fails with the error. -/
def Fails (m : ExceptT ε Build α) (e : ε) : Prop := ∃ ctx : Context, (m.run.run ctx).1 = .error e

theorem Fails.of_bind {k : α → ExceptT ε Build β} {e : ε} (h : Fails (m >>= k) e) :
    Fails m e ∨ ∃ x, Fails (k x) e := by
  obtain ⟨ctx, failed⟩ := h
  change ((ExceptT.bindCont k (m.run.run ctx).1).run (m.run.run ctx).2).1 = _ at failed
  cases first : (m.run.run ctx).1 with
  | error e' =>
    rw [first] at failed
    cases failed
    exact .inl ⟨ctx, first⟩
  | ok x =>
    rw [first] at failed
    exact .inr ⟨x, _, failed⟩

theorem Fails.of_throw {e e' : ε} (h : Fails (throw e : ExceptT ε Build α) e') : e = e' := by
  obtain ⟨ctx, failed⟩ := h
  cases failed
  rfl

theorem Fails.of_adapt {g : ε → ε'} {e : ε'} (h : Fails (ExceptT.adapt g m) e) :
    ∃ cause, e = g cause := by
  obtain ⟨ctx, failed⟩ := h
  exact eq_error_of_mapError failed

theorem Fails.eq_of_returns {e : ε} {r : Except ε α} (h : Fails m e) (returns : Returns m.run r) :
    r = .error e := by
  obtain ⟨ctx, failed⟩ := h
  exact (returns ctx).symm.trans failed

end

end Build

open Build (Succeeds not_succeeds_throw Fails)

/-! ## Documents -/

namespace AutomatonDoc

variable {doc : AutomatonDoc} {a : Automaton}

/-- The automaton of a document is well formed, and each guard of the document is built as one of
    its own. -/
theorem of_build (h : Succeeds doc.build a) :
    a.Valid ∧ a.atomCount = doc.atomCount ∧ a.stateCount = doc.transitions.length ∧
      ∀ rules ∈ doc.transitions, ∀ r ∈ rules,
        ∃ rules' ∈ a.transitions, ∃ r' ∈ rules', Succeeds r.guard.build r'.guard := by
  unfold build at h
  dsimp only at h
  split at h
  next => exact absurd h not_succeeds_throw
  next counted =>
    obtain ⟨transitions, lists, h⟩ := h.of_bind
    split at h
    next passed =>
      cases h.of_pure
      refine ⟨Automaton.validate_iff.mp passed, rfl, (Decidable.not_not.mp counted).symm,
        fun rules hrules r hr => ?_⟩
      obtain ⟨q, hq⟩ := List.mem_iff_getElem?.mp hrules
      obtain ⟨rules', inside, built⟩ :=
        lists.of_mapM (rules, q) (List.mem_zipIdx_iff_getElem?.mpr hq)
      obtain ⟨r', inside', built⟩ := built.of_mapM r hr
      obtain ⟨guard, read, built⟩ := built.of_bind
      cases built.of_pure
      exact ⟨rules', inside, _, inside', read.of_adapt⟩
    next => exact absurd h not_succeeds_throw

theorem of_buildDeterministic (h : Succeeds doc.buildDeterministic a) :
    Succeeds doc.build a ∧ a.Deterministic := by
  obtain ⟨a', built, h⟩ := h.of_bind
  obtain ⟨⟨⟩, checked, h⟩ := h.of_bind
  cases h.of_pure
  have passed := checked.of_adapt.eq_of_returns a.validateDeterministic_returns_check
  refine ⟨built, ?_⟩
  cases defect : a.deterministicDefectOf with
  | some d =>
    rw [defect] at passed
    cases passed
  | none => exact (Automaton.deterministicDefectOf_eq_none_iff.mp defect).2

end AutomatonDoc

theorem SnapshotDoc.of_build {doc : SnapshotDoc} {s : Snapshot} (h : Succeeds doc.build s) :
    ∃ given kind a, doc.automaton = some given ∧ Succeeds given.build a ∧
      Snapshot.ofAutomaton kind a = .ok s ∧ (kind = .deterministic → a.Deterministic) ∧
      kind.isKnown = true := by
  unfold build at h
  dsimp only at h
  split at h
  next given found =>
    split at h
    next =>
      obtain ⟨a, built, h⟩ := h.of_bind
      have taken := Build.eq_ok_of_mapError (h.eq_of_returns (snapshot_returns .nondeterministic a))
      exact ⟨given, .nondeterministic, a, found, built.of_adapt, taken,
        fun same => absurd same (by decide), rfl⟩
    next =>
      split at h
      next =>
        obtain ⟨a, built, h⟩ := h.of_bind
        have taken := Build.eq_ok_of_mapError (h.eq_of_returns (snapshot_returns .deterministic a))
        obtain ⟨built, deterministic⟩ := AutomatonDoc.of_buildDeterministic built.of_adapt
        exact ⟨given, .deterministic, a, found, built, taken, fun _ => deterministic, rfl⟩
      next => exact absurd h not_succeeds_throw
  next => exact absurd h not_succeeds_throw

/-- The errors of a document that is JSON of the right shape. -/
theorem SnapshotDoc.of_build_fails {doc : SnapshotDoc} {e : DecodeError} (h : Fails doc.build e) :
    e = .missingAutomaton ∨ (∃ cause, e = .invalidAutomaton cause) ∨
      (∃ kind, e = .unsupportedKind kind) ∨ ∃ cause, e = .tooLarge cause := by
  unfold build at h
  dsimp only at h
  split at h
  next given found =>
    split at h
    next =>
      rcases h.of_bind with built | ⟨a, taken⟩
      · exact .inr (.inl built.of_adapt)
      · exact .inr (.inr (.inr (Build.eq_error_of_mapError
          (taken.eq_of_returns (snapshot_returns .nondeterministic a)))))
    split at h
    next =>
      rcases h.of_bind with built | ⟨a, taken⟩
      · exact .inr (.inl built.of_adapt)
      · exact .inr (.inr (.inr (Build.eq_error_of_mapError
          (taken.eq_of_returns (snapshot_returns .deterministic a)))))
    next => exact .inr (.inr (.inl ⟨_, h.of_throw.symm⟩))
  next => exact .inl h.of_throw.symm

/-! ## Snapshots -/

namespace Snapshot

variable {s : Snapshot}

theorem of_decode {bytes : List UInt8} {names : List String} (h : decode bytes = .ok (s, names)) :
    isSnapshot bytes = true ∧ s.WellFormed ∨
      isSnapshot bytes = false ∧ ∃ v doc, Json.parse? (Text.charsOfBytes bytes) = some v ∧
        SnapshotDoc.ofJson v = some doc ∧ Succeeds doc.build s := by
  unfold decode at h
  split at h
  next binary =>
    split at h
    next s' loaded =>
      cases h
      obtain ⟨parts, legible, -, rfl⟩ := load_eq_ok_iff.mp loaded
      exact .inl ⟨binary, legible.wellFormed_sorted⟩
    next => cases h
  next text =>
    refine .inr ⟨Bool.eq_false_iff.mpr text, ?_⟩
    split at h
    next => cases h
    next v parsed =>
      split at h
      next => cases h
      next doc given =>
        refine ⟨v, doc, parsed, given, Context.empty, ?_⟩
        cases built : (doc.build.run.run Context.empty).1 with
        | error e =>
          rw [built] at h
          cases h
        | ok s' =>
          rw [built] at h
          cases h
          rfl

/-- What is refused outside the binary format is malformed, of an unknown kind or too large. -/
theorem of_decode_error {bytes : List UInt8} {e : DecodeError} (json : isSnapshot bytes = false)
    (h : decode bytes = .error e) :
    (∃ detail, e.message = malformed detail) ∨ (∃ kind, e = .unsupportedKind kind) ∨
      ∃ cause, e = .tooLarge cause := by
  rw [decode, json, if_neg Bool.false_ne_true] at h
  split at h
  next =>
    cases h
    exact .inl ⟨_, rfl⟩
  next v parsed =>
    split at h
    next =>
      cases h
      exact .inl ⟨_, rfl⟩
    next doc given =>
      cases built : (doc.build.run.run Context.empty).1 with
      | ok s =>
        rw [built] at h
        cases h
      | error e' =>
        rw [built] at h
        cases h
        rcases SnapshotDoc.of_build_fails ⟨_, built⟩ with rfl | ⟨cause, rfl⟩ | other
        · exact .inl ⟨_, rfl⟩
        · exact .inl ⟨_, rfl⟩
        · exact .inr other

/-- Coded rules that pass the checks are the code of some rules. -/
theorem exists_codes {atomCount stateCount : Nat} {coded : List CodedRule}
    (guards : ∀ c ∈ coded, c.guard.check atomCount = .ok ())
    (targets : ∀ c ∈ coded, c.target < stateCount) :
    ∃ rules, Codes rules coded ∧
      ∀ r ∈ rules, r.target < stateCount ∧ r.guard.varCount ≤ atomCount := by
  induction coded with
  | nil => exact ⟨[], .nil, nofun⟩
  | cons c coded ih =>
    rw [List.forall_mem_cons] at guards targets
    obtain ⟨f, encoded, bound⟩ := Bytecode.exists_encode_of_check guards.1
    obtain ⟨rules, codes, sound⟩ := ih guards.2 targets.2
    refine ⟨⟨f, c.target⟩ :: rules, .cons (r := ⟨f, c.target⟩) encoded codes, ?_⟩
    exact List.forall_mem_cons.mpr ⟨⟨targets.1, bound⟩, sound⟩

theorem exists_codes_lists {atomCount stateCount : Nat} {transitions : List (List CodedRule)}
    (guards : ∀ coded ∈ transitions, ∀ c ∈ coded, c.guard.check atomCount = .ok ())
    (targets : ∀ coded ∈ transitions, ∀ c ∈ coded, c.target < stateCount) :
    ∃ lists : List (List Rule), transitions.length = lists.length ∧
      (∀ q coded, transitions[q]? = some coded → Codes (lists.getD q []) coded) ∧
      ∀ rules ∈ lists, ∀ r ∈ rules, r.target < stateCount ∧ r.guard.varCount ≤ atomCount := by
  induction transitions with
  | nil => exact ⟨[], rfl, nofun, nofun⟩
  | cons coded transitions ih =>
    rw [List.forall_mem_cons] at guards targets
    obtain ⟨rules, codes, sound⟩ := exists_codes guards.1 targets.1
    obtain ⟨lists, length, all, sound'⟩ := ih guards.2 targets.2
    refine ⟨rules :: lists, congrArg Nat.succ length, fun q coded' stands => ?_,
      List.forall_mem_cons.mpr ⟨sound, sound'⟩⟩
    cases q with
    | zero =>
      cases stands
      exact codes
    | succ q => exact all q coded' stands

/-- A well-formed snapshot with one initial state is the snapshot of a well-formed automaton. -/
theorem WellFormed.exists_automaton (h : s.WellFormed) (one : s.initials.length = 1) :
    ∃ a : Automaton, s.Represents a ∧ a.Valid := by
  obtain ⟨initial, initials⟩ := List.length_eq_one_iff.mp one
  obtain ⟨lists, length, codes, sound⟩ := exists_codes_lists h.guard_checked h.target_lt
  refine ⟨⟨s.atomCount, s.stateCount, initial, .ofList s.finals, lists⟩, ?_, ?_⟩
  · exact ⟨rfl, rfl, initials, (SortedSet.toList_ofList h.finals_ascending).symm, length, codes⟩
  · refine ⟨h.initials_lt initial (by simp [initials]), length ▸ h.length_transitions,
      fun q mem => h.finals_lt q (SortedSet.mem_ofList.mp mem), ?_, ?_⟩
    · exact fun rules hrules r hr => (sound rules hrules r hr).1
    · exact fun rules hrules r hr => (sound rules hrules r hr).2

end Snapshot

end TraceRegex
