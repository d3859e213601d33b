import Mathlib
import TraceRegex.Proofs.DocumentSize
import TraceRegex.Proofs.Search
import TraceRegex.Snapshot.Reach

/-! # Decoded snapshots run without faults

Decoding a snapshot checks all that its executors rely on.  Each of them then stays in states that
have a list of rules, a place in the table of ages and a bit in the rows, whatever it is asked to
do: one invariant is kept by resetting and by reading a letter, and so by every row of calls.  A
search keeps in addition that the ages of its live states are those of attempts since the last
reset.
-/

namespace TraceRegex

/-! ## What decoding has checked -/

namespace Snapshot

variable {s : Snapshot}

/-- What has been checked of a snapshot in either format. -/
structure Checked (s : Snapshot) : Prop extends s.Runnable where
  kind_known : s.kind.isKnown = true
  initials_ne_nil : s.initials ≠ []
  finals_lt : ∀ q ∈ s.finals, q < s.stateCount
  guard_checked : ∀ rules ∈ s.transitions, ∀ r ∈ rules, r.guard.check s.atomCount = .ok ()

theorem WellFormed.checked (h : s.WellFormed) : s.Checked where
  toRunnable := h.runnable
  kind_known := h.kind_known
  initials_ne_nil := h.initials_ne_nil
  finals_lt := h.finals_lt
  guard_checked := h.guard_checked

theorem Represents.checked {a : Automaton} (h : s.Represents a) (ha : a.Valid)
    (known : s.kind.isKnown = true) : s.Checked where
  toRunnable := h.runnable ha
  kind_known := known
  initials_ne_nil := by simp [h.initials_eq]
  finals_lt := by
    rw [h.finals_eq, h.stateCount_eq]
    exact ha.finals_lt
  guard_checked _ hrules _ hr := h.guard_checked ha hrules hr

theorem checked_of_decode {bytes : List UInt8} {names : List String}
    (decoded : decode bytes = .ok (s, names)) : s.Checked := by
  rcases of_decode decoded with ⟨-, wellFormed⟩ | ⟨-, v, doc, -, -, built⟩
  · exact wellFormed.checked
  · obtain ⟨given, kind, a, -, built, taken, -, known⟩ := SnapshotDoc.of_build built
    obtain ⟨same, represents⟩ := represents_of_ofAutomaton taken
    exact represents.checked (AutomatonDoc.of_build built).1 (same ▸ known)

/-! ## Rules of a state -/

theorem Runnable.exists_rules (h : s.Runnable) {q : Nat} (hq : q < s.stateCount) :
    ∃ rules ∈ s.transitions, s.rulesAt q = .ok rules := by
  have place : q < s.transitions.length := h.length_transitions ▸ hq
  refine ⟨s.transitions[q], List.getElem_mem place, ?_⟩
  rw [rulesAt, List.getElem?_eq_getElem place]

section

variable {l : Letter} {rules : List CodedRule}

theorem exists_enabledTargets (evaluates : ∀ r ∈ rules, ∃ b, r.guard.eval l = .ok b) :
    ∃ targets, enabledTargets l rules = .ok targets ∧ ∀ t ∈ targets, ∃ r ∈ rules, r.target = t := by
  induction rules with
  | nil => exact ⟨[], rfl, nofun⟩
  | cons r rules ih =>
    rw [List.forall_mem_cons] at evaluates
    obtain ⟨b, evaluated⟩ := evaluates.1
    obtain ⟨targets, found, own⟩ := ih evaluates.2
    rw [enabledTargets, evaluated, found]
    cases b with
    | false => exact ⟨targets, rfl, fun t ht => by simp [own t ht]⟩
    | true =>
      refine ⟨r.target :: targets, rfl, fun t ht => ?_⟩
      cases ht with
      | head => simp
      | tail _ ht => simp [own t ht]

theorem exists_firstEnabled? (evaluates : ∀ r ∈ rules, ∃ b, r.guard.eval l = .ok b) :
    ∃ found, firstEnabled? l rules = .ok found ∧ ∀ t ∈ found, ∃ r ∈ rules, r.target = t := by
  induction rules with
  | nil => exact ⟨none, rfl, nofun⟩
  | cons r rules ih =>
    rw [List.forall_mem_cons] at evaluates
    obtain ⟨b, evaluated⟩ := evaluates.1
    rw [firstEnabled?, evaluated]
    cases b with
    | true => exact ⟨some r.target, rfl, by simp⟩
    | false =>
      obtain ⟨found, read, own⟩ := ih evaluates.2
      exact ⟨found, read, fun t ht => by simp [own t ht]⟩

theorem checkTargets_eq_ok {check : Nat → Except Fault Unit}
    (evaluates : ∀ r ∈ rules, ∃ b, r.guard.eval l = .ok b)
    (passes : ∀ r ∈ rules, check r.target = .ok ()) : checkTargets check l rules = .ok () := by
  induction rules with
  | nil => rfl
  | cons r rules ih =>
    rw [List.forall_mem_cons] at evaluates passes
    obtain ⟨b, evaluated⟩ := evaluates.1
    have rest := ih evaluates.2 passes.2
    rw [checkTargets, evaluated]
    cases b with
    | true =>
      show (check r.target >>= fun _ => checkTargets check l rules) = _
      rw [passes.1, rest]
      rfl
    | false => exact rest

end

/-! ## Rows of bits -/

theorem checkLeaving_eq_ok (h : s.Runnable) {check : Nat → Except Fault Unit}
    (passes : ∀ q < s.stateCount, check q = .ok ()) (l : Letter) {live : List Nat}
    (inside : ∀ q ∈ live, q < s.stateCount) : s.checkLeaving check l live = .ok () := by
  unfold checkLeaving
  induction live with
  | nil => rfl
  | cons q live ih =>
    rw [List.forall_mem_cons] at inside
    obtain ⟨rules, listed, found⟩ := h.exists_rules inside.1
    have here : checkTargets check l rules = .ok () :=
      checkTargets_eq_ok (fun r hr => h.exists_eval listed hr l)
        fun r hr => passes r.target (h.target_lt rules listed r hr)
    show ((do checkTargets check l (← s.rulesAt q)) >>= fun _ => live.forM _) = _
    rw [found]
    show (checkTargets check l rules >>= fun _ => live.forM _) = _
    rw [here]
    exact ih inside.2

end Snapshot

theorem checkRow_eq_ok {q : Nat} (h : q < maxTableBytes) : checkRow q = .ok () := by
  unfold maxTableBytes at h
  have small : ¬maxWord ≤ q := by
    unfold maxWord
    omega
  have room : 2 * (q / 64 + 1) * 8 ≤ maxTableBytes := by
    unfold maxTableBytes
    omega
  rw [checkRow, if_neg small, checkTable, if_pos room]

theorem checkRows_eq_ok {states : List Nat} (h : ∀ q ∈ states, q < maxTableBytes) :
    checkRows states = .ok () := by
  induction states with
  | nil => rfl
  | cons q states ih =>
    rw [List.forall_mem_cons] at h
    rw [checkRows, checkRow_eq_ok h.1, ih h.2]
    rfl

theorem Snapshot.Checked.checkRows_finals {s : Snapshot} (checked : s.Checked)
    (fits : s.stateCount ≤ maxTableBytes) : checkRows s.finals = .ok () :=
  checkRows_eq_ok fun q hq => Nat.lt_of_lt_of_le (checked.finals_lt q hq) fits

/-! ## Calls -/

/-- What an executor can be asked to do. -/
inductive Call where
  | reset
  | advance (l : Letter)
deriving DecidableEq, Repr

namespace Call

/-- Does what is asked for. -/
def perform {α : Type} (reset : α → Except Fault α) (advance : α → Letter → Except Fault α)
    (x : α) : Call → Except Fault α
  | .reset => reset x
  | .advance l => advance x l

/-- The letters read since the last reset, after one more call. -/
def record (w : Word) : Call → Word
  | .reset => []
  | .advance l => w ++ [l]

/-- The letters read since the last reset. -/
def read (calls : List Call) : Word := calls.foldl record []

/-- Resetting and reading a letter succeed and keep what holds of an executor and the letters that
    it has read. -/
structure Keeps {α : Type} (reset : α → Except Fault α) (advance : α → Letter → Except Fault α)
    (tracks : α → Word → Prop) : Prop where
  reset : ∀ x w, tracks x w → ∃ y, reset x = .ok y ∧ tracks y []
  advance : ∀ x w l, tracks x w → ∃ y, advance x l = .ok y ∧ tracks y (w ++ [l])

section

variable {α : Type} {reset : α → Except Fault α} {advance : α → Letter → Except Fault α}
  {tracks : α → Word → Prop} {x : α} {w : Word}

theorem Keeps.perform (keeps : Keeps reset advance tracks) (h : tracks x w) (call : Call) :
    ∃ y, perform reset advance x call = .ok y ∧ tracks y (record w call) := by
  cases call with
  | reset => exact keeps.reset x w h
  | advance l => exact keeps.advance x w l h

theorem Keeps.exists_foldlM (keeps : Keeps reset advance tracks) (h : tracks x w)
    (calls : List Call) : ∃ y, calls.foldlM (Call.perform reset advance) x = .ok y ∧
      tracks y (calls.foldl record w) := by
  induction calls generalizing x w with
  | nil => exact ⟨x, rfl, h⟩
  | cons call calls ih =>
    obtain ⟨next, first, tracked⟩ := keeps.perform h call
    obtain ⟨last, rest, tracked⟩ := ih tracked
    refine ⟨last, ?_, tracked⟩
    rw [List.foldlM_cons, first]
    exact rest

/-- Two ways to read a letter that agree as long as the invariant holds lead to the same end. -/
theorem Keeps.foldlM_eq (keeps : Keeps reset advance tracks)
    {advance' : α → Letter → Except Fault α}
    (same : ∀ x w l, tracks x w → advance' x l = advance x l) (h : tracks x w)
    (calls : List Call) : calls.foldlM (Call.perform reset advance') x =
      calls.foldlM (Call.perform reset advance) x := by
  induction calls generalizing x w with
  | nil => rfl
  | cons call calls ih =>
    have also : Call.perform reset advance' x call = Call.perform reset advance x call := by
      cases call with
      | reset => rfl
      | advance l => exact same x w l h
    obtain ⟨next, first, tracked⟩ := keeps.perform h call
    rw [List.foldlM_cons, List.foldlM_cons, also, first]
    exact ih tracked

end

end Call

/-! ## Plain executors -/

theorem exists_mapM {ε α β : Type} {f : α → Except ε β} {p : β → Prop} {xs : List α}
    (h : ∀ x ∈ xs, ∃ y, f x = .ok y ∧ p y) : ∃ ys, xs.mapM f = .ok ys ∧ ∀ y ∈ ys, p y := by
  induction xs with
  | nil => exact ⟨[], rfl, nofun⟩
  | cons x xs ih =>
    rw [List.forall_mem_cons] at h
    obtain ⟨y, first, hy⟩ := h.1
    obtain ⟨ys, rest, hys⟩ := ih h.2
    refine ⟨y :: ys, ?_, List.forall_mem_cons.mpr ⟨hy, hys⟩⟩
    rw [List.mapM_cons, first, rest]
    rfl

theorem SetRun.exists_advance {s : Snapshot} (runnable : s.Runnable) {run : SetRun}
    (inside : ∀ q ∈ run.live, q < s.stateCount) (l : Letter) :
    ∃ run', run.advance s l = .ok run' ∧ ∀ q ∈ run'.live, q < s.stateCount := by
  by_cases failed : run.verdict = .failed
  · refine ⟨run, ?_, inside⟩
    rw [advance, if_pos failed]
    rfl
  · obtain ⟨targets, moved, bounded⟩ : ∃ targets,
        (run.live.toList.mapM fun q => do Snapshot.enabledTargets l (← s.rulesAt q)) =
          .ok targets ∧ ∀ ts ∈ targets, ∀ t ∈ ts, t < s.stateCount := by
      refine exists_mapM fun q hq => ?_
      obtain ⟨rules, listed, found⟩ := runnable.exists_rules (inside q hq)
      obtain ⟨ts, enabled, own⟩ :=
        Snapshot.exists_enabledTargets fun r hr => runnable.exists_eval listed hr l
      refine ⟨ts, by rw [found]; exact enabled, fun t ht => ?_⟩
      obtain ⟨r, hr, rfl⟩ := own t ht
      exact runnable.target_lt rules listed r hr
    rw [advance, if_neg failed, moved]
    refine ⟨_, rfl, fun t ht => ?_⟩
    obtain ⟨ts, hts, ht⟩ := List.mem_flatten.mp (SortedSet.mem_ofList.mp ht)
    exact bounded ts hts t ht

theorem StateRun.exists_advance {s : Snapshot} (runnable : s.Runnable) {run : StateRun}
    (inside : run.current < s.stateCount) (l : Letter) :
    ∃ run', run.advance s l = .ok run' ∧ run'.current < s.stateCount := by
  by_cases failed : run.verdict = .failed
  · refine ⟨run, ?_, inside⟩
    rw [advance, if_pos failed]
    rfl
  · obtain ⟨rules, listed, read⟩ := runnable.exists_rules inside
    obtain ⟨found, first, own⟩ :=
      Snapshot.exists_firstEnabled? fun r hr => runnable.exists_eval listed hr l
    rw [advance, if_neg failed, read]
    show ∃ run', (Snapshot.firstEnabled? l rules >>= fun found => _) = _ ∧ _
    rw [first]
    cases found with
    | none => exact ⟨_, rfl, inside⟩
    | some t =>
      obtain ⟨r, hr, rfl⟩ := own t rfl
      exact ⟨_, rfl, runnable.target_lt rules listed r hr⟩

namespace Executor

variable {s : Snapshot} {x : Executor}

/-- The executor is in states of the snapshot only. -/
def Inside (s : Snapshot) (x : Executor) : Prop :=
  x.snapshot = s ∧ match x.run with
    | .set run => ∀ q ∈ run.live, q < s.stateCount
    | .state run => run.current < s.stateCount

theorem inside_followAll (checked : s.Checked) : Inside s (followAll s) :=
  ⟨rfl, fun q hq => checked.initials_lt q (SortedSet.mem_ofList.mp hq)⟩

theorem exists_followFirst (checked : s.Checked) : ∃ x, followFirst s = .ok x ∧ Inside s x := by
  cases initials : s.initials with
  | nil => exact absurd initials checked.initials_ne_nil
  | cons q rest =>
    refine ⟨⟨s, .state ⟨q, if s.finals.isEmpty then .failed else StateRun.classify s q⟩⟩, ?_,
      rfl, checked.initials_lt q (by simp [initials])⟩
    rw [followFirst, StateRun.start, initials]
    rfl

theorem exists_ofSnapshot (checked : s.Checked) : ∃ x, ofSnapshot s = .ok x ∧ Inside s x := by
  have known := checked.kind_known
  rw [SnapshotKind.isKnown, Bool.or_eq_true, beq_iff_eq, beq_iff_eq] at known
  unfold ofSnapshot
  cases known with
  | inl kind =>
    rw [if_pos kind]
    exact ⟨_, rfl, inside_followAll checked⟩
  | inr kind =>
    rw [kind, if_neg (by decide), if_pos rfl]
    exact exists_followFirst checked

theorem Inside.exists_reset (checked : s.Checked) (h : Inside s x) :
    ∃ y, x.reset = .ok y ∧ Inside s y := by
  obtain ⟨t, run⟩ := x
  obtain ⟨rfl, -⟩ := h
  cases run with
  | set run => exact ⟨_, rfl, inside_followAll checked⟩
  | state run => exact exists_followFirst checked

theorem Inside.exists_advance (checked : s.Checked) (h : Inside s x) (l : Letter) :
    ∃ y, x.advance l = .ok y ∧ Inside s y := by
  obtain ⟨t, run⟩ := x
  obtain ⟨rfl, inside⟩ := h
  cases run with
  | set run =>
    obtain ⟨run', moved, inside⟩ := run.exists_advance checked.toRunnable inside l
    exact ⟨_, advance_set moved, rfl, inside⟩
  | state run =>
    obtain ⟨run', moved, inside⟩ := run.exists_advance checked.toRunnable inside l
    exact ⟨_, advance_state moved, rfl, inside⟩

/-- Rows of bits reach all states of a snapshot that is not too long for a table. -/
theorem Inside.advanceWithin_eq (checked : s.Checked) (fits : s.stateCount ≤ maxTableBytes)
    (h : Inside s x) (l : Letter) : x.advanceWithin l = x.advance l := by
  obtain ⟨t, run⟩ := x
  obtain ⟨rfl, inside⟩ := h
  cases run with
  | state run => rfl
  | set run =>
    have passes : t.checkLeaving checkRow l run.live.toList = .ok () :=
      Snapshot.checkLeaving_eq_ok checked.toRunnable
        (fun q hq => checkRow_eq_ok (Nat.lt_of_lt_of_le hq fits)) l inside
    unfold advanceWithin
    dsimp only
    rw [passes]
    split <;> rfl

theorem openAll_eq (checked : s.Checked) (fits : s.stateCount ≤ maxTableBytes) :
    openAll s = .ok (followAll s) := by
  have initials : checkRows s.initials = .ok () :=
    checkRows_eq_ok fun q hq => Nat.lt_of_lt_of_le (checked.initials_lt q hq) fits
  rw [openAll, checked.checkRows_finals fits, initials]
  rfl

theorem openSnapshot_eq (checked : s.Checked) (fits : s.stateCount ≤ maxTableBytes) :
    openSnapshot s = ofSnapshot s := by
  have first : openFirst s = followFirst s := by
    rw [openFirst, checked.checkRows_finals fits]
    rfl
  rw [openSnapshot, ofSnapshot, openAll_eq checked fits, first]

theorem keeps_inside (checked : s.Checked) :
    Call.Keeps reset advance fun x _ => Inside s x where
  reset _ _ inside := inside.exists_reset checked
  advance _ _ l inside := inside.exists_advance checked l

theorem Inside.exists_foldlM (checked : s.Checked) (h : Inside s x) (calls : List Call) :
    ∃ y, calls.foldlM (Call.perform reset advance) x = .ok y ∧
      (s.stateCount ≤ maxTableBytes →
        calls.foldlM (Call.perform reset advanceWithin) x = .ok y) := by
  have keeps := keeps_inside checked
  obtain ⟨y, done, -⟩ := keeps.exists_foldlM (w := []) h calls
  refine ⟨y, done, fun fits => ?_⟩
  rw [← done]
  exact keeps.foldlM_eq (fun _ _ l inside => inside.advanceWithin_eq checked fits l) (w := []) h
    calls

end Executor

/-! ## Search executors -/

namespace SearchExecutor

variable {s : Snapshot} {x : SearchExecutor} {w : Word}

/-- The executor searches the snapshot and has read the word since it was reset.  Where no state is
    final the search has failed from the start. -/
structure Follows (s : Snapshot) (x : SearchExecutor) (w : Word) : Prop where
  snapshot_eq : x.snapshot = s
  tracks : s.finals ≠ [] → SearchRun.Tracks s x.run w
  hopeless : s.finals = [] → x.run = ⟨[], .failed⟩

theorem follows_ofSnapshot (s : Snapshot) : Follows s (ofSnapshot s) [] where
  snapshot_eq := rfl
  tracks := SearchRun.tracks_start
  hopeless hopeless := by simp [ofSnapshot, SearchRun.start, hopeless]

theorem Follows.exists_advance (runnable : s.Runnable) (h : Follows s x w) (l : Letter) :
    ∃ y, x.advance l = .ok y ∧ Follows s y (w ++ [l]) := by
  obtain ⟨run, moved, tracks, hopeless⟩ : ∃ run, x.run.advance s l = .ok run ∧
      (s.finals ≠ [] → SearchRun.Tracks s run (w ++ [l])) ∧
      (s.finals = [] → run = ⟨[], .failed⟩) := by
    by_cases hope : s.finals = []
    · refine ⟨x.run, ?_, fun some => absurd hope some, h.hopeless⟩
      rw [h.hopeless hope, SearchRun.advance, if_pos rfl]
      rfl
    · obtain ⟨run, moved, tracks⟩ := (h.tracks hope).advance runnable l
      exact ⟨run, moved, fun _ => tracks, fun none => absurd none hope⟩
  refine ⟨⟨s, run⟩, ?_, rfl, tracks, hopeless⟩
  show (x.run.advance x.snapshot l >>= fun run => _) = _
  rw [h.snapshot_eq, moved]
  rfl

theorem Follows.advanceWithin_eq (runnable : s.Runnable) (fits : s.stateCount ≤ maxTableBytes)
    (h : Follows s x w) (l : Letter) : x.advanceWithin l = x.advance l := by
  have passes (q : Nat) (hq : q < s.stateCount) : s.checkAged q = .ok () := by
    rw [Snapshot.checkAged, checkRow_eq_ok (Nat.lt_of_lt_of_le hq fits)]
    exact if_pos hq
  unfold advanceWithin
  by_cases failed : x.run.verdict = .failed
  · rw [if_pos failed]
  · have hope : s.finals ≠ [] := fun hopeless => failed (by rw [h.hopeless hopeless])
    obtain ⟨live, seeded, inside, -⟩ := (h.tracks hope).seed runnable
    have passed : s.checkLeaving s.checkAged l (live.map Prod.fst) = .ok () := by
      refine Snapshot.checkLeaving_eq_ok runnable passes l fun q hq => ?_
      obtain ⟨p, hp, rfl⟩ := List.mem_map.mp hq
      exact inside p hp
    rw [if_neg failed, h.snapshot_eq, seeded]
    show (s.checkLeaving s.checkAged l (live.map Prod.fst) >>= fun _ => x.advance l) = _
    rw [passed]
    rfl

/-- A state is live exactly if an attempt since the reset has reached it. -/
theorem Follows.live_iff (h : Follows s x w) {q : Nat} :
    (∃ a, (q, a) ∈ x.run.live) ↔ s.finals ≠ [] ∧ (s.arrivals w q).Nonempty := by
  by_cases hope : s.finals = []
  · simp [h.hopeless hope, hope]
  · have records := (h.tracks hope).live
    constructor
    · intro found
      obtain ⟨a, listed⟩ := found
      exact ⟨hope, a.longest, (records.bounds listed).2.1⟩
    · intro reached
      obtain ⟨-, n, hn⟩ := reached
      obtain ⟨p, hp, rfl⟩ := records.exists_mem hn
      exact ⟨p.2, hp⟩

theorem Follows.ages (runnable : s.Runnable) (h : Follows s x w) {q : Nat} {a : Age}
    (listed : (q, a) ∈ x.run.live) :
    q < s.stateCount ∧ a.defined = true ∧ 1 ≤ a.shortest ∧ a.shortest ≤ a.longest ∧
      a.longest ≤ w.length := by
  have hope : s.finals ≠ [] := (h.live_iff.mp ⟨a, listed⟩).1
  have records := (h.tracks hope).live
  obtain ⟨least, greatest⟩ := records.bounds listed
  -- the youngest attempt has read a letter, and the oldest began after the reset
  obtain ⟨u, some, -, length, -⟩ := least.1
  obtain ⟨v, -, suffix, length', p, hp, path⟩ := greatest.1
  have bound : q < s.stateCount := runnable.path_lt path (runnable.initials_lt p hp)
  refine ⟨bound, records.defined _ listed, ?_, greatest.2 least.1, ?_⟩
  · rw [← length]
    exact List.length_pos_iff.mpr some
  · rw [← length']
    exact suffix.length_le

theorem openSnapshot_eq (checked : s.Checked) (fits : s.stateCount ≤ maxTableBytes) :
    openSnapshot s = .ok (ofSnapshot s) := by
  rw [openSnapshot, checked.checkRows_finals fits]
  rfl

theorem keeps_follows (runnable : s.Runnable) :
    Call.Keeps (fun x => .ok x.reset) advance (Follows s) where
  reset x _ follows := by
    refine ⟨x.reset, rfl, ?_⟩
    rw [reset, follows.snapshot_eq]
    exact follows_ofSnapshot s
  advance _ _ l follows := follows.exists_advance runnable l

end SearchExecutor

/-! ## Decoded snapshots -/

/-- The executors of a decoded snapshot can be made, and they answer every row of calls without a
    fault.  In a search the live states are those that an attempt since the last reset has reached,
    and their ages are the lengths of such attempts.  As long as there can be a table with as many
    entries as the snapshot has bytes, rows of bits reach all the states that come up. -/
theorem Snapshot.decoded_runs_safely {bytes : List UInt8} {s : Snapshot} {names : List String}
    (decoded : decode bytes = .ok (s, names)) (calls : List Call) :
    (∃ x y, Executor.ofSnapshot s = .ok x ∧
      calls.foldlM (Call.perform Executor.reset Executor.advance) x = .ok y ∧
      (bytes.length ≤ maxTableBytes → Executor.openSnapshot s = .ok x ∧
        calls.foldlM (Call.perform Executor.reset Executor.advanceWithin) x = .ok y)) ∧
    (∃ y, calls.foldlM (Call.perform Executor.reset Executor.advance) (Executor.followAll s) =
        .ok y ∧
      (bytes.length ≤ maxTableBytes → Executor.openAll s = .ok (Executor.followAll s) ∧
        calls.foldlM (Call.perform Executor.reset Executor.advanceWithin) (Executor.followAll s) =
          .ok y)) ∧
    ∃ y, calls.foldlM (Call.perform (fun x => .ok x.reset) SearchExecutor.advance)
        (SearchExecutor.ofSnapshot s) = .ok y ∧
      (bytes.length ≤ maxTableBytes →
        SearchExecutor.openSnapshot s = .ok (SearchExecutor.ofSnapshot s) ∧
        calls.foldlM (Call.perform (fun x => .ok x.reset) SearchExecutor.advanceWithin)
          (SearchExecutor.ofSnapshot s) = .ok y) ∧
      (∀ q, (∃ a, (q, a) ∈ y.run.live) ↔
        s.finals ≠ [] ∧ (s.arrivals (Call.read calls) q).Nonempty) ∧
      ∀ q a, (q, a) ∈ y.run.live → q < s.stateCount ∧ a.defined = true ∧ 1 ≤ a.shortest ∧
        a.shortest ≤ a.longest ∧ a.longest ≤ (Call.read calls).length := by
  have checked := checked_of_decode decoded
  have fits (small : bytes.length ≤ maxTableBytes) : s.stateCount ≤ maxTableBytes :=
    (stateCount_le_of_decode decoded).trans (Nat.max_le.mpr ⟨by decide, small⟩)
  refine ⟨?_, ?_, ?_⟩
  · obtain ⟨x, made, inside⟩ := Executor.exists_ofSnapshot checked
    obtain ⟨y, done, within⟩ := inside.exists_foldlM checked calls
    exact ⟨x, y, made, done, fun small =>
      ⟨(Executor.openSnapshot_eq checked (fits small)).trans made, within (fits small)⟩⟩
  · obtain ⟨y, done, within⟩ := (Executor.inside_followAll checked).exists_foldlM checked calls
    exact ⟨y, done, fun small => ⟨Executor.openAll_eq checked (fits small), within (fits small)⟩⟩
  · have keeps := SearchExecutor.keeps_follows checked.toRunnable
    have start := SearchExecutor.follows_ofSnapshot s
    obtain ⟨y, done, follows⟩ := keeps.exists_foldlM start calls
    refine ⟨y, done, fun small => ⟨SearchExecutor.openSnapshot_eq checked (fits small), ?_⟩,
      fun q => follows.live_iff, fun q a => follows.ages checked.toRunnable⟩
    rw [← done]
    exact keeps.foldlM_eq
      (fun x w l follows => follows.advanceWithin_eq checked.toRunnable (fits small) l) start calls

/-- Two initial states in a row, with a reset between two attempts and undeclared atoms. -/
theorem Snapshot.decoded_runs_safely_of_row :
    let bytes : List UInt8 :=
      [98, 116, 51, 130, 0, 0, 2, 0, 3, 0, 2, 0, 0, 0, 1, 0, 1, 0, 2, 0, 1, 0, 0, 0, 3, 0, 0, 0,
        2, 0, 0, 1, 0, 1, 0, 0, 0, 3, 0, 0, 0, 2, 1, 0, 2, 0, 0, 0, 0, 0]
    let s : Snapshot := ⟨.nondeterministic, 2, 3, [0, 1], [2],
      [[⟨[2, 0, 0], 1⟩], [⟨[2, 1, 0], 2⟩], []]⟩
    let calls : List Call :=
      [.advance (.ofList [0]), .reset, .advance (.ofList [0, 9]), .advance (.ofList [1, 70000])]
    decode bytes = .ok (s, []) ∧ bytes.length ≤ maxTableBytes ∧
      (∃ x y, Executor.openSnapshot s = .ok x ∧
        calls.foldlM (Call.perform Executor.reset Executor.advanceWithin) x = .ok y) ∧
      ∃ y, calls.foldlM (Call.perform (fun x => .ok x.reset) SearchExecutor.advanceWithin)
          (SearchExecutor.ofSnapshot s) = .ok y ∧
        y.run.live = [(2, ⟨2, 1, true⟩)] ∧ (Call.read calls).length = 2 ∧
        (s.arrivals (Call.read calls) 2).Nonempty := by
  intro bytes s calls
  have decoded : decode bytes = .ok (s, []) := by cbv
  have small : bytes.length ≤ maxTableBytes := by decide
  obtain ⟨⟨x, y, -, -, plain⟩, -, z, done, search, live, -⟩ := decoded_runs_safely decoded calls
  have computed : calls.foldlM (Call.perform (fun x => .ok x.reset) SearchExecutor.advance)
      (SearchExecutor.ofSnapshot s) = .ok ⟨s, [(2, ⟨2, 1, true⟩)], .ok 1 2 2⟩ := rfl
  cases computed.symm.trans done
  exact ⟨decoded, small, ⟨x, y, (plain small).1, (plain small).2⟩, _, (search small).2, rfl, rfl,
    ((live 2).mp ⟨_, List.mem_cons_self⟩).2⟩

end TraceRegex
