import TraceRegex.Proofs.GuardCode
import TraceRegex.Proofs.SetMembership
import TraceRegex.Snapshot.Binary

/-! # Reading back the binary format

A reader takes the bytes that a writer wrote off the front, whatever follows them.  `Takes` states
this for one reader, and readers in a row take bytes in a row; so the loader takes a whole snapshot
back, part by part.
-/

namespace TraceRegex

theorem word32_bytes32 {n : Nat} (h : n ≤ maxWord32) :
    word32 n.toUInt8 (n / 256).toUInt8 (n / 65536).toUInt8 (n / 65536 / 256).toUInt8 = n := by
  unfold maxWord32 at h
  simp only [word32, word16, Nat.toUInt8_eq, UInt8.toNat_ofNat']
  omega

namespace ByteReader

/-! ## Readers in a row -/

/-- The reader takes exactly these bytes off the front, and gives the value. -/
def Takes {α : Type} (m : ByteReader α) (bytes : List UInt8) (x : α) : Prop :=
  ∀ offset rest, m ⟨offset, bytes ++ rest⟩ = .ok (x, ⟨offset + bytes.length, rest⟩)

section

variable {α β : Type}

theorem Takes.pure (x : α) : Takes (Pure.pure x) [] x := fun _ _ => rfl

theorem Takes.run_bind {m : ByteReader α} {bytes : List UInt8} {x : α} (hm : Takes m bytes x)
    (f : α → ByteReader β) (offset : Nat) (rest : List UInt8) :
    (m >>= f) ⟨offset, bytes ++ rest⟩ = f x ⟨offset + bytes.length, rest⟩ := by
  show (m ⟨offset, bytes ++ rest⟩ >>= fun p => f p.1 p.2) = _
  rw [hm offset rest]
  rfl

theorem Takes.bind {m : ByteReader α} {f : α → ByteReader β} {bytes bytes' : List UInt8} {x : α}
    {y : β} (hm : Takes m bytes x) (hf : Takes (f x) bytes' y) :
    Takes (m >>= f) (bytes ++ bytes') y := by
  intro offset rest
  rw [List.append_assoc, List.length_append, ← Nat.add_assoc, hm.run_bind]
  exact hf (offset + bytes.length) rest

theorem Takes.bind_pure {m : ByteReader α} {bytes : List UInt8} {x : α} (hm : Takes m bytes x)
    (f : α → β) : Takes (m >>= fun x => Pure.pure (f x)) bytes (f x) := by
  have done := hm.bind (f := fun x => Pure.pure (f x)) (Takes.pure (f x))
  rwa [List.append_nil] at done

theorem isShorter_eq_false {n : Nat} {xs : List α} (h : n ≤ xs.length) :
    isShorter n xs = false := by
  fun_induction isShorter n xs with
  | case1 => rfl
  | case2 => cases h
  | case3 n x xs ih => exact ih (Nat.le_of_succ_le_succ h)

theorem split?_append (xs ys : List α) : split? xs.length (xs ++ ys) = some (xs, ys) := by
  induction xs with
  | nil => rfl
  | cons x xs ih =>
    show (split? xs.length (xs ++ ys)).map _ = _
    rw [ih]
    rfl

end

theorem takes_take (bytes : List UInt8) : Takes (take bytes.length) bytes bytes := by
  intro offset rest
  unfold take
  dsimp only
  rw [isShorter_eq_false (by simp), split?_append]
  rfl

theorem takes_u16 {n : Nat} (h : n ≤ maxWord16) : Takes u16 (bytes16 n) n := by
  intro offset rest
  show Except.ok (word16 n.toUInt8 (n / 256).toUInt8, _) = _
  rw [word16_bytes16 h]
  rfl

theorem takes_u32 {n : Nat} (h : n ≤ maxWord32) : Takes u32 (bytes32 n) n := by
  intro offset rest
  show Except.ok (word32 n.toUInt8 (n / 256).toUInt8 (n / 65536).toUInt8
    (n / 65536 / 256).toUInt8, _) = _
  rw [word32_bytes32 h]
  rfl

/-! ## Lists of states -/

theorem takes_statesOf {stateCount : Nat} (few : stateCount ≤ maxWord16) {states : List Nat}
    (h : ∀ q ∈ states, q < stateCount) :
    Takes (statesOf stateCount states.length) (states.flatMap bytes16) states := by
  induction states with
  | nil => exact Takes.pure []
  | cons q states ih =>
    have hq : q < stateCount := h q List.mem_cons_self
    have later := ih fun q hq => h q (List.mem_cons_of_mem _ hq)
    have first : Takes u16 (bytes16 q) q := takes_u16 (Nat.le_trans (Nat.le_of_lt hq) few)
    rw [List.flatMap_cons]
    refine first.bind ?_
    rw [if_neg (Nat.not_le.mpr hq)]
    exact later.bind_pure (q :: ·)

/-- A counted list of states is taken whatever their order; the reader sorts them. -/
theorem takes_states {stateCount : Nat} (few : stateCount ≤ maxWord16) {states : List Nat}
    (h : ∀ q ∈ states, q < stateCount) (short : states.length ≤ maxWord16) :
    Takes (ByteReader.states stateCount) (bytes16 states.length ++ states.flatMap bytes16)
      (SortedSet.ofList states).toList :=
  (takes_u16 short).bind
    ((takes_statesOf few h).bind_pure fun states => (SortedSet.ofList states).toList)

/-! ## Rules -/

theorem ne_nil_of_check {atomCount : Nat} {guard : Bytecode}
    (h : guard.check atomCount = .ok ()) : guard ≠ [] := by
  rintro rfl
  cases h

/-- What a rule must satisfy to be read back. -/
structure Readable (header : Header) (r : CodedRule) : Prop where
  checked : r.guard.check header.atomCount.toNat = .ok ()
  short : r.guard.length ≤ maxWord32
  target_lt : r.target < header.stateCount.toNat

theorem takes_rule {header : Header} {r : CodedRule} (h : Readable header r) (q i : Nat) :
    Takes (rule header q i) (Snapshot.encodeCodedRule r) r := by
  have target : r.target ≤ maxWord16 := by
    have := header.stateCount.toNat_lt
    have := h.target_lt
    unfold maxWord16
    omega
  unfold Snapshot.encodeCodedRule
  rw [List.append_assoc]
  refine (takes_u32 h.short).bind ((takes_take r.guard).bind ?_)
  -- nothing is read after the target, only checked
  rw [← List.append_nil (bytes16 r.target)]
  refine (takes_u16 target).bind ?_
  dsimp only
  rw [h.checked]
  dsimp only
  rw [if_neg (Nat.not_le.mpr h.target_lt)]
  exact Takes.pure r

theorem takes_rulesOf {header : Header} (q : Nat) {rules : List CodedRule}
    (h : ∀ r ∈ rules, Readable header r) (i : Nat) :
    Takes (rulesOf header q i rules.length) (rules.flatMap Snapshot.encodeCodedRule) rules := by
  induction rules generalizing i with
  | nil => exact Takes.pure []
  | cons r rules ih =>
    have later := ih (fun r hr => h r (List.mem_cons_of_mem _ hr)) (i + 1)
    rw [List.flatMap_cons]
    exact (takes_rule (h r List.mem_cons_self) q i).bind (later.bind_pure (r :: ·))

/-- A rule has at least seven bytes: a guard that can be checked is not empty. -/
theorem le_length_encodeCodedRule {header : Header} {rules : List CodedRule}
    (h : ∀ r ∈ rules, Readable header r) :
    7 * rules.length ≤ (rules.flatMap Snapshot.encodeCodedRule).length := by
  induction rules with
  | nil => exact Nat.le_refl 0
  | cons r rules ih =>
    have later := ih fun r hr => h r (List.mem_cons_of_mem _ hr)
    have guard := List.length_pos_iff.mpr (ne_nil_of_check (h r List.mem_cons_self).checked)
    have size : (Snapshot.encodeCodedRule r).length = r.guard.length + 6 := by
      simp only [Snapshot.encodeCodedRule, bytes32, bytes16, List.length_append, List.length_cons,
        List.length_nil]
      omega
    rw [List.flatMap_cons, List.length_append, List.length_cons, size]
    omega

theorem takes_rules {header : Header} (q : Nat) {rules : List CodedRule}
    (h : ∀ r ∈ rules, Readable header r) (short : rules.length ≤ maxWord32) :
    Takes (ByteReader.rules header q) (Snapshot.encodeRules rules) rules := by
  refine (takes_u32 short).bind ?_
  intro offset rest
  -- the reader looks at the bytes that are left before it takes any
  have room : isShorter (7 * rules.length)
      (rules.flatMap Snapshot.encodeCodedRule ++ rest) = false := by
    refine isShorter_eq_false (Nat.le_trans (le_length_encodeCodedRule h) ?_)
    rw [List.length_append]
    exact Nat.le_add_right _ _
  refine Eq.trans ?_ (takes_rulesOf q h 0 offset rest)
  show (if isShorter (7 * rules.length) (rules.flatMap Snapshot.encodeCodedRule ++ rest) = true
    then throw (.tooManyRules q rules.length) else rulesOf header q 0 rules.length :
      ByteReader (List CodedRule)) _ = _
  rw [room, if_neg Bool.false_ne_true]

theorem takes_transitionsOf {header : Header} {transitions : List (List CodedRule)}
    (h : ∀ rules ∈ transitions, ∀ r ∈ rules, Readable header r)
    (short : ∀ rules ∈ transitions, rules.length ≤ maxWord32) (q : Nat) :
    Takes (transitionsOf header q transitions.length) (transitions.flatMap Snapshot.encodeRules)
      transitions := by
  induction transitions generalizing q with
  | nil => exact Takes.pure []
  | cons rules transitions ih =>
    have later := ih (fun rules hr => h rules (List.mem_cons_of_mem _ hr))
      (fun rules hr => short rules (List.mem_cons_of_mem _ hr)) (q + 1)
    rw [List.flatMap_cons]
    exact (takes_rules q (h rules List.mem_cons_self) (short rules List.mem_cons_self)).bind
      (later.bind_pure (rules :: ·))

end ByteReader

/-! ## Whole snapshots -/

theorem Header.decode_encode {header : Header} (known : header.kind.isKnown = true)
    (rest : List UInt8) : Header.decode (header.encode ++ rest) = .ok header := by
  have word (n : UInt16) : (word16 n.toNat.toUInt8 (n.toNat / 256).toUInt8).toUInt16 = n := by
    rw [word16_bytes16 (Nat.le_of_lt_succ n.toNat_lt)]
    exact n.ofNat_toNat
  obtain ⟨kind, atomCount, stateCount⟩ := header
  simp only [encode, bytes32, bytes16, List.cons_append, List.nil_append, decode, word]
  rw [word32_bytes32 (by decide), if_neg (not_not_intro rfl)]
  exact if_pos known

namespace Snapshot

/-- The header of a snapshot. -/
def header (s : Snapshot) : Header :=
  { kind := s.kind, atomCount := s.atomCount.toUInt16, stateCount := s.stateCount.toUInt16 }

/-- The bytes that follow the header. -/
def payload (s : Snapshot) : List UInt8 :=
  (bytes16 s.initials.length ++ s.initials.flatMap bytes16)
    ++ ((bytes16 s.finals.length ++ s.finals.flatMap bytes16)
    ++ s.transitions.flatMap encodeRules)

/-- The snapshot with its initial and final states in ascending order, each of them once. -/
def sorted (s : Snapshot) : Snapshot :=
  { s with
    initials := (SortedSet.ofList s.initials).toList
    finals := (SortedSet.ofList s.finals).toList }

theorem sorted_eq_of_ascending {s : Snapshot} (initials : s.initials.Pairwise (· < ·))
    (finals : s.finals.Pairwise (· < ·)) : s.sorted = s := by
  simp only [sorted, SortedSet.toList_ofList initials, SortedSet.toList_ofList finals]

/-- The snapshot as the bytes may spell it: every part fits into its field and is in range, each
    guard is the code of one formula over the atoms, and there is an initial state, a single one if
    the snapshot is deterministic.  The lists of states may be in any order and repeat a state. -/
structure Legible (s : Snapshot) : Prop where
  kind_known : s.kind.isKnown = true
  atomCount_le : s.atomCount ≤ maxWord16
  stateCount_pos : 0 < s.stateCount
  stateCount_le : s.stateCount ≤ maxWord16
  initials_ne_nil : s.initials ≠ []
  one_initial : s.kind = .deterministic → ∀ p ∈ s.initials, ∀ q ∈ s.initials, p = q
  length_initials_le : s.initials.length ≤ maxWord16
  initials_lt : ∀ q ∈ s.initials, q < s.stateCount
  length_finals_le : s.finals.length ≤ maxWord16
  finals_lt : ∀ q ∈ s.finals, q < s.stateCount
  length_transitions : s.transitions.length = s.stateCount
  length_rules_le : ∀ rules ∈ s.transitions, rules.length ≤ maxWord32
  length_guard_le : ∀ rules ∈ s.transitions, ∀ r ∈ rules, r.guard.length ≤ maxWord32
  guard_coded : ∀ rules ∈ s.transitions, ∀ r ∈ rules,
    ∃ f : Formula, f.Coded r.guard ∧ f.varCount ≤ s.atomCount
  target_lt : ∀ rules ∈ s.transitions, ∀ r ∈ rules, r.target < s.stateCount

/-- An ascending list has one member if all its members are equal. -/
theorem length_eq_one_iff {states : List Nat} (ascending : states.Pairwise (· < ·))
    (some : states ≠ []) : states.length = 1 ↔ ∀ p ∈ states, ∀ q ∈ states, p = q := by
  cases states with
  | nil => exact absurd rfl some
  | cons p states =>
    cases states with
    | nil => simp
    | cons q states =>
      have below : p < q := (List.pairwise_cons.mp ascending).1 q List.mem_cons_self
      constructor
      · simp
      · intro same
        have : p = q := same p (by simp) q (by simp)
        omega

namespace Legible

variable {s : Snapshot}

theorem toNat_atomCount (h : s.Legible) : s.header.atomCount.toNat = s.atomCount :=
  UInt16.toNat_ofNat_of_lt' (Nat.lt_succ_of_le h.atomCount_le)

theorem toNat_stateCount (h : s.Legible) : s.header.stateCount.toNat = s.stateCount :=
  UInt16.toNat_ofNat_of_lt' (Nat.lt_succ_of_le h.stateCount_le)

theorem sorted_initials_ne_nil (h : s.Legible) : s.sorted.initials ≠ [] := by
  obtain ⟨q, hq⟩ := List.exists_mem_of_ne_nil _ h.initials_ne_nil
  exact List.ne_nil_of_mem (SortedSet.mem_ofList.mpr hq)

theorem one_sorted_initial (h : s.Legible) (deterministic : s.kind = .deterministic) :
    s.sorted.initials.length = 1 := by
  apply (length_eq_one_iff (SortedSet.ofList s.initials).ascending h.sorted_initials_ne_nil).mpr
  intro p hp q hq
  exact h.one_initial deterministic p (SortedSet.mem_ofList.mp hp) q (SortedSet.mem_ofList.mp hq)

theorem checked (h : s.Legible) {rules : List CodedRule} (hrules : rules ∈ s.transitions)
    {r : CodedRule} (hr : r ∈ rules) : r.guard.check s.atomCount = .ok () := by
  obtain ⟨f, coded, bound⟩ := h.guard_coded rules hrules r hr
  exact Bytecode.check_of_encode (Formula.encode_of_coded coded) bound

/-- What is left of the parts when the states are sorted is well formed. -/
theorem wellFormed_sorted (h : s.Legible) : s.sorted.WellFormed where
  kind_known := h.kind_known
  atomCount_le := h.atomCount_le
  stateCount_pos := h.stateCount_pos
  stateCount_le := h.stateCount_le
  initials_ne_nil := h.sorted_initials_ne_nil
  one_initial := h.one_sorted_initial
  initials_ascending := (SortedSet.ofList s.initials).ascending
  initials_lt q hq := h.initials_lt q (SortedSet.mem_ofList.mp hq)
  finals_ascending := (SortedSet.ofList s.finals).ascending
  finals_lt q hq := h.finals_lt q (SortedSet.mem_ofList.mp hq)
  length_transitions := h.length_transitions
  length_rules_le := h.length_rules_le
  length_guard_le := h.length_guard_le
  guard_checked _ hrules _ hr := h.checked hrules hr
  target_lt := h.target_lt

theorem readable (h : s.Legible) :
    ∀ rules ∈ s.transitions, ∀ r ∈ rules, ByteReader.Readable s.header r := by
  intro rules hrules r hr
  refine ⟨?_, h.length_guard_le rules hrules r hr, ?_⟩
  · rw [h.toNat_atomCount]
    exact h.checked hrules hr
  · rw [h.toNat_stateCount]
    exact h.target_lt rules hrules r hr

/-- All parts are read, and then nothing may follow. -/
theorem body_append (h : s.Legible) (offset : Nat) (more : List UInt8) :
    ByteReader.body s.header ⟨offset, s.payload ++ more⟩ =
      if more.isEmpty then .ok (s.sorted, ⟨offset + s.payload.length, more⟩)
      else .error (.trailingBytes more.length) := by
  have initials := ByteReader.takes_states h.stateCount_le h.initials_lt h.length_initials_le
  have finals := ByteReader.takes_states h.stateCount_le h.finals_lt h.length_finals_le
  have transitions := ByteReader.takes_transitionsOf h.readable h.length_rules_le 0
  rw [h.length_transitions] at transitions
  have someInitial : ¬(SortedSet.ofList s.initials).toList.isEmpty = true := by
    rw [List.isEmpty_iff]
    exact h.sorted_initials_ne_nil
  have oneInitial : ¬(s.header.kind = .deterministic ∧
      (SortedSet.ofList s.initials).toList.length ≠ 1) :=
    fun ⟨kind, many⟩ => many (h.one_sorted_initial kind)
  have size : offset + s.payload.length
      = offset + (bytes16 s.initials.length ++ s.initials.flatMap bytes16).length
        + (bytes16 s.finals.length ++ s.finals.flatMap bytes16).length
        + (s.transitions.flatMap encodeRules).length := by
    simp only [payload, List.length_append, Nat.add_assoc]
  unfold ByteReader.body
  rw [h.toNat_stateCount, h.toNat_atomCount, size, payload, List.append_assoc, initials.run_bind,
    List.append_assoc, finals.run_bind, transitions.run_bind]
  cases more with
  | nil =>
    simp only [if_neg someInitial, if_neg oneInitial]
    rfl
  | cons b more => rfl

theorem body_payload (h : s.Legible) (offset : Nat) :
    ByteReader.body s.header ⟨offset, s.payload⟩
      = .ok (s.sorted, ⟨offset + s.payload.length, []⟩) := by
  have read := h.body_append offset []
  rwa [List.append_nil] at read

/-- Behind the header of a snapshot the loader reads the parts. -/
theorem load_append (h : s.Legible) (bytes : List UInt8) : load (s.header.encode ++ bytes) =
    (ByteReader.body s.header ⟨Header.byteCount, bytes⟩).map Prod.fst := by
  have some : s.header.stateCount ≠ 0 := by
    intro none
    have zero : s.stateCount = 0 := by
      rw [← h.toNat_stateCount, none]
      rfl
    exact Nat.ne_of_gt h.stateCount_pos zero
  unfold load
  rw [Header.decode_encode h.kind_known]
  show (if s.header.stateCount = 0 then Except.error LoadError.noStates else
    (ByteReader.body s.header ⟨Header.byteCount, bytes⟩).map Prod.fst) = _
  rw [if_neg some]

theorem load_encode (h : s.Legible) : load (s.header.encode ++ s.payload) = .ok s.sorted := by
  rw [h.load_append, h.body_payload]
  rfl

end Legible

namespace WellFormed

variable {s : Snapshot}

theorem length_le (h : s.WellFormed) {states : List Nat} (ascending : states.Pairwise (· < ·))
    (bound : ∀ q ∈ states, q < s.stateCount) : states.length ≤ maxWord16 := by
  have nodup : states.Nodup := ascending.imp Nat.ne_of_lt
  have few : states.length ≤ (List.range s.stateCount).length :=
    nodup.length_le_of_subset fun q hq => List.mem_range.mpr (bound q hq)
  rw [List.length_range] at few
  exact Nat.le_trans few h.stateCount_le

theorem legible (h : s.WellFormed) : s.Legible where
  kind_known := h.kind_known
  atomCount_le := h.atomCount_le
  stateCount_pos := h.stateCount_pos
  stateCount_le := h.stateCount_le
  initials_ne_nil := h.initials_ne_nil
  one_initial deterministic :=
    (length_eq_one_iff h.initials_ascending h.initials_ne_nil).mp (h.one_initial deterministic)
  length_initials_le := h.length_le h.initials_ascending h.initials_lt
  initials_lt := h.initials_lt
  length_finals_le := h.length_le h.finals_ascending h.finals_lt
  finals_lt := h.finals_lt
  length_transitions := h.length_transitions
  length_rules_le := h.length_rules_le
  length_guard_le := h.length_guard_le
  guard_coded rules hrules r hr := by
    obtain ⟨f, encoded, bound⟩ := Bytecode.exists_encode_of_check (h.guard_checked rules hrules r hr)
    exact ⟨f, Formula.coded_of_encode encoded, bound⟩
  target_lt := h.target_lt

theorem sorted_eq (h : s.WellFormed) : s.sorted = s :=
  sorted_eq_of_ascending h.initials_ascending h.finals_ascending

theorem encode_eq (h : s.WellFormed) : s.encode = .ok (s.header.encode ++ s.payload) := by
  have initials := h.legible.length_initials_le
  have finals := h.legible.length_finals_le
  have parts : s.header.encode ++ s.payload = s.header.encode
      ++ (bytes16 s.initials.length ++ s.initials.flatMap bytes16)
      ++ (bytes16 s.finals.length ++ s.finals.flatMap bytes16)
      ++ s.transitions.flatMap encodeRules := by
    simp only [payload, List.append_assoc]
  unfold encode
  rw [if_neg (Nat.not_lt.mpr h.atomCount_le), if_neg (Nat.not_lt.mpr h.stateCount_le), parts]
  simp only [encodeStates, if_neg (Nat.not_lt.mpr initials), if_neg (Nat.not_lt.mpr finals)]
  rfl

theorem load_encode (h : s.WellFormed) : load (s.header.encode ++ s.payload) = .ok s := by
  rw [h.legible.load_encode, h.sorted_eq]

end WellFormed

/-- Every well-formed snapshot can be written, and what was written is read back as it was. -/
theorem load_inverts_encode (s : Snapshot) (h : s.WellFormed) :
    ∃ bytes, s.encode = .ok bytes ∧ load bytes = .ok s :=
  ⟨_, h.encode_eq, h.load_encode⟩

/-- Several initial states, a state without rules, and an atom whose number takes two bytes. -/
theorem load_inverts_encode_of_two_initials :
    let s : Snapshot := ⟨.nondeterministic, 300, 3, [0, 2], [1, 2],
      [[⟨[4, 2, 43, 1, 3, 1], 1⟩, ⟨[0], 2⟩], [], [⟨[5, 2, 7, 0, 2, 0, 0], 0⟩]]⟩
    s.WellFormed ∧ ∃ bytes, s.encode = .ok bytes ∧ load bytes = .ok s := by
  intro s
  have wellFormed : s.WellFormed := {
    kind_known := rfl
    atomCount_le := by decide
    stateCount_pos := by decide
    stateCount_le := by decide
    initials_ne_nil := by decide
    one_initial := by decide
    initials_ascending := by decide
    initials_lt := by decide
    finals_ascending := by decide
    finals_lt := by decide
    length_transitions := rfl
    length_rules_le := by decide
    length_guard_le := by decide
    guard_checked := by
      simp only [s, List.forall_mem_cons, List.not_mem_nil, false_imp_iff, implies_true, and_true,
        true_and]
      exact ⟨⟨rfl, rfl⟩, rfl⟩
    target_lt := by decide }
  exact ⟨wellFormed, load_inverts_encode s wellFormed⟩

end Snapshot

end TraceRegex
