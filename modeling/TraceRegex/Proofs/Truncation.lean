import TraceRegex.Proofs.BinaryLayout

/-! # Cut and extended snapshots

The loader accepts no proper beginning of bytes that it accepts, and nothing that goes on behind
them.

A cut can fall into any field.  `NoticesCut` says of a reader what happens then: it is done before
the cut, or it finds that bytes are missing.  Readers in a row have this property if each of them
has, so the loader has it.  That bytes follow is found at the end, when all parts have been read.
-/

namespace TraceRegex

/-- The error says that bytes are missing. -/
def LoadError.isShortage : LoadError → Bool
  | .truncatedHeader | .truncatedAt _ | .tooManyRules _ _ => true
  | _ => false

theorem LoadError.message_of_isShortage {e : LoadError} (h : e.isShortage = true) :
    ∃ detail, e.message = malformed detail := by
  cases e with
  | truncatedHeader | truncatedAt | tooManyRules => exact ⟨_, rfl⟩
  | badMagic | unsupportedKind | noStates | stateOutOfBounds | guard | targetOutOfBounds
  | trailingBytes | noInitialState | manyInitialStates => cases h

namespace ByteReader

/-! ## Readers and cuts -/

/-- Where the reader succeeds on some bytes, it does the same on the bytes in front of a cut if it
    stops there, and otherwise says that bytes are missing. -/
def NoticesCut {α : Type} (m : ByteReader α) : Prop :=
  ∀ offset front rest x stop, m ⟨offset, front ++ rest⟩ = .ok (x, stop) →
    (∃ left, m ⟨offset, front⟩ = .ok (x, ⟨stop.offset, left⟩) ∧ stop.rest = left ++ rest) ∨
      ∃ e, m ⟨offset, front⟩ = .error e ∧ e.isShortage = true

section

variable {α β : Type} {m : ByteReader α} {f : α → ByteReader β} {start : ByteCursor}

theorem run_bind_of_ok {x : α} {middle : ByteCursor} (h : m start = .ok (x, middle)) :
    (m >>= f) start = f x middle := by
  show (m start >>= fun p => f p.1 p.2) = _
  rw [h]
  rfl

theorem run_bind_of_error {e : LoadError} (h : m start = .error e) :
    (m >>= f) start = .error e := by
  show (m start >>= fun p => f p.1 p.2) = _
  rw [h]
  rfl

theorem NoticesCut.pure (x : α) : NoticesCut (Pure.pure x) := by
  intro offset front rest y stop given
  cases given
  exact .inl ⟨front, rfl, rfl⟩

theorem NoticesCut.throw (e : LoadError) : NoticesCut (throw e : ByteReader α) := by
  intro offset front rest y stop given
  cases given

theorem NoticesCut.bind (hm : NoticesCut m) (hf : ∀ x, NoticesCut (f x)) :
    NoticesCut (m >>= f) := by
  intro offset front rest y stop given
  obtain ⟨⟨x, ⟨offset', middle⟩⟩, first, second⟩ := bind_eq_ok given
  rcases hm offset front rest x _ first with ⟨left, done, same⟩ | ⟨e, failed, short⟩
  · -- the cut is behind what the first reader took
    rw [run_bind_of_ok done]
    cases same
    exact hf x offset' left rest y stop second
  · exact .inr ⟨e, run_bind_of_error failed, short⟩

theorem NoticesCut.checked {refused : Prop} [Decidable refused] {e : LoadError}
    (h : NoticesCut m) :
    NoticesCut (if refused then (MonadExcept.throw e : ByteReader Unit) >>= fun _ => m else m) := by
  split
  · exact (NoticesCut.throw e).bind fun _ => h
  · exact h

theorem isShorter_eq_true {n : Nat} {xs : List α} (h : xs.length < n) : isShorter n xs = true := by
  fun_induction isShorter n xs with
  | case1 => cases h
  | case2 => rfl
  | case3 n x xs ih => exact ih (Nat.lt_of_succ_lt_succ h)

end

theorem noticesCut_take (n : Nat) : NoticesCut (take n) := by
  intro offset front rest x stop given
  by_cases enough : n ≤ front.length
  · have size : (front.take n).length = n := List.length_take_of_le enough
    have taken := takes_take (front.take n)
    rw [size] at taken
    -- what is taken stands in front of the cut, with or without the rest
    have cut := taken offset (front.drop n)
    have whole := taken offset (front.drop n ++ rest)
    rw [← List.append_assoc, List.take_append_drop] at whole
    rw [List.take_append_drop] at cut
    cases given.symm.trans whole
    exact .inl ⟨_, cut, rfl⟩
  · refine .inr ⟨.truncatedAt offset, ?_, rfl⟩
    unfold take
    exact if_pos (isShorter_eq_true (Nat.lt_of_not_le enough))

theorem noticesCut_u16 : NoticesCut u16 := by
  refine (noticesCut_take 2).bind fun bytes => ?_
  split
  · exact NoticesCut.pure _
  · exact NoticesCut.pure _

theorem noticesCut_u32 : NoticesCut u32 := by
  refine (noticesCut_take 4).bind fun bytes => ?_
  split
  · exact NoticesCut.pure _
  · exact NoticesCut.pure _

theorem noticesCut_statesOf (stateCount n : Nat) : NoticesCut (statesOf stateCount n) := by
  induction n with
  | zero => exact NoticesCut.pure _
  | succ n ih =>
    exact noticesCut_u16.bind fun q => .checked (ih.bind fun states => NoticesCut.pure _)

theorem noticesCut_states (stateCount : Nat) : NoticesCut (states stateCount) :=
  noticesCut_u16.bind fun n => (noticesCut_statesOf stateCount n).bind fun _ => NoticesCut.pure _

theorem noticesCut_rule (header : Header) (q i : Nat) : NoticesCut (rule header q i) := by
  refine noticesCut_u32.bind fun n => (noticesCut_take n).bind fun guard =>
    noticesCut_u16.bind fun target => ?_
  split
  · exact NoticesCut.throw _
  · exact .checked (NoticesCut.pure _)

theorem noticesCut_rulesOf (header : Header) (q i n : Nat) :
    NoticesCut (rulesOf header q i n) := by
  induction n generalizing i with
  | zero => exact NoticesCut.pure _
  | succ n ih =>
    exact (noticesCut_rule header q i).bind fun r => (ih (i + 1)).bind fun _ => NoticesCut.pure _

/-- The count of rules is compared with the bytes that are left, of which there are fewer in front
    of a cut. -/
theorem noticesCut_rules (header : Header) (q : Nat) : NoticesCut (rules header q) := by
  refine noticesCut_u32.bind fun n => ?_
  intro offset front rest x stop given
  let counted (bytes : List UInt8) : ByteReader (List CodedRule) :=
    if isShorter (7 * n) bytes = true then
      (throw (.tooManyRules q n) : ByteReader Unit) >>= fun _ => rulesOf header q 0 n
    else rulesOf header q 0 n
  have whole : counted (front ++ rest) ⟨offset, front ++ rest⟩ = .ok (x, stop) := given
  show (∃ left, counted front ⟨offset, front⟩ = .ok (x, ⟨stop.offset, left⟩) ∧ _) ∨
    ∃ e, counted front ⟨offset, front⟩ = .error e ∧ _
  by_cases many : isShorter (7 * n) front = true
  · exact .inr ⟨.tooManyRules q n, by simp only [counted, if_pos many]; rfl, rfl⟩
  · simp only [counted, if_neg many]
    dsimp only [counted] at whole
    split at whole
    · cases whole
    · exact noticesCut_rulesOf header q 0 n offset front rest x stop whole

theorem noticesCut_transitionsOf (header : Header) (q n : Nat) :
    NoticesCut (transitionsOf header q n) := by
  induction n generalizing q with
  | zero => exact NoticesCut.pure _
  | succ n ih =>
    exact (noticesCut_rules header q).bind fun rs => (ih (q + 1)).bind fun _ => NoticesCut.pure _

/-- A cut in what follows the header is noticed while the parts are read: when they all have been
    read, nothing is left. -/
theorem body_of_cut {header : Header} {offset : Nat} {front rest : List UInt8} {s : Snapshot}
    {stop : ByteCursor} (given : body header ⟨offset, front ++ rest⟩ = .ok (s, stop))
    (missing : rest ≠ []) :
    ∃ e, body header ⟨offset, front⟩ = .error e ∧ e.isShortage = true := by
  obtain ⟨⟨o, middle⟩, ⟨o', middle'⟩, first, second, third, ended, -⟩ :=
    Snapshot.checks_of_body given
  unfold body
  rcases noticesCut_states _ _ _ _ _ _ first with ⟨left, done, same⟩ | ⟨e, failed, short⟩
  · cases same
    rw [run_bind_of_ok done]
    rcases noticesCut_states _ _ _ _ _ _ second with ⟨left, done, same⟩ | ⟨e, failed, short⟩
    · cases same
      rw [run_bind_of_ok done]
      rcases noticesCut_transitionsOf _ _ _ _ _ _ _ _ third with
        ⟨left, done, same⟩ | ⟨e, failed, short⟩
      · rw [ended] at same
        exact absurd (List.append_eq_nil_iff.mp same.symm).2 missing
      · exact ⟨e, run_bind_of_error failed, short⟩
    · exact ⟨e, run_bind_of_error failed, short⟩
  · exact ⟨e, run_bind_of_error failed, short⟩

end ByteReader

/-! ## Whole snapshots -/

theorem Header.decode_of_short {bytes : List UInt8} (short : bytes.length < byteCount) :
    decode bytes = .error .truncatedHeader := by
  unfold decode
  split
  · simp only [List.length_cons, byteCount] at short
    omega
  · rfl

theorem Header.length_encode (header : Header) : header.encode.length = byteCount := rfl

namespace Snapshot

theorem load_of_cut {bytes front : List UInt8} {s : Snapshot} (loaded : load bytes = .ok s)
    (cut : front <+: bytes) (shorter : front ≠ bytes) :
    ∃ e, load front = .error e ∧ e.isShortage = true := by
  obtain ⟨parts, legible, rfl, -⟩ := load_eq_ok_iff.mp loaded
  rw [legible.layout_eq] at cut shorter
  by_cases inside : front.length < Header.byteCount
  · refine ⟨.truncatedHeader, ?_, rfl⟩
    rw [load, Header.decode_of_short inside]
    rfl
  · -- the header stands in front of the cut
    obtain ⟨front, rfl⟩ : parts.header.encode <+: front :=
      List.prefix_of_prefix_length_le (List.prefix_append _ _) cut
        (parts.header.length_encode ▸ Nat.le_of_not_lt inside)
    obtain ⟨rest, whole⟩ := (List.prefix_append_right_inj _).mp cut
    have missing : rest ≠ [] := by
      rintro rfl
      rw [List.append_nil] at whole
      exact shorter (congrArg _ whole)
    have given := legible.body_payload Header.byteCount
    rw [← whole] at given
    obtain ⟨e, failed, short⟩ := ByteReader.body_of_cut given missing
    refine ⟨e, ?_, short⟩
    rw [legible.load_append, failed]
    rfl

theorem load_of_extended {bytes more : List UInt8} {s : Snapshot} (loaded : load bytes = .ok s)
    (follows : more ≠ []) : load (bytes ++ more) = .error (.trailingBytes more.length) := by
  obtain ⟨parts, legible, rfl, -⟩ := load_eq_ok_iff.mp loaded
  rw [legible.layout_eq, List.append_assoc, legible.load_append, legible.body_append,
    if_neg (mt List.isEmpty_iff.mp follows)]
  rfl

/-- The loader accepts no other length: when it accepts some bytes, then it refuses each proper
    beginning of them, since bytes are missing, and whatever goes on behind them, and says how many
    bytes are left.  Both errors say that the snapshot is malformed. -/
theorem load_refuses_other_lengths (bytes : List UInt8) (s : Snapshot)
    (loaded : load bytes = .ok s) :
    (∀ front, front <+: bytes → front ≠ bytes →
      ∃ e detail, load front = .error e ∧ e.message = malformed detail ∧ e.isShortage = true) ∧
    ∀ more, more ≠ [] →
      ∃ e detail, load (bytes ++ more) = .error e ∧ e.message = malformed detail ∧
        e = .trailingBytes more.length := by
  refine ⟨fun front cut shorter => ?_, fun more follows => ?_⟩
  · obtain ⟨e, refused, short⟩ := load_of_cut loaded cut shorter
    obtain ⟨detail, message⟩ := LoadError.message_of_isShortage short
    exact ⟨e, detail, refused, message, short⟩
  · exact ⟨_, _, load_of_extended loaded follows, rfl, rfl⟩

/-- A rule with an atom whose number takes two bytes, cut inside its guard and with a byte behind. -/
theorem load_refuses_other_lengths_of_rule :
    let s : Snapshot := ⟨.nondeterministic, 300, 1, [0], [0], [[⟨[2, 43, 1], 0⟩]]⟩
    let bytes := s.header.encode ++ s.payload
    load bytes = .ok s ∧ bytes.length = 31 ∧
      (∃ e detail, load (bytes.take 28) = .error e ∧ e.message = malformed detail ∧
        e.isShortage = true) ∧
      ∃ e detail, load (bytes ++ [0]) = .error e ∧ e.message = malformed detail ∧
        e = .trailingBytes 1 := by
  intro s bytes
  have wellFormed : s.WellFormed := {
    kind_known := rfl
    atomCount_le := by decide
    stateCount_pos := by decide
    stateCount_le := by decide
    initials_ne_nil := by decide
    one_initial := by decide
    initials_ascending := by decide
    initials_lt := by decide
    finals_ascending := by decide
    finals_lt := by decide
    length_transitions := rfl
    length_rules_le := by decide
    length_guard_le := by decide
    guard_checked := by
      simp only [s, List.forall_mem_cons, List.not_mem_nil, false_imp_iff, implies_true, and_true]
      rfl
    target_lt := by decide }
  have loaded : load bytes = .ok s := wellFormed.load_encode
  obtain ⟨cut, extended⟩ := load_refuses_other_lengths bytes s loaded
  exact ⟨loaded, rfl, cut (bytes.take 28) (List.take_prefix 28 bytes) (by decide),
    extended [0] (by decide)⟩

end Snapshot

end TraceRegex
