import TraceRegex.Proofs.BinaryFormat

/-! # What the loader accepts

The loader accepts a string of bytes exactly if it is the header and the payload of a snapshot whose
parts fit into their fields and are in range.  That it accepts these follows from `Takes`.  The
converse is shown reader by reader: `Yields` says that whatever a reader gives, the bytes that it
took spell it.
-/

namespace TraceRegex

/-! ## Words -/

theorem bytes32_word32 (a b c d : UInt8) : bytes32 (word32 a b c d) = [a, b, c, d] := by
  have low := word16_le a b
  unfold maxWord16 at low
  have upper : word32 a b c d / 65536 = word16 c d := by
    unfold word32
    omega
  have lower (n : Nat) : bytes16 (word16 a b + 65536 * n) = bytes16 (word16 a b) := by
    have first : (word16 a b + 65536 * n).toUInt8 = (word16 a b).toUInt8 := by
      apply UInt8.toNat_inj.mp
      simp only [Nat.toUInt8_eq, UInt8.toNat_ofNat']
      omega
    have second : ((word16 a b + 65536 * n) / 256).toUInt8 = (word16 a b / 256).toUInt8 := by
      apply UInt8.toNat_inj.mp
      simp only [Nat.toUInt8_eq, UInt8.toNat_ofNat']
      omega
    rw [bytes16, first, second, bytes16]
  rw [bytes32, upper, bytes16_word16, word32, lower, bytes16_word16]
  rfl

theorem word32_le (a b c d : UInt8) : word32 a b c d ≤ maxWord32 := by
  have low := word16_le a b
  have high := word16_le c d
  unfold maxWord16 at low high
  unfold word32 maxWord32
  omega

namespace ByteReader

/-! ## What a reader has taken -/

/-- Whatever the reader gives, the bytes that it took spell it. -/
def Yields {α : Type} (m : ByteReader α) (spells : List UInt8 → α → Prop) : Prop :=
  ∀ start x stop, m start = .ok (x, stop) →
    ∃ bytes, start.rest = bytes ++ stop.rest ∧ spells bytes x

section

variable {α β : Type} {spells : List UInt8 → α → Prop}

theorem Yields.pure {x : α} (h : spells [] x) : Yields (Pure.pure x) spells := by
  intro start y stop given
  cases given
  exact ⟨[], rfl, h⟩

/-- Readers in a row take bytes in a row. -/
theorem Yields.bind {m : ByteReader α} {f : α → ByteReader β} {spells' : List UInt8 → β → Prop}
    (hm : Yields m spells) (hf : ∀ bytes x, spells bytes x →
      Yields (f x) fun later y => spells' (bytes ++ later) y) : Yields (m >>= f) spells' := by
  intro start y stop given
  obtain ⟨⟨x, middle⟩, first, second⟩ := bind_eq_ok given
  obtain ⟨bytes, front, spelled⟩ := hm start x middle first
  obtain ⟨later, rest, done⟩ := hf bytes x spelled middle y stop second
  exact ⟨bytes ++ later, by rw [front, rest, List.append_assoc], done⟩

/-- A reader that refuses yields nothing, so what it refuses may be left out. -/
theorem Yields.checked {refused : Prop} [Decidable refused] {e : LoadError} {m : ByteReader α}
    (h : ¬refused → Yields m spells) :
    Yields (if refused then (throw e : ByteReader Unit) >>= fun _ => m else m) spells := by
  by_cases bad : refused
  · rw [if_pos bad]
    intro start x stop given
    cases given
  · rw [if_neg bad]
    exact h bad

theorem split?_eq_some {n : Nat} {xs front rest : List α} (h : split? n xs = some (front, rest)) :
    xs = front ++ rest ∧ front.length = n := by
  induction n generalizing xs front with
  | zero =>
    simp only [split?, Option.some.injEq, Prod.mk.injEq] at h
    simp [← h.1, ← h.2]
  | succ n ih =>
    cases xs with
    | nil => simp [split?] at h
    | cons x xs =>
      simp only [split?, Option.map_eq_some_iff, Prod.mk.injEq, Prod.exists] at h
      obtain ⟨front', rest', taken, rfl, rfl⟩ := h
      obtain ⟨rfl, size⟩ := ih taken
      simp [size]

end

theorem yields_take (n : Nat) : Yields (take n) fun bytes x => x = bytes ∧ bytes.length = n := by
  intro start x stop given
  unfold take at given
  split at given
  · cases given
  · split at given
    next front rest taken =>
      cases given
      obtain ⟨whole, size⟩ := split?_eq_some taken
      exact ⟨_, whole, rfl, size⟩
    next => cases given

theorem yields_u16 : Yields u16 fun bytes n => bytes = bytes16 n ∧ n ≤ maxWord16 := by
  refine (yields_take 2).bind fun bytes x taken => ?_
  obtain ⟨rfl, size⟩ := taken
  match x, size with
  | [lo, hi], _ => exact Yields.pure ⟨(bytes16_word16 lo hi).symm, word16_le lo hi⟩

theorem yields_u32 : Yields u32 fun bytes n => bytes = bytes32 n ∧ n ≤ maxWord32 := by
  refine (yields_take 4).bind fun bytes x taken => ?_
  obtain ⟨rfl, size⟩ := taken
  match x, size with
  | [a, b, c, d], _ => exact Yields.pure ⟨(bytes32_word32 a b c d).symm, word32_le a b c d⟩

/-! ## Lists of states -/

theorem yields_statesOf (stateCount n : Nat) : Yields (statesOf stateCount n) fun bytes states =>
    bytes = states.flatMap bytes16 ∧ states.length = n ∧ ∀ q ∈ states, q < stateCount := by
  induction n with
  | zero => exact Yields.pure ⟨rfl, rfl, by simp⟩
  | succ n ih =>
    refine yields_u16.bind fun first q word => .checked fun inside => ih.bind fun later states rest =>
      .pure ?_
    obtain ⟨rfl, size, bound⟩ := rest
    refine ⟨by simp [word.1], by simp [size], ?_⟩
    exact List.forall_mem_cons.mpr ⟨Nat.not_le.mp inside, bound⟩

/-- The bytes are a counted list of states in range. -/
structure SpellsStates (stateCount : Nat) (bytes : List UInt8) (states : List Nat) : Prop where
  spelled : bytes = bytes16 states.length ++ states.flatMap bytes16
  short : states.length ≤ maxWord16
  bound : ∀ q ∈ states, q < stateCount

theorem yields_states (stateCount : Nat) : Yields (states stateCount) fun bytes sorted =>
    ∃ written, sorted = (SortedSet.ofList written).toList ∧
      SpellsStates stateCount bytes written := by
  refine yields_u16.bind fun first n count => (yields_statesOf stateCount n).bind
    fun later written list => .pure ⟨written, rfl, ?_⟩
  obtain ⟨rfl, short⟩ := count
  obtain ⟨rfl, rfl, bound⟩ := list
  exact ⟨by simp, short, bound⟩

/-! ## Rules -/

theorem yields_rule (header : Header) (q i : Nat) : Yields (rule header q i) fun bytes r =>
    bytes = Snapshot.encodeCodedRule r ∧ Readable header r := by
  refine yields_u32.bind fun size n word => (yields_take n).bind fun code guard taken =>
    yields_u16.bind fun last target word' => ?_
  obtain ⟨rfl, short⟩ := word
  obtain ⟨rfl, rfl⟩ := taken
  obtain ⟨rfl, -⟩ := word'
  cases checked : Bytecode.check header.atomCount.toNat guard with
  | error cause =>
    intro start x stop given
    cases given
  | ok passed =>
    refine .checked fun inside => .pure ⟨?_, checked, short, Nat.not_le.mp inside⟩
    simp [Snapshot.encodeCodedRule]

theorem yields_rulesOf (header : Header) (q i n : Nat) : Yields (rulesOf header q i n)
    fun bytes rules => bytes = rules.flatMap Snapshot.encodeCodedRule ∧ rules.length = n ∧
      ∀ r ∈ rules, Readable header r := by
  induction n generalizing i with
  | zero => exact Yields.pure ⟨rfl, rfl, by simp⟩
  | succ n ih =>
    refine (yields_rule header q i).bind fun first r spelled => (ih (i + 1)).bind
      fun later rules rest => .pure ?_
    obtain ⟨rfl, readable⟩ := spelled
    obtain ⟨rfl, size, readables⟩ := rest
    exact ⟨by simp, by simp [size], List.forall_mem_cons.mpr ⟨readable, readables⟩⟩

/-- The rules of a state are readable and not too many to be counted. -/
structure ReadableRules (header : Header) (rules : List CodedRule) : Prop where
  readable : ∀ r ∈ rules, Readable header r
  short : rules.length ≤ maxWord32

theorem yields_rules (header : Header) (q : Nat) : Yields (rules header q) fun bytes rules =>
    bytes = Snapshot.encodeRules rules ∧ ReadableRules header rules := by
  refine yields_u32.bind fun first n count => ?_
  obtain ⟨rfl, short⟩ := count
  -- looking at the bytes that are left takes none of them
  intro start rules stop given
  have checked : Yields (if isShorter (7 * n) start.rest = true then
      (throw (.tooManyRules q n) : ByteReader Unit) >>= fun _ => rulesOf header q 0 n
      else rulesOf header q 0 n) _ := .checked fun _ => yields_rulesOf header q 0 n
  obtain ⟨bytes, front, rfl, rfl, readable⟩ := checked start rules stop given
  exact ⟨_, front, rfl, readable, short⟩

theorem yields_transitionsOf (header : Header) (q n : Nat) : Yields (transitionsOf header q n)
    fun bytes transitions => bytes = transitions.flatMap Snapshot.encodeRules ∧
      transitions.length = n ∧ ∀ rules ∈ transitions, ReadableRules header rules := by
  induction n generalizing q with
  | zero => exact Yields.pure ⟨rfl, rfl, by simp⟩
  | succ n ih =>
    refine (yields_rules header q).bind fun first rules spelled => (ih (q + 1)).bind
      fun later transitions rest => .pure ?_
    obtain ⟨rfl, readable⟩ := spelled
    obtain ⟨rfl, size, readables⟩ := rest
    exact ⟨by simp, by simp [size], List.forall_mem_cons.mpr ⟨readable, readables⟩⟩

end ByteReader

/-! ## Whole snapshots -/

theorem Header.encode_of_decode {bytes : List UInt8} {header : Header}
    (h : decode bytes = .ok header) :
    bytes = header.encode ++ bytes.drop byteCount ∧ header.kind.isKnown = true := by
  have word (lo hi : UInt8) : bytes16 (word16 lo hi).toUInt16.toNat = [lo, hi] := by
    have small : (word16 lo hi).toUInt16.toNat = word16 lo hi :=
      UInt16.toNat_ofNat_of_lt' (Nat.lt_succ_of_le (word16_le lo hi))
    rw [small, bytes16_word16]
  unfold decode at h
  split at h
  next m0 m1 m2 m3 k0 k1 a0 a1 s0 s1 rest =>
    by_cases magic : word32 m0 m1 m2 m3 ≠ Header.magic
    · rw [if_pos magic] at h
      cases h
    · rw [if_neg magic] at h
      dsimp only at h
      split at h
      next known =>
        cases h
        refine ⟨?_, known⟩
        rw [encode, ← Decidable.not_not.mp magic, bytes32_word32, word, word, word]
        rfl
      next => cases h
  next => cases h

namespace Snapshot

/-- The bytes of a snapshot, part by part. -/
def layout (s : Snapshot) : List UInt8 :=
  bytes32 Header.magic ++ bytes16 s.kind.code.toNat ++ bytes16 s.atomCount ++ bytes16 s.stateCount
    ++ bytes16 s.initials.length ++ s.initials.flatMap bytes16
    ++ bytes16 s.finals.length ++ s.finals.flatMap bytes16
    ++ s.transitions.flatMap fun rules => bytes32 rules.length
      ++ rules.flatMap fun r => bytes32 r.guard.length ++ r.guard ++ bytes16 r.target

theorem Legible.layout_eq {s : Snapshot} (h : s.Legible) :
    s.layout = s.header.encode ++ s.payload := by
  rw [layout, Header.encode, h.toNat_atomCount, h.toNat_stateCount, payload]
  simp only [List.append_assoc]
  rfl

/-- The checks at the end of the payload: nothing is left over, and there is an initial state, a
    single one if the snapshot is deterministic. -/
theorem checks_of_body {header : Header} {start stop : ByteCursor} {s : Snapshot}
    (given : ByteReader.body header start = .ok (s, stop)) :
    ∃ middle middle', ByteReader.states header.stateCount.toNat start = .ok (s.initials, middle) ∧
      ByteReader.states header.stateCount.toNat middle = .ok (s.finals, middle') ∧
      ByteReader.transitionsOf header 0 header.stateCount.toNat middle' =
        .ok (s.transitions, stop) ∧
      stop.rest = [] ∧ s.initials ≠ [] ∧
      (header.kind = .deterministic → s.initials.length = 1) ∧
      s.kind = header.kind ∧ s.atomCount = header.atomCount.toNat ∧
      s.stateCount = header.stateCount.toNat := by
  unfold ByteReader.body at given
  obtain ⟨⟨initials, middle⟩, first, given⟩ := bind_eq_ok given
  obtain ⟨⟨finals, middle'⟩, second, given⟩ := bind_eq_ok given
  obtain ⟨⟨transitions, last⟩, third, given⟩ := bind_eq_ok given
  change (if (!last.rest.isEmpty) = true then _ else _ : ByteReader Snapshot) last = _ at given
  split at given
  next => cases given
  next ended =>
    split at given
    next => cases given
    next some =>
      split at given
      next => cases given
      next single =>
        cases given
        refine ⟨middle, middle', first, second, third, ?_, ?_, ?_, rfl, rfl, rfl⟩
        · simpa using ended
        · simpa using some
        · simpa using single

/-- What follows the header is the payload of a snapshot with that header. -/
theorem legible_of_body {header : Header} (known : header.kind.isKnown = true)
    (some : header.stateCount ≠ 0) {start stop : ByteCursor} {s : Snapshot}
    (given : ByteReader.body header start = .ok (s, stop)) :
    ∃ parts : Snapshot, parts.Legible ∧ parts.header = header ∧ start.rest = parts.payload
      ∧ s = parts.sorted := by
  obtain ⟨middle, middle', first, second, third, ended, someInitial, oneInitial, kind, atoms,
    states⟩ := checks_of_body given
  obtain ⟨_, front, initials, sortedInitials, spelled, short, bound⟩ :=
    ByteReader.yields_states _ _ _ _ first
  obtain ⟨_, front', finals, sortedFinals, spelled', short', bound'⟩ :=
    ByteReader.yields_states _ _ _ _ second
  obtain ⟨_, front'', spelled'', count, readable⟩ :=
    ByteReader.yields_transitionsOf _ _ _ _ _ _ third
  let parts : Snapshot :=
    ⟨header.kind, header.atomCount.toNat, header.stateCount.toNat, initials, finals, s.transitions⟩
  refine ⟨parts, ?_, ?_, ?_, ?_⟩
  · have positive : header.stateCount.toNat ≠ 0 := fun none => some (UInt16.toNat_inj.mp none)
    exact {
      kind_known := known
      atomCount_le := Nat.le_of_lt_succ header.atomCount.toNat_lt
      stateCount_pos := Nat.pos_of_ne_zero positive
      stateCount_le := Nat.le_of_lt_succ header.stateCount.toNat_lt
      initials_ne_nil := by
        rintro rfl
        exact someInitial (sortedInitials.trans (SortedSet.toList_ofList .nil))
      one_initial := fun deterministic p hp q hq => by
        have single := oneInitial deterministic
        rw [length_eq_one_iff (sortedInitials ▸ (SortedSet.ofList initials).ascending) someInitial,
          sortedInitials] at single
        exact single p (SortedSet.mem_ofList.mpr hp) q (SortedSet.mem_ofList.mpr hq)
      length_initials_le := short
      initials_lt := bound
      length_finals_le := short'
      finals_lt := bound'
      length_transitions := count
      length_rules_le := fun rules hrules => (readable rules hrules).short
      length_guard_le := fun rules hrules r hr => ((readable rules hrules).readable r hr).short
      guard_coded := fun rules hrules r hr => by
        obtain ⟨f, encoded, inside⟩ :=
          Bytecode.exists_encode_of_check ((readable rules hrules).readable r hr).checked
        exact ⟨f, Formula.coded_of_encode encoded, inside⟩
      target_lt := fun rules hrules r hr => ((readable rules hrules).readable r hr).target_lt }
  · have atomCount : header.atomCount.toNat.toUInt16 = header.atomCount := UInt16.ofNat_toNat
    have stateCount : header.stateCount.toNat.toUInt16 = header.stateCount := UInt16.ofNat_toNat
    simp only [Snapshot.header, parts, atomCount, stateCount]
  · rw [front, front', front'', ended, spelled, spelled', spelled'', List.append_nil]
    rfl
  · obtain ⟨_, _, _, _, _, _⟩ := s
    cases kind
    cases atoms
    cases states
    cases sortedInitials
    cases sortedFinals
    rfl

theorem load_eq_ok_iff {bytes : List UInt8} {s : Snapshot} :
    load bytes = .ok s ↔ ∃ parts : Snapshot, parts.Legible ∧ bytes = parts.layout
      ∧ s = parts.sorted := by
  constructor
  · intro loaded
    obtain ⟨header, decoded, loaded⟩ := bind_eq_ok loaded
    obtain ⟨front, known⟩ := Header.encode_of_decode decoded
    by_cases none : header.stateCount = 0
    · rw [if_pos none] at loaded
      cases loaded
    · rw [if_neg none] at loaded
      obtain ⟨⟨s, stop⟩, given, loaded⟩ := bind_eq_ok loaded
      cases loaded
      obtain ⟨parts, legible, rfl, payload, sorted⟩ := legible_of_body known none given
      refine ⟨parts, legible, ?_, sorted⟩
      rw [legible.layout_eq, ← payload]
      exact front
  · rintro ⟨parts, legible, rfl, rfl⟩
    rw [legible.layout_eq]
    exact legible.load_encode

end Snapshot

/-- An error of the loader says that the snapshot is malformed or that its kind is not known. -/
theorem LoadError.message_cases (e : LoadError) :
    (∃ place detail, e.message = place ++ malformed detail) ∨
      ∃ code : UInt16, e.message = "unsupported snapshot kind" ++ s!" ({code})" := by
  cases e with
  | unsupportedKind code => exact Or.inr ⟨code, rfl⟩
  | guard q i cause => exact Or.inl ⟨_, _, rfl⟩
  | truncatedHeader | badMagic | noStates | truncatedAt | stateOutOfBounds | tooManyRules
  | targetOutOfBounds | trailingBytes | noInitialState | manyInitialStates =>
    exact Or.inl ⟨"", _, (String.empty_append).symm⟩

namespace Snapshot

/-- The loader accepts exactly its format.  On any bytes it gives a well-formed snapshot or one of
    the two errors.  It accepts the bytes that are laid out as a snapshot with parts that are in
    range, and nothing else; what it gives are these parts, with their states in order. -/
theorem load_accepts_layout (bytes : List UInt8) :
    ((∃ s, load bytes = .ok s ∧ s.WellFormed) ∨
      ∃ e, load bytes = .error e ∧ ((∃ place detail, e.message = place ++ malformed detail) ∨
        ∃ code : UInt16, e.message = "unsupported snapshot kind" ++ s!" ({code})")) ∧
    ∀ s, load bytes = .ok s ↔ ∃ parts : Snapshot, parts.Legible ∧ bytes = parts.layout
      ∧ s = parts.sorted := by
  refine ⟨?_, fun s => load_eq_ok_iff⟩
  cases loaded : load bytes with
  | error e => exact Or.inr ⟨e, rfl, e.message_cases⟩
  | ok s =>
    obtain ⟨parts, legible, -, rfl⟩ := load_eq_ok_iff.mp loaded
    exact Or.inl ⟨_, rfl, legible.wellFormed_sorted⟩

end Snapshot

end TraceRegex
