import TraceRegex.Proofs.BinaryLayout

/-! # Writing what was loaded

A loaded snapshot can be written again.  Loading keeps everything but the order and the repetitions
in the two lists of states, so what is written are the bytes that were loaded exactly if both lists
stood there in ascending order.
-/

namespace TraceRegex

/-! ## The lists in the bytes -/

/-- The words that the bytes spell, two bytes each. -/
def words : List UInt8 → List Nat
  | lo :: hi :: rest => word16 lo hi :: words rest
  | _ => []

/-- The list that stands behind its own length. -/
def counted : List Nat → List Nat
  | n :: rest => rest.take n
  | [] => []

theorem words_flatMap {states : List Nat} (small : ∀ q ∈ states, q ≤ maxWord16)
    (rest : List UInt8) : words (states.flatMap bytes16 ++ rest) = states ++ words rest := by
  induction states with
  | nil => rfl
  | cons q states ih =>
    obtain ⟨first, later⟩ := List.forall_mem_cons.mp small
    show word16 q.toUInt8 (q / 256).toUInt8 :: words (states.flatMap bytes16 ++ rest) = _
    rw [word16_bytes16 first, ih later]
    rfl

/-- A counted list of states, with whatever follows it. -/
theorem words_states {states : List Nat} (short : states.length ≤ maxWord16)
    (small : ∀ q ∈ states, q ≤ maxWord16) (rest : List UInt8) :
    words (bytes16 states.length ++ states.flatMap bytes16 ++ rest) =
      states.length :: (states ++ words rest) := by
  have list : words ((states.length :: states).flatMap bytes16 ++ rest) = _ :=
    words_flatMap (List.forall_mem_cons.mpr ⟨short, small⟩) rest
  rwa [List.flatMap_cons] at list

theorem counted_append (states rest : List Nat) :
    counted (states.length :: (states ++ rest)) = states :=
  List.take_left

namespace Snapshot

/-- The list of initial states as it stands in the bytes of a snapshot: the first list behind the
    header. -/
def writtenInitials (bytes : List UInt8) : List Nat :=
  counted (words (bytes.drop Header.byteCount))

/-- The list of final states as it stands in the bytes: the next one. -/
def writtenFinals (bytes : List UInt8) : List Nat :=
  counted ((words (bytes.drop Header.byteCount)).drop (1 + (writtenInitials bytes).length))

namespace Legible

variable {s : Snapshot}

theorem words_layout (h : s.Legible) : words (s.layout.drop Header.byteCount) =
    s.initials.length :: (s.initials ++
      s.finals.length :: (s.finals ++ words (s.transitions.flatMap encodeRules))) := by
  have small {states : List Nat} (bound : ∀ q ∈ states, q < s.stateCount) :
      ∀ q ∈ states, q ≤ maxWord16 :=
    fun q hq => Nat.le_of_lt (Nat.lt_of_lt_of_le (bound q hq) h.stateCount_le)
  have behind : s.layout.drop Header.byteCount = s.payload := by
    rw [h.layout_eq]
    exact List.drop_left' rfl
  rw [behind, payload, words_states h.length_initials_le (small h.initials_lt),
    words_states h.length_finals_le (small h.finals_lt)]

theorem writtenInitials_layout (h : s.Legible) : writtenInitials s.layout = s.initials := by
  rw [writtenInitials, h.words_layout, counted_append]

theorem writtenFinals_layout (h : s.Legible) : writtenFinals s.layout = s.finals := by
  rw [writtenFinals, h.writtenInitials_layout, h.words_layout, Nat.add_comm, List.drop_succ_cons,
    List.drop_left, counted_append]

end Legible

/-! ## Writing again -/

/-- Loaded snapshots are written in one form.  What was loaded can be written, and is loaded from
    there again.  It has the states of the two lists in the bytes, each of them once and in order,
    and what is written are the same bytes exactly if the lists had this form already. -/
theorem encode_of_load_is_canonical (bytes : List UInt8) (s : Snapshot)
    (loaded : load bytes = .ok s) :
    s.initials = (SortedSet.ofList (writtenInitials bytes)).toList ∧
    s.finals = (SortedSet.ofList (writtenFinals bytes)).toList ∧
    ∃ written, s.encode = .ok written ∧ load written = .ok s ∧
      (written = bytes ↔ (writtenInitials bytes).Pairwise (· < ·) ∧
        (writtenFinals bytes).Pairwise (· < ·)) := by
  obtain ⟨parts, legible, rfl, rfl⟩ := load_eq_ok_iff.mp loaded
  have wellFormed := legible.wellFormed_sorted
  have encoded := wellFormed.encode_eq
  have again := wellFormed.load_encode
  rw [← wellFormed.legible.layout_eq] at encoded again
  rw [legible.writtenInitials_layout, legible.writtenFinals_layout]
  refine ⟨rfl, rfl, parts.sorted.layout, encoded, again, ?_⟩
  constructor
  · intro same
    -- both lists are read off the same bytes
    have initials := wellFormed.legible.writtenInitials_layout
    have finals := wellFormed.legible.writtenFinals_layout
    rw [same, legible.writtenInitials_layout] at initials
    rw [same, legible.writtenFinals_layout] at finals
    rw [initials, finals]
    exact ⟨wellFormed.initials_ascending, wellFormed.finals_ascending⟩
  · rintro ⟨initials, finals⟩
    rw [sorted_eq_of_ascending initials finals]

/-- The initial states 2, 0 and 2 again are not written like this. -/
theorem encode_of_load_is_canonical_of_repetition :
    let parts : Snapshot := ⟨.nondeterministic, 1, 3, [2, 0, 2], [1], [[⟨[2, 0, 0], 1⟩], [], []]⟩
    load parts.layout = .ok parts.sorted ∧ writtenInitials parts.layout = [2, 0, 2] ∧
      ∃ written, parts.sorted.encode = .ok written ∧ load written = .ok parts.sorted ∧
        written ≠ parts.layout := by
  intro parts
  have legible : parts.Legible := {
    kind_known := rfl
    atomCount_le := by decide
    stateCount_pos := by decide
    stateCount_le := by decide
    initials_ne_nil := by decide
    one_initial := by decide
    length_initials_le := by decide
    initials_lt := by decide
    length_finals_le := by decide
    finals_lt := by decide
    length_transitions := rfl
    length_rules_le := by decide
    length_guard_le := by decide
    guard_coded := by
      simp only [parts, List.forall_mem_cons, List.not_mem_nil, false_imp_iff, implies_true,
        and_true]
      exact ⟨.atom 0, Bytecode.coded_atom 0 0, by decide⟩
    target_lt := by decide }
  have loaded : load parts.layout = .ok parts.sorted :=
    load_eq_ok_iff.mpr ⟨parts, legible, rfl, rfl⟩
  obtain ⟨-, -, written, encoded, again, same⟩ := encode_of_load_is_canonical _ _ loaded
  refine ⟨loaded, legible.writtenInitials_layout, written, encoded, again, ?_⟩
  rw [Ne, same, legible.writtenInitials_layout]
  decide

end Snapshot

end TraceRegex
