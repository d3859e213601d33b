import Mathlib.Data.List.Induction
import TraceRegex.Collection.BitSet
import TraceRegex.Collection.BucketMap

/-! # Maps after any insertions

A map is determined by the insertions that made it: each key has the value that was inserted last
with an equal key.  Keys need only an equality that is an equivalence and a hash that respects it, so
different keys may share a hash and a bucket.  Rows of bits are such keys: rows with the same members
are equal and have the same hash, however many zeros follow the last member.
-/

namespace TraceRegex

namespace BucketMap

variable {κ ν : Type} [BEq κ]

/-! ## One bucket -/

section

variable {key other : κ} {value : ν} {bucket replaced : List (κ × ν)}

theorem find?_cons (key k : κ) (v : ν) (rest : List (κ × ν)) :
    find? key ((k, v) :: rest) = if key == k then some v else find? key rest := by
  unfold find?
  rw [List.find?_cons]
  cases key == k <;> rfl

/-- A key is replaced if the bucket has it. -/
theorem isSome_replace? (key : κ) (value : ν) (bucket : List (κ × ν)) :
    (replace? key value bucket).isSome = (find? key bucket).isSome := by
  induction bucket with
  | nil => rfl
  | cons e rest ih =>
    obtain ⟨k, v⟩ := e
    rw [replace?, find?_cons]
    split
    · rfl
    · rw [Option.isSome_map, ih]

/-- Replacing a value keeps the keys. -/
theorem keys_of_replace? (h : replace? key value bucket = some replaced) :
    replaced.map Prod.fst = bucket.map Prod.fst := by
  induction bucket generalizing replaced with
  | nil => cases h
  | cons e rest ih =>
    obtain ⟨k, v⟩ := e
    rw [replace?] at h
    split at h
    · cases h
      rfl
    · obtain ⟨later, found, rfl⟩ := Option.map_eq_some_iff.mp h
      rw [List.map_cons, List.map_cons, ih found]

variable [EquivBEq κ]

/-- Keys that differ can be compared with in either order. -/
theorem ite_beq_swap {α : Type} {k : κ} (differ : ¬(key == k) = true) {a b c : α} :
    (if other == k then a else if other == key then b else c) =
      if other == key then b else if other == k then a else c := by
  by_cases same : (other == key) = true
  · rw [if_pos same, if_pos same, if_neg (by rwa [BEq.congr_left same])]
  · rw [if_neg same, if_neg same]

theorem find?_of_replace? (h : replace? key value bucket = some replaced) (other : κ) :
    find? other replaced = if other == key then some value else find? other bucket := by
  induction bucket generalizing replaced with
  | nil => cases h
  | cons e rest ih =>
    obtain ⟨k, v⟩ := e
    rw [replace?] at h
    split at h
    next here =>
      -- the entry matches `other` exactly if `key` does
      cases h
      rw [find?_cons, find?_cons, ← BEq.congr_right here]
      split <;> rfl
    next elsewhere =>
      obtain ⟨later, found, rfl⟩ := Option.map_eq_some_iff.mp h
      rw [find?_cons, find?_cons, ih found, ite_beq_swap elsewhere]

theorem find?_concat (absent : find? key bucket = none) (value : ν) (other : κ) :
    find? other (bucket ++ [(key, value)]) =
      if other == key then some value else find? other bucket := by
  induction bucket with
  | nil => rw [List.nil_append, find?_cons]
  | cons e rest ih =>
    obtain ⟨k, v⟩ := e
    rw [find?_cons] at absent
    split at absent
    next => cases absent
    next elsewhere =>
      rw [List.cons_append, find?_cons, find?_cons, ih absent, ite_beq_swap elsewhere]

/-- A key that is not found equals no key of the bucket. -/
theorem beq_eq_false_of_find? (absent : find? key bucket = none) {k : κ}
    (mem : k ∈ bucket.map Prod.fst) : (k == key) = false := by
  unfold find? at absent
  rw [Option.map_eq_none_iff, List.find?_eq_none] at absent
  obtain ⟨e, inside, rfl⟩ := List.mem_map.mp mem
  exact BEq.symm_false (Bool.eq_false_iff.mpr (absent e inside))

end

/-! ## Distinct keys -/

/-- The last element is new or drops out. -/
theorem eraseDups_concat [EquivBEq κ] (xs : List κ) (x : κ) :
    (xs ++ [x]).eraseDups = xs.eraseDups ++ if xs.any (x == ·) then [] else [x] := by
  induction length : xs.length using Nat.strongRecOn generalizing xs with
  | ind n ih =>
    cases xs with
    | nil => rfl
    | cons a as =>
      have shorter : (as.filter fun b => !b == a).length < n :=
        Nat.lt_of_le_of_lt (List.length_filter_le _ _) (length ▸ Nat.lt_succ_self _)
      rw [List.cons_append, List.eraseDups_cons, List.eraseDups_cons, List.filter_append,
        List.any_cons]
      by_cases same : (x == a) = true
      · simp [same]
      · have kept : (as.filter fun b => !b == a).any (x == ·) = as.any (x == ·) := by
          rw [List.any_filter]
          refine congrArg as.any (funext fun b => ?_)
          by_cases equal : (x == b) = true
          · rw [← BEq.congr_left equal]
            simp [equal, same]
          · simp [equal]
        have last : [x].filter (fun b => !b == a) = [x] := by simp [same]
        rw [last, ih _ shorter _ rfl, kept]
        simp [same]

/-! ## One insertion -/

variable [Hashable κ]

/-- Every entry stands in the bucket of its hash, and no bucket has two entries with equal keys. -/
structure Tidy (m : BucketMap κ ν) : Prop where
  placed : ∀ {code : UInt64} {bucket : List (κ × ν)}, m.buckets[code]? = some bucket →
    ∀ k ∈ bucket.map Prod.fst, hash k = code
  distinct : ∀ {code : UInt64} {bucket : List (κ × ν)}, m.buckets[code]? = some bucket →
    (bucket.map Prod.fst).Pairwise fun k l => (k == l) = false

section

variable {m : BucketMap κ ν} {key : κ} {value : ν}

theorem insert_of_some {replaced : List (κ × ν)}
    (h : replace? key value (m.bucketOf key) = some replaced) :
    m.insert key value = (true, { m with buckets := m.buckets.insert (hash key) replaced }) := by
  simp only [insert, h]

theorem insert_of_none (h : replace? key value (m.bucketOf key) = none) :
    m.insert key value = (false,
      ⟨m.buckets.insert (hash key) (m.bucketOf key ++ [(key, value)]), m.size + 1⟩) := by
  simp only [insert, h]

variable (m key value)

theorem insert_fst : (m.insert key value).1 = m.contains key := by
  unfold contains get?
  rw [← isSome_replace? key value]
  cases h : replace? key value (m.bucketOf key) with
  | some replaced => rw [insert_of_some h, Option.isSome_some]
  | none => rw [insert_of_none h, Option.isSome_none]

theorem size_insert :
    (m.insert key value).2.size = if m.contains key then m.size else m.size + 1 := by
  rw [← insert_fst m key value]
  cases h : replace? key value (m.bucketOf key) with
  | some replaced => simp [insert_of_some h]
  | none => simp [insert_of_none h]

variable [EquivBEq κ]

/-- What an insertion does: it exchanges one bucket for another one, in which the key has the value and
    all other keys have what they had. -/
theorem buckets_insert :
    ∃ bucket, (m.insert key value).2.buckets = m.buckets.insert (hash key) bucket ∧
      (∀ other, find? other bucket =
        if other == key then some value else find? other (m.bucketOf key)) ∧
      (bucket.map Prod.fst = (m.bucketOf key).map Prod.fst ∨
        find? key (m.bucketOf key) = none ∧
          bucket.map Prod.fst = (m.bucketOf key).map Prod.fst ++ [key]) := by
  cases h : replace? key value (m.bucketOf key) with
  | some replaced =>
    rw [insert_of_some h]
    exact ⟨replaced, rfl, find?_of_replace? h, .inl (keys_of_replace? h)⟩
  | none =>
    have absent : find? key (m.bucketOf key) = none := by
      rw [← Option.isNone_iff_eq_none, ← Option.not_isSome, ← isSome_replace? key value, h]
      rfl
    rw [insert_of_none h]
    exact ⟨_, rfl, find?_concat absent value, .inr ⟨absent, by simp⟩⟩

theorem Tidy.insert {m : BucketMap κ ν} (h : m.Tidy) (key : κ) (value : ν) :
    (m.insert key value).2.Tidy := by
  obtain ⟨bucket, exchanged, -, keys⟩ := buckets_insert m key value
  have before : (∀ k ∈ (m.bucketOf key).map Prod.fst, hash k = hash key) ∧
      ((m.bucketOf key).map Prod.fst).Pairwise fun k l => (k == l) = false := by
    unfold bucketOf
    rw [Std.HashMap.getD_eq_getD_getElem?]
    cases old : m.buckets[hash key]? with
    | none => simp
    | some bucket => exact ⟨h.placed old, h.distinct old⟩
  have after : (∀ k ∈ bucket.map Prod.fst, hash k = hash key) ∧
      (bucket.map Prod.fst).Pairwise fun k l => (k == l) = false := by
    rcases keys with same | ⟨absent, added⟩
    · rw [same]
      exact before
    · rw [added]
      refine ⟨List.forall_mem_append.mpr ⟨before.1, by simp⟩, List.pairwise_append.mpr
        ⟨before.2, List.pairwise_singleton _ _, fun k mem l last => ?_⟩⟩
      rw [List.mem_singleton.mp last]
      exact beq_eq_false_of_find? absent mem
  constructor
  all_goals
    intro code found stored
    rw [exchanged, Std.HashMap.getElem?_insert] at stored
    split at stored
  next here =>
    cases stored
    exact eq_of_beq here ▸ after.1
  next => exact h.placed stored
  next here =>
    cases stored
    exact after.2
  next => exact h.distinct stored

variable [LawfulHashable κ]

/-- An insertion changes the value of the keys that equal the given one, and of no other. -/
theorem get?_insert (other : κ) :
    (m.insert key value).2.get? other = if other == key then some value else m.get? other := by
  obtain ⟨bucket, exchanged, found, -⟩ := buckets_insert m key value
  unfold get? bucketOf
  rw [exchanged, Std.HashMap.getD_insert]
  by_cases shared : hash key = hash other
  · rw [if_pos (beq_iff_eq.mpr shared), found, bucketOf, shared]
  · have apart : ¬(other == key) = true := fun same => shared (hash_eq same).symm
    rw [if_neg (fun same => shared (beq_iff_eq.mp same)), if_neg apart]

end

/-! ## Any insertions -/

/-- The map after insertions, the first of which comes first. -/
def after (history : List (κ × ν)) : BucketMap κ ν :=
  history.foldl (fun m e => (m.insert e.1 e.2).2) empty

theorem after_concat (history : List (κ × ν)) (e : κ × ν) :
    after (history ++ [e]) = ((after history).insert e.1 e.2).2 := by
  rw [after, List.foldl_append]
  rfl

section

variable [EquivBEq κ] (history : List (κ × ν))

theorem tidy_after : (after history).Tidy := by
  induction history using List.reverseRecOn with
  | nil => constructor <;> simp [after, empty]
  | append_singleton history e ih =>
    rw [after_concat]
    exact ih.insert e.1 e.2

variable [LawfulHashable κ]

theorem get?_after (key : κ) :
    (after history).get? key = (history.reverse.find? fun e => key == e.1).map Prod.snd := by
  induction history using List.reverseRecOn with
  | nil => simp [after, empty, get?, bucketOf, find?]
  | append_singleton history e ih =>
    rw [after_concat, get?_insert, List.reverse_concat, List.find?_cons, ih]
    cases key == e.1 <;> rfl

theorem contains_after (key : κ) :
    (after history).contains key = history.any fun e => key == e.1 := by
  unfold contains
  rw [get?_after, Option.isSome_map, List.isSome_find?, List.any_reverse]

theorem size_after : (after history).size = (history.map Prod.fst).eraseDups.length := by
  induction history using List.reverseRecOn with
  | nil => rfl
  | append_singleton history e ih =>
    have known : (history.map Prod.fst).any (e.1 == ·) = (after history).contains e.1 := by
      rw [contains_after, List.any_map]
      rfl
    rw [after_concat, size_insert, List.map_append, List.map_singleton, eraseDups_concat, ih, known]
    split <;> simp

end

end BucketMap

/-! ## Rows of bits as keys -/

namespace BitSet

variable {s t : BitSet}

theorem wordAt_of_le {i : Nat} (beyond : s.words.size ≤ i) : s.wordAt i = 0 := by
  simp [wordAt, Array.getD, Nat.not_lt.mpr beyond]

theorem wordAt_grow (s : BitSet) (count i : Nat) : (s.grow count).wordAt i = s.wordAt i := by
  unfold grow
  split
  · unfold wordAt
    simp only [Array.getD_eq_getD_getElem?, Array.getElem?_append, Array.getElem?_replicate]
    by_cases inside : i < s.words.size
    · simp [inside]
    · by_cases below : i - s.words.size < count - s.words.size
      · simp [inside, below]
      · simp [inside, below]
  · rfl

theorem wordAt_insert (s : BitSet) (x i : Nat) : (s.insert x).wordAt i =
    if i = x / 64 then s.wordAt i ||| 1 <<< (x % 64).toUInt64 else s.wordAt i := by
  have reached : x / 64 < (s.grow (x / 64 + 1)).words.size := by
    unfold grow
    split
    · simp only [Array.size_append, Array.size_replicate]
      omega
    · omega
  rw [← wordAt_grow s (x / 64 + 1)]
  unfold insert wordAt
  simp only [Array.getD_eq_getD_getElem?, Array.getElem?_modify]
  split
  · next same =>
    subst same
    simp [reached]
  · next other => rw [if_neg (Ne.symm other)]

theorem testBit_bit {j : Nat} (low : j < 64) (k : Nat) :
    (1 <<< j.toUInt64 : UInt64).toNat.testBit k = decide (j = k) := by
  have exactly : j.toUInt64.toNat = j := Nat.mod_eq_of_lt (Nat.lt_trans low (by decide))
  rw [UInt64.toNat_shiftLeft, exactly, Nat.mod_eq_of_lt low, UInt64.toNat_one, Nat.one_shiftLeft,
    Nat.mod_eq_of_lt (Nat.pow_lt_pow_right (by decide) low), Nat.testBit_two_pow]

theorem contains_insert (s : BitSet) (x y : Nat) :
    (s.insert x).contains y = (s.contains y || y == x) := by
  unfold contains
  rw [wordAt_insert]
  split
  · next same =>
    have place : decide (x % 64 = y % 64) = (y == x) := by
      rw [Bool.eq_iff_iff, decide_eq_true_iff, beq_iff_eq]
      omega
    rw [UInt64.toNat_or, Nat.testBit_or, testBit_bit (Nat.mod_lt x (by decide)), place]
  · next other =>
    have differ : (y == x) = false := by
      rw [beq_eq_false_iff_ne]
      rintro rfl
      exact other rfl
    rw [differ, Bool.or_false]

theorem contains_foldl_insert (xs : List Nat) (s : BitSet) (x : Nat) :
    (xs.foldl insert s).contains x = (s.contains x || xs.contains x) := by
  induction xs generalizing s with
  | nil => simp
  | cons y xs ih => rw [List.foldl_cons, ih, contains_insert, List.contains_cons, Bool.or_assoc]

theorem contains_ofMembers (xs : List Nat) (x : Nat) :
    (ofMembers xs).contains x = xs.contains x := by
  have none : empty.contains x = false := by simp [contains, empty, wordAt]
  rw [ofMembers, contains_foldl_insert, none, Bool.false_or]

/-- Equality looks at all words, since both rows go on with zeros. -/
theorem beq_iff_wordAt : (s == t) = true ↔ ∀ i, s.wordAt i = t.wordAt i := by
  show ((max s.words.size t.words.size).all fun i _ => s.wordAt i == t.wordAt i) = true ↔ _
  rw [Nat.all_eq_finRange_all, List.all_eq_true]
  constructor
  · intro same i
    by_cases inside : i < max s.words.size t.words.size
    · exact eq_of_beq (same ⟨i, inside⟩ (List.mem_finRange _))
    · rw [wordAt_of_le (by omega), wordAt_of_le (by omega)]
  · exact fun same i _ => beq_iff_eq.mpr (same i)

/-- Rows have the same members if they have the same words. -/
theorem contains_eq_iff_wordAt :
    (∀ x, s.contains x = t.contains x) ↔ ∀ i, s.wordAt i = t.wordAt i := by
  constructor
  · intro same i
    refine UInt64.toNat_inj.mp (Nat.eq_of_testBit_eq fun j => ?_)
    by_cases low : j < 64
    · have bit := same (64 * i + j)
      unfold contains at bit
      rwa [Nat.mul_add_div (by decide), Nat.div_eq_of_lt low, Nat.add_zero, Nat.mul_add_mod,
        Nat.mod_eq_of_lt low] at bit
    · have high (w : UInt64) : w.toNat.testBit j = false :=
        Nat.testBit_lt_two_pow <|
          Nat.lt_of_lt_of_le w.toNat_lt (Nat.pow_le_pow_right (by decide) (by omega))
      rw [high, high]
  · intro same x
    unfold contains
    rw [same]

theorem beq_iff_contains : (s == t) = true ↔ ∀ x, s.contains x = t.contains x :=
  beq_iff_wordAt.trans contains_eq_iff_wordAt.symm

instance : EquivBEq BitSet where
  rfl := beq_iff_wordAt.mpr fun _ => rfl
  symm same := beq_iff_wordAt.mpr fun i => (beq_iff_wordAt.mp same i).symm
  trans same same' := beq_iff_wordAt.mpr fun i =>
    (beq_iff_wordAt.mp same i).trans (beq_iff_wordAt.mp same' i)

/-- The words up to that of the last member. -/
def trimmed (words : List UInt64) : List UInt64 := (words.reverse.dropWhile (· == 0)).reverse

theorem trimmed_append_zeros (words : List UInt64) (n : Nat) :
    trimmed (words ++ List.replicate n 0) = trimmed words := by
  unfold trimmed
  rw [List.reverse_append, List.reverse_replicate]
  congr 1
  induction n with
  | zero => rfl
  | succ n ih => rw [List.replicate_succ, List.cons_append, List.dropWhile_cons_of_pos rfl, ih]

/-- Rows with the same words differ only in the zeros at their ends. -/
theorem trimmed_eq_of_wordAt (same : ∀ i, s.wordAt i = t.wordAt i) :
    trimmed s.words.toList = trimmed t.words.toList := by
  have padded : s.words.toList ++ List.replicate t.words.size 0 =
      t.words.toList ++ List.replicate s.words.size 0 := by
    refine List.ext_getElem (by simp [Nat.add_comm]) fun i hs ht => ?_
    have word := same i
    simp only [wordAt, Array.getD] at word
    simp only [List.getElem_append, List.getElem_replicate, Array.length_toList, Array.getElem_toList]
    exact word
  rw [← trimmed_append_zeros s.words.toList, padded, trimmed_append_zeros]

theorem bitHash_eq (s : BitSet) : s.bitHash = (trimmed s.words.toList).foldl mixWord hashOffset := by
  obtain ⟨⟨words⟩⟩ := s
  unfold bitHash
  rw [List.popWhile_toArray, List.foldl_toArray]
  rfl

instance : LawfulHashable BitSet where
  hash_eq s t same := by
    show s.bitHash = t.bitHash
    rw [bitHash_eq, bitHash_eq, trimmed_eq_of_wordAt (beq_iff_wordAt.mp same)]

end BitSet

namespace BucketMap

/-- After any insertions, a key has the value that was inserted last with an equal key, and none if
    there was no such insertion.  The map contains just the keys that were inserted, another insertion
    says so, and the size counts them, equal ones once.  This holds for all keys with an equality that
    is an equivalence and a hash that respects it, and rows of bits are such keys: rows with the same
    members are equal and have the same hash, whatever their lengths are. -/
theorem after_refines_history :
    (∀ {κ ν : Type} [BEq κ] [Hashable κ] [EquivBEq κ] [LawfulHashable κ]
      (history : List (κ × ν)),
      let m := after history
      m.Tidy ∧ m.size = (history.map Prod.fst).eraseDups.length ∧
      ∀ key : κ,
        m.get? key = (history.reverse.find? fun e => key == e.1).map Prod.snd ∧
        (m.contains key = true ↔ (m.get? key).isSome) ∧
        (m.contains key = true ↔ ∃ e ∈ history, (key == e.1) = true) ∧
        ∀ value, (m.insert key value).1 = true ↔ ∃ e ∈ history, (key == e.1) = true) ∧
    EquivBEq BitSet ∧ LawfulHashable BitSet ∧
    ∀ s t : BitSet, ((s == t) = true ↔ ∀ x, s.contains x = t.contains x) ∧
      ((∀ x, s.contains x = t.contains x) → hash s = hash t) := by
  refine ⟨fun history => ⟨tidy_after history, size_after history, fun key => ?_⟩, inferInstance,
    inferInstance, fun s t => ⟨BitSet.beq_iff_contains, fun same => ?_⟩⟩
  · have known : (after history).contains key = true ↔ ∃ e ∈ history, (key == e.1) = true := by
      rw [contains_after, List.any_eq_true]
    exact ⟨get?_after history key, Iff.rfl, known, fun value => by rw [insert_fst, known]⟩
  · exact hash_eq (BitSet.beq_iff_contains.mpr same)

/-- Two rows of one set are one key, and the longer one was inserted last. -/
theorem after_refines_history_of_rows :
    let m := after [(BitSet.mk #[2], "a"), (⟨#[4]⟩, "b"), (⟨#[2, 0]⟩, "c")]
    m.size = 2 ∧ m.get? ⟨#[2, 0, 0]⟩ = some "c" ∧ m.contains ⟨#[2, 1]⟩ = false ∧
      hash (BitSet.mk #[2]) = hash (BitSet.mk #[2, 0, 0]) := by
  intro m
  obtain ⟨-, size, found⟩ :=
    after_refines_history.1 [(BitSet.mk #[2], "a"), (⟨#[4]⟩, "b"), (⟨#[2, 0]⟩, "c")]
  have absent := (found ⟨#[2, 1]⟩).2.2.1
  have same := (after_refines_history.2.2.2 ⟨#[2]⟩ ⟨#[2, 0, 0]⟩).1.mp (by decide)
  exact ⟨size.trans (by decide), (found ⟨#[2, 0, 0]⟩).1.trans (by decide),
    Bool.eq_false_iff.mpr fun contained => absurd (absent.mp contained) (by decide),
    (after_refines_history.2.2.2 _ _).2 same⟩

end BucketMap

end TraceRegex
