import TraceRegex.Proofs.Acceptance

/-! # The size of decoded documents

A list in a document has no more items than the text has tokens, and so no more than there are
bytes.  The states of a snapshot that was read from a document are the items of such a list, since a
list of rules stands there for each of them.
-/

namespace TraceRegex

/-! ## Characters -/

theorem Text.length_glyphsOnto_le (found : List Glyph) (skip : Nat) (bytes : List UInt8) :
    (glyphsOnto found skip bytes).length ≤ found.length + bytes.length := by
  induction bytes generalizing found skip with
  | nil => simp [glyphsOnto]
  | cons b bytes ih =>
    cases skip with
    | succ skip =>
      rw [glyphsOnto, List.length_cons]
      exact Nat.le_trans (ih found skip) (by omega)
    | zero =>
      rw [glyphsOnto, List.length_cons]
      split
      next g _ => simpa [Nat.add_right_comm, Nat.add_assoc] using ih (g :: found) (g.width - 1)
      next => simpa [Nat.add_right_comm, Nat.add_assoc] using ih (⟨replacement, 1⟩ :: found) 0

theorem Text.length_charsOfBytes_le (bytes : List UInt8) :
    (charsOfBytes bytes).length ≤ bytes.length := by
  simpa [charsOfBytes, glyphsOfBytes] using length_glyphsOnto_le [] 0 bytes

namespace Json

/-! ## Tokens -/

/-- How many tokens have been started and not completed. -/
def Pending.count : Pending → Nat
  | .nothing => 0
  | _ => 1

theorem count_of_startToken? {c : Char} {tokens : List Token} {pending : Pending}
    (h : startToken? c = some (tokens, pending)) : tokens.length + pending.count ≤ 1 := by
  unfold startToken? at h
  split at h
  case h_8 =>
    split at h
    next => cases h; simp [Pending.count]
    split at h
    next => cases h; simp [Pending.count]
    next => cases h
  all_goals
    cases h
    simp [Pending.count]

/-- A character starts at most one token. -/
theorem count_of_scanChar? {before pending : Pending} {c : Char} {tokens : List Token}
    (h : scanChar? before c = some (tokens, pending)) :
    tokens.length + pending.count ≤ before.count + 1 := by
  cases before with
  | nothing => exact Nat.le_trans (count_of_startToken? h) (by simp)
  | bare chars =>
    rw [scanChar?] at h
    split at h
    next => cases h; simp [Pending.count]
    next =>
      obtain ⟨token, -, h⟩ := Option.bind_eq_some_iff.mp h
      obtain ⟨⟨started, _⟩, start, h⟩ := Option.bind_eq_some_iff.mp h
      cases h
      have := count_of_startToken? start
      simp only [List.length_append, List.length_singleton, Pending.count] at this ⊢
      omega
  | string pieces =>
    rw [scanChar?] at h
    split at h
    next => cases h; simp [Pending.count]
    split at h
    next => cases h; simp [Pending.count]
    split at h
    next => cases h
    next => cases h; simp [Pending.count]
  | escape pieces =>
    rw [scanChar?] at h
    split at h
    next => cases h; simp [Pending.count]
    next =>
      obtain ⟨d, -, same⟩ := Option.map_eq_some_iff.mp h
      cases same
      simp [Pending.count]
  | digits pieces count code =>
    obtain ⟨d, -, same⟩ := Option.map_eq_some_iff.mp h
    dsimp only at same
    split at same
    next => cases same; simp [Pending.count]
    next => cases same; simp [Pending.count]

theorem length_of_scan? {found tokens : List Token} {pending : Pending} {text : List Char}
    (h : scan? found pending text = some tokens) :
    tokens.length ≤ found.length + pending.count + text.length := by
  induction text generalizing found pending with
  | nil =>
    cases pending with
    | nothing => cases h; simp
    | bare chars =>
      obtain ⟨token, -, same⟩ := Option.map_eq_some_iff.mp h
      cases same
      simp [Pending.count]
    | string pieces => cases h
    | escape pieces => cases h
    | digits pieces count code => cases h
  | cons c text ih =>
    rw [scan?_cons] at h
    obtain ⟨⟨new, pending'⟩, taken, h⟩ := Option.bind_eq_some_iff.mp h
    have first := count_of_scanChar? taken
    have rest := ih h
    simp only [List.length_append, List.length_cons] at rest ⊢
    omega

/-! ## Lists of a document -/

/-- No list in the document has more than `n` items. -/
inductive Value.Short (n : Nat) : Value → Prop where
  | leaf {v : Value} (flat : v.depth = 0) : Short n v
  | array {items : List Value} (few : items.length ≤ n) (each : ∀ v ∈ items, Short n v) :
      Short n (.array items)
  | object {members : List (String × Value)} (each : ∀ m ∈ members, Short n m.2) :
      Short n (.object members)

theorem Value.Short.length_le {n : Nat} {items : List Value} (h : (Value.array items).Short n) :
    items.length ≤ n := by
  cases h with
  | leaf flat => cases flat
  | array few each => exact few

theorem Value.Short.of_mem {n : Nat} {members : List (String × Value)}
    (h : (Value.object members).Short n) : ∀ m ∈ members, m.2.Short n := by
  cases h with
  | leaf flat => cases flat
  | object each => exact each

namespace Assembly

/-- No container has more than `k` elements, and the lists in these have at most `n` items. -/
def Few (n k : Nat) (containers : List Container) : Prop :=
  ∀ c ∈ containers, c.values.length ≤ k ∧ ∀ v ∈ c.values, v.Short n

/-- All that is open or finished is as short as the tokens read so far make it. -/
structure Short (n k : Nat) (a : Assembly) : Prop where
  few : Few n k a.containers
  finished : ∀ v, a.phase = .finished v → v.Short n

section

variable {n k : Nat} {containers outer : List Container} {a b : Assembly} {t : Token}

theorem Few.mono (h : Few n k containers) : Few n (k + 1) containers := fun c hc =>
  ⟨Nat.le_trans (h c hc).1 (Nat.le_succ k), (h c hc).2⟩

theorem short_deliver (h : Few n k containers) {v : Value} (short : v.Short n) :
    (deliver v containers).Short n (k + 1) := by
  match containers, h with
  | [], _ =>
    refine ⟨nofun, fun w same => ?_⟩
    cases same
    exact short
  | .array items :: outer, h =>
    obtain ⟨⟨few, each⟩, rest⟩ := List.forall_mem_cons.mp h
    exact ⟨List.forall_mem_cons.mpr ⟨⟨Nat.succ_le_succ few,
      List.forall_mem_cons.mpr ⟨short, each⟩⟩, Few.mono rest⟩, nofun⟩
  | .object members key :: outer, h =>
    obtain ⟨⟨few, each⟩, rest⟩ := List.forall_mem_cons.mp h
    exact ⟨List.forall_mem_cons.mpr ⟨⟨Nat.succ_le_succ few,
      List.forall_mem_cons.mpr ⟨short, each⟩⟩, Few.mono rest⟩, nofun⟩

theorem short_enter {c : Container} {phase : Phase} (h : Few n k containers)
    (entered : enter? c phase containers = some b) (new : c.values = [])
    (unfinished : ∀ v, phase = .finished v → False) : b.Short n (k + 1) := by
  unfold enter? at entered
  split at entered
  next =>
    cases entered
    refine ⟨List.forall_mem_cons.mpr ⟨?_, h.mono⟩, fun v same => (unfinished v same).elim⟩
    simp [new]
  next => cases entered

theorem short_value? (h : Few n k containers) (flat : t.Flat)
    (taken : value? containers t = some b) : b.Short n (k + 1) := by
  cases t with
  | openArray => exact short_enter h taken rfl nofun
  | openObject => exact short_enter h taken rfl nofun
  | text s =>
    cases taken
    exact short_deliver h (.leaf rfl)
  | scalar v =>
    cases taken
    exact short_deliver h (.leaf flat)
  | closeArray => cases taken
  | closeObject => cases taken
  | comma => cases taken
  | colon => cases taken

/-- One token adds at most one element, so a container that is closed is still short. -/
theorem Short.of_step? (h : a.Short n k) (room : k ≤ n) (flat : t.Flat)
    (taken : a.step? t = some b) : b.Short n (k + 1) := by
  have few := h.few
  obtain value | ⟨items, outer, inside, rfl⟩ | ⟨members, key, outer, inside, rfl⟩ |
    ⟨members, key, key', outer, inside, rfl⟩ | ⟨same, unfinished⟩ := step?_cases taken
  · exact short_value? few flat value
  · rw [inside] at few
    obtain ⟨⟨count, each⟩, rest⟩ := List.forall_mem_cons.mp few
    refine short_deliver rest (.array ?_ fun v hv => each v (List.mem_reverse.mp hv))
    rw [List.length_reverse]
    exact Nat.le_trans count room
  · rw [inside] at few
    obtain ⟨⟨-, each⟩, rest⟩ := List.forall_mem_cons.mp few
    exact short_deliver rest (.object fun m hm =>
      each m.2 (List.mem_map_of_mem (List.mem_reverse.mp hm)))
  · rw [inside] at few
    obtain ⟨front, rest⟩ := List.forall_mem_cons.mp few.mono
    exact ⟨List.forall_mem_cons.mpr ⟨front, rest⟩, nofun⟩
  · exact ⟨same ▸ few.mono, fun v finished => absurd finished (unfinished v)⟩

theorem Short.of_foldlM {tokens : List Token} (h : a.Short n k) (room : k + tokens.length ≤ n)
    (flat : ∀ t ∈ tokens, t.Flat) (taken : tokens.foldlM step? a = some b) :
    b.Short n (k + tokens.length) := by
  induction tokens generalizing a k with
  | nil =>
    cases taken
    exact h
  | cons t tokens ih =>
    rw [List.forall_mem_cons] at flat
    rw [List.foldlM_cons] at taken
    rw [List.length_cons] at room
    obtain ⟨next, first, later⟩ := Option.bind_eq_some_iff.mp taken
    have rest := ih (h.of_step? (by omega) flat.1 first) (by omega) flat.2 later
    rwa [List.length_cons, ← Nat.add_assoc, Nat.add_right_comm]

end

end Assembly

theorem short_of_parse? {text : List Char} {v : Value} (h : parse? text = some v) :
    v.Short text.length := by
  obtain ⟨tokens, scanned, rest⟩ := Option.bind_eq_some_iff.mp h
  obtain ⟨final, assembled, read⟩ := Option.bind_eq_some_iff.mp rest
  obtain ⟨found, listed, rfl⟩ := Option.map_eq_some_iff.mp scanned
  have flat (t : Token) (ht : t ∈ found.reverse) : t.Flat :=
    flat_of_scan? listed nofun t (List.mem_reverse.mp ht)
  have count : 0 + found.reverse.length ≤ text.length := by
    simpa [Pending.count] using length_of_scan? listed
  have start : Assembly.Short text.length 0 ⟨[], .value⟩ := ⟨nofun, nofun⟩
  have short := start.of_foldlM count flat assembled
  split at read
  next w finished =>
    cases read
    exact short.finished v finished
  next => cases read

/-! ## Decoded lists -/

section

variable {α : Type} {blank : α} {item : α → Value → Option α} {n : Nat}

theorem length_updateItems {old new : List α} {values : List Value}
    (h : updateItems blank item old values = some new) : new.length = values.length := by
  induction values generalizing old new with
  | nil =>
    cases old with
    | nil => cases h; rfl
    | cons x old => cases h; rfl
  | cons v values ih =>
    cases old with
    | nil =>
      obtain ⟨first, -, h⟩ := Option.bind_eq_some_iff.mp h
      obtain ⟨rest, later, h⟩ := Option.bind_eq_some_iff.mp h
      cases h
      rw [List.length_cons, List.length_cons, ih later]
    | cons x old =>
      obtain ⟨first, -, h⟩ := Option.bind_eq_some_iff.mp h
      obtain ⟨rest, later, h⟩ := Option.bind_eq_some_iff.mp h
      cases h
      rw [List.length_cons, List.length_cons, ih later]

theorem Value.Short.length_update {v : Value} (short : v.Short n) {old new : Slots α}
    (h : old.update blank item v = some new) : new.items.length ≤ n := by
  unfold Slots.update at h
  split at h
  next => cases h; exact Nat.zero_le n
  next => cases h; exact Nat.zero_le n
  next v vs =>
    obtain ⟨items, updated, h⟩ := Option.bind_eq_some_iff.mp h
    cases h
    rw [length_updateItems updated]
    exact short.length_le
  next => cases h

/-- What holds of a record and is kept by each of the members holds in the end. -/
theorem holds_of_foldlM {β : Type} {p : β → Prop} {update : β → String × Value → Option β}
    {members : List (String × Value)}
    (step : ∀ x m y, m ∈ members → p x → update x m = some y → p y) {x y : β} (h : p x) (read : members.foldlM update x = some y) : p y := by
  induction members generalizing x with
  | nil =>
    cases read
    exact h
  | cons m members ih =>
    rw [List.foldlM_cons] at read
    obtain ⟨next, first, later⟩ := Option.bind_eq_some_iff.mp read
    exact ih (fun x m' y hm => step x m' y (List.mem_cons_of_mem _ hm))
      (step x m next List.mem_cons_self h first) later

end

end Json

/-! ## Decoded snapshots -/

section

variable {n : Nat}

theorem AutomatonDraft.length_updateMember {draft draft' : AutomatonDraft}
    {member : String × Json.Value} (short : member.2.Short n)
    (h : draft.transitions.items.length ≤ n) (read : draft.updateMember member = some draft') :
    draft'.transitions.items.length ≤ n := by
  unfold updateMember at read
  dsimp only at read
  split at read
  next =>
    obtain ⟨_, -, same⟩ := Option.bind_eq_some_iff.mp read
    cases same
    exact h
  split at read
  next =>
    obtain ⟨_, -, same⟩ := Option.bind_eq_some_iff.mp read
    cases same
    exact h
  split at read
  next =>
    obtain ⟨_, -, same⟩ := Option.bind_eq_some_iff.mp read
    cases same
    exact h
  split at read
  next =>
    obtain ⟨_, -, same⟩ := Option.bind_eq_some_iff.mp read
    cases same
    exact h
  split at read
  next =>
    obtain ⟨transitions, updated, same⟩ := Option.bind_eq_some_iff.mp read
    cases same
    exact short.length_update updated
  next =>
    cases read
    exact h

theorem AutomatonDraft.length_update {draft draft' : AutomatonDraft} {v : Json.Value}
    (short : v.Short n) (h : draft.transitions.items.length ≤ n)
    (read : draft.update v = some draft') : draft'.transitions.items.length ≤ n := by
  cases v with
  | object members =>
    exact Json.holds_of_foldlM (fun x m y hm hx => length_updateMember (short.of_mem m hm) hx) h
      read
  | null => cases read
  | bool b => cases read
  | number literal => cases read
  | string s => cases read
  | array items => cases read

theorem SnapshotDraft.length_updateMember {draft draft' : SnapshotDraft}
    {member : String × Json.Value} (short : member.2.Short n)
    (h : ∀ a ∈ draft.automaton, a.transitions.items.length ≤ n)
    (read : draft.updateMember member = some draft') :
    ∀ a ∈ draft'.automaton, a.transitions.items.length ≤ n := by
  unfold updateMember at read
  dsimp only at read
  split at read
  next =>
    obtain ⟨_, -, same⟩ := Option.bind_eq_some_iff.mp read
    cases same
    exact h
  split at read
  next =>
    obtain ⟨_, -, same⟩ := Option.bind_eq_some_iff.mp read
    cases same
    exact h
  split at read
  next =>
    split at read
    next => cases read; exact nofun
    next =>
      obtain ⟨next, updated, same⟩ := Option.bind_eq_some_iff.mp read
      cases same
      intro a ha
      cases ha
      refine AutomatonDraft.length_update short ?_ updated
      cases given : draft.automaton with
      | none => exact Nat.zero_le n
      | some old => exact h old given
  next =>
    cases read
    exact h

theorem SnapshotDoc.length_transitions_le {v : Json.Value} {doc : SnapshotDoc}
    (short : v.Short n) (read : ofJson v = some doc) {a : AutomatonDoc}
    (given : doc.automaton = some a) : a.transitions.length ≤ n := by
  unfold ofJson at read
  split at read
  next =>
    cases read
    cases given
  next members =>
    obtain ⟨draft, folded, rfl⟩ := Option.map_eq_some_iff.mp read
    obtain ⟨drafted, described, rfl⟩ := Option.map_eq_some_iff.mp given
    have bound : ∀ a ∈ draft.automaton, a.transitions.items.length ≤ n :=
      Json.holds_of_foldlM
        (fun x m y hm hx => SnapshotDraft.length_updateMember (short.of_mem m hm) hx)
        (by simp [SnapshotDraft.blank]) folded
    rw [AutomatonDraft.doc, List.length_map]
    exact bound drafted described
  next => cases read

end

/-- The binary format counts the states with 16 bits, and a document has at least a byte for
    each. -/
theorem Snapshot.stateCount_le_of_decode {s : Snapshot} {bytes : List UInt8} {names : List String}
    (decoded : decode bytes = .ok (s, names)) : s.stateCount ≤ max maxWord16 bytes.length := by
  rcases of_decode decoded with ⟨-, wellFormed⟩ | ⟨-, v, doc, parsed, shaped, built⟩
  · exact Nat.le_trans wellFormed.stateCount_le (Nat.le_max_left _ _)
  · obtain ⟨given, kind, a, described, built, taken, -⟩ := SnapshotDoc.of_build built
    obtain ⟨-, represents⟩ := represents_of_ofAutomaton taken
    obtain ⟨-, -, counted, -⟩ := AutomatonDoc.of_build built
    calc s.stateCount
      _ = given.transitions.length := represents.stateCount_eq.trans counted
      _ ≤ (Text.charsOfBytes bytes).length :=
        SnapshotDoc.length_transitions_le (Json.short_of_parse? parsed) shaped described
      _ ≤ bytes.length := Text.length_charsOfBytes_le bytes
      _ ≤ _ := Nat.le_max_right _ _

end TraceRegex
