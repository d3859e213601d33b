import TraceRegex.Proofs.Determinization
import TraceRegex.Proofs.JsonText
import TraceRegex.Proofs.Utf8
import TraceRegex.Snapshot.Document

/-! # Reading back snapshot documents

A snapshot document that was written is decoded to itself, unless a number in it is too large for a
field; and building what it describes gives the automaton that it was written for.
-/

namespace TraceRegex

open Json (Reads)

/-! ## Fields and lists -/

namespace Json

theorem reads_nat (n : Nat) : Reads (n ≤ maxNumber) (natOfLiteral? (toString n)) n := by
  have digits : (Nat.toDigits 10 n).all Char.isDigit = true :=
    List.all_eq_true.mpr fun c hc => isDigit_of_mem_toDigits hc
  have value : (Nat.toDigits 10 n).foldl (fun n d => n * 10 + (d.toNat - '0'.toNat)) 0 = n := by
    have step : (fun n d => n * 10 + (d.toNat - '0'.toNat))
        = fun n (d : Char) => 10 * n + (d.toNat - '0'.toNat) := by
      funext n d
      rw [Nat.mul_comm]
    rw [step]
    exact Nat.ofDigitChars_ten_toDigits
  rw [Nat.toString_eq_ofList_toDigits, natOfLiteral?, String.toList_ofList, if_pos digits, value]
  exact ⟨fun h => if_pos h, fun h => if_neg h⟩

theorem reads_updateNat (old n : Nat) : Reads (n ≤ maxNumber) (updateNat old (.ofNat n)) n :=
  reads_nat n

section

variable {α β : Type} {blank : α} {item : α → Value → Option α} {write : β → Value} {read : β → α}
  {fits : β → Prop} {xs : List β}

theorem reads_updateItems (h : ∀ x ∈ xs, Reads (fits x) (item blank (write x)) (read x)) :
    Reads (∀ x ∈ xs, fits x) (updateItems blank item [] (xs.map write)) (xs.map read) := by
  induction xs with
  | nil => exact (Reads.of_eq rfl).congr (iff_of_true trivial nofun)
  | cons x xs ih =>
    have first := h x List.mem_cons_self
    have later := ih fun y hy => h y (List.mem_cons_of_mem _ hy)
    exact (first.bind fun _ => later.bind_pure (read x :: ·)).congr List.forall_mem_cons.symm

theorem reads_slots (h : ∀ x ∈ xs, Reads (fits x) (item blank (write x)) (read x)) :
    Reads (∀ x ∈ xs, fits x) (Slots.empty.update blank item (.array (xs.map write)))
      ⟨xs.map read, []⟩ := by
  cases xs with
  | nil => exact (Reads.of_eq rfl).congr (iff_of_true trivial nofun)
  | cons x xs => exact (reads_updateItems h).bind_some (by simp [Slots.empty])

end

end Json

/-! ## Formulas -/

namespace FormulaDoc

theorem toNat_le_maxNumber (i : UInt32) : i.toNat ≤ Json.maxNumber :=
  Nat.le_trans (Nat.le_of_lt i.toNat_lt) (by decide)

theorem operand_ofFormula (key : String) (f : Formula) :
    toJson.operand key (toJson (ofFormula f)) = [(key, toJson (ofFormula f))] := by
  cases f <;> rfl

/-- The document of an atom.  Its number may be too large for a formula. -/
def atom (i : Nat) : FormulaDoc := .node "var" none (some i) .missing .missing .missing

theorem update_atom (i : Nat) (fits : i ≤ Json.maxNumber) :
    update .missing (atom i).toJson = some (atom i) := by
  show ((Json.natOfLiteral? (toString i)).map some >>= fun index =>
    some (node "var" none index .missing .missing .missing)) = _
  rw [(Json.reads_nat i).1 fits]
  rfl

theorem update_toJson (f : Formula) :
    update .missing (toJson (ofFormula f)) = some (ofFormula f) := by
  induction f with
  | const b => rfl
  | var i => exact update_atom i.toNat (toNat_le_maxNumber i)
  | not f ih =>
    rw [ofFormula, toJson, operand_ofFormula]
    show (update .missing (toJson (ofFormula f)) >>= fun arg =>
      some (node "not" none none arg .missing .missing)) = _
    rw [ih]
    rfl
  | and f g ihf ihg =>
    rw [ofFormula, toJson, operand_ofFormula, operand_ofFormula]
    show (update .missing (toJson (ofFormula f)) >>= fun lhs =>
      update .missing (toJson (ofFormula g)) >>= fun rhs =>
        some (node "and" none none .missing lhs rhs)) = _
    rw [ihf, ihg]
    rfl
  | or f g ihf ihg =>
    rw [ofFormula, toJson, operand_ofFormula, operand_ofFormula]
    show (update .missing (toJson (ofFormula f)) >>= fun lhs =>
      update .missing (toJson (ofFormula g)) >>= fun rhs =>
        some (node "or" none none .missing lhs rhs)) = _
    rw [ihf, ihg]
    rfl

theorem build_returns (f : Formula) : Build.Returns (build (ofFormula f)).run (.ok f) := by
  induction f with
  | const b => exact Build.Returns.pure _
  | var i =>
    -- the index is narrowed when it is read, and it came from a narrow one
    have same : (i.toNat.toUInt32 : UInt32) = i := i.ofNat_toNat
    intro ctx
    show Except.ok (Formula.var i.toNat.toUInt32) = _
    rw [same]
  | not f ih => exact ih.except_bind (Build.not_returns f).lift
  | and f g ihf ihg => exact ihf.except_bind (ihg.except_bind (Build.and_returns f g).lift)
  | or f g ihf ihg => exact ihf.except_bind (ihg.except_bind (Build.or_returns f g).lift)

theorem natural_of_mem_operand {key : String} {v : Json.Value} (h : v.Natural) :
    ∀ m ∈ toJson.operand key v, m.2.Natural := by
  unfold toJson.operand
  split
  next => exact nofun
  next => exact List.forall_mem_singleton.mpr h

theorem natural_toJson (doc : FormulaDoc) : doc.toJson.Natural := by
  induction doc with
  | missing => exact .null
  | node kind value index arg lhs rhs iha ihl ihr =>
    have values : ∀ m ∈ (value.map fun b => ("value", Json.Value.bool b)).toList, m.2.Natural := by
      cases value with
      | none => exact nofun
      | some b => exact List.forall_mem_singleton.mpr (.bool b)
    have numbers :
        ∀ m ∈ (index.map fun i => ("variable", Json.Value.ofNat i)).toList, m.2.Natural := by
      cases index with
      | none => exact nofun
      | some i => exact List.forall_mem_singleton.mpr (.number i)
    refine .object ?_
    simp only [List.forall_mem_append]
    exact ⟨⟨⟨⟨⟨List.forall_mem_singleton.mpr (.string kind), values⟩, numbers⟩,
      natural_of_mem_operand iha⟩, natural_of_mem_operand ihl⟩, natural_of_mem_operand ihr⟩

end FormulaDoc

/-! ## Automata -/

/-- The document of a rule. -/
def RuleDoc.ofRule (r : Rule) : RuleDoc := ⟨FormulaDoc.ofFormula r.guard, r.target⟩

theorem RuleDoc.reads_update (r : Rule) :
    Reads (r.target ≤ Json.maxNumber) (blank.update (ofRule r).toJson) (ofRule r) := by
  have guard : Reads True (updateMember blank ("phi", (ofRule r).guard.toJson))
      ⟨(ofRule r).guard, 0⟩ :=
    (Reads.of_eq (FormulaDoc.update_toJson r.guard)).bind_pure fun guard => RuleDoc.mk guard 0
  have target : Reads (r.target ≤ Json.maxNumber)
      (updateMember ⟨(ofRule r).guard, 0⟩ ("state", .ofNat r.target)) (ofRule r) :=
    (Json.reads_updateNat 0 r.target).bind_pure (RuleDoc.mk (ofRule r).guard)
  exact (guard.bind fun _ => target.bind_some rfl).congr (and_iff_right trivial)

theorem RuleDoc.natural_toJson (doc : RuleDoc) : doc.toJson.Natural :=
  .object (List.forall_mem_cons.mpr ⟨FormulaDoc.natural_toJson doc.guard,
    List.forall_mem_cons.mpr ⟨.number doc.target, nofun⟩⟩)

namespace AutomatonDoc

/-- The lists of rules as a JSON value. -/
def rulesJson (a : Automaton) : Json.Value :=
  .array (a.transitions.map fun rules => .array (rules.map fun r => (RuleDoc.ofRule r).toJson))

theorem toJson_ofAutomaton {a : Automaton} (h : a.Valid) :
    (ofAutomaton a).toJson = .object [
      ("atomicCount", .ofNat a.atomCount),
      ("stateCount", .ofNat a.stateCount),
      ("initial", .ofNat a.initial),
      ("finals", .array (a.finals.toList.map Json.Value.ofNat)),
      ("transitions", rulesJson a)] := by
  have full : a.stateCount - (ofAutomaton a).transitions.length = 0 := by
    show a.stateCount - (a.transitions.map _).length = 0
    rw [List.length_map, h.length_transitions, Nat.sub_self]
  have lists : ((ofAutomaton a).transitions.map fun rules =>
      Json.Value.array (rules.map RuleDoc.toJson))
        = a.transitions.map fun rules =>
          .array (rules.map fun r => (RuleDoc.ofRule r).toJson) := by
    simp only [ofAutomaton, List.map_map, Function.comp_def, RuleDoc.ofRule]
  rw [toJson, lists, show (ofAutomaton a).stateCount = a.stateCount from rfl, full]
  simp only [List.replicate_zero, List.append_nil]
  rfl

theorem natural_toJson (doc : AutomatonDoc) : doc.toJson.Natural := by
  have finals : (Json.Value.array (doc.finals.map Json.Value.ofNat)).Natural := by
    refine .array fun v hv => ?_
    obtain ⟨q, _, rfl⟩ := List.mem_map.mp hv
    exact .number q
  refine .object fun m hm => ?_
  simp only [List.mem_cons, List.not_mem_nil, or_false] at hm
  rcases hm with rfl | rfl | rfl | rfl | rfl
  · exact .number _
  · exact .number _
  · exact .number _
  · exact finals
  · refine .array (List.forall_mem_append.mpr ⟨fun v hv => ?_, fun v hv => ?_⟩)
    · obtain ⟨rules, _, rfl⟩ := List.mem_map.mp hv
      refine .array fun v hv => ?_
      obtain ⟨r, _, rfl⟩ := List.mem_map.mp hv
      exact RuleDoc.natural_toJson r
    · rw [List.eq_of_mem_replicate hv]
      exact .null

end AutomatonDoc

namespace AutomatonDraft

/-- The draft that is complete. -/
def ofAutomaton (a : Automaton) : AutomatonDraft where
  atomCount := a.atomCount
  stateCount := a.stateCount
  initial := a.initial
  finals := ⟨a.finals.toList, []⟩
  transitions := ⟨a.transitions.map fun rules => ⟨rules.map RuleDoc.ofRule, []⟩, []⟩

theorem doc_ofAutomaton (a : Automaton) : (ofAutomaton a).doc = AutomatonDoc.ofAutomaton a := by
  simp only [doc, ofAutomaton, List.map_map]
  rfl

theorem reads_finals (a : Automaton) :
    Reads (∀ q ∈ a.finals.toList, q ≤ Json.maxNumber)
      (Json.Slots.empty.update 0 Json.updateNat (.array (a.finals.toList.map .ofNat)))
      ⟨a.finals.toList, []⟩ := by
  have read : Reads (∀ q ∈ a.finals.toList, q ≤ Json.maxNumber)
      (Json.Slots.empty.update 0 Json.updateNat (.array (a.finals.toList.map .ofNat)))
      ⟨a.finals.toList.map id, []⟩ :=
    Json.reads_slots fun q _ => Json.reads_updateNat 0 q
  rwa [List.map_id] at read

theorem reads_transitions (a : Automaton) :
    Reads (∀ rules ∈ a.transitions, ∀ r ∈ rules, r.target ≤ Json.maxNumber)
      (Json.Slots.empty.update .empty (Json.Slots.update RuleDoc.blank RuleDoc.update)
        (AutomatonDoc.rulesJson a)) (ofAutomaton a).transitions :=
  Json.reads_slots fun _ _ => Json.reads_slots fun r _ => RuleDoc.reads_update r

theorem reads_update {a : Automaton} (h : a.Valid) :
    Reads (a.atomCount ≤ Json.maxNumber ∧ a.stateCount ≤ Json.maxNumber)
      (blank.update (AutomatonDoc.ofAutomaton a).toJson) (ofAutomaton a) := by
  have atomCount : Reads (a.atomCount ≤ Json.maxNumber)
      (updateMember blank ("atomicCount", .ofNat a.atomCount))
      ⟨a.atomCount, 0, 0, .empty, .empty⟩ :=
    (Json.reads_updateNat 0 a.atomCount).bind_pure (mk · 0 0 .empty .empty)
  have stateCount : Reads (a.stateCount ≤ Json.maxNumber)
      (updateMember ⟨a.atomCount, 0, 0, .empty, .empty⟩ ("stateCount", .ofNat a.stateCount))
      ⟨a.atomCount, a.stateCount, 0, .empty, .empty⟩ :=
    (Json.reads_updateNat 0 a.stateCount).bind_pure (mk a.atomCount · 0 .empty .empty)
  have initial : Reads (a.initial ≤ Json.maxNumber)
      (updateMember ⟨a.atomCount, a.stateCount, 0, .empty, .empty⟩ ("initial", .ofNat a.initial))
      ⟨a.atomCount, a.stateCount, a.initial, .empty, .empty⟩ :=
    (Json.reads_updateNat 0 a.initial).bind_pure (mk a.atomCount a.stateCount · .empty .empty)
  have finals : Reads (∀ q ∈ a.finals.toList, q ≤ Json.maxNumber)
      (updateMember ⟨a.atomCount, a.stateCount, a.initial, .empty, .empty⟩
        ("finals", .array (a.finals.toList.map .ofNat)))
      ⟨a.atomCount, a.stateCount, a.initial, ⟨a.finals.toList, []⟩, .empty⟩ :=
    (reads_finals a).bind_pure (mk a.atomCount a.stateCount a.initial · .empty)
  have transitions : Reads (∀ rules ∈ a.transitions, ∀ r ∈ rules, r.target ≤ Json.maxNumber)
      (updateMember ⟨a.atomCount, a.stateCount, a.initial, ⟨a.finals.toList, []⟩, .empty⟩
        ("transitions", AutomatonDoc.rulesJson a)) (ofAutomaton a) :=
    (reads_transitions a).bind_pure
      (mk a.atomCount a.stateCount a.initial ⟨a.finals.toList, []⟩)
  -- every other number is below one of the two counts
  have counts : (a.atomCount ≤ Json.maxNumber ∧ a.stateCount ≤ Json.maxNumber
      ∧ a.initial ≤ Json.maxNumber ∧ (∀ q ∈ a.finals.toList, q ≤ Json.maxNumber)
      ∧ ∀ rules ∈ a.transitions, ∀ r ∈ rules, r.target ≤ Json.maxNumber)
      ↔ a.atomCount ≤ Json.maxNumber ∧ a.stateCount ≤ Json.maxNumber := by
    refine ⟨fun all => ⟨all.1, all.2.1⟩, fun ⟨atoms, states⟩ => ⟨atoms, states, ?_, ?_, ?_⟩⟩
    · exact Nat.le_trans (Nat.le_of_lt h.initial_lt) states
    · exact fun q hq => Nat.le_trans (Nat.le_of_lt (h.finals_lt q hq)) states
    · exact fun rules hrules r hr =>
        Nat.le_trans (Nat.le_of_lt (h.target_lt rules hrules r hr)) states
  rw [AutomatonDoc.toJson_ofAutomaton h]
  exact (atomCount.bind fun _ => stateCount.bind fun _ => initial.bind fun _ =>
    finals.bind fun _ => transitions.bind_some rfl).congr counts

end AutomatonDraft

namespace AutomatonDoc

theorem buildRules_returns (q : Nat) (rules : List Rule) :
    Build.Returns (buildRules q (rules.map RuleDoc.ofRule)).run (.ok rules) := by
  have each : Build.Returns (buildRules q (rules.map RuleDoc.ofRule)).run (.ok (rules.map id)) :=
    Build.Returns.except_mapM fun r _ =>
      ((FormulaDoc.build_returns r.guard).adapt _).except_bind (Build.Returns.pure _)
  rwa [List.map_id] at each

theorem build_returns {a : Automaton} (h : a.Valid) :
    Build.Returns (ofAutomaton a).build.run (.ok a) := by
  have lists : (ofAutomaton a).transitions.zipIdx
      = a.transitions.zipIdx.map fun p => (p.1.map RuleDoc.ofRule, p.2) := List.zipIdx_map
  have transitions : Build.Returns ((ofAutomaton a).transitions.zipIdx.mapM fun p =>
      buildRules p.2 p.1).run (.ok a.transitions) := by
    have each : Build.Returns ((a.transitions.zipIdx.map fun p =>
        (p.1.map RuleDoc.ofRule, p.2)).mapM fun p => buildRules p.2 p.1).run
        (.ok (a.transitions.zipIdx.map Prod.fst)) :=
      Build.Returns.except_mapM fun p _ => buildRules_returns p.2 p.1
    rwa [List.zipIdx_map_fst, ← lists] at each
  have full : ¬(ofAutomaton a).transitions.length ≠ (ofAutomaton a).stateCount := by
    rw [show (ofAutomaton a).transitions.length = a.transitions.length from List.length_map _,
      h.length_transitions]
    exact not_not_intro rfl
  have same : ({ a with finals := .ofList a.finals.toList } : Automaton) = a := by
    rw [SortedSet.ofList_toList]
  unfold build
  dsimp only
  rw [if_neg full]
  refine transitions.except_bind ?_
  dsimp only [ofAutomaton]
  rw [same, Automaton.validate_iff.mpr h]
  exact Build.Returns.pure _

theorem buildDeterministic_returns {a : Automaton} (h : a.Valid) (deterministic : a.Deterministic) :
    Build.Returns (ofAutomaton a).buildDeterministic.run (.ok a) :=
  (build_returns h).except_bind
    (((Automaton.validateDeterministic_returns h deterministic).adapt _).except_bind
      (Build.Returns.pure _))

end AutomatonDoc

/-! ## Snapshots -/

/-- The kind of the snapshots for a target. -/
def Target.kind : Target → SnapshotKind
  | .nondeterministic => .nondeterministic
  | .deterministic => .deterministic

namespace SnapshotDoc

/-- The document of an automaton for a target. -/
def ofAutomaton (target : Target) (names : List String) (a : Automaton) : SnapshotDoc where
  kind := target.name
  names
  automaton := some (AutomatonDoc.ofAutomaton a)

theorem natural_toJson (doc : SnapshotDoc) : doc.toJson.Natural := by
  have atomics : (Json.Value.array (doc.names.map Json.Value.string)).Natural := by
    refine .array fun v hv => ?_
    obtain ⟨name, _, rfl⟩ := List.mem_map.mp hv
    exact .string name
  refine .object fun m hm => ?_
  simp only [List.mem_cons, List.not_mem_nil, or_false] at hm
  rcases hm with rfl | rfl | rfl
  · exact .string _
  · exact atomics
  · cases doc.automaton with
    | none => exact .null
    | some automaton => exact AutomatonDoc.natural_toJson automaton

theorem reads_names (names : List String) :
    Reads True (Json.Slots.empty.update "" Json.updateString (.array (names.map .string)))
      ⟨names, []⟩ := by
  have read : Reads (∀ name ∈ names, True)
      (Json.Slots.empty.update "" Json.updateString (.array (names.map .string)))
      ⟨names.map id, []⟩ :=
    Json.reads_slots fun name _ => .of_eq rfl
  rw [List.map_id] at read
  exact read.congr (iff_of_true (fun _ _ => trivial) trivial)

theorem reads_ofJson (target : Target) (names : List String) {a : Automaton} (h : a.Valid) :
    Reads (a.atomCount ≤ Json.maxNumber ∧ a.stateCount ≤ Json.maxNumber)
      (ofJson (ofAutomaton target names a).toJson) (ofAutomaton target names a) := by
  have kind : Reads True (SnapshotDraft.updateMember .blank ("kind", .string target.name))
      ⟨target.name, .empty, none⟩ := .of_eq rfl
  have atomics : Reads True (SnapshotDraft.updateMember ⟨target.name, .empty, none⟩
      ("atomics", .array (names.map .string))) ⟨target.name, ⟨names, []⟩, none⟩ :=
    (reads_names names).bind_pure (SnapshotDraft.mk target.name · none)
  have automaton : Reads (a.atomCount ≤ Json.maxNumber ∧ a.stateCount ≤ Json.maxNumber)
      (SnapshotDraft.updateMember ⟨target.name, ⟨names, []⟩, none⟩
        ("fasl", (AutomatonDoc.ofAutomaton a).toJson))
      ⟨target.name, ⟨names, []⟩, some (AutomatonDraft.ofAutomaton a)⟩ :=
    (AutomatonDraft.reads_update h).bind_pure fun draft =>
      SnapshotDraft.mk target.name ⟨names, []⟩ (some draft)
  have done : (⟨target.name, ⟨names, []⟩, some (AutomatonDraft.ofAutomaton a)⟩ : SnapshotDraft).doc
      = ofAutomaton target names a := by
    rw [SnapshotDraft.doc, Option.map_some, AutomatonDraft.doc_ofAutomaton]
    rfl
  have members : Reads (True ∧ True ∧ a.atomCount ≤ Json.maxNumber ∧ a.stateCount ≤ Json.maxNumber)
      ([("kind", Json.Value.string target.name), ("atomics", .array (names.map .string)),
        ("fasl", (AutomatonDoc.ofAutomaton a).toJson)].foldlM SnapshotDraft.updateMember .blank)
      ⟨target.name, ⟨names, []⟩, some (AutomatonDraft.ofAutomaton a)⟩ :=
    kind.bind fun _ => atomics.bind fun _ => automaton.bind_some rfl
  have whole := members.map SnapshotDraft.doc
  rwa [true_and, true_and, done] at whole

theorem snapshot_returns (kind : SnapshotKind) (a : Automaton) :
    Build.Returns (match Snapshot.ofAutomaton kind a with
      | .ok s => pure s
      | .error cause => throw (.tooLarge cause) : ExceptT DecodeError Build Snapshot).run
      ((Snapshot.ofAutomaton kind a).mapError .tooLarge) := by
  cases Snapshot.ofAutomaton kind a with
  | ok s => exact Build.Returns.pure _
  | error cause => exact Build.Returns.pure _

/-- The document is built as the snapshot of its automaton, which may be too large for one. -/
theorem build_returns (target : Target) (names : List String) {a : Automaton} (h : a.Valid)
    (deterministic : target = .deterministic → a.Deterministic) :
    Build.Returns (ofAutomaton target names a).build.run
      ((Snapshot.ofAutomaton target.kind a).mapError .tooLarge) := by
  cases target with
  | nondeterministic =>
    exact ((AutomatonDoc.build_returns h).adapt _).except_bind (snapshot_returns _ a)
  | deterministic =>
    exact ((AutomatonDoc.buildDeterministic_returns h (deterministic rfl)).adapt _).except_bind
      (snapshot_returns _ a)

end SnapshotDoc

namespace Json

theorem head_pretty_object (members : List (String × Value)) :
    ∃ rest, (Value.object members).pretty.toList = '\x7b' :: rest := by
  unfold Value.pretty
  rw [Value.indented, block]
  split
  · exact ⟨_, String.toList_append⟩
  · simp only [String.toList_append, List.append_assoc]
    exact ⟨_, rfl⟩

end Json

namespace Snapshot

/-- A text that starts with a brace is not taken for the binary format. -/
theorem isSnapshot_brace (rest : List UInt8) : isSnapshot (0x7b :: rest) = false := by
  rcases rest with _ | ⟨b, _ | ⟨c, _ | ⟨d, rest⟩⟩⟩
  · rfl
  · rfl
  · rfl
  · have other : word32 0x7b b c d ≠ Header.magic := by
      have low : (0x7b : UInt8).toNat = 123 := rfl
      simp only [word32, word16, Header.magic, low]
      omega
    exact beq_false_of_ne other

theorem isSnapshot_document (doc : SnapshotDoc) :
    isSnapshot (Text.bytesOfString doc.toJson.pretty) = false := by
  obtain ⟨rest, spelled⟩ : ∃ rest, doc.toJson.pretty.toList = '\x7b' :: rest :=
    Json.head_pretty_object _
  rw [Text.bytesOfString_eq, spelled, List.flatMap_cons]
  exact isSnapshot_brace _

/-- What is decoded from the text of a document is the snapshot of its automaton. -/
theorem ofAutomaton_of_decode {target : Target} {names names' : List String} {a : Automaton}
    (h : a.Valid) (deterministic : target = .deterministic → a.Deterministic) {s : Snapshot}
    (decoded : decode (Text.bytesOfString (SnapshotDoc.ofAutomaton target names a).toJson.pretty)
      = .ok (s, names')) : ofAutomaton target.kind a = .ok s := by
  have text := (SnapshotDoc.ofAutomaton target names a).natural_toJson.reads_pretty
  have shape := SnapshotDoc.reads_ofJson target names h
  have built := SnapshotDoc.build_returns target names h deterministic Context.empty
  rw [decode, isSnapshot_document, if_neg Bool.false_ne_true, Text.charsOfBytes_bytesOfString]
    at decoded
  -- each stage gives what was written or nothing, and something came out at the end
  split at decoded
  next => cases decoded
  next v parsed =>
  obtain rfl := text.eq_of_some parsed
  split at decoded
  next => cases decoded
  next doc given =>
  obtain rfl := shape.eq_of_some given
  rw [show ((SnapshotDoc.ofAutomaton target names a).build.run.run Context.empty).1 = _ from built]
    at decoded
  cases snapshot : ofAutomaton target.kind a with
  | error cause =>
    rw [snapshot] at decoded
    cases decoded
  | ok s' =>
    rw [snapshot] at decoded
    cases decoded
    rfl

end Snapshot

end TraceRegex
