import TraceRegex.Proofs.HeldGuards
import TraceRegex.Proofs.Negations
import TraceRegex.Proofs.SearchCompilation

/-! # What is written for a compiled expression

The bytes of a compiled expression do not depend on what its context was used for before, and
neither does the error if there are none.  And the two formats carry the same snapshot, as far as
they can be written: a document cannot if a guard in it nests too deeply (`Automaton.Shallow`).
-/

namespace TraceRegex

/-! ## The depth of documents -/

theorem FormulaDoc.operand_missing (key : String) : toJson.operand key (toJson .missing) = [] := rfl

theorem FormulaDoc.depth_toJson (f : Formula) : (toJson (ofFormula f)).depth = f.height + 1 := by
  induction f with
  | const b => rfl
  | var i => rfl
  | not f ih =>
    rw [ofFormula, toJson, operand_ofFormula]
    simp [Json.Value.depth, Json.membersDepth, Formula.height, operand_missing, ih]
  | and f g ihf ihg =>
    rw [ofFormula, toJson, operand_ofFormula, operand_ofFormula]
    simp [Json.Value.depth, Json.membersDepth, Formula.height, operand_missing, ihf, ihg]
  | or f g ihf ihg =>
    rw [ofFormula, toJson, operand_ofFormula, operand_ofFormula]
    simp [Json.Value.depth, Json.membersDepth, Formula.height, operand_missing, ihf, ihg]

theorem RuleDoc.depth_toJson (r : Rule) : (ofRule r).toJson.depth = r.guard.height + 2 := by
  simp [toJson, ofRule, Json.Value.depth, Json.membersDepth, FormulaDoc.depth_toJson,
    Json.Value.ofNat]

/-- The guards do not nest too deeply for a document, in which a leaf of a guard stands inside one
    container for each connective and six more. -/
def Automaton.Shallow (a : Automaton) : Prop :=
  ∀ rules ∈ a.transitions, ∀ r ∈ rules, r.guard.height + 6 ≤ Json.maxDepth

instance (a : Automaton) : Decidable a.Shallow :=
  inferInstanceAs (Decidable (∀ rules ∈ a.transitions, ∀ r ∈ rules, _ ≤ _))

theorem Json.itemsDepth_scalars {α : Type} {write : α → Value} (flat : ∀ x, (write x).depth = 0)
    (xs : List α) : itemsDepth (xs.map write) = 0 := by
  induction xs with
  | nil => rfl
  | cons x xs ih => simp [itemsDepth, flat, ih]

/-- The lists of rules inside `n` containers.  They take two containers themselves, and a rule takes
    two more than its guard has connectives on top of each other. -/
theorem AutomatonDoc.add_depth_rulesJson_le_iff (a : Automaton) {n : Nat}
    (room : n + 2 ≤ Json.maxDepth) : n + (rulesJson a).depth ≤ Json.maxDepth ↔
      ∀ rules ∈ a.transitions, ∀ r ∈ rules, r.guard.height + (n + 4) ≤ Json.maxDepth := by
  have outer : n < Json.maxDepth := by omega
  have inner : n + 1 < Json.maxDepth := by omega
  rw [rulesJson, Json.Value.depth, Json.add_itemsDepth_le_iff, and_iff_right outer]
  rw [List.forall_mem_map]
  apply forall₂_congr
  intro rules hrules
  rw [Json.Value.depth, Json.add_itemsDepth_le_iff, and_iff_right inner, List.forall_mem_map]
  apply forall₂_congr
  intro r hr
  rw [RuleDoc.depth_toJson]
  omega

theorem SnapshotDoc.depth_toJson_le_iff (target : Target) (names : List String) {a : Automaton}
    (h : a.Valid) :
    (ofAutomaton target names a).toJson.depth ≤ Json.maxDepth ↔ a.Shallow := by
  have atomics : Json.itemsDepth (names.map Json.Value.string) = 0 :=
    Json.itemsDepth_scalars (fun _ => rfl) names
  have finals : Json.itemsDepth (a.finals.toList.map Json.Value.ofNat) = 0 :=
    Json.itemsDepth_scalars (fun _ => rfl) a.finals.toList
  have limit : 3 ≤ Json.maxDepth := by decide
  have room : 2 + 2 ≤ Json.maxDepth := by decide
  rw [Automaton.Shallow, ← AutomatonDoc.add_depth_rulesJson_le_iff a room, toJson, ofAutomaton,
    Option.map_some, Option.getD_some, AutomatonDoc.toJson_ofAutomaton h]
  simp only [Json.Value.depth, Json.membersDepth, Json.Value.ofNat, atomics, finals]
  omega

/-! ## Decoding documents -/

namespace Snapshot

variable {target : Target} {a : Automaton} {names : List String}

theorem decode_document_of_shallow (h : a.Valid)
    (deterministic : target = .deterministic → a.Deterministic) (shallow : a.Shallow)
    {s : Snapshot} (taken : ofAutomaton target.kind a = .ok s)
    (atoms : a.atomCount ≤ maxWord16) (states : a.stateCount ≤ maxWord16) :
    decode (Text.bytesOfString (SnapshotDoc.ofAutomaton target names a).toJson.pretty) =
      .ok (s, names) := by
  have text := (SnapshotDoc.ofAutomaton target names a).natural_toJson.reads_pretty
  rw [SnapshotDoc.depth_toJson_le_iff target names h] at text
  have fits : maxWord16 ≤ Json.maxNumber := by decide
  have shape := (SnapshotDoc.reads_ofJson target names h).1
    ⟨Nat.le_trans atoms fits, Nat.le_trans states fits⟩
  have built := SnapshotDoc.build_returns target names h deterministic Context.empty
  rw [taken] at built
  rw [decode, isSnapshot_document, if_neg Bool.false_ne_true, Text.charsOfBytes_bytesOfString,
    text.1 shallow]
  simp only [shape]
  rw [show ((SnapshotDoc.ofAutomaton target names a).build.run.run Context.empty).1 = _ from built]
  rfl

end Snapshot

namespace Compiled

variable {c : Compiled} {language : Word → Prop}

theorem Reports.decode_binary (h : c.Reports language) {bytes : List UInt8}
    (written : ({ c with format := .binary } : Compiled).bytes = .ok bytes)
    (short : ∀ s, c.snapshot = .ok s → ∀ rules ∈ s.transitions,
      rules.length < UInt32.size ∧ ∀ r ∈ rules, r.guard.length < UInt32.size) :
    ∃ s, c.snapshot = .ok s ∧ s.WellFormed ∧ Snapshot.decode bytes = .ok (s, []) := by
  obtain ⟨s, taken, encoded⟩ := (bytes_eq_ok_iff_of_binary rfl).mp written
  replace taken : c.snapshot = .ok s := taken
  obtain ⟨atoms, states⟩ := Snapshot.le_of_encode encoded
  have wellFormed := h.wellFormed taken atoms states (short s taken)
  exact ⟨s, taken, wellFormed, wellFormed.decode_encode encoded⟩

/-- A document is refused before it is written, and not only when it is read. -/
theorem Reports.bytes_of_json (h : c.Reports language) :
    ({ c with format := .json } : Compiled).bytes =
      if c.result.Shallow then .ok (Text.bytesOfString c.document.toJson.pretty)
      else .error .tooDeep := by
  have depth : c.document.toJson.depth ≤ Json.maxDepth ↔ c.result.Shallow :=
    SnapshotDoc.depth_toJson_le_iff _ _ h.valid
  split
  · next shallow =>
    exact (bytes_eq_ok_iff_of_json rfl).mpr
      ⟨_, documentText_eq_ok_iff.mpr ⟨depth.mpr shallow, rfl⟩, rfl⟩
  · next deep =>
    show (c.documentText >>= fun text => .ok (Text.bytesOfString text)) = _
    rw [documentText, Json.Value.pretty?, if_neg (depth.not.mpr deep)]
    rfl

theorem Reports.decode_document (h : c.Reports language) {s : Snapshot}
    (taken : c.snapshot = .ok s) (wellFormed : s.WellFormed) (shallow : c.result.Shallow) :
    Snapshot.decode (Text.bytesOfString c.document.toJson.pretty) = .ok (s, c.names) := by
  rw [snapshot_eq] at taken
  obtain ⟨-, represents⟩ := Snapshot.represents_of_ofAutomaton taken
  apply Snapshot.decode_document_of_shallow h.valid h.deterministic_of_target shallow taken
  · rw [← represents.atomCount_eq]
    exact wellFormed.atomCount_le
  · rw [← represents.stateCount_eq]
    exact wellFormed.stateCount_le

end Compiled

theorem Compiled.shallow_negated_iff (format : Format) (n : Nat) :
    (negated format n).result.Shallow ↔ n + 6 ≤ Json.maxDepth := by
  simp [Automaton.Shallow, negated, result, Automaton.widen, Automaton.phi,
    Formula.height_negations, Formula.height]

/-! ## The main results -/

namespace Expression

theorem reports_of_compileText {settings : Settings} {source : List Text.Glyph} {c : Compiled}
    {ctx : Context} (compiled : compileText settings source = .ok (c, ctx)) :
    ∃ language, c.Reports language := by
  obtain ⟨⟨e, names⟩, -, same⟩ := bind_eq_ok compiled
  obtain ⟨c', returned, reports⟩ := compile_returns e.wrap e.lt_of_mem_atoms_wrap settings names
  rw [compile_wrap] at returned
  have first := congrArg Prod.fst (Except.ok.inj same)
  rw [show ((e.compile settings names).run Context.empty).1 = c' from returned _] at first
  exact ⟨_, first ▸ reports⟩

end Expression

end TraceRegex
