import TraceRegex.Proofs.Acceptance
import TraceRegex.Proofs.Formats

/-! # Numbers of atoms in documents

A document may number an atom with up to 64 bits, and the formula that is built from it has 32 of
them.  A formula that was read is therefore the one that the document describes with the numbers of
its atoms taken modulo `2 ^ 32`, and the document itself if its numbers fit.  The bounds of a
snapshot are checked after that.
-/

namespace TraceRegex

open Build (Succeeds not_succeeds_throw)

/-! ## Documents as trees -/

namespace FormulaDoc

/-- The document with only the parts that its kind asks for. -/
def plain : FormulaDoc → FormulaDoc
  | .missing => .missing
  | .node kind value index arg lhs rhs =>
    if kind = "const" then .node kind value none .missing .missing .missing
    else if kind = "var" then .node kind none index .missing .missing .missing
    else if kind = "not" then .node kind none none arg.plain .missing .missing
    else if kind = "and" ∨ kind = "or" then .node kind none none .missing lhs.plain rhs.plain
    else .node kind none none .missing .missing .missing

/-- The numbers of atoms in the document. -/
def indices : FormulaDoc → List Nat
  | .missing => []
  | .node _ _ index arg lhs rhs => index.toList ++ arg.indices ++ lhs.indices ++ rhs.indices

/-- The document with other numbers for its atoms. -/
def mapIndices (g : Nat → Nat) : FormulaDoc → FormulaDoc
  | .missing => .missing
  | .node kind value index arg lhs rhs =>
    .node kind value (index.map g) (arg.mapIndices g) (lhs.mapIndices g) (rhs.mapIndices g)

/-- How many nodes are on the longest way into the document. -/
def height : FormulaDoc → Nat
  | .missing => 0
  | .node _ _ _ arg lhs rhs => max arg.height (max lhs.height rhs.height) + 1

theorem mapIndices_eq_self_iff {g : Nat → Nat} {doc : FormulaDoc} :
    doc.mapIndices g = doc ↔ ∀ i ∈ doc.indices, g i = i := by
  induction doc with
  | missing => exact iff_of_true rfl nofun
  | node kind value index arg lhs rhs iha ihl ihr =>
    have here : index.map g = index ↔ ∀ i ∈ index.toList, g i = i := by
      cases index <;> simp
    simp only [mapIndices, indices, node.injEq, true_and, List.forall_mem_append, here, iha, ihl,
      ihr, and_assoc]

theorem indices_mapIndices (g : Nat → Nat) (doc : FormulaDoc) :
    (doc.mapIndices g).indices = doc.indices.map g := by
  induction doc with
  | missing => rfl
  | node kind value index arg lhs rhs iha ihl ihr =>
    have here : (index.map g).toList = index.toList.map g := by
      cases index <;> rfl
    simp only [mapIndices, indices, List.map_append, here, iha, ihl, ihr]

theorem height_mapIndices (g : Nat → Nat) (doc : FormulaDoc) :
    (doc.mapIndices g).height = doc.height := by
  induction doc with
  | missing => rfl
  | node kind value index arg lhs rhs iha ihl ihr =>
    simp only [mapIndices, height, iha, ihl, ihr]

theorem height_plain_le (doc : FormulaDoc) : doc.plain.height ≤ doc.height := by
  fun_induction plain doc with
  | case1 => exact Nat.le_refl _
  | case2 | case3 | case6 =>
    -- no operand is left
    exact Nat.succ_le_succ (Nat.zero_le _)
  | case4 | case5 =>
    simp only [height]
    omega

theorem height_ofFormula (f : Formula) : (ofFormula f).height = f.height + 1 := by
  induction f with
  | const b => rfl
  | var i => rfl
  | not f ih => simp [ofFormula, height, Formula.height, ih]
  | and f g ihf ihg => simp [ofFormula, height, Formula.height, ihf, ihg]
  | or f g ihf ihg => simp [ofFormula, height, Formula.height, ihf, ihg]

theorem lt_varCount_of_mem_indices {f : Formula} {i : Nat} (h : i ∈ (ofFormula f).indices) :
    i < f.varCount := by
  induction f with
  | const b => cases h
  | var j =>
    cases List.mem_singleton.mp h
    exact Nat.lt_succ_self _
  | not f ih =>
    simp only [ofFormula, indices, Option.toList_none, List.nil_append, List.append_nil] at h
    exact ih h
  | and f g ihf ihg =>
    simp only [ofFormula, indices, Option.toList_none, List.nil_append, List.mem_append] at h
    have bound := h.imp ihf ihg
    rw [Formula.varCount]
    omega
  | or f g ihf ihg =>
    simp only [ofFormula, indices, Option.toList_none, List.nil_append, List.mem_append] at h
    have bound := h.imp ihf ihg
    rw [Formula.varCount]
    omega

/-! ## Building -/

/-- A formula that was built is the document, with each number in the bits that a formula has for
    it. -/
theorem ofFormula_of_build {doc : FormulaDoc} {f : Formula} (h : Succeeds doc.build f) :
    ofFormula f = doc.plain.mapIndices (· % UInt32.size) := by
  fun_induction build doc generalizing f with
  | case1 => exact absurd h not_succeeds_throw
  | case2 index arg lhs rhs b =>
    cases h.of_pure
    rfl
  | case3 => exact absurd h not_succeeds_throw
  | case4 value arg lhs rhs i =>
    cases h.of_pure
    rfl
  | case5 => exact absurd h not_succeeds_throw
  | case6 value index arg lhs rhs _ _ ih =>
    obtain ⟨g, built, h⟩ := h.of_bind
    cases h.eq_of_returns (Build.not_returns g).lift
    simp [ofFormula, plain, mapIndices, ih built]
  | case7 value index arg lhs rhs _ _ _ ihl ihr =>
    obtain ⟨g, left, h⟩ := h.of_bind
    obtain ⟨g', right, h⟩ := h.of_bind
    cases h.eq_of_returns (Build.and_returns g g').lift
    simp [ofFormula, plain, mapIndices, ihl left, ihr right]
  | case8 value index arg lhs rhs _ _ _ _ ihl ihr =>
    obtain ⟨g, left, h⟩ := h.of_bind
    obtain ⟨g', right, h⟩ := h.of_bind
    cases h.eq_of_returns (Build.or_returns g g').lift
    simp [ofFormula, plain, mapIndices, ihl left, ihr right]
  | case9 => exact absurd h not_succeeds_throw

/-- The formula is the document itself exactly if no number in it is too wide. -/
theorem ofFormula_eq_plain_iff {doc : FormulaDoc} {f : Formula} (h : Succeeds doc.build f) :
    ofFormula f = doc.plain ↔ ∀ i ∈ doc.plain.indices, i < UInt32.size := by
  rw [ofFormula_of_build h, mapIndices_eq_self_iff]
  exact forall₂_congr fun i _ => Nat.mod_eq_iff_lt (by decide)

theorem mod_lt_varCount_of_build {doc : FormulaDoc} {f : Formula} (h : Succeeds doc.build f)
    {i : Nat} (named : i ∈ doc.plain.indices) : i % UInt32.size < f.varCount := by
  apply lt_varCount_of_mem_indices
  rw [ofFormula_of_build h, indices_mapIndices]
  exact List.mem_map_of_mem named

/-! ## Decoding -/

theorem go_cons_node (key : String) (v : Json.Value) (rest : List (String × Json.Value))
    (kind : String) (value : Option Bool) (index : Option Nat) (arg lhs rhs : FormulaDoc) :
    update.go ((key, v) :: rest) (.node kind value index arg lhs rhs) =
      if Json.isKey "kind" key then do
        update.go rest (.node (← Json.updateString kind v) value index arg lhs rhs)
      else if Json.isKey "value" key then do
        update.go rest (.node kind (← Json.optionalBool v) index arg lhs rhs)
      else if Json.isKey "variable" key then do
        update.go rest (.node kind value (← Json.optionalNat v) arg lhs rhs)
      else if Json.isKey "arg" key then do
        update.go rest (.node kind value index (← arg.update v) lhs rhs)
      else if Json.isKey "arg0" key then do
        update.go rest (.node kind value index arg (← lhs.update v) rhs)
      else if Json.isKey "arg1" key then do
        update.go rest (.node kind value index arg lhs (← rhs.update v))
      else update.go rest (.node kind value index arg lhs rhs) := rfl

/-- One member makes a document no higher than it was and than the member makes an operand. -/
theorem height_le_of_member {n : Nat} {v : Json.Value}
    (ih : ∀ {old doc : FormulaDoc}, update old v = some doc → doc.height ≤ max old.height n)
    {key : String} {rest : List (String × Json.Value)} {kind : String} {value : Option Bool}
    {index : Option Nat} {arg lhs rhs doc : FormulaDoc}
    (h : update.go ((key, v) :: rest) (.node kind value index arg lhs rhs) = some doc) :
    ∃ mid, update.go rest mid = some doc ∧
      mid.height ≤ max (node kind value index arg lhs rhs).height (n + 1) := by
  rw [go_cons_node] at h
  -- the first three keys and unknown ones leave the operands as they are
  split at h
  next =>
    obtain ⟨kind', -, h⟩ := Option.bind_eq_some_iff.mp h
    exact ⟨_, h, Nat.le_max_left _ _⟩
  split at h
  next =>
    obtain ⟨value', -, h⟩ := Option.bind_eq_some_iff.mp h
    exact ⟨_, h, Nat.le_max_left _ _⟩
  split at h
  next =>
    obtain ⟨index', -, h⟩ := Option.bind_eq_some_iff.mp h
    exact ⟨_, h, Nat.le_max_left _ _⟩
  split at h
  next =>
    obtain ⟨arg', read, h⟩ := Option.bind_eq_some_iff.mp h
    have bound := ih read
    refine ⟨_, h, ?_⟩
    simp only [height]
    omega
  split at h
  next =>
    obtain ⟨lhs', read, h⟩ := Option.bind_eq_some_iff.mp h
    have bound := ih read
    refine ⟨_, h, ?_⟩
    simp only [height]
    omega
  split at h
  next =>
    obtain ⟨rhs', read, h⟩ := Option.bind_eq_some_iff.mp h
    have bound := ih read
    refine ⟨_, h, ?_⟩
    simp only [height]
    omega
  next => exact ⟨_, h, Nat.le_max_left _ _⟩

theorem height_le_of_members {n : Nat} {members : List (String × Json.Value)}
    (ih : ∀ m ∈ members, ∀ {old doc : FormulaDoc},
      update old m.2 = some doc → doc.height ≤ max old.height n)
    {old doc : FormulaDoc} (h : update.go members old = some doc) :
    doc.height ≤ max old.height (n + 1) := by
  induction members generalizing old with
  | nil =>
    cases old with
    | missing =>
      cases h
      exact Nat.succ_le_succ (Nat.zero_le n)
    | node =>
      cases h
      exact Nat.le_max_left _ _
  | cons m members later =>
    rw [List.forall_mem_cons] at ih
    cases old with
    | missing =>
      -- the first member starts from the blank document, which the braces alone would give
      obtain ⟨mid, rest, bound⟩ : ∃ mid, update.go members mid = some doc ∧
          mid.height ≤ max blank.height (n + 1) := height_le_of_member ih.1 h
      have bound' := later ih.2 rest
      have blank : blank.height = 1 := rfl
      omega
    | node =>
      obtain ⟨mid, rest, bound⟩ := height_le_of_member ih.1 h
      have bound' := later ih.2 rest
      omega

/-- A document that is decoded part by part is no higher than what it was and what it is given. -/
theorem height_le_of_update {n : Nat} {v : Json.Value} (shallow : v.depth ≤ n)
    {old doc : FormulaDoc} (h : update old v = some doc) : doc.height ≤ max old.height n := by
  induction n generalizing v old doc with
  | zero =>
    match v, shallow, h with
    | .null, _, h =>
      cases h
      exact Nat.zero_le _
  | succ n ih =>
    match v, shallow, h with
    | .null, _, h =>
      cases h
      exact Nat.zero_le _
    | .object members, shallow, h =>
      refine height_le_of_members (fun m hm => ih ?_) h
      have inside : 0 + (Json.membersDepth members + 1) ≤ n + 1 := by rwa [Nat.zero_add]
      have bound := (Json.add_membersDepth_le_iff.mp inside).2 m hm
      omega

theorem height_le_of_ofJson {v : Json.Value} {doc : FormulaDoc} (h : ofJson v = some doc) :
    doc.height ≤ max 1 v.depth := by
  unfold ofJson at h
  split at h
  next =>
    cases h
    exact Nat.le_max_left _ _
  next =>
    have bound : doc.height ≤ max 0 v.depth := height_le_of_update (Nat.le_refl _) h
    omega

theorem ofJson_toJson (f : Formula) : ofJson (toJson (ofFormula f)) = some (ofFormula f) := by
  rw [← update_toJson f]
  cases f <;> rfl

end FormulaDoc

open FormulaDoc (ofFormula)

namespace Formula

variable {text : List Char} {doc : FormulaDoc} {f : Formula}

theorem ofJsonText_eq (h : (Json.parse? text).bind FormulaDoc.ofJson = some doc) :
    ofJsonText text = ExceptT.adapt .invalid doc.build := by
  unfold ofJsonText
  rw [h]

theorem of_ofJsonText (h : Succeeds (ofJsonText text) f) :
    ∃ v doc, Json.parse? text = some v ∧ FormulaDoc.ofJson v = some doc ∧ Succeeds doc.build f := by
  cases read : (Json.parse? text).bind FormulaDoc.ofJson with
  | none =>
    unfold ofJsonText at h
    rw [read] at h
    exact absurd h not_succeeds_throw
  | some doc =>
    rw [ofJsonText_eq read] at h
    obtain ⟨v, parsed, given⟩ := Option.bind_eq_some_iff.mp read
    exact ⟨v, doc, parsed, given, h.of_adapt⟩

/-- What was read does not nest too deeply to be read again. -/
theorem height_lt_of_ofJsonText (h : Succeeds (ofJsonText text) f) : f.height < Json.maxDepth := by
  obtain ⟨v, doc, parsed, given, built⟩ := of_ofJsonText h
  calc f.height + 1
    _ = (ofFormula f).height := (FormulaDoc.height_ofFormula f).symm
    _ = doc.plain.height := by
      rw [FormulaDoc.ofFormula_of_build built, FormulaDoc.height_mapIndices]
    _ ≤ doc.height := doc.height_plain_le
    _ ≤ max 1 v.depth := FormulaDoc.height_le_of_ofJson given
    _ ≤ Json.maxDepth := Nat.max_le.mpr ⟨by decide, Json.depth_le_of_parse? parsed⟩

theorem reads_toJsonText (shallow : f.height < Json.maxDepth) :
    (Json.parse? f.toJsonText.toList).bind FormulaDoc.ofJson = some (ofFormula f) := by
  have text := (ofFormula f).natural_toJson.reads_compact
  rw [FormulaDoc.depth_toJson] at text
  rw [toJsonText, text.1 shallow, Option.bind_some, FormulaDoc.ofJson_toJson]

theorem ofJsonText_toJsonText_returns (shallow : f.height < Json.maxDepth) :
    Build.Returns (ofJsonText f.toJsonText.toList).run (.ok f) := by
  rw [ofJsonText_eq (reads_toJsonText shallow)]
  exact (FormulaDoc.build_returns f).adapt _

end Formula

/-! ## Snapshots -/

namespace Snapshot

theorem mod_lt_of_decode {bytes : List UInt8} {v : Json.Value} {doc : SnapshotDoc}
    {given : AutomatonDoc} (json : isSnapshot bytes = false)
    (parsed : Json.parse? (Text.charsOfBytes bytes) = some v)
    (shaped : SnapshotDoc.ofJson v = some doc) (described : doc.automaton = some given)
    {result : Snapshot × List String} (decoded : decode bytes = .ok result) :
    ∀ rules ∈ given.transitions, ∀ r ∈ rules, ∀ i ∈ r.guard.plain.indices,
      i % UInt32.size < given.atomCount := by
  intro rules hrules r hr i named
  rcases of_decode decoded with ⟨binary, -⟩ | ⟨-, v', doc', parsed', shaped', built⟩
  · exact Bool.noConfusion (binary.symm.trans json)
  · cases parsed.symm.trans parsed'
    cases shaped.symm.trans shaped'
    obtain ⟨given', kind, a, described', built, -⟩ := SnapshotDoc.of_build built
    cases described.symm.trans described'
    obtain ⟨valid, atoms, -, guards⟩ := AutomatonDoc.of_build built
    obtain ⟨rules', hrules', r', hr', built⟩ := guards rules hrules r hr
    calc i % UInt32.size
      _ < r'.guard.varCount := FormulaDoc.mod_lt_varCount_of_build built named
      _ ≤ a.atomCount := valid.varCount_le rules' hrules' r' hr'
      _ = given.atomCount := atoms

end Snapshot

/-! ## Documents with one guard -/

namespace FormulaDoc

theorem read_atom (i : Nat) (fits : i ≤ Json.maxNumber) :
    (Json.parse? (atom i).toJson.compact.toList).bind ofJson = some (atom i) := by
  have text := (atom i).natural_toJson.reads_compact
  have depth : (atom i).toJson.depth = 1 := rfl
  rw [text.1 (depth ▸ by decide), Option.bind_some]
  exact update_atom i fits

theorem succeeds_atom (i : Nat) (fits : i ≤ Json.maxNumber) :
    Succeeds (Formula.ofJsonText (atom i).toJson.compact.toList) (.atom i) := by
  rw [Formula.ofJsonText_eq (read_atom i fits)]
  exact ⟨Context.empty, rfl⟩

end FormulaDoc

namespace SnapshotDoc

/-- A snapshot with one atom and a guard that names an atom by the given number. -/
def naming (i : Nat) : SnapshotDoc :=
  ⟨"nfasl", ["a"], some ⟨1, 1, 0, [], [[⟨FormulaDoc.atom i, 0⟩]]⟩⟩

theorem ofJson_naming (i : Nat) (fits : i ≤ Json.maxNumber) :
    ofJson (naming i).toJson = some (naming i) := by
  have number (old : Nat) {n : Nat} (small : n ≤ 1) : Json.updateNat old (.ofNat n) = some n :=
    (Json.reads_updateNat old n).1 (Nat.le_trans small (by decide))
  simp +decide [naming, toJson, AutomatonDoc.toJson, RuleDoc.toJson, ofJson,
    SnapshotDraft.updateMember, AutomatonDraft.update, AutomatonDraft.updateMember, number,
    Json.Slots.update, Json.updateItems, RuleDoc.update, RuleDoc.updateMember,
    FormulaDoc.update_atom i fits, RuleDoc.blank, Json.Slots.empty, Json.updateString,
    SnapshotDraft.blank, AutomatonDraft.blank, SnapshotDraft.doc, AutomatonDraft.doc]

theorem parse?_naming (i : Nat) :
    Json.parse? (Text.charsOfBytes (Text.bytesOfString (naming i).toJson.pretty)) =
      some (naming i).toJson := by
  have depth : (naming i).toJson.depth = 6 := rfl
  rw [Text.charsOfBytes_bytesOfString]
  exact (naming i).natural_toJson.reads_pretty.1 (depth ▸ by decide)

end SnapshotDoc

/-! ## The main result -/

namespace FormulaDoc

open SnapshotDoc (naming)

/-- A formula that is read is the document with the numbers of its atoms modulo `2 ^ 32`, which is
    the document itself exactly if they fit, and it is read again from what is written for it.  A
    snapshot document is refused if a guard names an atom whose number is not below the count of
    atoms after that. -/
theorem indices_narrowed (text : List Char) (bytes : List UInt8) :
    (∀ f, Succeeds (Formula.ofJsonText text) f →
      ∃ doc, (Json.parse? text).bind ofJson = some doc ∧
        ofFormula f = doc.plain.mapIndices (· % UInt32.size) ∧
        (ofFormula f = doc.plain ↔ ∀ i ∈ doc.plain.indices, i < UInt32.size) ∧
        (Json.parse? f.toJsonText.toList).bind ofJson = some (ofFormula f) ∧
        Build.Returns (Formula.ofJsonText f.toJsonText.toList).run (.ok f)) ∧
    ∀ v doc given, Snapshot.isSnapshot bytes = false →
      Json.parse? (Text.charsOfBytes bytes) = some v → SnapshotDoc.ofJson v = some doc →
      doc.automaton = some given →
      (∃ rules ∈ given.transitions, ∃ r ∈ rules, ∃ i ∈ r.guard.plain.indices,
        given.atomCount ≤ i % UInt32.size) →
      ∃ e, Snapshot.decode bytes = .error e ∧
        ((∃ detail, e.message = malformed detail) ∨ (∃ kind, e = .unsupportedKind kind) ∨
          ∃ cause, e = .tooLarge cause) := by
  constructor
  · intro f read
    have shallow := Formula.height_lt_of_ofJsonText read
    obtain ⟨v, doc, parsed, given, built⟩ := Formula.of_ofJsonText read
    exact ⟨doc, by rw [parsed, Option.bind_some, given], ofFormula_of_build built,
      ofFormula_eq_plain_iff built, Formula.reads_toJsonText shallow,
      Formula.ofJsonText_toJsonText_returns shallow⟩
  · intro v doc given json parsed shaped described wide
    obtain ⟨rules, hrules, r, hr, i, named, outside⟩ := wide
    cases decoded : Snapshot.decode bytes with
    | ok result =>
      have inside := Snapshot.mod_lt_of_decode json parsed shaped described decoded
      exact absurd (inside rules hrules r hr i named) (Nat.not_lt.mpr outside)
    | error e => exact ⟨e, rfl, Snapshot.of_decode_error json decoded⟩

/-- Of `2 ^ 32 + 7` the formula keeps 7, and a snapshot with one atom that names `2 ^ 32 + 1` is
    refused. -/
theorem indices_narrowed_of_wide :
    (∃ doc, (Json.parse? (atom 4294967303).toJson.compact.toList).bind ofJson = some doc ∧
      ofFormula (.var 7) = doc.plain.mapIndices (· % UInt32.size) ∧
      (ofFormula (.var 7) = doc.plain ↔ ∀ i ∈ doc.plain.indices, i < UInt32.size) ∧
      (Json.parse? (Formula.var 7).toJsonText.toList).bind ofJson = some (ofFormula (.var 7)) ∧
      Build.Returns (Formula.ofJsonText (Formula.var 7).toJsonText.toList).run (.ok (.var 7))) ∧
    ∃ e, Snapshot.decode (Text.bytesOfString (naming 4294967297).toJson.pretty) = .error e ∧
      ((∃ detail, e.message = malformed detail) ∨ (∃ kind, e = .unsupportedKind kind) ∨
        ∃ cause, e = .tooLarge cause) := by
  obtain ⟨formulas, snapshots⟩ := indices_narrowed (atom 4294967303).toJson.compact.toList
    (Text.bytesOfString (naming 4294967297).toJson.pretty)
  refine ⟨formulas _ (succeeds_atom 4294967303 (by decide)), ?_⟩
  exact snapshots _ _ _ (Snapshot.isSnapshot_document _) (SnapshotDoc.parse?_naming _)
    (SnapshotDoc.ofJson_naming _ (by decide)) rfl
    ⟨_, List.mem_cons_self, _, List.mem_cons_self, 4294967297, List.mem_cons_self, by decide⟩

/-- The number `2 ^ 32` is taken for 0: the formula that is read names another atom than the
    document, and a snapshot with one atom is accepted although its guard names a higher one. -/
theorem decode_accepts_wide_index :
    Succeeds (Formula.ofJsonText (atom 4294967296).toJson.compact.toList) (.var 0) ∧
      ofFormula (.var 0) ≠ atom 4294967296 ∧
      Json.parse? (Text.charsOfBytes (Text.bytesOfString (naming 4294967296).toJson.pretty)) =
        some (naming 4294967296).toJson ∧
      SnapshotDoc.ofJson (naming 4294967296).toJson = some (naming 4294967296) ∧
      Snapshot.decode (Text.bytesOfString (naming 4294967296).toJson.pretty) =
        .ok (⟨.nondeterministic, 1, 1, [0], [], [[⟨[2, 0, 0], 0⟩]]⟩, ["a"]) := by
  have parsed := SnapshotDoc.parse?_naming 4294967296
  have shaped := SnapshotDoc.ofJson_naming 4294967296 (by decide)
  -- the guard is built as if the document had named atom 0
  have same : (naming 4294967296).build =
      (SnapshotDoc.ofAutomaton .nondeterministic ["a"]
        ⟨1, 1, 0, .empty, [[⟨.var 0, 0⟩]]⟩).build := rfl
  have valid : Automaton.Valid ⟨1, 1, 0, .empty, [[⟨.var 0, 0⟩]]⟩ :=
    Automaton.validate_iff.mp rfl
  have built := SnapshotDoc.build_returns .nondeterministic ["a"] valid nofun Context.empty
  rw [← same] at built
  refine ⟨succeeds_atom 4294967296 (by decide), by decide, parsed, shaped, ?_⟩
  rw [Snapshot.decode, Snapshot.isSnapshot_document, if_neg Bool.false_ne_true, parsed]
  simp only [shaped]
  rw [show ((naming 4294967296).build.run.run Context.empty).1 = _ from built]
  rfl

end FormulaDoc

end TraceRegex
