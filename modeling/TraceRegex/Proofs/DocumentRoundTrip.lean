import TraceRegex.Proofs.Acceptance
import TraceRegex.Proofs.Formats
import TraceRegex.Proofs.HashConsing
import TraceRegex.Proofs.TableRuns

/-! # Automata through documents

A table that passes its check is written as a document, and what is read from there is the table
again, in any context.  Only guards that nest too deeply stop it from being written.

Guards are read into a context.  Reading adds to the context and changes nothing in it, so a guard
that it holds already is found there and has the handle that it had (`Table.RestoredBy`).
-/

namespace TraceRegex

/-! ## Reading into a context -/

open Context (Extends HoldsGuards)

namespace Build

section

variable {α β ε ε' : Type} {ctx : Context} {p : Context → α → Prop}

theorem Attempts.adapt {m : ExceptT ε Build α} (hm : Attempts ctx m p) (g : ε → ε') :
    Attempts ctx (ExceptT.adapt g m) p :=
  hm.map (Except.mapError g) fun _ _ answer x same => answer x (eq_ok_of_mapError same)

/-- What is known of an answer has to stay true when the context grows, since the later answers come
    from a context that has grown. -/
theorem Attempts.mapM {f : β → ExceptT ε Build α} {xs : List β}
    (stays : ∀ now later x, now.Extends later → p now x → p later x)
    (h : ∀ x ∈ xs, ∀ now, Attempts now (f x) p) :
    Attempts ctx (xs.mapM f) fun now ys => ∀ y ∈ ys, p now y := by
  induction xs generalizing ctx with
  | nil => exact Attempts.pure fun _ _ => nofun
  | cons x xs ih =>
    rw [List.mapM_cons]
    apply (h x List.mem_cons_self ctx).bind
    intro now y later answer
    apply (ih fun z hz => h z (List.mem_cons_of_mem _ hz)).bind
    intro now' ys later' answers
    refine Attempts.pure fun last grows => List.forall_mem_cons.mpr ⟨?_, fun z hz => ?_⟩
    · exact stays _ _ y (later'.trans grows) answer
    · exact stays _ _ z grows (answers z hz)

end

variable {ctx : Context}

theorem attempts_buildRules (q : Nat) (rules : List RuleDoc) :
    Attempts ctx (AutomatonDoc.buildRules q rules) fun now rs => ∀ r ∈ rs, now.Holds r.guard := by
  refine Attempts.mapM (fun _ _ _ grows held => grows.holds held) fun r _ now => ?_
  exact ((attempts_build r.guard).adapt _).bind fun _ _ _ built =>
    Attempts.pure fun _ grows => grows.holds built

theorem attempts_buildAutomaton (doc : AutomatonDoc) : Attempts ctx doc.build HoldsGuards := by
  have lists : Attempts ctx
      (doc.transitions.zipIdx.mapM fun p => AutomatonDoc.buildRules p.2 p.1)
      fun now transitions => ∀ rules ∈ transitions, ∀ r ∈ rules, now.Holds r.guard :=
    Attempts.mapM (fun _ _ _ grows held r hr => grows.holds (held r hr))
      fun p _ now => attempts_buildRules p.2 p.1
  have refused (e : AutomatonDocError) :
      Attempts ctx (throw e : ExceptT AutomatonDocError Build PUnit) fun _ _ => False :=
    Attempts.throw e
  unfold AutomatonDoc.build
  split
  · exact (refused _).bind fun _ _ _ none => none.elim
  · apply lists.bind
    intro now transitions later held
    dsimp only
    split
    · exact Attempts.pure fun _ grows rules hrules r hr => grows.holds (held rules hrules r hr)
    · exact Attempts.throw _

theorem allocates_overlap? {rules : List Rule} (held : ∀ r ∈ rules, ctx.Holds r.guard) :
    Allocates ctx (Automaton.overlap? rules) fun _ _ => True := by
  refine Allocates.search fun p hp now later => Allocates.search fun p' hp' now' later' => ?_
  have first := (later.trans later').holds (held p.1 (List.fst_mem_of_mem_zipIdx hp))
  have second := (later.trans later').holds
    (held p'.1 (List.fst_mem_of_mem_zipIdx (List.mem_of_mem_drop hp')))
  exact (builds_and first second).bind fun _ f _ _ => (answers_sat f).bind fun _ _ _ _ =>
    Allocates.pure fun _ _ => trivial

theorem attempts_validateDeterministic {a : Automaton} (held : ctx.HoldsGuards a) :
    Attempts ctx a.validateDeterministic fun _ _ => True := by
  have defects : Allocates ctx a.deterministicDefect? fun _ _ => True := by
    unfold Automaton.deterministicDefect?
    split
    · exact Allocates.pure fun _ _ => trivial
    · refine Allocates.search fun p hp now later => ?_
      have apart := allocates_overlap? fun r hr =>
        later.holds (held p.1 (List.fst_mem_of_mem_zipIdx hp) r hr)
      exact apart.bind fun _ _ _ _ => Allocates.pure fun _ _ => trivial
  apply (Attempts.lift defects).bind
  intro now found later _
  cases found with
  | some d => exact Attempts.throw d
  | none => exact Attempts.pure fun _ _ => trivial

theorem attempts_buildDeterministic (doc : AutomatonDoc) :
    Attempts ctx doc.buildDeterministic HoldsGuards := by
  apply (attempts_buildAutomaton doc).bind
  intro now a later held
  exact ((attempts_validateDeterministic held).adapt _).bind fun _ _ later' _ =>
    Attempts.pure fun _ grows => (later'.trans grows).holdsGuards held

end Build

/-! ## Documents of automata -/

namespace AutomatonDoc

variable {a : Automaton}

theorem depth_toJson_le_iff (h : a.Valid) : (ofAutomaton a).toJson.depth ≤ Json.maxDepth ↔
    ∀ rules ∈ a.transitions, ∀ r ∈ rules, r.guard.height + 5 ≤ Json.maxDepth := by
  have finals : Json.itemsDepth (a.finals.toList.map Json.Value.ofNat) = 0 :=
    Json.itemsDepth_scalars (fun _ => rfl) a.finals.toList
  have limit : 2 ≤ Json.maxDepth := by decide
  rw [← add_depth_rulesJson_le_iff a (show 1 + 2 ≤ _ by decide), toJson_ofAutomaton h]
  simp only [Json.Value.depth, Json.membersDepth, Json.Value.ofNat, finals]
  omega

theorem ofJson_toJson (h : a.Valid) (atoms : a.atomCount ≤ Json.maxNumber)
    (states : a.stateCount ≤ Json.maxNumber) :
    ofJson (ofAutomaton a).toJson = some (ofAutomaton a) := by
  show (AutomatonDraft.blank.update _).map AutomatonDraft.doc = _
  rw [(AutomatonDraft.reads_update h).1 ⟨atoms, states⟩, Option.map_some,
    AutomatonDraft.doc_ofAutomaton]

end AutomatonDoc

theorem Automaton.ofJsonText_of_parse {text : List Char} {v : Json.Value} {doc : AutomatonDoc}
    (parsed : Json.parse? text = some v) (read : AutomatonDoc.ofJson v = some doc) :
    ofJsonText text = ExceptT.adapt .invalid doc.build := by
  unfold ofJsonText
  rw [parsed, Option.bind_some, read]

theorem Automaton.ofJsonText_of_not_parse {text : List Char} (refused : Json.parse? text = none)
    (ctx : Context) : ((ofJsonText text).run.run ctx).1 = .error .notJson := by
  unfold ofJsonText
  rw [refused]
  rfl

/-! ## Tables and their documents -/

namespace Table

variable {t : Table}

theorem document_eq (ascending : t.finals.toList.Pairwise (· < ·)) :
    t.document = AutomatonDoc.ofAutomaton t.toAutomaton := by
  have finals : (AutomatonDoc.ofAutomaton t.toAutomaton).finals = t.finals.toList :=
    SortedSet.toList_ofList ascending
  rw [document, ← finals]

theorem ofAutomaton_toAutomaton (ascending : t.finals.toList.Pairwise (· < ·)) :
    ofAutomaton t.toAutomaton = t := by
  have finals : t.toAutomaton.finals.items = t.finals :=
    Array.toList_inj.mp (SortedSet.toList_ofList ascending)
  show Table.mk t.atomCount t.stateCount t.initial t.toAutomaton.finals.items
    t.transitions.toList.toArray = t
  rw [finals, Array.toArray_toList]

/-- The guards do not nest too deeply for a document of the table, in which a leaf of a guard stands
    inside one container for each connective and five more. -/
def Shallow (t : Table) : Prop :=
  ∀ rules ∈ t.transitions.toList, ∀ r ∈ rules, r.guard.height + 5 ≤ Json.maxDepth

theorem depth_document_le_iff (valid : t.validate = .ok ())
    (ascending : t.finals.toList.Pairwise (· < ·)) :
    t.document.toJson.depth ≤ Json.maxDepth ↔ t.Shallow := by
  rw [document_eq ascending]
  exact AutomatonDoc.depth_toJson_le_iff (valid_toAutomaton valid)

theorem toJsonText_eq (valid : t.validate = .ok ()) (ascending : t.finals.toList.Pairwise (· < ·)) :
    (t.Shallow → t.toJsonText = .ok t.document.toJson.pretty) ∧
      (¬t.Shallow → t.toJsonText = .error .tooDeep) := by
  have depth := depth_document_le_iff valid ascending
  have full : t.transitions.size = t.stateCount := (valid_toAutomaton valid).length_transitions
  unfold toJsonText
  rw [fitted_eq, if_pos (fits_of_size_eq full), Json.Value.pretty?]
  constructor
  · intro shallow
    simp only [if_pos (depth.mpr shallow)]
  · intro deep
    simp only [if_neg fun small => deep (depth.mp small)]

/-- Run in the context, the reader gives the table back.  If the context has grown from the leaves
    up, then afterwards each guard has a handle that stands for its tree, as long as places have
    numbers of 32 bits; and a guard that the context held before has the handle that it had. -/
structure RestoredBy {ε : Type} (t : Table) (read : ExceptT ε Build Automaton) (ctx : Context) :
    Prop where
  restored : ∃ a, (read.run.run ctx).1 = .ok a ∧ ofAutomaton a = t
  denoted : ctx.Grounded → (∀ k, ((read.run.run ctx).2.ofKind k).length < UInt32.size) →
    ∀ rules ∈ t.transitions.toList, ∀ r ∈ rules,
      (read.run.run ctx).2.Denotes ((read.run.run ctx).2.handle r.guard) r.guard
  kept : ctx.Grounded → ∀ rules ∈ t.transitions.toList, ∀ r ∈ rules, ctx.Holds r.guard →
    (read.run.run ctx).2.handle r.guard = ctx.handle r.guard

theorem restoredBy {ε : Type} {read : ExceptT ε Build Automaton} {ctx : Context}
    (ascending : t.finals.toList.Pairwise (· < ·))
    (returns : Build.Returns read.run (.ok t.toAutomaton))
    (attempts : Build.Attempts ctx read HoldsGuards) : t.RestoredBy read ctx where
  restored := ⟨_, returns ctx, ofAutomaton_toAutomaton ascending⟩
  denoted grounded room rules hrules r hr := by
    obtain ⟨-, -, held⟩ := attempts ctx (Extends.refl ctx) grounded
    exact Context.denotes_handle room (held _ (returns ctx) rules hrules r hr)
  kept grounded rules hrules r hr held := by
    obtain ⟨-, grows, -⟩ := attempts ctx (Extends.refl ctx) grounded
    exact grows.handle_eq held

/-- A table that passes its check is read back from its document. -/
theorem restoredBy_ofJsonText (valid : t.validate = .ok ()) (atoms : t.atomCount ≤ maxWord)
    (states : t.stateCount ≤ maxWord) (ascending : t.finals.toList.Pairwise (· < ·))
    {text : List Char} (parsed : Json.parse? text = some t.document.toJson) (ctx : Context) :
    t.RestoredBy (Automaton.ofJsonText text) ctx := by
  have ha := valid_toAutomaton valid
  rw [document_eq ascending] at parsed
  rw [Automaton.ofJsonText_of_parse parsed (AutomatonDoc.ofJson_toJson ha atoms states)]
  exact restoredBy ascending ((AutomatonDoc.build_returns ha).adapt _)
    ((Build.attempts_buildAutomaton _).adapt _)

/-- Documents are read back as they were written.  Let a table with its final states in ascending
    order pass its check.  If no guard nests too deeply, it is written, and read back from there
    into any context; otherwise it is not written.  And let it have a list of rules for each state
    and pass the check for determinism: then it is built again from its document. -/
theorem documents_round_trip (t : Table) (atoms : t.atomCount ≤ maxWord)
    (states : t.stateCount ≤ maxWord) (ascending : t.finals.toList.Pairwise (· < ·)) :
    (t.validate = .ok () →
      (t.Shallow → ∃ text, t.toJsonText = .ok text ∧
        ∀ ctx, t.RestoredBy (Automaton.ofJsonText text.toList) ctx) ∧
      (¬t.Shallow → t.toJsonText = .error .tooDeep)) ∧
    ∀ ctx, (t.checkDeterministic.run.run ctx).1 = .ok () → t.transitions.size = t.stateCount →
      ∃ fitted, t.fitted = .ok fitted ∧
        ∀ ctx', t.RestoredBy fitted.document.buildDeterministic ctx' := by
  refine ⟨fun valid => ⟨fun shallow => ?_, (toJsonText_eq valid ascending).2⟩, ?_⟩
  · have depth : t.document.toJson.depth ≤ Json.maxDepth :=
      (depth_document_le_iff valid ascending).mpr shallow
    have parsed := t.document.natural_toJson.reads_pretty.1 depth
    exact ⟨_, (toJsonText_eq valid ascending).1 shallow,
      restoredBy_ofJsonText valid atoms states ascending parsed⟩
  · intro ctx passed full
    have deterministic := (checkDeterministic_eq_ok_iff ctx).mp passed
    refine ⟨t, by rw [fitted_eq, if_pos (fits_of_size_eq full), padded_eq full], fun ctx' => ?_⟩
    have ha := deterministic.valid_padded
    have apart := deterministic.deterministic_padded
    rw [padded_eq full] at ha apart
    rw [document_eq ascending]
    exact restoredBy ascending (AutomatonDoc.buildDeterministic_returns ha apart)
      (Build.attempts_buildDeterministic _)

/-- A table with a single rule, whose guard is an atom under negations. -/
def negated (n : Nat) : Table := ⟨1, 1, 0, #[0], #[[⟨Nat.repeat Formula.not n (.var 0), 0⟩]]⟩

theorem validate_negated (n : Nat) : (negated n).validate = .ok () := by
  have none : (negated n).defect? = none := by
    apply Automaton.defectOf?_eq_none_iff.mpr
    simp [negated, Formula.varCount_negations, Formula.varCount]
  rw [validate, none]

theorem shallow_negated_iff (n : Nat) : (negated n).Shallow ↔ n + 5 ≤ Json.maxDepth := by
  simp [Shallow, negated, Formula.height_negations, Formula.height]

/-- With 9995 negations the document is as deep as can be written, and it is read back.  The other
    table is deterministic. -/
theorem documents_round_trip_of_negations :
    let d : Table := ⟨2, 2, 0, #[0, 1], #[[⟨.var 0, 1⟩, ⟨.and (.not (.var 0)) (.var 1), 0⟩], []]⟩
    (negated 9995).validate = .ok () ∧ (negated 9995).Shallow ∧
      (∃ text, (negated 9995).toJsonText = .ok text ∧
        (negated 9995).RestoredBy (Automaton.ofJsonText text.toList) .empty) ∧
      (d.checkDeterministic.run.run .empty).1 = .ok () ∧ d.transitions.size = d.stateCount ∧
      ∃ fitted, d.fitted = .ok fitted ∧ d.RestoredBy fitted.document.buildDeterministic .empty := by
  intro d
  have valid := validate_negated 9995
  have shallow : (negated 9995).Shallow := (shallow_negated_iff 9995).mpr (by decide)
  have passes : (d.checkDeterministic.run.run .empty).1 = .ok () := by
    refine (checkDeterministic_eq_ok_iff .empty).mpr
      ⟨by decide, by decide, by decide, by decide, ?_⟩
    simp +contextual [d, Formula.eval]
  obtain ⟨text, written, read⟩ :=
    ((documents_round_trip (negated 9995) (show 1 ≤ maxWord by decide) (show 1 ≤ maxWord by decide)
      (List.pairwise_singleton _ _)).1 valid).1 shallow
  obtain ⟨fitted, full, built⟩ :=
    (documents_round_trip d (by decide) (by decide) (by decide)).2 .empty passes rfl
  exact ⟨valid, shallow, ⟨text, written, read .empty⟩, passes, rfl, fitted, full, built .empty⟩

/-- With one negation more, the document is not written, and on one line it is not read.  And a
    table that passes the check for determinism without a list of rules for its only state comes
    back with a list. -/
theorem documents_not_restored :
    ((negated 9996).validate = .ok () ∧ (negated 9996).finals.toList.Pairwise (· < ·) ∧
      (negated 9996).toJsonText = .error .tooDeep ∧
      ∀ ctx, ((Automaton.ofJsonText (negated 9996).document.toJson.compact.toList).run.run ctx).1 =
        .error .notJson) ∧
    let d : Table := ⟨0, 1, 0, #[0], #[]⟩
    (d.checkDeterministic.run.run .empty).1 = .ok () ∧ d.finals.toList.Pairwise (· < ·) ∧
      ∃ fitted a, d.fitted = .ok fitted ∧
        (∀ ctx, (fitted.document.buildDeterministic.run.run ctx).1 = .ok a) ∧
        ofAutomaton a ≠ d := by
  have valid := validate_negated 9996
  have ascending : (negated 9996).finals.toList.Pairwise (· < ·) := List.pairwise_singleton _ _
  have deep : ¬(negated 9996).Shallow := by
    rw [shallow_negated_iff]
    decide
  have nests : ¬(negated 9996).document.toJson.depth ≤ Json.maxDepth :=
    fun small => deep ((depth_document_le_iff valid ascending).mp small)
  have refused := (negated 9996).document.natural_toJson.reads_compact.2 nests
  refine ⟨⟨valid, ascending, (toJsonText_eq valid ascending).2 deep,
    Automaton.ofJsonText_of_not_parse refused⟩, ?_⟩
  intro d
  have passes : (d.checkDeterministic.run.run .empty).1 = .ok () := rfl
  have deterministic := (checkDeterministic_eq_ok_iff .empty).mp passes
  have single : d.padded.finals.toList.Pairwise (· < ·) := List.pairwise_singleton _ _
  refine ⟨passes, single, d.padded, d.padded.toAutomaton, rfl, ?_, ?_⟩
  · rw [document_eq single]
    exact AutomatonDoc.buildDeterministic_returns deterministic.valid_padded
      deterministic.deterministic_padded
  · rw [ofAutomaton_toAutomaton single]
    decide

end Table

end TraceRegex
