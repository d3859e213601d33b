import TraceRegex.Formula.Printer
import TraceRegex.Proofs.HashConsing
import TraceRegex.Proofs.Printing

/-! # The text of a formula shows its tree

A formula is printed with as few brackets as its tree allows: an operand is bracketed only if it
binds weaker than the connective around it, or as strongly and stands on the right.  Read as an
expression, the text is one condition.  A chain of equal connectives is one derivation with many
links, so the proof adds a link at the end of a chain for each connective whose left operand goes on
without brackets.

The atoms are numbered anew by their names.  With the old numbers put back, the condition is
translated to the formula that was printed, and to the same handle in the context that holds it.
-/

namespace TraceRegex

open Token Token.Piece Grammar

/-! ## Pieces -/

/-- Pieces in brackets, if these are needed. -/
def Token.Piece.bracketsIf (needed : Bool) (ps : List Piece) : List Piece :=
  if needed then inBrackets ps else ps

namespace Formula

/-- The pieces of a formula that is printed in a context of the given strength. -/
def piecesAt (outer : Nat) : Formula → List Piece
  | .const b => [word (if b then "true" else "false")]
  | .var i => [word (Condition.atomText i.toNat)]
  | .not f => mark "!" :: f.piecesAt strengthNot
  | .and f g => bracketsIf (strengthAnd < outer)
      (f.piecesAt strengthAnd ++ mark "&&" :: g.piecesAt (strengthAnd + 1))
  | .or f g => bracketsIf (strengthOr < outer)
      (f.piecesAt strengthOr ++ mark "||" :: g.piecesAt (strengthOr + 1))

end Formula

section

variable {text text' : String} {ps qs : List Piece}

theorem scansText_bracketIf (needed : Bool) (h : ScansText text ps) :
    ScansText (Formula.bracketIf needed text) (bracketsIf needed ps) := by
  cases needed with
  | true => exact (scans_brackets h).mono Pending.Idle.tidy Pending.Idle.tidy
  | false => exact h

/-- A connective between two operands, which need no brackets around them. -/
theorem scansText_connective {c : Char} (mem : c ∈ ['|', '&']) (lhs : ScansText text ps)
    (rhs : ScansText text' qs) :
    ScansText (text ++ (" " ++ String.ofList [c, c] ++ " ") ++ text')
      (ps ++ mark (String.ofList [c, c]) :: qs) := by
  have spaced := (scans_blank.append (scans_connective mem)).append
    (scans_blank.mono Pending.Idle.tidy id)
  simpa [ScansText, mark] using (lhs.append spaced).append rhs

end

theorem Formula.scansText_renderAt (f : Formula) (outer : Nat) :
    ScansText (f.renderAt [] outer) (f.piecesAt outer) := by
  induction f generalizing outer with
  | const b =>
    cases b with
    | true => exact Condition.true.scansText_render
    | false => exact Condition.false.scansText_render
  | var i => exact scansText_atomText i.toNat
  | not f ih =>
    have sign := scans_symbol (c := '!') (by decide)
    have whole := (sign.append (ih strengthNot)).mono Pending.Idle.tidy id
    simpa [ScansText, renderAt, piecesAt, mark] using whole
  | and f g ihf ihg =>
    exact scansText_bracketIf _ (scansText_connective (c := '&') (by decide) (ihf _) (ihg _))
  | or f g ihf ihg =>
    exact scansText_bracketIf _ (scansText_connective (c := '|') (by decide) (ihf _) (ihg _))

/-! ## Chains -/

namespace Grammar

variable {tokens : Array Token} {p : Pattern} {i j k : Nat} {ts us : List Tree}

/-- A repetition goes on behind its end. -/
theorem Derivation.star_snoc (h : Derivation tokens (.star p) i k ts)
    (last : Derivation tokens p k j us) : Derivation tokens (.star p) i j (ts ++ us) := by
  refine h.star_induction (motive := fun i ts => Derivation tokens (.star p) i j (ts ++ us)) ?_ ?_
  · have once := Derivation.again last .stop
    rwa [List.append_nil] at once
  · intro i m vs ws first _ ih
    rw [List.append_assoc]
    exact .again first ih

theorem conditions_leaf (op : String) (k : Nat) (ts : List Tree) :
    Tree.conditions tokens op (.leaf k :: ts) = Tree.conditions tokens op ts := by
  simp [Tree.conditions, Tree.isNode]

theorem conditions_append (op : String) (ts us : List Tree) :
    Tree.conditions tokens op (ts ++ us) = do
      let cs ← Tree.conditions tokens op ts
      return cs ++ (← Tree.conditions tokens op us) := by
  induction ts with
  | nil => simp [Tree.conditions]
  | cons t ts ih =>
    by_cases node : t.isNode = true
    · simp [Tree.conditions, node, ih]
    · simp [Tree.conditions, node, ih]

/-- The chain derives the tokens from `i` up to `j`.  Its links are read as conditions, and joined
    from the left they are what the action gives. -/
def Links (tokens : Array Token) (s : NonTerminal) (op : String)
    (join : Condition → Condition → Condition) (i j : Nat) (action : Reading Condition) : Prop :=
  ∃ (ts : List Tree) (links : Reading (Condition × List Condition)), ts ≠ [] ∧
    Derivation tokens (body s) i j ts ∧
    (Tree.node s i j ts).toExpression tokens = (do return .condition (← action)) ∧
    Tree.conditions tokens op ts = (do let (c, cs) ← links; return c :: cs) ∧
    action = do let (c, cs) ← links; return cs.foldl join c

section

variable {s operand : NonTerminal} {op : String} {join : Condition → Condition → Condition}
  {action action' : Reading Condition}

theorem Links.yields (h : Links tokens s op join i j action) :
    Yields tokens s i j (do return .condition (← action)) := by
  obtain ⟨ts, -, -, derivation, read, -⟩ := h
  exact ⟨ts, derivation, read⟩

theorem conditions_singleton (op : String) {first next : Nat}
    (read : (Tree.node operand first next ts).toExpression tokens =
      (do return .condition (← action))) :
    Tree.conditions tokens op [.node operand first next ts] = (do return [← action]) := by
  simp [Tree.conditions, Tree.isNode, read, Reading.asCondition]

/-- A chain with one link. -/
theorem Yields.links (shape : body s = chain operand op)
    (h : Yields tokens operand i j (do return .condition (← action))) :
    Links tokens s op join i j action := by
  obtain ⟨ts, derivation, read⟩ := h
  refine ⟨[.node operand i j ts], do return (← action, []), by simp, ?_, ?_, ?_, by simp⟩
  · rw [shape]
    exact .cons (.symbol derivation) (.cons .stop .nil)
  · rw [toExpression_single shape, read]
  · rw [conditions_singleton op read]
    simp

/-- A chain with one more link. -/
theorem Links.snoc (shape : body s = chain operand op)
    (several : ∀ i j t t' ts, (Tree.node s i j (t :: t' :: ts)).toExpression tokens =
      do return Tree.joinConditions join (← Tree.conditions tokens op (t :: t' :: ts)))
    (h : Links tokens s op join i k action) (between : Says tokens k (mark op))
    (last : Yields tokens operand (k + 1) j (do return .condition (← action'))) :
    Links tokens s op join i j (do return join (← action) (← action')) := by
  obtain ⟨ts, links, some, derivation, -, listed, rfl⟩ := h
  obtain ⟨us, derivation', read'⟩ := last
  have longer : Tree.conditions tokens op (ts ++ [.leaf k, .node operand (k + 1) j us]) =
      (do let (c, cs) ← links; return c :: (cs ++ [← action'])) := by
    rw [conditions_append, listed, conditions_leaf, conditions_singleton op read']
    simp
  refine ⟨ts ++ [.leaf k, .node operand (k + 1) j us],
    (do let (c, cs) ← links; return (c, cs ++ [← action'])), by simp, ?_, ?_, ?_, by simp⟩
  · rw [shape] at derivation ⊢
    obtain ⟨m, first, rest, head, tail, rfl⟩ := derivation_cons_iff.mp derivation
    have added : Derivation tokens (.seq [.literal op, .symbol operand]) k j
        [.leaf k, .node operand (k + 1) j us] :=
      .cons (between.literal (by simp)) (.cons (.symbol derivation') .nil)
    rw [List.append_assoc]
    exact .cons head (derivation_single_iff.mpr ((derivation_single_iff.mp tail).star_snoc added))
  · obtain ⟨t, ts, rfl⟩ := List.exists_cons_of_ne_nil some
    obtain ⟨t', ts', same⟩ : ∃ t' ts', ts ++ [.leaf k, .node operand (k + 1) j us] = t' :: ts' :=
      List.exists_cons_of_ne_nil (by simp)
    rw [List.cons_append, same] at longer ⊢
    rw [several, longer]
    simp [Tree.joinConditions]
  · rw [longer]
    simp

end

/-! ## Marks -/

/-- The tokens from `i` up to `j` are an operand with marks in front of it, and are read by the
    action, wherever an error in it would be reported. -/
def Marks (tokens : Array Token) (i j : Nat) (action : Reading Expression) : Prop :=
  ∃ ts, Derivation tokens (body .unary) i j ts ∧ ∀ start, (do
    let e := Tree.join .concat (← Tree.operands tokens ts)
    Tree.applyOperators start e (Tree.texts tokens ts)) = action

theorem Marks.yields {action : Reading Expression} (h : Marks tokens i j action) :
    Yields tokens .unary i j action := by
  obtain ⟨ts, derivation, read⟩ := h
  refine ⟨ts, derivation, ?_⟩
  rw [Tree.toExpression]
  exact read _

theorem Yields.marks {action : Reading Expression} (h : Yields tokens .primary i j action) :
    Marks tokens i j action := by
  obtain ⟨ts, derivation, rfl⟩ := h
  refine ⟨[.node .repeated i j [.node .primary i j ts]], ?_, fun start => ?_⟩
  · exact .cons .stop (.cons (.symbol (.cons (.symbol derivation) (.cons .stop .nil))) .nil)
  · simp [Tree.operands, Tree.isNode, Tree.join, Tree.texts, Tree.applyOperators,
      Tree.toExpression_repeated]

/-- One more mark. -/
theorem Marks.not {action : Reading Condition} (sign : Says tokens i (mark "!"))
    (h : Marks tokens (i + 1) j (do return .condition (← action))) :
    Marks tokens i j (do return .condition (.not (← action))) := by
  obtain ⟨ts, derivation, read⟩ := h
  refine ⟨.leaf i :: ts, ?_, fun start => ?_⟩
  · obtain ⟨k, us, vs, marks, operand, rfl⟩ := derivation_cons_iff.mp derivation
    have option : Derivation tokens (.choice [.literal "!", .literal "~"]) i (i + 1) [.leaf i] :=
      .choice (p := .literal "!") (by simp) (sign.literal (by simp))
    exact .cons (.again option marks) operand
  · have inner := read start
    have operands : Tree.operands tokens (.leaf i :: ts) = Tree.operands tokens ts := by
      simp [Tree.operands, Tree.isNode]
    have texts : Tree.texts tokens (.leaf i :: ts) = "!" :: Tree.texts tokens ts := by
      simp [Tree.texts, sign.text_eq]
    simp only [operands, texts, Tree.applyOperators, ← bind_assoc, inner]
    simp [Reading.asCondition]

end Grammar

/-! ## Reading -/

namespace Formula

/-- The condition that a formula is the translation of. -/
def condition : Formula → Condition
  | .const b => if b then .true else .false
  | .var i => .atom i.toNat
  | .not f => .not f.condition
  | .and f g => .and f.condition g.condition
  | .or f g => .or f.condition g.condition

variable {tokens : Array Token} {f g : Formula}

/-- What is printed in each context is read there: as an operand of a negation, as a chain of
    conjunctions or as a chain of disjunctions. -/
structure Readable (tokens : Array Token) (f : Formula) : Prop where
  operand : ∀ {i j : Nat}, Spans tokens j i (f.piecesAt strengthNot) →
    Marks tokens i j (do return .condition (← f.condition.naming))
  conjunction : ∀ {i j : Nat}, Spans tokens j i (f.piecesAt strengthAnd) →
    Links tokens .conjunction "&&" .and i j f.condition.naming
  disjunction : ∀ {i j : Nat}, Spans tokens j i (f.piecesAt strengthOr) →
    Links tokens .disjunction "||" .or i j f.condition.naming

/-- A formula that is an operand without further brackets in every context. -/
theorem readable_of_operand (same : ∀ outer, f.piecesAt outer = f.piecesAt strengthNot)
    (operand : ∀ {i j : Nat}, Spans tokens j i (f.piecesAt strengthNot) →
      Marks tokens i j (do return .condition (← f.condition.naming))) :
    Readable tokens f := by
  have conjunction {i j : Nat} (spans : Spans tokens j i (f.piecesAt strengthAnd)) :
      Links tokens .conjunction "&&" .and i j f.condition.naming :=
    Yields.links rfl (operand (same strengthAnd ▸ spans)).yields
  refine ⟨operand, conjunction, fun spans => Yields.links rfl (conjunction ?_).yields⟩
  rwa [same strengthAnd, ← same strengthOr]

/-- A chain in brackets is an operand. -/
theorem marks_of_brackets {ps : List Piece} {action : Reading Expression}
    (h : ∀ {i j : Nat}, Spans tokens j i ps → Yields tokens .disjunction i j action) {i j : Nat}
    (spans : Spans tokens j i (inBrackets ps)) : Marks tokens i j action := by
  obtain ⟨k, opens, inner, closes, rfl⟩ := spans.brackets
  exact (Yields.group opens ((h inner).union (by decide)) closes).marks

theorem readable_and (hf : Readable tokens f) (hg : Readable tokens g) :
    Readable tokens (.and f g) := by
  have chain {i j : Nat} (spans : Spans tokens j i ((Formula.and f g).piecesAt strengthAnd)) :
      Links tokens .conjunction "&&" .and i j (Formula.and f g).condition.naming := by
    obtain ⟨k, front, between, back⟩ := spans.append
    exact (hf.conjunction front).snoc rfl (fun _ _ _ _ _ => by rw [Tree.toExpression]; simp)
      between (hg.operand back).yields
  exact ⟨marks_of_brackets fun inner => (chain inner).yields.single rfl, chain,
    fun spans => Yields.links rfl (chain spans).yields⟩

theorem readable_or (hf : Readable tokens f) (hg : Readable tokens g) :
    Readable tokens (.or f g) := by
  have chain {i j : Nat} (spans : Spans tokens j i ((Formula.or f g).piecesAt strengthOr)) :
      Links tokens .disjunction "||" .or i j (Formula.or f g).condition.naming := by
    obtain ⟨k, front, between, back⟩ := spans.append
    exact (hf.disjunction front).snoc rfl (fun _ _ _ _ _ => by rw [Tree.toExpression]; simp)
      between (hg.conjunction back).yields
  have operand {i j : Nat} (spans : Spans tokens j i ((Formula.or f g).piecesAt strengthNot)) :
      Marks tokens i j (do return .condition (← (Formula.or f g).condition.naming)) :=
    marks_of_brackets (fun inner => (chain inner).yields) spans
  exact ⟨operand, fun spans => Yields.links rfl (operand spans).yields, chain⟩

theorem readable (tokens : Array Token) (f : Formula) : Readable tokens f := by
  induction f with
  | const b =>
    refine readable_of_operand (fun _ => rfl) ?_
    rintro i j ⟨said, rfl⟩
    cases b with
    | true => exact (Says.constant (c := .true) (by simp) said).marks
    | false => exact (Says.constant (c := .false) (by simp) said).marks
  | var n =>
    refine readable_of_operand (fun _ => rfl) ?_
    rintro i j ⟨said, rfl⟩
    simpa [condition, Condition.naming] using said.atom.marks
  | not f ih =>
    refine readable_of_operand (fun _ => rfl) ?_
    rintro i j ⟨sign, spans⟩
    simpa [condition, Condition.naming] using (ih.operand spans).not sign
  | and f g ihf ihg => exact readable_and ihf ihg
  | or f g ihf ihg => exact readable_or ihf ihg

end Formula

/-- A text whose pieces are an expression wherever they stand is read by the action. -/
theorem Expression.parse_eq_of_yields {text : String} {ps : List Piece}
    {action : Reading Expression} (scans : ScansText text ps)
    (yields : ∀ {tokens : Array Token} {i j : Nat}, Spans tokens j i ps →
      Yields tokens .union i j action) :
    parse (Text.glyphsOfString text) = action [] := by
  obtain ⟨tokens, scanned, said⟩ := scans.tokenize
  have closed := closed_of_tokenize scanned
  obtain ⟨ts, derivation, rfl⟩ := yields (spans_of_drop (i := 0) said)
  have last : 0 + ps.length = tokens.length - 1 := by
    have count := congrArg List.length said
    simp only [List.length_map, List.length_append, List.length_singleton] at count
    omega
  rw [last] at derivation ⊢
  exact parse_eq_toExpression scanned ((parse_eq_ok_iff closed).mpr (.symbol derivation))

namespace Formula

/-- Around the whole formula nothing needs brackets, as around a disjunction. -/
theorem piecesAt_zero (f : Formula) : f.piecesAt 0 = f.piecesAt strengthOr := by
  cases f with
  | const | var | not | and | or => rfl

/-- The text of a formula is read as its condition, with atoms numbered by their names. -/
theorem parse_render_eq (f : Formula) :
    Expression.parse (Text.glyphsOfString (f.render [])) =
      (do return .condition (← f.condition.naming) : Reading Expression) [] := by
  refine Expression.parse_eq_of_yields (f.scansText_renderAt 0) fun {tokens} {i j} spans => ?_
  rw [piecesAt_zero] at spans
  exact ((readable tokens f).disjunction spans).yields.union (by decide)

/-! ## Translation -/

theorem toFormula_condition_returns (f : Formula) :
    Build.Returns f.condition.toFormula f := by
  induction f with
  | const b => cases b <;> exact Build.Returns.pure _
  | var i =>
    have same : Formula.atom i.toNat = .var i := by simp [Formula.atom]
    rw [condition, Condition.toFormula, same]
    exact Build.Returns.pure _
  | not f ih => exact ih.bind (Build.not_returns f)
  | and f g ihf ihg => exact ihf.bind (ihg.bind (Build.and_returns f g))
  | or f g ihf ihg => exact ihf.bind (ihg.bind (Build.or_returns f g))

end Formula

theorem Build.run_bind_of_run {α β : Type} {m : Build α} {k : α → Build β} {ctx : Context} {x : α}
    (h : m.run ctx = (x, ctx)) : (m >>= k).run ctx = (k x).run ctx := by
  show (k (m.run ctx).1).run (m.run ctx).2 = _
  rw [h]

/-- In a context that holds the formula, its condition is translated without anything new. -/
theorem Context.Holds.toFormula_condition {ctx : Context} {f : Formula} (h : ctx.Holds f) :
    f.condition.toFormula.run ctx = (f, ctx) := by
  induction f with
  | const b => cases b <;> rfl
  | var i =>
    have same : Formula.atom i.toNat = .var i := by simp [Formula.atom]
    exact congrArg (·, ctx) same
  | not f ih => exact (Build.run_bind_of_run (ih h.2)).trans (Build.cons_of_mem h.1)
  | and f g ihf ihg =>
    exact (Build.run_bind_of_run (ihf h.2.1)).trans
      ((Build.run_bind_of_run (ihg h.2.2)).trans (Build.cons_of_mem h.1))
  | or f g ihf ihg =>
    exact (Build.run_bind_of_run (ihf h.2.1)).trans
      ((Build.run_bind_of_run (ihg h.2.2)).trans (Build.cons_of_mem h.1))

/-! ## The main result -/

namespace Formula

theorem exists_parse_render (f : Formula) : ∃ (c : Condition) (atoms : List Nat),
    Expression.parse (Text.glyphsOfString (f.render [])) =
        .ok (.condition c, atoms.map Condition.atomText) ∧
      (atoms.map Condition.atomText).Nodup ∧
      c.relabel? (fun j => atoms[j]?) = some f.condition := by
  obtain ⟨c, atoms, named, distinct, labelled⟩ := f.condition.numbers_naming [] List.nodup_nil
  refine ⟨c, atoms, ?_, distinct, by simpa using labelled []⟩
  rw [parse_render_eq]
  show (f.condition.naming [] >>= fun p => pure (Expression.condition p.1, p.2)) = _
  rw [show f.condition.naming [] = _ from named]
  rfl

/-- Formulas with the same text are the same. -/
theorem render_injective {f g : Formula} (h : f.render [] = g.render []) : f = g := by
  obtain ⟨c, atoms, parsed, -, labelled⟩ := f.exists_parse_render
  obtain ⟨d, atoms', parsed', -, labelled'⟩ := g.exists_parse_render
  rw [← h, parsed] at parsed'
  simp only [Except.ok.injEq, Prod.mk.injEq, Expression.condition.injEq] at parsed'
  obtain ⟨rfl, names⟩ := parsed'
  have same : atoms = atoms' :=
    (List.map_inj_right fun _ _ => Condition.atomText_injective).mp names
  rw [← same, labelled] at labelled'
  have returned := g.toFormula_condition_returns
  rw [← Option.some.inj labelled'] at returned
  exact f.toFormula_condition_returns.unique returned

/-- The text of a formula without names for its atoms is read as one condition.  Its names are those
    that the atoms are printed with, each once.  With every number replaced by the atom whose name
    stands in its place, the condition is translated to the formula itself in every context.  In the
    course of operations on a context, where the formula is known by a handle, nothing new is built
    and the formula is still known by this handle, which stands for its tree as long as the places
    of formulas have numbers of 32 bits.  No other formula has this text. -/
theorem text_read_back (f : Formula) : ∃ (c d : Condition) (atoms : List Nat),
    Expression.parse (Text.glyphsOfString (f.render [])) =
        .ok (.condition c, atoms.map Condition.atomText) ∧
      (atoms.map Condition.atomText).Nodup ∧
      c.relabel? (fun j => atoms[j]?) = some d ∧
      (∀ ctx, (d.toFormula.run ctx).1 = f) ∧
      (∀ s : Session, Session.start.Leads s → ∀ h, (h, f) ∈ s.obtained →
        d.toFormula.run s.context = (f, s.context) ∧ s.context.handle f = h ∧
          ((∀ k, (s.context.ofKind k).length < UInt32.size) → s.context.Denotes h f)) ∧
      ∀ g : Formula, g.render [] = f.render [] → g = f := by
  obtain ⟨c, atoms, parsed, distinct, labelled⟩ := f.exists_parse_render
  refine ⟨c, f.condition, atoms, parsed, distinct, labelled, f.toFormula_condition_returns,
    fun s reached h given => ?_, fun g => render_injective⟩
  obtain ⟨held, same⟩ := reached.sound.held (h, f) given
  refine ⟨held.toFormula_condition, same.symm, fun room => ?_⟩
  rw [show h = _ from same]
  exact Context.denotes_handle room held

end Formula

end TraceRegex
