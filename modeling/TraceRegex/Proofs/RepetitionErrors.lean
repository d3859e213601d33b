import TraceRegex.Proofs.AtomNumbering
import TraceRegex.Proofs.TokenLayout

/-! # Errors about repetitions

Reading looks at the repetitions of a text from left to right, apart from those that a repetition of
zero width stands behind, and an error about a repetition is about the first of them that has a
fault.  The error starts at the opening brace.  It ends behind the closing one, unless a form feed
follows: form feeds separate tokens like all other blanks, but they are not trimmed.
-/

namespace TraceRegex

open Text (Glyph width Spells)

/-! ## Faults -/

theorem bind_eq_error {ε α β : Type} {m : Except ε α} {f : α → Except ε β} {e : ε}
    (h : m >>= f = .error e) : m = .error e ∨ ∃ x, m = .ok x ∧ f x = .error e := by
  cases m with
  | error e' =>
    cases h
    exact .inl rfl
  | ok x => exact .inr ⟨x, rfl, h⟩

/-- Whether the error is one that only a repetition can have. -/
def SyntaxError.Cause.isFault : SyntaxError.Cause → Bool
  | .invalidRange .. | .invalidCount _ => true
  | _ => false

namespace Repetition

/-- What is wrong with a repetition: a count that is too large, or counts in the wrong order. -/
def fault? : Repetition → Option SyntaxError.Cause
  | .star | .plus => none
  | .exactly text | .atLeast text => if count? text = none then some (.invalidCount text) else none
  | .between loText hiText =>
    match count? loText, count? hiText with
    | none, _ => some (.invalidCount loText)
    | some _, none => some (.invalidCount hiText)
    | some lo, some hi => if hi < lo then some (.invalidRange lo hi) else none

/-- A repetition with a fault is refused, whatever it repeats. -/
theorem apply_eq_error_iff {r : Repetition} {e : Expression} {cause : SyntaxError.Cause} :
    r.apply e = .error cause ↔ r.fault? = some cause := by
  cases r with
  | star | plus => simp [apply, fault?, pure, Except.pure]
  | exactly text | atLeast text =>
    cases counted : count? text <;>
      simp [apply, fault?, readCount, counted, pure, bind, Except.pure, Except.bind]
  | between loText hiText =>
    cases lower : count? loText with
    | none => simp [apply, fault?, readCount, lower, bind, Except.bind]
    | some lo =>
      cases upper : count? hiText with
      | none => simp [apply, fault?, readCount, lower, upper, bind, Except.bind]
      | some hi =>
        by_cases wrong : hi < lo <;>
          simp [apply, fault?, readCount, lower, upper, wrong, pure, bind, throw, throwThe,
            MonadExceptOf.throw, Except.pure, Except.bind]

theorem fault?_of_bracket {texts : List String} {r : Repetition}
    (spelled : ofTokens? ("[" :: texts) = some r) : r.fault? = none := by
  unfold ofTokens? at spelled
  split at spelled
  next => cases spelled; rfl
  next => cases spelled; rfl
  next same => simp at same
  next same => simp at same
  next same => simp at same
  next => cases spelled

end Repetition

namespace Grammar

variable {tokens : Array Token}

/-- The error is about the first of the repetitions that has a fault. -/
def Blames (tokens : Array Token) (reps : List (Repetition × Nat × Nat)) (e : SyntaxError) : Prop :=
  ∃ r first next, reps.find? (·.1.fault?.isSome) = some (r, first, next) ∧
    r.fault? = some e.cause ∧ e = errorAt tokens first next e.cause

/-- If the action gives a result, then none of the repetitions has a fault, and if it fails with
    a fault, then with the first one. -/
structure Reports {α : Type} (tokens : Array Token) (reps : List (Repetition × Nat × Nat))
    (action : Reading α) : Prop where
  fine : ∀ {names x names'}, action names = .ok (x, names') → ∀ r ∈ reps, r.1.fault? = none
  blames : ∀ {names e}, action names = .error e → e.cause.isFault = true → Blames tokens reps e

section

variable {α β : Type} {reps reps' : List (Repetition × Nat × Nat)} {action : Reading α}

theorem reports_pure (x : α) : Reports tokens [] (pure x) :=
  ⟨fun _ => by simp, fun failed => by cases failed⟩

theorem reports_throw {e : SyntaxError} (other : e.cause.isFault = false) :
    Reports tokens reps (throw e : Reading α) := by
  refine ⟨fun read => (by cases read), fun failed fault => ?_⟩
  cases failed
  rw [other] at fault
  cases fault

theorem find?_eq_none_of_fine (fine : ∀ r ∈ reps, r.1.fault? = none) :
    reps.find? (·.1.fault?.isSome) = none := by
  rw [List.find?_eq_none]
  intro r mem
  simp [fine r mem]

theorem Reports.bind {k : α → Reading β} (first : Reports tokens reps action)
    (rest : ∀ x, Reports tokens reps' (k x)) : Reports tokens (reps ++ reps') (action >>= k) := by
  refine ⟨fun read => ?_, fun failed fault => ?_⟩
  · obtain ⟨⟨x, names'⟩, early, late⟩ := bind_eq_ok read
    exact List.forall_mem_append.mpr ⟨first.fine early, (rest x).fine late⟩
  · rcases bind_eq_error failed with early | ⟨⟨x, names'⟩, early, late⟩
    · obtain ⟨r, i, j, found, blamed⟩ := first.blames early fault
      exact ⟨r, i, j, by rw [List.find?_append, found, Option.some_or], blamed⟩
    · -- nothing that the first action has looked at has a fault
      obtain ⟨r, i, j, found, blamed⟩ := (rest x).blames late fault
      have none := find?_eq_none_of_fine (first.fine early)
      exact ⟨r, i, j, by rw [List.find?_append, none, Option.none_or, found], blamed⟩

/-- The second action looks at no repetition. -/
theorem Reports.bind_known {k : α → Reading β} (first : Reports tokens reps action)
    (rest : ∀ x, Reports tokens [] (k x)) : Reports tokens reps (action >>= k) := by
  have both := first.bind rest
  rwa [List.append_nil] at both

theorem reports_atom (name : String) : Reports tokens [] (Reading.atom name) := by
  refine ⟨fun _ => by simp, fun {names e} failed => ?_⟩
  rw [Reading.atom_eq] at failed
  split at failed <;> cases failed

theorem reports_asCondition (op : String) (start : Nat) (e : Expression) :
    Reports tokens [] (Reading.asCondition op start e) := by
  cases e with
  | condition c => exact reports_pure c
  | _ => exact reports_throw rfl

end

namespace Tree

/-! ## Repetitions that are looked at -/

mutual

/-- The repetitions of a derivation from left to right, without those in front of one of zero
    width that belongs to the same operand or to one around it. -/
def repetitions (tokens : Array Token) : Tree → List (Repetition × Nat × Nat)
  | .leaf _ => []
  | .node .repeated _ _ (arg :: reps) =>
    let own := reps.filterMap (repetition? tokens)
    match afterZeroWidth? own with
    | some later => later
    | none => arg.repetitions tokens ++ own
  | .node _ _ _ children => repetitionsOf tokens children

def repetitionsOf (tokens : Array Token) : List Tree → List (Repetition × Nat × Nat)
  | [] => []
  | t :: ts => t.repetitions tokens ++ repetitionsOf tokens ts

end

/-- Reading the derivation fails with its first fault, or with an error that is none. -/
def Checked (tokens : Array Token) (t : Tree) : Prop :=
  Reports tokens (t.repetitions tokens) (t.toExpression tokens)

theorem reports_operands {ts : List Tree} (each : ∀ t ∈ ts, t.Checked tokens) :
    Reports tokens (repetitionsOf tokens ts) (operands tokens ts) := by
  induction ts with
  | nil =>
    rw [operands]
    exact reports_pure []
  | cons t ts ih =>
    rw [List.forall_mem_cons] at each
    have rest := ih each.2
    rw [operands, repetitionsOf]
    cases t with
    | leaf i => exact rest
    | node s first next children =>
      exact each.1.bind fun e => rest.bind_known fun es => reports_pure (e :: es)

theorem reports_conditions (op : String) {ts : List Tree} (each : ∀ t ∈ ts, t.Checked tokens) :
    Reports tokens (repetitionsOf tokens ts) (conditions tokens op ts) := by
  induction ts with
  | nil =>
    rw [conditions]
    exact reports_pure []
  | cons t ts ih =>
    rw [List.forall_mem_cons] at each
    have rest := ih each.2
    rw [conditions, repetitionsOf]
    cases t with
    | leaf i => exact rest
    | node s first next children =>
      refine each.1.bind fun e => (reports_asCondition op _ e).bind fun c => ?_
      exact rest.bind_known fun cs => reports_pure (c :: cs)

theorem reports_applyOperators (start : Nat) (e : Expression) (ops : List String) :
    Reports tokens [] (applyOperators start e ops) := by
  induction ops with
  | nil => exact reports_pure e
  | cons op ops ih =>
    rw [applyOperators]
    refine ih.bind_known fun e => ?_
    split
    · exact (reports_asCondition "!" start e).bind_known fun c => reports_pure _
    · exact reports_pure _

/-- Repetitions are applied one after the other, up to the first fault. -/
theorem reports_repeatAll (e : Expression) (reps : List (Repetition × Nat × Nat)) :
    Reports tokens reps (liftM (repeatAll tokens e reps) : Reading Expression) := by
  induction reps generalizing e with
  | nil => exact reports_pure e
  | cons r reps ih =>
    obtain ⟨r, first, next⟩ := r
    rw [repeatAll]
    split
    next e' applied =>
      have sound : r.fault? = none := by
        by_contra fault
        obtain ⟨cause, fault⟩ := Option.ne_none_iff_exists'.mp fault
        rw [Repetition.apply_eq_error_iff.mpr fault] at applied
        cases applied
      have rest := ih e'
      refine ⟨fun read => List.forall_mem_cons.mpr ⟨sound, rest.fine read⟩, fun failed fault => ?_⟩
      obtain ⟨r', i, j, found, blamed⟩ := rest.blames failed fault
      exact ⟨r', i, j, by rw [List.find?_cons_of_neg (by simp [sound]), found], blamed⟩
    next cause refused =>
      have fault := Repetition.apply_eq_error_iff.mp refused
      refine ⟨fun read => (by cases read), fun failed _ => ?_⟩
      cases failed
      exact ⟨r, first, next, List.find?_cons_of_pos (by simp [fault]), fault, rfl⟩

theorem checked_conditions {s : NonTerminal} (op : String)
    (combine : Condition → Condition → Condition) {first next : Nat} {children : List Tree}
    (each : ∀ t ∈ children, t.Checked tokens)
    (reps : (node s first next children).repetitions tokens = repetitionsOf tokens children)
    (single : ∀ child, children = [child] →
      (node s first next children).toExpression tokens = child.toExpression tokens)
    (several : (∀ child, children ≠ [child]) → (node s first next children).toExpression tokens =
      do return joinConditions combine (← conditions tokens op children)) :
    (node s first next children).Checked tokens := by
  unfold Checked
  rw [reps]
  by_cases alone : ∃ child, children = [child]
  · obtain ⟨child, rfl⟩ := alone
    have same : repetitionsOf tokens [child] = child.repetitions tokens := List.append_nil _
    rw [single child rfl, same]
    exact each child List.mem_cons_self
  · rw [several fun child same => alone ⟨child, same⟩]
    exact (reports_conditions op each).bind_known fun cs => reports_pure _

theorem checked_repeated {first next : Nat} {arg : Tree} {reps : List Tree}
    (h : arg.Checked tokens) : (node .repeated first next (arg :: reps)).Checked tokens := by
  unfold Checked
  rw [toExpression, repetitions]
  cases afterZeroWidth? (reps.filterMap (repetition? tokens)) with
  -- neither the operand nor what stands in front of the zero width is looked at
  | some later => exact reports_repeatAll .empty later
  | none => exact h.bind fun e => reports_repeatAll e _

theorem checked_node {s : NonTerminal} {first next : Nat} {children : List Tree}
    (each : ∀ t ∈ children, t.Checked tokens) : (node s first next children).Checked tokens := by
  have sub := reports_operands each
  cases s with
  | union | intersection | concatenation | fusion =>
    unfold Checked
    rw [toExpression]
    exact sub.bind_known fun es => reports_pure _
  | disjunction =>
    refine checked_conditions "||" .or each rfl ?_ ?_
    · rintro child rfl
      rw [toExpression]
    · intro several
      rw [toExpression]
      exact several
  | conjunction =>
    refine checked_conditions "&&" .and each rfl ?_ ?_
    · rintro child rfl
      rw [toExpression]
    · intro several
      rw [toExpression]
      exact several
  | unary =>
    unfold Checked
    rw [toExpression]
    exact sub.bind_known fun es => reports_applyOperators _ _ _
  | repeated =>
    cases children with
    | nil =>
      unfold Checked
      rw [toExpression]
      exact reports_pure _
    | cons arg reps => exact checked_repeated (each arg List.mem_cons_self)
  | repetition =>
    unfold Checked
    rw [toExpression]
    exact reports_throw rfl
  | primary =>
    unfold Checked
    rw [toExpression]
    refine sub.bind_known fun es => ?_
    split
    next => exact reports_pure _
    next => exact reports_pure _
    next => exact reports_pure _
    next => exact reports_pure _
    next => exact reports_pure _
    next => exact reports_pure _
    next => exact reports_pure _
    next => exact (reports_atom _).bind_known fun i => reports_pure _
    next => exact reports_throw rfl
  | abort =>
    unfold Checked
    rw [toExpression]
    refine sub.bind_known fun es => ?_
    split
    next => exact reports_pure _
    next => exact reports_throw rfl
  | permute =>
    unfold Checked
    rw [toExpression]
    exact sub.bind_known fun es => reports_pure _

theorem checked (t : Tree) : t.Checked tokens := by
  match t with
  | .leaf i =>
    unfold Checked
    rw [toExpression]
    exact reports_throw rfl
  | .node s first next children => exact checked_node fun child _ => checked child

/-! ## Their derivations -/

theorem mem_repetitionsOf {ts : List Tree} {x : Repetition × Nat × Nat} :
    x ∈ repetitionsOf tokens ts ↔ ∃ t ∈ ts, x ∈ t.repetitions tokens := by
  induction ts with
  | nil => simp [repetitionsOf]
  | cons t ts ih => simp [repetitionsOf, ih]

theorem mem_of_afterZeroWidth? {reps later : List (Repetition × Nat × Nat)}
    (h : afterZeroWidth? reps = some later) {x : Repetition × Nat × Nat} (mem : x ∈ later) :
    x ∈ reps := by
  simp only [afterZeroWidth?, Option.ite_none_right_eq_some, Option.some.injEq] at h
  obtain ⟨-, rfl⟩ := h
  exact List.mem_reverse.mp ((List.takeWhile_sublist _).subset (List.mem_reverse.mp mem))

theorem mem_repetitions_node {s : NonTerminal} {first next : Nat} {children : List Tree}
    {x : Repetition × Nat × Nat} (mem : x ∈ (node s first next children).repetitions tokens) :
    ∃ t ∈ children, x ∈ t.repetitions tokens ∨ t.repetition? tokens = some x := by
  by_cases counted : ∃ arg reps, s = .repeated ∧ children = arg :: reps
  · obtain ⟨arg, reps, rfl, rfl⟩ := counted
    have own (mem : x ∈ reps.filterMap (repetition? tokens)) :
        ∃ t ∈ arg :: reps, x ∈ t.repetitions tokens ∨ t.repetition? tokens = some x := by
      obtain ⟨t, below, read⟩ := List.mem_filterMap.mp mem
      exact ⟨t, List.mem_cons_of_mem arg below, .inr read⟩
    rw [repetitions] at mem
    split at mem
    next later cut => exact own (mem_of_afterZeroWidth? cut mem)
    next =>
      rcases List.mem_append.mp mem with mem | mem
      · exact ⟨arg, List.mem_cons_self, .inl mem⟩
      · exact own mem
  · rw [repetitions] at mem
    · obtain ⟨t, below, mem⟩ := mem_repetitionsOf.mp mem
      exact ⟨t, below, .inl mem⟩
    · intro arg reps symbol same
      exact counted ⟨arg, reps, symbol, same⟩

/-- The tree shows how its own tokens are derived. -/
def Derived (tokens : Array Token) : Tree → Prop
  | .leaf _ => True
  | .node s first next children => Derivation tokens (body s) first next children

end Tree

theorem Derivation.derived {p : Pattern} {i j : Nat} {ts : List Tree}
    (h : Derivation tokens p i j ts) : ∀ t ∈ ts, t.Derived tokens := by
  induction h with
  | token found fits => exact List.forall_mem_singleton.mpr trivial
  | symbol h _ => exact List.forall_mem_singleton.mpr h
  | nil | stop | skip => simp
  | cons _ _ ihFirst ihRest | again _ _ ihFirst ihRest =>
    exact List.forall_mem_append.mpr ⟨ihFirst, ihRest⟩
  | choice _ _ ih | take _ ih => exact ih

namespace Tree

theorem Derived.exists_repetition {t : Tree} (h : t.Derived tokens) {x : Repetition × Nat × Nat}
    (mem : x ∈ t.repetitions tokens) :
    ∃ node, Derivation tokens (.symbol .repetition) x.2.1 x.2.2 [node] ∧
      node.repetition? tokens = some x := by
  match t with
  | .leaf i => simp [repetitions] at mem
  | .node s first next children =>
    obtain ⟨child, below, mem | read⟩ := mem_repetitions_node mem
    · exact (h.derived child below).exists_repetition mem
    · refine ⟨child, ?_, read⟩
      have derived := h.derived child below
      -- only a derivation of a repetition is read as one
      unfold repetition? at read
      split at read
      next first next children =>
        obtain ⟨r, -, rfl⟩ := Option.map_eq_some_iff.mp read
        exact .symbol derived
      next => cases read

end Tree

theorem tokenAt_text_of_wordAt {i : Nat} {w : String} (h : wordAt tokens i = some w) :
    (tokenAt tokens i).text = w := by
  obtain ⟨t, found, -, text⟩ := wordAt_eq_some_iff.mp h
  simp [tokenAt, found, text]

theorem errorAt_eq {i j : Nat} {t u : Token} (first : tokens[i]? = some t)
    (next : tokens[j]? = some u) (cause : SyntaxError.Cause) :
    errorAt tokens i j cause = ⟨t.offset, max (t.offset + 1) u.edge, cause⟩ := by
  simp [errorAt, spanOf, tokenAt, first, next]

/-- A repetition with a fault stands in braces. -/
theorem Derivation.braces {i j : Nat} {node : Tree} {r : Repetition} {first next : Nat}
    (h : Derivation tokens (.symbol .repetition) i j [node])
    (read : node.repetition? tokens = some (r, first, next)) (fault : r.fault?.isSome = true) :
    i + 1 < j ∧ wordAt tokens i = some "\x7b" ∧ wordAt tokens (j - 1) = some "\x7d" := by
  obtain ⟨us, below, same⟩ := derivation_symbol_iff.mp h
  cases same
  obtain ⟨p, mem, option⟩ := derivation_choice_iff.mp below
  simp only [List.mem_cons, List.not_mem_nil, or_false] at mem
  rcases mem with rfl | rfl
  · -- a repetition in brackets has no counts, so it has no fault
    obtain ⟨opens, vs, -, rfl⟩ := option.after_word
    obtain ⟨r', spelled, same⟩ := Option.map_eq_some_iff.mp read
    cases same
    rw [Tree.texts_leaf, tokenAt_text_of_wordAt opens] at spelled
    rw [Repetition.fault?_of_bracket spelled] at fault
    cases fault
  · obtain ⟨opens, _, later, rfl⟩ := option.after_word
    obtain ⟨k, _, _, count, upper, rfl⟩ := derivation_cons_iff.mp later
    obtain ⟨l, _, _, more, closes, rfl⟩ := derivation_cons_iff.mp upper
    rw [derivation_single_iff] at closes
    obtain ⟨last, rfl, rfl⟩ := closes.word_eq
    have inside := count.le
    have inside' := more.le
    exact ⟨by omega, opens, last⟩

end Grammar

/-! ## Places -/

namespace Expression

/-- The repetition, made of the tokens from `first` up to `next`, is the first one with a fault
    among those of the text that are looked at. -/
structure FirstFault (source : List Glyph) (text : List Token) (r : Repetition)
    (first next : Nat) : Prop where
  scanned : Token.tokenize source = .ok text
  found : ∃ tree, Grammar.parse text.toArray = .ok tree ∧
    (tree.repetitions text.toArray).find? (·.1.fault?.isSome) = some (r, first, next)
  derived : ∃ node, Grammar.Derivation text.toArray (.symbol .repetition) first next [node] ∧
    node.repetition? text.toArray = some (r, first, next)

theorem scan_error_cause {s : Token.Scan} {source : List Glyph} {e : SyntaxError}
    (h : Token.scan s source = .error e) : e.cause.isFault = false := by
  induction source generalizing s with
  | nil => cases h
  | cons g source ih =>
    rw [Token.scan] at h
    split at h
    next s' _ => exact ih h
    next =>
      cases h
      rfl

theorem firstFault_of_parse {source : List Glyph} {e : SyntaxError}
    (failed : parse source = .error e) (fault : e.cause.isFault = true) :
    ∃ text r first next, FirstFault source text r first next ∧ r.fault? = some e.cause ∧
      e = Grammar.errorAt text.toArray first next e.cause := by
  rcases bind_eq_error failed with unreadable | ⟨text, scanned, failed⟩
  · rw [scan_error_cause unreadable] at fault
    cases fault
  dsimp only at failed
  split at failed
  next tree parsed =>
    obtain ⟨r, first, next, found, cause, place⟩ := tree.checked.blames failed fault
    have derivation :=
      (Grammar.parse_eq_ok_iff (Token.closed_of_tokenize scanned)).mp parsed
    have derived := (derivation.derived tree List.mem_cons_self).exists_repetition
      (List.mem_of_find?_eq_some found)
    exact ⟨text, r, first, next, ⟨scanned, ⟨tree, parsed, found⟩, derived⟩, cause, place⟩
  next m _ =>
    cases failed
    cases fault

/-- The bytes of a source around the tokens from `first` up to `next`, which stand in braces. -/
structure Braced (bytes : List UInt8) (text : List Token) (first next : Nat)
    (before inside blanks after : List UInt8) : Prop where
  source : bytes = before ++ 0x7b :: (inside ++ 0x7d :: (blanks ++ after))
  opens : ∃ t, text[first]? = some t ∧ t.text = "\x7b" ∧ t.offset = before.length
  closes : ∃ t, text[next - 1]? = some t ∧ t.text = "\x7d" ∧
    t.offset = before.length + 1 + inside.length
  blank : ∀ b ∈ blanks, Token.isSeparator (Char.ofNat b.toNat) = true
  stops : ∀ b ∈ after.head?, Token.isSeparator (Char.ofNat b.toNat) = false

/-- All characters that separate tokens are single bytes. -/
theorem toNat_lt_of_isSeparator {c : Char} (h : Token.isSeparator c = true) : c.toNat < 0x80 := by
  have all : Token.separators.all (fun c => c.toNat < 0x80) = true := by decide
  simpa using List.all_eq_true.mp all c (Token.isSeparator_iff.mp h)

/-- Bytes that do not start with a separator. -/
theorem stops_of_spells {bytes : List UInt8} {gs : List Glyph} (h : Spells bytes gs)
    (stops : ∀ g ∈ gs.head?, Token.isSeparator g.char = false) :
    ∀ b ∈ bytes.head?, Token.isSeparator (Char.ofNat b.toNat) = false := by
  intro b mem
  cases h with
  | nil => cases mem
  | small _ _ same _ =>
    cases mem
    exact same ▸ stops _ rfl
  | large lead _ _ _ =>
    cases mem
    by_contra separates
    have small := toNat_lt_of_isSeparator (Bool.not_eq_false _ ▸ separates)
    rw [Text.toNat_ofNat_byte] at small
    omega

/-- Of the separators behind a token, those up to the last form feed are not trimmed. -/
theorem exists_kept {bytes : List UInt8} {blanks : List Glyph} (h : Spells bytes blanks)
    (blank : ∀ g ∈ blanks, Token.isSeparator g.char = true) :
    ∃ kept cut, bytes = kept ++ cut ∧ kept.length = width (Token.trimEnd blanks) ∧ 0x0c ∉ cut ∧
      (kept = [] ∨ ∃ front, kept = front ++ [0x0c]) := by
  obtain ⟨trimmed, same, all, ends⟩ := Token.trimEnd_cut blanks
  rw [same] at h blank
  obtain ⟨blankKept, blankCut⟩ := List.forall_mem_append.mp blank
  obtain ⟨kept, cut, rfl, spelled, spelledCut⟩ := h.of_append
  refine ⟨kept, cut, rfl, spelled.length_eq, fun mem => ?_, ?_⟩
  · have small := spelledCut.forall_mem (p := fun c => Token.isTrimmed c = true) fun g hg =>
      ⟨toNat_lt_of_isSeparator (blankCut g hg), all g hg⟩
    exact absurd (small _ mem) (by decide)
  · rcases ends with none | ⟨front, g, ends, other⟩
    · rw [none] at spelled
      cases spelled
      exact .inl rfl
    · rw [ends] at spelled blankKept
      have separates := (List.forall_mem_append.mp blankKept).2 g List.mem_cons_self
      obtain ⟨frontBytes, lastBytes, rfl, -, last⟩ := spelled.of_append
      obtain ⟨rest, rfl, -, empty⟩ := last.of_cons_small (toNat_lt_of_isSeparator separates)
      cases empty
      have formFeed : g.char = '\x0c' := by
        have same : (Token.isTrimmed g.char || g.char == '\x0c') = true := separates
        simpa [other] using same
      exact .inr ⟨frontBytes, by rw [formFeed]; rfl⟩

/-- Two braces, the bytes around them, and the edge of the token behind them. -/
theorem exists_braced {bytes : List UInt8} {text : List Token}
    (scanned : Token.tokenize (Text.glyphsOfBytes bytes) = .ok text) {first last : Nat}
    (room : first < last) (opens : Grammar.wordAt text.toArray first = some "\x7b")
    (closes : Grammar.wordAt text.toArray last = some "\x7d") :
    ∃ before inside kept cut after v,
      Braced bytes text first (last + 1) before inside (kept ++ cut) after ∧
      0x0c ∉ cut ∧ (kept = [] ∨ ∃ front, kept = front ++ [0x0c]) ∧
      text[last + 1]? = some v ∧ v.edge = before.length + 1 + inside.length + 1 + kept.length := by
  obtain ⟨t, foundT, -, textT⟩ := Grammar.wordAt_eq_some_iff.mp opens
  obtain ⟨u, foundU, kindU, textU⟩ := Grammar.wordAt_eq_some_iff.mp closes
  rw [List.getElem?_toArray] at foundT foundU
  obtain ⟨v, foundV⟩ := (Token.closed_of_tokenize scanned).exists_next foundU kindU
  obtain ⟨front, inner, blanks, rest, g, h, source, openChar, closeChar, startT, startU, edgeV,
    blank, stops⟩ := Token.stretch_of_tokenize scanned room foundT textT foundU textU foundV
      (by decide)
  -- the characters of the stretch are taken apart together with their bytes
  have spelled := Text.spells_glyphsOfBytes bytes
  rw [source] at spelled
  obtain ⟨before, _, rfl, spelledBefore, spelled⟩ := spelled.of_append
  obtain ⟨_, rfl, one, spelled⟩ := spelled.of_cons_small (by rw [openChar]; decide)
  obtain ⟨inside, _, rfl, spelledInside, spelled⟩ := spelled.of_append
  obtain ⟨_, rfl, one', spelled⟩ := spelled.of_cons_small (by rw [closeChar]; decide)
  obtain ⟨blankBytes, after, rfl, spelledBlanks, spelledAfter⟩ := spelled.of_append
  obtain ⟨kept, cut, rfl, length, trimmed, ends⟩ := exists_kept spelledBlanks blank
  have lengthBefore := spelledBefore.length_eq
  have lengthInside := spelledInside.length_eq
  refine ⟨before, inside, kept, cut, after, v, ⟨?_, ?_, ?_, ?_, ?_⟩, trimmed, ends, foundV, ?_⟩
  · rw [openChar, closeChar]
    rfl
  · exact ⟨t, foundT, textT, startT.trans lengthBefore.symm⟩
  · refine ⟨u, foundU, textU, ?_⟩
    rw [startU, Text.width_append, width, one, lengthBefore, lengthInside, Nat.add_assoc]
  · exact spelledBlanks.forall_mem (p := fun c => Token.isSeparator c = true)
      fun g mem => ⟨toNat_lt_of_isSeparator (blank g mem), blank g mem⟩
  · exact stops_of_spells spelledAfter stops
  · simp only [edgeV, Text.width_append, width, one, one']
    omega

/-- An error about a repetition is about the first one with a fault that is looked at.  It starts at
    the opening brace, and it ends behind the closing one or, if there are form feeds among the
    separators that follow, behind the last of these.  So without form feeds it covers just the
    repetition. -/
theorem repetition_errors_located (bytes : List UInt8) {e : SyntaxError}
    (failed : parse (Text.glyphsOfBytes bytes) = .error e) (fault : e.cause.isFault = true) :
    ∃ text r first next before inside kept cut after,
      FirstFault (Text.glyphsOfBytes bytes) text r first next ∧ r.fault? = some e.cause ∧
      Braced bytes text first next before inside (kept ++ cut) after ∧
      0x0c ∉ cut ∧ (kept = [] ∨ ∃ front, kept = front ++ [0x0c]) ∧
      e.start = before.length ∧
      e.stop = before.length + 1 + inside.length + 1 + kept.length ∧
      (0x0c ∉ kept ++ cut → e.stop = before.length + 1 + inside.length + 1) := by
  obtain ⟨text, r, first, next, firstFault, cause, place⟩ := firstFault_of_parse failed fault
  obtain ⟨node, derivation, read⟩ := firstFault.derived
  obtain ⟨room, opens, closes⟩ := derivation.braces read (by simp [cause])
  obtain ⟨last, rfl⟩ : ∃ last, next = last + 1 := ⟨next - 1, by omega⟩
  obtain ⟨before, inside, kept, cut, after, v, braced, trimmed, ends, foundV, edge⟩ :=
    exists_braced firstFault.scanned (by omega) opens closes
  obtain ⟨t, foundT, -, offset⟩ := braced.opens
  rw [Grammar.errorAt_eq (by simpa using foundT) (by simpa using foundV), offset, edge] at place
  have stop : e.stop = before.length + 1 + inside.length + 1 + kept.length := by
    have stop : e.stop = max _ _ := congrArg SyntaxError.stop place
    omega
  refine ⟨text, r, first, last + 1, before, inside, kept, cut, after, firstFault, cause, braced,
    trimmed, ends, congrArg SyntaxError.start place, stop, fun none => ?_⟩
  rcases ends with rfl | ⟨front, rfl⟩
  · exact stop
  · simp at none

/-- Two line ends and a form feed between them: the error ends behind the form feed. -/
theorem repetition_errors_located_of_blanks :
    let bytes : List UInt8 := [0x61, 0x7b, 0x32, 0x2c, 0x31, 0x7d, 0x0a, 0x0c, 0x0a, 0x3b, 0x62]
    let e : SyntaxError := ⟨1, 8, .invalidRange 2 1⟩
    parse (Text.glyphsOfBytes bytes) = .error e ∧ e.cause.isFault = true ∧
      ∃ text r first next before inside kept cut after,
        FirstFault (Text.glyphsOfBytes bytes) text r first next ∧ r.fault? = some e.cause ∧
        Braced bytes text first next before inside (kept ++ cut) after ∧
        0x0c ∉ cut ∧ (kept = [] ∨ ∃ front, kept = front ++ [0x0c]) ∧
        e.start = before.length ∧
        e.stop = before.length + 1 + inside.length + 1 + kept.length ∧
        (0x0c ∉ kept ++ cut → e.stop = before.length + 1 + inside.length + 1) := by
  intro bytes e
  have failed : parse (Text.glyphsOfBytes bytes) = .error e := by decide +kernel
  exact ⟨failed, rfl, repetition_errors_located bytes failed rfl⟩

/-- A form feed at the end of the text is taken for a part of the repetition before it, which ends
    at the offset 6. -/
theorem error_outlasts_closing_brace :
    parse (Text.glyphsOfBytes [0x61, 0x7b, 0x32, 0x2c, 0x31, 0x7d, 0x0c]) =
      .error ⟨1, 7, .invalidRange 2 1⟩ := by
  decide +kernel

end Expression

end TraceRegex
