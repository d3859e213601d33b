import TraceRegex.Expression.Syntax
import TraceRegex.Proofs.Parsing

/-! # Printed expressions are read back

The text of an expression is followed back: through the scanner, which finds the pieces that were
printed, through the grammar, where a fully bracketed expression is an operand of every operator,
and through the reading of the derivation, which numbers the names of the atoms anew.
-/

namespace TraceRegex

/-- The name that an atom is printed with. -/
def Condition.atomText (i : Nat) : String := s!"x{i}"

theorem Condition.atomText_eq (i : Nat) :
    atomText i = String.ofList ('x' :: Nat.toDigits 10 i) := by
  rw [atomText, Nat.toString_eq_ofList_toDigits, ← List.singleton_append, String.ofList_append]
  rfl

/-! ## Pieces -/

namespace Token.Piece

/-- A symbol as a piece of a text. -/
def mark (text : String) : Piece := (.symbol, text)

/-- A word as a piece of a text. -/
def word (text : String) : Piece := (.ident, text)

/-- Pieces in brackets. -/
def inBrackets (ps : List Piece) : List Piece := mark "(" :: (ps ++ [mark ")"])

end Token.Piece

open Token Token.Piece

/-- The pieces of a condition as it is printed. -/
def Condition.pieces : Condition → List Piece
  | .true => [word "true"]
  | .false => [word "false"]
  | .atom i => [word (atomText i)]
  | .not c => mark "!" :: inBrackets c.pieces
  | .and c d => inBrackets (c.pieces ++ mark "&&" :: d.pieces)
  | .or c d => inBrackets (c.pieces ++ mark "||" :: d.pieces)

/-- The pieces of an expression as it is printed. -/
def Expression.pieces : Expression → List Piece
  | .condition c => c.pieces
  | .empty => inBrackets []
  | .union e f => inBrackets (e.pieces ++ mark "|" :: f.pieces)
  | .intersect e f => inBrackets (e.pieces ++ mark "&" :: f.pieces)
  | .concat e f => inBrackets (e.pieces ++ mark ";" :: f.pieces)
  | .fusion e f => inBrackets (e.pieces ++ mark ":" :: f.pieces)
  | .star e => inBrackets e.pieces ++ [mark "[", mark "*", mark "]"]
  | .plus e => inBrackets e.pieces ++ [mark "[", mark "+", mark "]"]
  | .prefixes e => word "PARTIAL" :: inBrackets e.pieces
  | .complement e => mark "~" :: inBrackets e.pieces

section

variable {text text' op : String} {ps qs : List Piece}

/-- The text is scanned as the pieces, from where nothing is pending. -/
def ScansText (text : String) (ps : List Piece) : Prop :=
  Scans Pending.Idle Pending.Tidy text.toList ps

theorem scansText_symbol {c : Char} (mem : c ∈ symbols) :
    ScansText c.toString [mark c.toString] := by
  have h := (scans_symbol mem).mono Pending.Idle.tidy Pending.Idle.tidy
  simpa [ScansText, mark] using h

theorem scans_brackets (h : ScansText text ps) :
    Scans Pending.Tidy Pending.Idle ("(" ++ text ++ ")").toList (inBrackets ps) := by
  have opens := scans_symbol (c := '(') (by decide)
  have closes := scans_symbol (c := ')') (by decide)
  simpa [inBrackets, mark] using (opens.append h).append closes

theorem scansText_infix (lhs : ScansText text ps) (between : ScansText op [mark op])
    (rhs : ScansText text' qs) :
    ScansText (infixText text op text') (inBrackets (ps ++ mark op :: qs)) := by
  have inner := ((lhs.append scans_blank).append between).append (scans_blank.append rhs)
  have operands : ScansText (text ++ " " ++ op ++ " " ++ text') (ps ++ mark op :: qs) := by
    simpa [ScansText] using inner
  have closed := (scans_brackets operands).mono Pending.Idle.tidy Pending.Idle.tidy
  simpa [ScansText, infixText] using closed

/-- A piece in front of brackets. -/
theorem scansText_prefixed {p : Piece} (front : ScansText op [p]) (h : ScansText text ps) :
    ScansText (op ++ "(" ++ text ++ ")") (p :: inBrackets ps) := by
  have whole := (front.append (scans_brackets h)).mono id Pending.Idle.tidy
  simpa [ScansText] using whole

/-- Brackets with a repetition behind them. -/
theorem scansText_repeated {c : Char} (mem : c ∈ symbols) (h : ScansText text ps) :
    ScansText ("(" ++ text ++ ")[" ++ c.toString ++ "]")
      (inBrackets ps ++ [mark "[", mark c.toString, mark "]"]) := by
  have opens := scans_symbol (c := '[') (by decide)
  have closes := scans_symbol (c := ']') (by decide)
  have sign := (scans_symbol mem).mono Pending.Idle.tidy Pending.Idle.tidy
  have between := ((opens.append sign).append closes).mono Pending.Idle.tidy Pending.Idle.tidy
  have whole := (scans_brackets h).mono Pending.Idle.tidy id
  simpa [ScansText, mark] using whole.append between

end

theorem scansText_atomText (i : Nat) :
    ScansText (Condition.atomText i) [word (Condition.atomText i)] := by
  have digits : ∀ d ∈ Nat.toDigits 10 i, continuesWord d = true := fun d mem =>
    continuesWord_of_isDigit (Nat.isDigit_of_mem_toDigits (by decide) (by decide) mem)
  have scanned := scans_word (c := 'x') (fun _ _ => rfl) digits
  rw [Condition.atomText_eq, ScansText, String.toList_ofList]
  exact scanned

theorem Condition.scansText_render (c : Condition) : ScansText c.render c.pieces := by
  induction c with
  | true => exact scans_word (c := 't') (fun _ _ => rfl) (List.all_eq_true.mp (by decide))
  | false => exact scans_word (c := 'f') (fun _ _ => rfl) (List.all_eq_true.mp (by decide))
  | atom i => exact scansText_atomText i
  | not c ih =>
    have h := scansText_prefixed (scansText_symbol (c := '!') (by decide)) ih
    simpa [ScansText, render, pieces] using h
  | and c d ihc ihd =>
    exact scansText_infix ihc
      ((scans_connective (c := '&') (by decide)).mono id Pending.Idle.tidy) ihd
  | or c d ihc ihd =>
    exact scansText_infix ihc
      ((scans_connective (c := '|') (by decide)).mono id Pending.Idle.tidy) ihd

theorem Expression.scansText_render (e : Expression) : ScansText e.render e.pieces := by
  induction e with
  | condition c => exact c.scansText_render
  | empty =>
    have opens := scansText_symbol (c := '(') (by decide)
    have closes := scans_symbol (c := ')') (by decide)
    exact (opens.append closes).mono id Pending.Idle.tidy
  | union e f ihe ihf => exact scansText_infix ihe (scans_half (c := '|') (by decide)) ihf
  | intersect e f ihe ihf => exact scansText_infix ihe (scans_half (c := '&') (by decide)) ihf
  | concat e f ihe ihf => exact scansText_infix ihe (scansText_symbol (c := ';') (by decide)) ihf
  | fusion e f ihe ihf => exact scansText_infix ihe (scansText_symbol (c := ':') (by decide)) ihf
  | star e ih =>
    have h := scansText_repeated (c := '*') (by decide) ih
    simpa [ScansText, render, pieces] using h
  | plus e ih =>
    have h := scansText_repeated (c := '+') (by decide) ih
    simpa [ScansText, render, pieces] using h
  | prefixes e ih =>
    have keyword : ScansText "PARTIAL" [word "PARTIAL"] :=
      scans_word (c := 'P') (fun _ _ => rfl) (List.all_eq_true.mp (by decide))
    have h := scansText_prefixed keyword ih
    simpa [ScansText, render, pieces] using h
  | complement e ih =>
    have h := scansText_prefixed (scansText_symbol (c := '~') (by decide)) ih
    simpa [ScansText, render, pieces] using h

/-! ## Derivations -/

namespace Grammar

variable {tokens : Array Token} {i j k : Nat} {p : Piece} {ps qs : List Piece}

/-- The token at a place says the piece. -/
def Says (tokens : Array Token) (i : Nat) (p : Piece) : Prop :=
  ∃ t, tokens[i]? = some t ∧ t.piece = p

/-- The tokens from the place `i` up to the place `j` say the pieces. -/
def Spans (tokens : Array Token) (j : Nat) : Nat → List Piece → Prop
  | i, [] => i = j
  | i, p :: ps => Says tokens i p ∧ Spans tokens j (i + 1) ps

theorem Spans.append (h : Spans tokens j i (ps ++ qs)) :
    ∃ k, Spans tokens k i ps ∧ Spans tokens j k qs := by
  induction ps generalizing i with
  | nil => exact ⟨i, rfl, h⟩
  | cons p ps ih =>
    obtain ⟨said, rest⟩ := h
    obtain ⟨k, front, back⟩ := ih rest
    exact ⟨k, ⟨said, front⟩, back⟩

/-- Tokens that say the pieces do so in their places. -/
theorem spans_of_drop {text : List Token} {rest : List Piece}
    (said : (text.drop i).map piece = ps ++ rest) : Spans text.toArray (i + ps.length) i ps := by
  induction ps generalizing i with
  | nil => rfl
  | cons p ps ih =>
    rw [List.cons_append] at said
    obtain ⟨t, ts, cut, same, said⟩ := List.map_eq_cons_iff.mp said
    have found : text[i]? = some t := by
      rw [← List.head?_drop, cut]
      rfl
    have behind : text.drop (i + 1) = ts := by
      rw [← List.drop_drop, cut]
      rfl
    refine ⟨⟨t, by rw [List.getElem?_toArray, found], same⟩, ?_⟩
    rw [List.length_cons, Nat.add_comm ps.length, ← Nat.add_assoc]
    exact ih (behind ▸ said)

theorem Spans.brackets (h : Spans tokens j i (inBrackets ps)) :
    ∃ k, Says tokens i (mark "(") ∧ Spans tokens k (i + 1) ps ∧ Says tokens k (mark ")") ∧
      j = k + 1 := by
  obtain ⟨opens, rest⟩ := h
  obtain ⟨k, inner, closes, last⟩ := rest.append
  exact ⟨k, opens, inner, closes, last.symm⟩

theorem Says.text_eq {w : String} {kind : TokenKind} (h : Says tokens i (kind, w)) :
    (tokenAt tokens i).text = w := by
  obtain ⟨t, found, said⟩ := h
  have text : t.text = w := congrArg Prod.snd said
  simp [tokenAt, found, text]

theorem Says.literal {w : String} {kind : TokenKind} (h : Says tokens i (kind, w))
    (inside : kind ≠ .eof) : Derivation tokens (.literal w) i (i + 1) [.leaf i] := by
  obtain ⟨t, found, said⟩ := h
  cases said
  exact .token found ⟨inside, rfl⟩

/-- The symbol derives the tokens from `i` up to `j`, and this is read by the action. -/
def Yields (tokens : Array Token) (s : NonTerminal) (i j : Nat) (action : Reading Expression) :
    Prop :=
  ∃ ts, Derivation tokens (body s) i j ts ∧ (Tree.node s i j ts).toExpression tokens = action

section

variable {s operand : NonTerminal} {op : String} {action action' : Reading Expression}

theorem toExpression_single (shape : body s = chain operand op) (ts : List Tree) :
    (Tree.node s i j [.node operand i j ts]).toExpression tokens =
      (Tree.node operand i j ts).toExpression tokens := by
  cases s with
  | union | intersection | concatenation | fusion =>
    simp [Tree.toExpression, Tree.operands, Tree.isNode, Tree.join]
  | disjunction | conjunction => simp [Tree.toExpression]
  | unary | repeated | repetition | primary | abort | permute => simp [body, chain] at shape

/-- A chain of one operand is read as the operand. -/
theorem Yields.single (h : Yields tokens operand i j action) (shape : body s = chain operand op) :
    Yields tokens s i j action := by
  obtain ⟨ts, derivation, read⟩ := h
  refine ⟨[.node operand i j ts], ?_, by rw [toExpression_single shape, read]⟩
  rw [shape]
  exact .cons (.symbol derivation) (.cons .stop .nil)

/-- A chain of two operands is read by the last action, if the operands are by the other two. -/
def Joins (tokens : Array Token) (s : NonTerminal) (lhs rhs both : Reading Expression) : Prop :=
  ∀ ⦃i j k : Nat⦄ ⦃t t' : Tree⦄, t.isNode = true → t'.isNode = true → t.toExpression tokens = lhs →
    t'.toExpression tokens = rhs → (Tree.node s i j [t, .leaf k, t']).toExpression tokens = both

theorem joins_expressions {f : Expression → Expression → Expression}
    (h : ∀ i j ts, (Tree.node s i j ts).toExpression tokens =
      do return Tree.join f (← Tree.operands tokens ts)) :
    Joins tokens s action action' (do return f (← action) (← action')) := by
  intro i j k t t' node node' read read'
  have leaf : (Tree.leaf k).isNode = false := rfl
  rw [h]
  simp [Tree.operands, node, node', leaf, read, read', Tree.join]

theorem joins_conditions {f : Condition → Condition → Condition} {a b : Reading Condition}
    (h : ∀ i j t t' ts, (Tree.node s i j (t :: t' :: ts)).toExpression tokens =
      do return Tree.joinConditions f (← Tree.conditions tokens op (t :: t' :: ts))) :
    Joins tokens s (do return .condition (← a)) (do return .condition (← b))
      (do return .condition (f (← a) (← b))) := by
  intro i j k t t' node node' read read'
  have leaf : (Tree.leaf k).isNode = false := rfl
  rw [h]
  simp [Tree.conditions, node, node', leaf, read, read', Reading.asCondition,
    Tree.joinConditions]

theorem Yields.pair {both : Reading Expression} (shape : body s = chain operand op)
    (joins : Joins tokens s action action' both) (lhs : Yields tokens operand i k action)
    (between : Says tokens k (mark op)) (rhs : Yields tokens operand (k + 1) j action') :
    Yields tokens s i j both := by
  obtain ⟨ts, derivation, read⟩ := lhs
  obtain ⟨ts', derivation', read'⟩ := rhs
  refine ⟨[.node operand i k ts, .leaf k, .node operand (k + 1) j ts'], ?_,
    joins rfl rfl read read'⟩
  rw [shape]
  exact .cons (.symbol derivation) (.cons (.again (.cons (between.literal (by simp))
    (.cons (.symbol derivation') .nil)) .stop) .nil)

theorem Yields.group (opens : Says tokens i (mark "(")) (h : Yields tokens .union (i + 1) k action)
    (closes : Says tokens k (mark ")")) : Yields tokens .primary i (k + 1) action := by
  obtain ⟨ts, derivation, rfl⟩ := h
  refine ⟨[.leaf i, .node .union (i + 1) k ts, .leaf k], ?_, ?_⟩
  · refine .choice (p := .seq [.literal "(", .symbol .union, .literal ")"]) (by simp) ?_
    exact .cons (opens.literal (by simp)) (.cons (.symbol derivation)
      (.cons (closes.literal (by simp)) .nil))
  · simp [Tree.toExpression, Tree.texts, Tree.operands, Tree.isNode, opens.text_eq, closes.text_eq]

theorem Yields.empty (opens : Says tokens i (mark "(")) (closes : Says tokens (i + 1) (mark ")")) :
    Yields tokens .primary i (i + 1 + 1) (pure .empty) := by
  refine ⟨[.leaf i, .leaf (i + 1)], ?_, ?_⟩
  · refine .choice (p := .seq [.literal "(", .literal ")"]) (by simp) ?_
    exact .cons (opens.literal (by simp)) (.cons (closes.literal (by simp)) .nil)
  · simp [Tree.toExpression, Tree.texts, Tree.operands, Tree.isNode, opens.text_eq, closes.text_eq]

theorem Yields.prefixes (keyword : Says tokens i (word "PARTIAL"))
    (opens : Says tokens (i + 1) (mark "(")) (h : Yields tokens .union (i + 1 + 1) k action)
    (closes : Says tokens k (mark ")")) :
    Yields tokens .primary i (k + 1) (do return .prefixes (← action)) := by
  obtain ⟨ts, derivation, rfl⟩ := h
  refine ⟨[.leaf i, .leaf (i + 1), .node .union (i + 1 + 1) k ts, .leaf k], ?_, ?_⟩
  · refine .choice (p := .seq [.literal "PARTIAL", .literal "(", .symbol .union, .literal ")"])
      (by simp) ?_
    exact .cons (keyword.literal (by simp)) (.cons (opens.literal (by simp))
      (.cons (.symbol derivation) (.cons (closes.literal (by simp)) .nil)))
  · simp [Tree.toExpression, Tree.texts, Tree.operands, Tree.isNode, keyword.text_eq, opens.text_eq,
      closes.text_eq]

theorem toExpression_repeated_once {arg rep : Tree} {r : Repetition} {first next : Nat}
    {f : Expression → Expression} (found : rep.repetition? tokens = some (r, first, next))
    (wide : r.isZeroWidth = false) (applied : ∀ e, r.apply e = .ok (f e)) :
    (Tree.node .repeated i j [arg, rep]).toExpression tokens =
      do return f (← arg.toExpression tokens) := by
  have done (e : Expression) : (liftM (Except.ok e : Except SyntaxError Expression) :
      Reading Expression) = pure e := rfl
  simp [Tree.toExpression, found, Tree.afterZeroWidth?, wide, Tree.repeatAll, applied, done]

theorem toExpression_unary_marked {w : String} (marked : Says tokens k (mark w)) (s : NonTerminal)
    (first next : Nat) (ts : List Tree) :
    (Tree.node .unary i j [.leaf k, .node s first next ts]).toExpression tokens =
      (Tree.node s first next ts).toExpression tokens >>= fun e =>
        Tree.applyOperators (tokenAt tokens i).offset e [w] := by
  simp [Tree.toExpression, Tree.operands, Tree.isNode, Tree.join, Tree.texts, marked.text_eq]

/-- An operand without marks and repetitions. -/
theorem Yields.plain (h : Yields tokens .primary i j action) : Yields tokens .unary i j action := by
  obtain ⟨ts, derivation, rfl⟩ := h
  refine ⟨[.node .repeated i j [.node .primary i j ts]], ?_, ?_⟩
  · exact .cons .stop (.cons (.symbol (.cons (.symbol derivation) (.cons .stop .nil))) .nil)
  · rw [Tree.toExpression_unary, Tree.toExpression_repeated]

/-- An operand with a mark in front of it. -/
theorem Yields.marked {w : String} (mem : w ∈ ["!", "~"]) (sign : Says tokens i (mark w))
    (h : Yields tokens .primary (i + 1) j action) :
    Yields tokens .unary i j
      (action >>= fun e => Tree.applyOperators (tokenAt tokens i).offset e [w]) := by
  obtain ⟨ts, derivation, rfl⟩ := h
  refine ⟨[.leaf i, .node .repeated (i + 1) j [.node .primary (i + 1) j ts]], ?_, ?_⟩
  · have option : Derivation tokens (.choice [.literal "!", .literal "~"]) i (i + 1) [.leaf i] :=
      .choice (p := .literal w) (by simpa using mem) (sign.literal (by simp))
    exact .cons (.again option .stop)
      (.cons (.symbol (.cons (.symbol derivation) (.cons .stop .nil))) .nil)
  · rw [toExpression_unary_marked sign, Tree.toExpression_repeated]

/-- An operand with a repetition without counts behind it. -/
theorem Yields.repeated {w : String} (mem : w ∈ ["*", "+"]) {f : Expression → Expression}
    {r : Repetition} (spelled : Repetition.ofTokens? ["[", w, "]"] = some r)
    (wide : r.isZeroWidth = false) (applied : ∀ e, r.apply e = .ok (f e))
    (h : Yields tokens .primary i j action)
    (stands : Spans tokens k j [mark "[", mark w, mark "]"]) :
    Yields tokens .unary i k (do return f (← action)) := by
  obtain ⟨ts, derivation, rfl⟩ := h
  obtain ⟨opens, sign, closes, rfl⟩ := stands
  have option : Derivation tokens (.choice [.literal "*", .literal "+"]) (j + 1) (j + 1 + 1)
      [.leaf (j + 1)] := .choice (p := .literal w) (by simpa using mem) (sign.literal (by simp))
  have found : (Tree.node .repetition j (j + 1 + 1 + 1)
      [.leaf j, .leaf (j + 1), .leaf (j + 1 + 1)]).repetition? tokens =
      some (r, j, j + 1 + 1 + 1) := by
    simp [Tree.repetition?, Tree.texts, opens.text_eq, sign.text_eq, closes.text_eq, spelled]
  refine ⟨[.node .repeated i (j + 1 + 1 + 1) [.node .primary i j ts,
    .node .repetition j (j + 1 + 1 + 1) [.leaf j, .leaf (j + 1), .leaf (j + 1 + 1)]]], ?_, ?_⟩
  · have bracketed : Derivation tokens (body .repetition) j (j + 1 + 1 + 1)
        [.leaf j, .leaf (j + 1), .leaf (j + 1 + 1)] :=
      .choice (p := .seq [.literal "[", .choice [.literal "*", .literal "+"], .literal "]"])
        (by simp) (.cons (opens.literal (by simp)) (.cons option
          (.cons (closes.literal (by simp)) .nil)))
    exact .cons .stop (.cons (.symbol (.cons (.symbol derivation)
      (.cons (.again (.symbol bracketed) .stop) .nil))) .nil)
  · rw [Tree.toExpression_unary, toExpression_repeated_once found wide applied]

/-- The symbols of the chains, from the tightest to the loosest. -/
def chains : List NonTerminal :=
  [.conjunction, .disjunction, .fusion, .concatenation, .intersection, .union]

/-- An operand is a chain by itself at every level. -/
theorem Yields.lift (h : Yields tokens .unary i j action) :
    ∀ s ∈ NonTerminal.unary :: chains, Yields tokens s i j action := by
  have conjunction : Yields tokens .conjunction i j action := h.single rfl
  have disjunction : Yields tokens .disjunction i j action := conjunction.single rfl
  have fusion : Yields tokens .fusion i j action := disjunction.single rfl
  have concatenation : Yields tokens .concatenation i j action := fusion.single rfl
  have intersection : Yields tokens .intersection i j action := concatenation.single rfl
  have union : Yields tokens .union i j action := intersection.single rfl
  simp only [chains, List.forall_mem_cons]
  exact ⟨h, conjunction, disjunction, fusion, concatenation, intersection, union, by simp⟩

/-- A chain at any level is an expression. -/
theorem Yields.union (mem : s ∈ chains) (h : Yields tokens s i j action) :
    Yields tokens .union i j action := by
  have intersection (h : Yields tokens .intersection i j action) :
      Yields tokens .union i j action := h.single rfl
  have concatenation (h : Yields tokens .concatenation i j action) :
      Yields tokens .union i j action := intersection (h.single rfl)
  have fusion (h : Yields tokens .fusion i j action) :
      Yields tokens .union i j action := concatenation (h.single rfl)
  have disjunction (h : Yields tokens .disjunction i j action) :
      Yields tokens .union i j action := fusion (h.single rfl)
  simp only [chains, List.mem_cons, List.not_mem_nil, or_false] at mem
  rcases mem with rfl | rfl | rfl | rfl | rfl | rfl
  · exact disjunction (h.single rfl)
  · exact disjunction h
  · exact fusion h
  · exact concatenation h
  · exact intersection h
  · exact h

end

/-- The pieces are an operand wherever they stand, and are read by the action. -/
def Printed (tokens : Array Token) (ps : List Piece) (action : Reading Expression) : Prop :=
  ∀ ⦃i j : Nat⦄, Spans tokens j i ps → Yields tokens .unary i j action

section

variable {s operand : NonTerminal} {op : String} {action action' : Reading Expression}

theorem Printed.group (h : Printed tokens ps action) (spans : Spans tokens j i (inBrackets ps)) :
    Yields tokens .primary i j action := by
  obtain ⟨k, opens, inner, closes, rfl⟩ := spans.brackets
  exact .group opens ((h inner).lift .union (by decide)) closes

theorem Printed.binary {both : Reading Expression} (mem : s ∈ chains)
    (below : operand ∈ NonTerminal.unary :: chains) (shape : body s = chain operand op)
    (joins : Joins tokens s action action' both) (lhs : Printed tokens ps action)
    (rhs : Printed tokens qs action') :
    Printed tokens (inBrackets (ps ++ mark op :: qs)) both := by
  intro i j spans
  obtain ⟨k, opens, inner, closes, rfl⟩ := spans.brackets
  obtain ⟨m, front, between, back⟩ := inner.append
  have pair := Yields.pair shape joins ((lhs front).lift operand below) between
    ((rhs back).lift operand below)
  exact (Yields.group opens (pair.union mem) closes).plain

end

end Grammar

/-! ## Reading -/

/-- The condition with its atoms numbered anew, by the names that they are printed with. -/
def Condition.naming : Condition → Reading Condition
  | .true => return .true
  | .false => return .false
  | .atom i => do return .atom (← Reading.atom (atomText i))
  | .not c => do return .not (← c.naming)
  | .and c d => do return .and (← c.naming) (← d.naming)
  | .or c d => do return .or (← c.naming) (← d.naming)

/-- The expression with its atoms numbered anew, by the names that they are printed with. -/
def Expression.naming : Expression → Reading Expression
  | .condition c => do return .condition (← c.naming)
  | .empty => return .empty
  | .union e f => do return .union (← e.naming) (← f.naming)
  | .intersect e f => do return .intersect (← e.naming) (← f.naming)
  | .concat e f => do return .concat (← e.naming) (← f.naming)
  | .fusion e f => do return .fusion (← e.naming) (← f.naming)
  | .star e => do return .star (← e.naming)
  | .plus e => do return .plus (← e.naming)
  | .prefixes e => do return .prefixes (← e.naming)
  | .complement e => do return .complement (← e.naming)

open Grammar

variable {tokens : Array Token}

theorem Grammar.Says.constant {i : Nat} {w : String} {c : Condition}
    (mem : (w, c) ∈ [("true", Condition.true), ("false", Condition.false)])
    (h : Says tokens i (word w)) : Yields tokens .primary i (i + 1) (pure (.condition c)) := by
  have option : Derivation tokens (.literal w) i (i + 1) [.leaf i] := h.literal (by simp)
  simp only [List.mem_cons, Prod.mk.injEq, List.not_mem_nil, or_false] at mem
  rcases mem with ⟨rfl, rfl⟩ | ⟨rfl, rfl⟩
  · refine ⟨_, .choice (by simp) option, ?_⟩
    simp [Tree.toExpression, Tree.texts, Tree.operands, Tree.isNode, h.text_eq]
  · refine ⟨_, .choice (by simp) option, ?_⟩
    simp [Tree.toExpression, Tree.texts, Tree.operands, Tree.isNode, h.text_eq]

theorem Grammar.Says.atom {i n : Nat} (h : Says tokens i (word (Condition.atomText n))) :
    Yields tokens .primary i (i + 1)
      (do return .condition (.atom (← Reading.atom (Condition.atomText n)))) := by
  have text := h.text_eq
  obtain ⟨t, found, said⟩ := h
  have kind : t.kind = .ident := congrArg Prod.fst said
  have option : Derivation tokens .ident i (i + 1) [.leaf i] := .token found kind
  refine ⟨_, .choice (by simp) option, ?_⟩
  have other {w : String} (h : w.toList.head? ≠ some 'x') : Condition.atomText n ≠ w := by
    rintro rfl
    rw [Condition.atomText_eq, String.toList_ofList] at h
    exact h rfl
  have noTrue : Condition.atomText n ≠ "true" := other (by decide)
  have noFalse : Condition.atomText n ≠ "false" := other (by decide)
  simp [Tree.toExpression, Tree.texts, Tree.operands, Tree.isNode, text]

theorem Condition.printed (c : Condition) :
    Printed tokens c.pieces (do return .condition (← c.naming)) := by
  induction c with
  | true =>
    rintro i j ⟨said, rfl⟩
    exact (Says.constant (by simp) said).plain
  | false =>
    rintro i j ⟨said, rfl⟩
    exact (Says.constant (by simp) said).plain
  | atom n =>
    rintro i j ⟨said, rfl⟩
    simpa [naming] using said.atom.plain
  | not c ih =>
    rintro i j ⟨sign, spans⟩
    have marked := Yields.marked (by simp) sign (ih.group spans)
    simpa [naming, Tree.applyOperators, Reading.asCondition] using marked
  | and c d ihc ihd =>
    have both : Printed tokens (inBrackets (c.pieces ++ mark "&&" :: d.pieces))
        (do return .condition (.and (← c.naming) (← d.naming))) :=
      .binary (s := .conjunction) (by decide) (by decide) rfl
        (joins_conditions fun _ _ _ _ _ => by rw [Tree.toExpression]; simp) ihc ihd
    simpa [naming, pieces] using both
  | or c d ihc ihd =>
    have both : Printed tokens (inBrackets (c.pieces ++ mark "||" :: d.pieces))
        (do return .condition (.or (← c.naming) (← d.naming))) :=
      .binary (s := .disjunction) (by decide) (by decide) rfl
        (joins_conditions fun _ _ _ _ _ => by rw [Tree.toExpression]; simp) ihc ihd
    simpa [naming, pieces] using both

theorem Expression.printed (e : Expression) : Printed tokens e.pieces e.naming := by
  induction e with
  | condition c => exact c.printed
  | empty =>
    intro i j spans
    obtain ⟨k, opens, rfl, closes, rfl⟩ := spans.brackets
    exact (Yields.empty opens closes).plain
  | union e f ihe ihf =>
    exact .binary (s := .union) (by decide) (by decide) rfl
      (joins_expressions fun _ _ _ => by rw [Tree.toExpression]) ihe ihf
  | intersect e f ihe ihf =>
    exact .binary (s := .intersection) (by decide) (by decide) rfl
      (joins_expressions fun _ _ _ => by rw [Tree.toExpression]) ihe ihf
  | concat e f ihe ihf =>
    exact .binary (s := .concatenation) (by decide) (by decide) rfl
      (joins_expressions fun _ _ _ => by rw [Tree.toExpression]) ihe ihf
  | fusion e f ihe ihf =>
    exact .binary (s := .fusion) (by decide) (by decide) rfl
      (joins_expressions fun _ _ _ => by rw [Tree.toExpression]) ihe ihf
  | star e ih =>
    intro i j spans
    obtain ⟨k, front, back⟩ := spans.append
    exact (ih.group front).repeated (by decide) rfl rfl (fun _ => rfl) back
  | plus e ih =>
    intro i j spans
    obtain ⟨k, front, back⟩ := spans.append
    exact (ih.group front).repeated (by decide) rfl rfl (fun _ => rfl) back
  | prefixes e ih =>
    rintro i j ⟨keyword, spans⟩
    obtain ⟨k, opens, inner, closes, rfl⟩ := spans.brackets
    exact (Yields.prefixes keyword opens ((ih inner).lift .union (by decide)) closes).plain
  | complement e ih =>
    rintro i j ⟨sign, spans⟩
    have marked := Yields.marked (by simp) sign (ih.group spans)
    simpa [naming, Tree.applyOperators] using marked

/-! ## Numbers -/

/-- The condition with the atom `j` replaced by the atom that `g` gives for it. -/
def Condition.relabel? (g : Nat → Option Nat) : Condition → Option Condition
  | .true => some .true
  | .false => some .false
  | .atom j => do return .atom (← g j)
  | .not c => do return .not (← c.relabel? g)
  | .and c d => do return .and (← c.relabel? g) (← d.relabel? g)
  | .or c d => do return .or (← c.relabel? g) (← d.relabel? g)

/-- The expression with the atom `j` replaced by the atom that `g` gives for it. -/
def Expression.relabel? (g : Nat → Option Nat) : Expression → Option Expression
  | .condition c => do return .condition (← c.relabel? g)
  | .empty => some .empty
  | .union e f => do return .union (← e.relabel? g) (← f.relabel? g)
  | .intersect e f => do return .intersect (← e.relabel? g) (← f.relabel? g)
  | .concat e f => do return .concat (← e.relabel? g) (← f.relabel? g)
  | .fusion e f => do return .fusion (← e.relabel? g) (← f.relabel? g)
  | .star e => do return .star (← e.relabel? g)
  | .plus e => do return .plus (← e.relabel? g)
  | .prefixes e => do return .prefixes (← e.relabel? g)
  | .complement e => do return .complement (← e.relabel? g)

/-- Started with the names of some atoms, the action gives new names to more atoms, and its result
    stands for `a` by the atoms that the names belong to, whatever atoms are named later. -/
def Numbers {α : Type} (relabel? : (Nat → Option Nat) → α → Option α) (action : Reading α) (a : α) :
    Prop :=
  ∀ atoms : List Nat, (atoms.map Condition.atomText).Nodup → ∃ a' more,
    action (atoms.map Condition.atomText) = .ok (a', (atoms ++ more).map Condition.atomText) ∧
      ((atoms ++ more).map Condition.atomText).Nodup ∧
      ∀ later, relabel? (fun j => (atoms ++ more ++ later)[j]?) a' = some a

section

variable {α β : Type} {relabel? : (Nat → Option Nat) → α → Option α}
  {relabel'? : (Nat → Option Nat) → β → Option β} {action action' : Reading α} {a b : α}

theorem numbers_pure (same : ∀ g, relabel? g a = some a) : Numbers relabel? (pure a) a := by
  intro atoms distinct
  exact ⟨a, [], by rw [List.append_nil]; rfl, by rwa [List.append_nil], fun _ => same _⟩

theorem Numbers.map {f : α → β} (h : Numbers relabel? action a)
    (same : ∀ g x, relabel'? g (f x) = do return f (← relabel? g x)) :
    Numbers relabel'? (do return f (← action)) (f a) := by
  intro atoms distinct
  obtain ⟨a', more, read, distinct', labelled⟩ := h atoms distinct
  refine ⟨f a', more, ?_, distinct', fun later => ?_⟩
  · show (action (atoms.map Condition.atomText) >>= fun p => pure (f p.1, p.2)) = _
    rw [read]
    rfl
  · rw [same, labelled later]
    rfl

theorem Numbers.map₂ {f : α → α → α} (lhs : Numbers relabel? action a)
    (rhs : Numbers relabel? action' b)
    (same : ∀ g x y, relabel? g (f x y) = do return f (← relabel? g x) (← relabel? g y)) :
    Numbers relabel? (do return f (← action) (← action')) (f a b) := by
  intro atoms distinct
  obtain ⟨a', more, read, distinct', labelled⟩ := lhs atoms distinct
  obtain ⟨b', more', read', distinct'', labelled'⟩ := rhs (atoms ++ more) distinct'
  rw [List.append_assoc] at read' distinct''
  refine ⟨f a' b', more ++ more', ?_, distinct'', fun later => ?_⟩
  · show (action (atoms.map Condition.atomText) >>= fun p =>
      action' p.2 >>= fun q => pure (f p.1 q.1, q.2)) = _
    rw [read]
    show (action' ((atoms ++ more).map Condition.atomText) >>= fun q => pure (f a' q.1, q.2)) = _
    rw [read']
    rfl
  · have left := labelled (more' ++ later)
    have right := labelled' later
    simp only [List.append_assoc] at left right ⊢
    rw [same, left, right]
    rfl

end

theorem Condition.atomText_injective {i j : Nat} (h : atomText i = atomText j) : i = j := by
  rw [atomText_eq, atomText_eq, String.ofList_inj, List.cons.injEq] at h
  rw [← Nat.ofDigitChars_ten_toDigits (n := i), h.2, Nat.ofDigitChars_ten_toDigits]

theorem Reading.atom_eq (name : String) (names : List String) :
    Reading.atom name names = .ok (match names.idxOf? name with
      | some i => (i, names)
      | none => (names.length, names ++ [name])) := by
  show (match names.idxOf? name with
    | some i => (pure i : Reading Nat)
    | none => (do set (names ++ [name]); return names.length)) names = _
  cases names.idxOf? name with
  | some i => rfl
  | none => rfl

theorem numbers_atom (i : Nat) : Numbers Condition.relabel?
    (do return .atom (← Reading.atom (Condition.atomText i))) (.atom i) := by
  intro atoms distinct
  show ∃ a' more, (Reading.atom (Condition.atomText i) (atoms.map Condition.atomText) >>=
    fun p => pure (Condition.atom p.1, p.2)) = _ ∧ _
  rw [Reading.atom_eq]
  cases known : (atoms.map Condition.atomText).idxOf? (Condition.atomText i) with
  | some k =>
    obtain ⟨inside, stands, -⟩ := List.idxOf?_eq_some_iff.mp known
    rw [List.getElem_map] at stands
    rw [List.length_map] at inside
    refine ⟨.atom k, [], by rw [List.append_nil]; rfl, by rwa [List.append_nil], fun later => ?_⟩
    have same : (atoms ++ later)[k]? = some i := by
      rw [List.getElem?_append_left inside, List.getElem?_eq_getElem inside,
        Condition.atomText_injective stands]
    simp [Condition.relabel?, same]
  | none =>
    have fresh := List.idxOf?_eq_none_iff.mp known
    refine ⟨.atom atoms.length, [i], ?_, ?_, fun later => ?_⟩
    · rw [List.map_append, List.length_map]
      rfl
    · rw [List.map_append, List.map_singleton]
      exact List.nodup_append.mpr ⟨distinct, by simp, by simpa using fresh⟩
    · simp [Condition.relabel?]

theorem Condition.numbers_naming (c : Condition) : Numbers relabel? c.naming c := by
  induction c with
  | true => exact numbers_pure fun _ => rfl
  | false => exact numbers_pure fun _ => rfl
  | atom i => exact numbers_atom i
  | not c ih => exact ih.map fun _ _ => rfl
  | and c d ihc ihd => exact ihc.map₂ ihd fun _ _ _ => rfl
  | or c d ihc ihd => exact ihc.map₂ ihd fun _ _ _ => rfl

theorem Expression.numbers_naming (e : Expression) : Numbers relabel? e.naming e := by
  induction e with
  | condition c => exact c.numbers_naming.map fun _ _ => rfl
  | empty => exact numbers_pure fun _ => rfl
  | union e f ihe ihf => exact ihe.map₂ ihf fun _ _ _ => rfl
  | intersect e f ihe ihf => exact ihe.map₂ ihf fun _ _ _ => rfl
  | concat e f ihe ihf => exact ihe.map₂ ihf fun _ _ _ => rfl
  | fusion e f ihe ihf => exact ihe.map₂ ihf fun _ _ _ => rfl
  | star e ih => exact ih.map fun _ _ => rfl
  | plus e ih => exact ih.map fun _ _ => rfl
  | prefixes e ih => exact ih.map fun _ _ => rfl
  | complement e ih => exact ih.map fun _ _ => rfl

theorem Expression.parse_eq_toExpression {source : List Text.Glyph} {text : List Token}
    {tree : Tree} (scanned : tokenize source = .ok text)
    (parsed : Grammar.parse text.toArray = .ok tree) :
    parse source = tree.toExpression text.toArray [] := by
  simp only [parse, scanned, parsed, bind, Except.bind]

/-- The text of an expression is read as the expression itself, up to the numbers of its atoms: each
    of the new numbers has a name of its own, which is the text of the atom that it stands for. -/
theorem Expression.parse_render (e : Expression) : ∃ (e' : Expression) (atoms : List Nat),
    parse (Text.glyphsOfString e.render) = .ok (e', atoms.map Condition.atomText) ∧
      (atoms.map Condition.atomText).Nodup ∧ e'.relabel? (fun j => atoms[j]?) = some e := by
  obtain ⟨text, scanned, said⟩ := e.scansText_render.tokenize
  have closed := closed_of_tokenize scanned
  have spans : Spans text.toArray (0 + e.pieces.length) 0 e.pieces := spans_of_drop said
  rw [Nat.zero_add] at spans
  obtain ⟨ts, derivation, read⟩ := (e.printed spans).lift .union (by decide)
  have length : text.length - 1 = e.pieces.length := by
    have count := congrArg List.length said
    simp only [List.length_map, List.length_append, List.length_singleton] at count
    omega
  have whole : Derivation text.toArray (.symbol .union) 0 (text.length - 1)
      [.node .union 0 e.pieces.length ts] := by
    rw [length]
    exact .symbol derivation
  obtain ⟨e', atoms, numbered, distinct, labelled⟩ := e.numbers_naming [] List.nodup_nil
  refine ⟨e', atoms, ?_, distinct, by simpa using labelled []⟩
  have parsed := parse_eq_toExpression scanned ((parse_eq_ok_iff closed).mpr whole)
  exact parsed.trans ((congrFun read []).trans numbered)

end TraceRegex
