import TraceRegex.Proofs.Compilation

/-! # Nested negations

A name after any number of exclamation marks is read as that many negations of one atom, and
compiling keeps them all: the automaton has a single rule, with this guard.  So guards of any height
are compiled.  The result is followed through the scanner, the parser and the compiler.
-/

namespace TraceRegex

/-- A name after `n` exclamation marks. -/
def negatedText (n : Nat) : String := String.ofList (List.replicate n '!' ++ ['a'])

/-! ## Tokens -/

namespace Token

/-- An exclamation mark in a text without blanks. -/
def mark (i : Nat) : Token := ⟨.symbol, "!", i, i⟩

/-- The tokens of a name after `n` exclamation marks. -/
def negated (n : Nat) : List Token :=
  (List.range n).map mark ++ [⟨.ident, "a", n, n⟩, ⟨.eof, "<EOF>", n + 1, n + 1⟩]

theorem scan_marks (found : List Token) (offset n : Nat) (rest : List Text.Glyph) :
    scan ⟨found, .nothing, offset, offset⟩ (List.replicate n ⟨'!', 1⟩ ++ rest) =
      scan ⟨((List.range' offset n).map mark).reverse ++ found, .nothing, offset + n, offset + n⟩
        rest := by
  induction n generalizing found offset with
  | zero => rfl
  | succ n ih =>
    have step : step? ⟨found, .nothing, offset, offset⟩ ⟨'!', 1⟩ =
        some ⟨mark offset :: found, .nothing, offset + 1, offset + 1⟩ := rfl
    rw [List.replicate_succ, List.cons_append, scan, step]
    simp [ih, List.range'_succ, Nat.add_assoc, Nat.add_comm 1]

theorem tokenize_negatedText (n : Nat) :
    tokenize (Text.glyphsOfString (negatedText n)) = .ok (negated n) := by
  have glyphs : Text.glyphsOfString (negatedText n) =
      List.replicate n ⟨'!', 1⟩ ++ [⟨'a', 1⟩] := by
    rw [Text.glyphsOfString, negatedText, String.toList_ofList, List.map_append, List.map_replicate]
    rfl
  have name (found : List Token) : scan ⟨found, .nothing, n, n⟩ [⟨'a', 1⟩] =
      .ok (found.reverse ++ [⟨.ident, "a", n, n⟩, ⟨.eof, "<EOF>", n + 1, n + 1⟩]) := by
    have step : step? ⟨found, .nothing, n, n⟩ ⟨'a', 1⟩ =
        some ⟨found, .word ['a'] n n, n + 1, n + 1⟩ := rfl
    simp [scan, step, Pending.token?]
  rw [glyphs, tokenize, scan_marks, Nat.zero_add, name]
  simp [negated, List.range_eq_range']

theorem negated_mark {n i : Nat} (h : i < n) : (negated n)[i]? = some (mark i) := by
  simp [negated, List.getElem?_append, h]

theorem negated_name (n : Nat) : (negated n)[n]? = some ⟨.ident, "a", n, n⟩ := by
  simp [negated]

theorem negated_eof (n : Nat) :
    (negated n)[n + 1]? = some ⟨.eof, "<EOF>", n + 1, n + 1⟩ := by
  simp [negated]

theorem size_negated (n : Nat) : (negated n).toArray.size = n + 2 := by
  simp [negated]

end Token

/-! ## Derivations -/

namespace Grammar

open Token (negated negated_mark negated_name negated_eof)

/-- A symbol derived from a single operand, up to the end of the text. -/
theorem run_chain (s : NonTerminal) {operand : NonTerminal} {op : String}
    (shape : body s = chain operand op) {n i fuel : Nat} {t : Tree}
    (first : run (negated n).toArray (fuel + 6) (.symbol operand) ⟨i, none, 0⟩ =
      (.matched [t], ⟨n + 1, none, 0⟩)) :
    run (negated n).toArray (fuel + 9) (.symbol s) ⟨i, none, 0⟩ =
      (.matched [.node s i (n + 1) [t]], ⟨n + 1, none, 0⟩) := by
  have rest : run (negated n).toArray (fuel + 5) (.star (.seq [.literal op, .symbol operand]))
      ⟨n + 1, none, 0⟩ = (.matched [], ⟨n + 1, none, 0⟩) := by
    simp [run, runItems, runMany, takeToken, Cursor.accept, negated_eof]
  rw [run, shape, chain, run, runItems, first]
  simp [runItems, rest]

theorem run_name (n fuel : Nat) :
    run (negated n).toArray (fuel + 16) (.symbol .repeated) ⟨n, none, 0⟩ =
      (.matched [.node .repeated n (n + 1) [.node .primary n (n + 1) [.leaf n]]],
        ⟨n + 1, none, 0⟩) := by
  simp [run, runItems, runOptions, runMany, takeToken, Cursor.accept, body, negated_name,
    negated_eof]

theorem run_mark {n i : Nat} (h : i < n) (fuel : Nat) :
    run (negated n).toArray (fuel + 3) (.choice [.literal "!", .literal "~"]) ⟨i, none, 0⟩ =
      (.matched [.leaf i], ⟨i + 1, none, 0⟩) := by
  simp [run, runOptions, takeToken, Cursor.accept, negated_mark h, Token.mark]

theorem runMany_marks {n i k : Nat} (h : i + k = n) (fuel : Nat) (trees : List Tree) :
    runMany (negated n).toArray (fuel + k + 5) (.choice [.literal "!", .literal "~"]) false trees
      ⟨i, none, 0⟩ = (.matched (trees ++ (List.range' i k).map .leaf), ⟨n, none, 0⟩) := by
  induction k generalizing i trees with
  | zero =>
    subst h
    simp [run, runMany, runOptions, takeToken, Cursor.accept, negated_name]
  | succ k ih =>
    have later := ih (by omega : i + 1 + k = n) (trees ++ [.leaf i])
    have mark := run_mark (by omega : i < n) (fuel + k + 2)
    rw [← Nat.add_assoc, Nat.add_right_comm _ 1 5, runMany, mark]
    simp only [Cursor.accept, Nat.le_refl, if_true]
    simp [later, List.range'_succ]

/-- The derivation of a name after `n` exclamation marks, below the chains. -/
def negatedTree (n : Nat) : Tree :=
  .node .unary 0 (n + 1) ((List.range n).map .leaf ++
    [.node .repeated n (n + 1) [.node .primary n (n + 1) [.leaf n]]])

theorem run_unary (n fuel : Nat) :
    run (negated n).toArray (fuel + n + 20) (.symbol .unary) ⟨0, none, 0⟩ =
      (.matched [negatedTree n], ⟨n + 1, none, 0⟩) := by
  have marks := runMany_marks (Nat.zero_add n) (fuel + 11) []
  have name := run_name n (fuel + n)
  rw [show fuel + 11 + n + 5 = fuel + n + 16 by omega] at marks
  rw [run, body, run, runItems, run, marks]
  simp only [runItems, name]
  simp [negatedTree, List.range_eq_range']

/-- The derivation that goes down to an operand through all the chains. -/
def throughChains (next : Nat) (t : Tree) : Tree :=
  .node .union 0 next [.node .intersection 0 next [.node .concatenation 0 next
    [.node .fusion 0 next [.node .disjunction 0 next [.node .conjunction 0 next [t]]]]]]

theorem run_union (n fuel : Nat) :
    run (negated n).toArray (fuel + n + 38) (.symbol .union) ⟨0, none, 0⟩ =
      (.matched [throughChains (n + 1) (negatedTree n)], ⟨n + 1, none, 0⟩) := by
  have conjunction := run_chain .conjunction rfl (run_unary n fuel)
  have disjunction := run_chain .disjunction rfl conjunction
  have fusion := run_chain .fusion rfl disjunction
  have concatenation := run_chain .concatenation rfl fusion
  have intersection := run_chain .intersection rfl concatenation
  exact run_chain .union rfl intersection

theorem parse_negated (n : Nat) :
    parse (negated n).toArray = .ok (throughChains (n + 1) (negatedTree n)) := by
  have bound : ∃ spare, depthBound (negated n).toArray = spare + n + 38 := by
    refine ⟨63 * n + 218, ?_⟩
    simp only [depthBound, Token.size_negated]
    omega
  have stopped : atEnd (negated n).toArray (n + 1) = true := by
    simp [atEnd, negated_eof]
  obtain ⟨spare, bound⟩ := bound
  unfold parse
  simp only [bound, run_union, stopped, if_true]

end Grammar

/-! ## Expressions -/

namespace Grammar.Tree

variable {tokens : Array Token}

theorem operands_leaves (places : List Nat) (rest : List Tree) :
    operands tokens (places.map .leaf ++ rest) = operands tokens rest := by
  induction places with
  | nil => rfl
  | cons i places ih => simp [operands, isNode, ih]

theorem texts_append (trees trees' : List Tree) :
    texts tokens (trees ++ trees') = texts tokens trees ++ texts tokens trees' :=
  List.filterMap_append

theorem applyOperators_marks (start n : Nat) (c : Condition) :
    applyOperators start (.condition c) (List.replicate n "!") =
      (pure (.condition (Nat.repeat .not n c)) : Reading Expression) := by
  induction n with
  | zero => rfl
  | succ n ih => simp [List.replicate_succ, applyOperators, ih, Reading.asCondition, Nat.repeat]

theorem texts_marks {n k : Nat} (h : k ≤ n) :
    texts (Token.negated n).toArray ((List.range k).map .leaf) = List.replicate k "!" := by
  induction k with
  | zero => rfl
  | succ k ih =>
    have mark : tokenAt (Token.negated n).toArray k = Token.mark k := by
      simp [tokenAt, Token.negated_mark h]
    rw [List.range_succ, List.map_append, texts_append, ih (Nat.le_of_succ_le h),
      List.replicate_succ']
    simp [texts, mark, Token.mark]

theorem toExpression_throughChains (next : Nat) (t : Tree) :
    toExpression tokens (throughChains next t) = toExpression tokens t := by
  simp [throughChains, toExpression, operands, isNode, join]

theorem toExpression_negatedTree (n : Nat) :
    toExpression (Token.negated n).toArray (negatedTree n) [] =
      .ok (.condition (Nat.repeat .not n (.atom 0)), ["a"]) := by
  have name : tokenAt (Token.negated n).toArray n = ⟨.ident, "a", n, n⟩ := by
    simp [tokenAt, Token.negated_name]
  have texts : texts (Token.negated n).toArray ((List.range n).map .leaf ++
      [.node .repeated n (n + 1) [.node .primary n (n + 1) [.leaf n]]]) =
      List.replicate n "!" := by
    rw [texts_append, texts_marks (Nat.le_refl n)]
    exact List.append_nil _
  have operand : operands (Token.negated n).toArray
      [.node .repeated n (n + 1) [.node .primary n (n + 1) [.leaf n]]] [] =
      .ok ([.condition (.atom 0)], ["a"]) := by
    simp [operands, isNode, toExpression, Tree.texts, name, afterZeroWidth?, repeatAll]
    rfl
  rw [negatedTree, toExpression, operands_leaves, texts]
  show (operands (Token.negated n).toArray
      [.node .repeated n (n + 1) [.node .primary n (n + 1) [.leaf n]]] [] >>= fun p => _) = _
  rw [operand]
  show (applyOperators _ (.condition (.atom 0)) (List.replicate n "!")) ["a"] = _
  rw [applyOperators_marks]
  rfl

end Grammar.Tree

namespace Expression

theorem parse_negatedText (n : Nat) : parse (Text.glyphsOfString (negatedText n)) =
    .ok (.condition (Nat.repeat .not n (.atom 0)), ["a"]) := by
  have read := Grammar.Tree.toExpression_negatedTree n
  rw [← Grammar.Tree.toExpression_throughChains (n + 1)] at read
  simp [parse, Token.tokenize_negatedText, Grammar.parse_negated, bind, Except.bind, read]

end Expression

/-! ## The automaton -/

theorem Condition.toFormula_negations_returns (n : Nat) :
    Build.Returns (Nat.repeat Condition.not n (.atom 0)).toFormula
      (Nat.repeat Formula.not n (.var 0)) := by
  induction n with
  | zero => exact Build.Returns.pure _
  | succ n ih => exact ih.bind (Build.not_returns _)

namespace Formula

theorem height_negations (n : Nat) (f : Formula) : (Nat.repeat not n f).height = f.height + n := by
  induction n with
  | zero => rfl
  | succ n ih => simp [Nat.repeat, height, ih, Nat.add_assoc]

theorem varCount_negations (n : Nat) (f : Formula) : (Nat.repeat not n f).varCount = f.varCount := by
  induction n with
  | zero => rfl
  | succ n ih => simp [Nat.repeat, varCount, ih]

theorem encode_negations (n : Nat) :
    (Nat.repeat not n (.var 0)).encode = .ok (List.replicate n 3 ++ [2, 0, 0]) := by
  induction n with
  | zero => rfl
  | succ n ih =>
    rw [Nat.repeat, encode, ih]
    rfl

theorem exists_eval_negations (n : Nat) (b : Bool) :
    ∃ l, (Nat.repeat not n (.var 0)).eval l = b := by
  induction n generalizing b with
  | zero =>
    cases b with
    | true => exact ⟨.ofList [0], rfl⟩
    | false => exact ⟨.ofList [], rfl⟩
  | succ n ih =>
    obtain ⟨l, holds⟩ := ih !b
    exact ⟨l, by simp [Nat.repeat, eval, holds]⟩

end Formula

namespace Automaton

theorem trim_widen_phi {f : Formula} (satisfiable : f.Satisfiable) (n : Nat) :
    ((phi f).widen n).Trim := by
  obtain ⟨l, holds⟩ := satisfiable
  have step : ((phi f).widen n).Path 0 [l] 1 :=
    path_singleton_iff.mpr ⟨_, List.mem_singleton_self _, holds, rfl⟩
  refine ⟨valid_widen (valid_phi f) n, fun q r hr => ⟨l, ?_⟩, .inl fun q hq => ?_⟩
  · match q with
    | 0 =>
      cases List.mem_singleton.mp hr
      exact holds
    | 1 => cases hr
    | q + 2 => cases hr
  · match q, hq with
    | 0, _ => exact ⟨⟨[], .nil⟩, [l], 1, SortedSet.mem_singleton.mpr rfl, step⟩
    | 1, _ => exact ⟨⟨[l], step⟩, [], 1, SortedSet.mem_singleton.mpr rfl, .nil⟩

end Automaton

/-- The compiled expression with one rule, guarded by `n` negations of an atom. -/
def Compiled.negated (format : Format) (n : Nat) : Compiled :=
  ⟨format, ["a"], (Automaton.phi (Nat.repeat .not n (.var 0))).widen 1, none⟩

namespace Expression

theorem compile_condition_returns {c : Condition} {f : Formula} (read : Build.Returns c.toFormula f)
    (satisfiable : f.Satisfiable) (format : Format) (names : List String) :
    Build.Returns ((Expression.condition c).compile ⟨.nondeterministic, format, false⟩ names)
      ⟨format, names, (Automaton.phi f).widen names.length, none⟩ := by
  have lowered : Build.Returns (Expression.condition c).lower (Automaton.phi f) :=
    read.bind (Build.Returns.pure _)
  have reduced : Build.Returns ((Automaton.phi f).widen names.length).clean
      ((Automaton.phi f).widen names.length) := by
    have steady := (Automaton.clean_returns ((Automaton.phi f).widen names.length)).steady
    unfold Build.Steady at steady
    rwa [(Automaton.trim_widen_phi satisfiable names.length).clean_eq_self] at steady
  exact lowered.bind (reduced.bind (Build.Returns.pure (Compiled.mk format names _ none)))

theorem compileText_negatedText (format : Format) (n : Nat) :
    ∃ ctx, compileText ⟨.nondeterministic, format, false⟩ (Text.glyphsOfString (negatedText n)) =
      .ok (.negated format n, ctx) := by
  have compiled := compile_condition_returns (Condition.toFormula_negations_returns n)
    (Formula.exists_eval_negations n true) format ["a"] Context.empty
  have read : compileText ⟨.nondeterministic, format, false⟩
      (Text.glyphsOfString (negatedText n)) =
      .ok (((condition (Nat.repeat .not n (.atom 0))).compile ⟨.nondeterministic, format, false⟩
        ["a"]).run Context.empty) := by
    rw [compileText, parse_negatedText]
    rfl
  exact ⟨_, read.trans (congrArg Except.ok (Prod.ext compiled rfl))⟩

end Expression

/-! ## The snapshot -/

/-- The snapshot with one rule, guarded by `n` negations of an atom. -/
def Snapshot.negated (n : Nat) : Snapshot :=
  ⟨.nondeterministic, 1, 2, [0], [1], [[⟨List.replicate n 3 ++ [2, 0, 0], 1⟩], []]⟩

theorem Snapshot.negated_short {n : Nat} (h : n + 3 < UInt32.size) :
    ∀ rules ∈ (negated n).transitions,
      rules.length < UInt32.size ∧ ∀ r ∈ rules, r.guard.length < UInt32.size := by
  have single : 1 < UInt32.size := by decide
  simp [negated, single, h]

namespace Compiled

theorem snapshot_negated (format : Format) (n : Nat) :
    (negated format n).snapshot = .ok (.negated n) := by
  have code : Snapshot.encodeRule ⟨Nat.repeat .not n (.var 0), 1⟩ =
      .ok ⟨List.replicate n 3 ++ [2, 0, 0], 1⟩ := by
    rw [Snapshot.encodeRule, Formula.encode_negations]
    rfl
  have atoms : max (Nat.repeat Formula.not n (.var 0)).varCount 1 = 1 := by
    simp [Formula.varCount_negations, Formula.varCount]
  simp [snapshot, negated, Snapshot.ofAutomaton, Automaton.widen, Automaton.phi, code, atoms,
    Snapshot.negated]
  rfl

theorem bytes_negated (format : Format) {n : Nat} (h : n + 3 < UInt32.size) :
    ({ negated format n with format := .binary } : Compiled).bytes =
      .ok ((Snapshot.negated n).header.encode ++ (Snapshot.negated n).payload) := by
  have taken := snapshot_negated .binary n
  have represents := (Snapshot.represents_of_ofAutomaton taken).2
  have short := Snapshot.negated_short h
  have wellFormed := represents.wellFormed (Automaton.valid_widen (Automaton.valid_phi _) 1) rfl
    (show 1 ≤ maxWord16 by decide) (show 2 ≤ maxWord16 by decide)
    (fun rules hrules => Nat.le_of_lt_succ (short rules hrules).1)
    (fun rules hrules r hr => Nat.le_of_lt_succ ((short rules hrules).2 r hr))
  exact (bytes_eq_ok_iff_of_binary rfl).mpr ⟨_, taken, wellFormed.encode_eq⟩

end Compiled

end TraceRegex
