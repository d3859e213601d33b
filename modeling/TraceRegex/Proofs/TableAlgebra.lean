import TraceRegex.Proofs.Totalization
import TraceRegex.Table.Algebra

/-! # Tables of automata

An operation on tables builds its result entry by entry: it asks for a table without rules and adds
them one at a time, counting in 64 bits.  On the tables of automata this amounts to the operation on
automata.  The only thing that can go wrong is that there is no room for the result, and then the
operation ends in a fault.

Sums of states never wrap around, since there was room for the operands.  Products may, so that there
the statement is about results whose states 64 bits can count.
-/

namespace TraceRegex

/-! ## Loops -/

section

variable {m : Type → Type} [Monad m] [LawfulMonad m] {α β γ : Type}

theorem foldlM_pairs (xs : List α) (ys : List β) (step : γ → α → β → m γ) (s : γ) :
    xs.foldlM (fun s x => ys.foldlM (fun s y => step s x y) s) s =
      (xs.flatMap fun x => ys.map (x, ·)).foldlM (fun s p => step s p.1 p.2) s := by
  induction xs generalizing s with
  | nil => rfl
  | cons x xs ih =>
    rw [List.foldlM_cons, List.flatMap_cons, List.foldlM_append, List.foldlM_map]
    simp only [ih]

theorem mapM_pairs (xs : List α) (ys : List β) (f : α → β → m γ) :
    (xs.flatMap fun x => ys.map (x, ·)).mapM (fun p => f p.1 p.2) =
      do return (← xs.mapM fun x => ys.mapM fun y => f x y).flatten := by
  induction xs with
  | nil => simp
  | cons x xs ih =>
    rw [List.flatMap_cons, List.mapM_append, List.mapM_map, List.mapM_cons, ih]
    simp [Function.comp_def]

theorem mapM_congr {xs : List α} {f g : α → m β} (h : ∀ x ∈ xs, f x = g x) :
    xs.mapM f = xs.mapM g := by
  induction xs with
  | nil => rfl
  | cons x xs ih =>
    rw [List.mapM_cons, List.mapM_cons, h x List.mem_cons_self,
      ih fun y hy => h y (List.mem_cons_of_mem x hy)]

/-- What follows a loop may count on as many results as there were entries. -/
theorem mapM_bind_congr {xs : List α} {f : α → m β} {g g' : List β → m γ}
    (h : ∀ ys, ys.length = xs.length → g ys = g' ys) : xs.mapM f >>= g = xs.mapM f >>= g' := by
  induction xs generalizing g g' with
  | nil =>
    rw [List.mapM_nil, pure_bind, pure_bind]
    exact h [] rfl
  | cons x xs ih =>
    simp only [List.mapM_cons, bind_assoc, pure_bind]
    congr 1
    funext y
    exact ih fun ys length => h (y :: ys) (congrArg Nat.succ length)

theorem mapM_singletons (xs : List α) (f : α → m β) :
    (do return (← xs.mapM fun x => do return [← f x]).flatten) = xs.mapM f := by
  induction xs with
  | nil => simp
  | cons x xs ih =>
    simp only [List.mapM_cons, ← ih]
    simp

theorem mapM_liftM {ε : Type} (xs : List α) (f : α → m β) :
    xs.mapM (fun x => (liftM (f x) : ExceptT ε m β)) = liftM (xs.mapM f) := by
  induction xs with
  | nil => simp
  | cons x xs ih => simp [ih]

theorem mapM_zipIdx (xs : List α) (f : α → m β) : xs.zipIdx.mapM (fun p => f p.1) = xs.mapM f := by
  rw [← List.zipIdx_map_fst 0 xs, List.mapM_map, List.zipIdx_map_fst]
  rfl

theorem flatMap_range_eq (count width : Nat) :
    ((List.range count).flatMap fun p => (List.range width).map fun q => p * width + q) =
      List.range (count * width) := by
  induction count with
  | zero => simp
  | succ count ih =>
    rw [List.range_succ, List.flatMap_append, ih, Nat.succ_mul, List.range_add]
    simp

end

/-- There is room for the lists of rules of the automaton. -/
def Automaton.HasRoom (a : Automaton) : Prop := a.stateCount * ruleListBytes ≤ maxTableBytes

namespace Table

variable {t : Table} {q : Nat}

/-! ## Adding rules to one list -/

/-- The table with rules put behind those of the state `q`. -/
def extend (t : Table) (q : Nat) (rules : List Rule) : Table :=
  { t with transitions := t.transitions.modify q (· ++ rules) }

@[simp]
theorem size_extend (t : Table) (q : Nat) (rules : List Rule) :
    (t.extend q rules).transitions.size = t.transitions.size := Array.size_modify

theorem extend_nil (t : Table) (q : Nat) : t.extend q [] = t := by
  have same : t.transitions.modify q (· ++ []) = t.transitions := by
    ext i hi
    · simp
    · simp [Array.getElem_modify]
  unfold extend
  rw [same]

theorem extend_extend (t : Table) (q : Nat) (rules rules' : List Rule) :
    (t.extend q rules).extend q rules' = t.extend q (rules ++ rules') := by
  have same : (t.transitions.modify q (· ++ rules)).modify q (· ++ rules') =
      t.transitions.modify q (· ++ (rules ++ rules')) := by
    ext i hi
    · simp
    · by_cases here : q = i <;> simp [Array.getElem_modify, here]
  unfold extend
  rw [← same]

/-- The table with other lists of rules. -/
def withLists (t : Table) (lists : List (List Rule)) : Table :=
  { t with transitions := lists.toArray }

@[simp]
theorem size_withLists (t : Table) (lists : List (List Rule)) :
    (t.withLists lists).transitions.size = lists.length := rfl

/-- The list of a state has as many others before it as its number says. -/
theorem extend_withLists (t : Table) (before after : List (List Rule)) (old rules : List Rule) :
    (t.withLists (before ++ old :: after)).extend before.length rules =
      t.withLists (before ++ (old ++ rules) :: after) := by
  have inside : before.length < (before ++ old :: after).length := by simp
  unfold extend withLists
  rw [List.modify_toArray, List.modify_eq_take_cons_drop inside]
  simp

theorem addRule_eq (h : q < t.transitions.size) (r : Rule) : t.addRule q r = .ok (t.extend q [r]) :=
  if_pos h

theorem addRules_eq (h : q < t.transitions.size) (rules : List Rule) :
    t.addRules q rules = .ok (t.extend q rules) := by
  unfold addRules
  induction rules generalizing t with
  | nil => rw [extend_nil]; rfl
  | cons r rules ih =>
    have later := ih (t := t.extend q [r]) (by simpa using h)
    rw [extend_extend] at later
    rw [List.foldlM_cons, addRule_eq h]
    exact later

theorem addRules_withLists (t : Table) (before after : List (List Rule)) (old rules : List Rule) :
    (t.withLists (before ++ old :: after)).addRules before.length rules =
      .ok (t.withLists (before ++ (old ++ rules) :: after)) := by
  rw [addRules_eq (by simp), extend_withLists]

section

variable {m : Type → Type} [Monad m] [LawfulMonad m] {α : Type} {xs : List α}
  {f : α → m (List Rule)} {step : Table → α → m Table}

/-- A loop that adds what it builds to one list. -/
theorem foldlM_extend (h : q < t.transitions.size)
    (adds : ∀ x ∈ xs, ∀ t : Table, q < t.transitions.size →
      step t x = do return t.extend q (← f x)) :
    xs.foldlM step t = do return t.extend q (← xs.mapM f).flatten := by
  induction xs generalizing t with
  | nil => simp [extend_nil]
  | cons x xs ih =>
    rw [List.foldlM_cons, adds x List.mem_cons_self t h, List.mapM_cons]
    simp only [bind_assoc, pure_bind]
    congr 1
    funext rules
    rw [ih (by simpa using h) fun y hy => adds y (List.mem_cons_of_mem x hy)]
    simp only [extend_extend, List.flatten_cons]

/-- A loop that adds what it builds to one list after the other, each of which was empty. -/
theorem foldlM_fill (t : Table) (place : α → Nat) (before after : List (List Rule))
    (places : xs.map place = List.range' before.length xs.length)
    (adds : ∀ x ∈ xs, ∀ t : Table, place x < t.transitions.size →
      step t x = do return t.extend (place x) (← f x)) :
    xs.foldlM step (t.withLists (before ++ (List.replicate xs.length [] ++ after))) = do
      return t.withLists (before ++ ((← xs.mapM f) ++ after)) := by
  induction xs generalizing before with
  | nil => simp
  | cons x xs ih =>
    rw [List.map_cons, List.length_cons, List.range'_succ, List.cons.injEq] at places
    obtain ⟨first, later⟩ := places
    have inside : place x < (t.withLists
        (before ++ (List.replicate (x :: xs).length [] ++ after))).transitions.size := by
      rw [first, size_withLists, List.length_append, List.length_append, List.length_replicate,
        List.length_cons]
      omega
    rw [List.foldlM_cons, adds x List.mem_cons_self _ inside, List.mapM_cons]
    simp only [bind_assoc, pure_bind]
    congr 1
    funext rules
    have grown : (t.withLists
        (before ++ (List.replicate (x :: xs).length [] ++ after))).extend (place x) rules =
        t.withLists ((before ++ [rules]) ++ (List.replicate xs.length [] ++ after)) := by
      rw [first, ← List.append_cons]
      exact t.extend_withLists before _ [] rules
    rw [grown, ih (before ++ [rules]) (by simpa using later) fun y hy => adds y (List.mem_cons_of_mem x hy)]
    simp

end

/-! ## Numbers that do not wrap around -/

theorem wrap_eq {n : Nat} (h : n ≤ maxWord) : wrap n = n := Nat.mod_eq_of_lt (Nat.lt_succ_of_le h)

theorem move_eq {r : Rule} {offset : Nat} (h : r.target + offset ≤ maxWord) :
    r.move offset = r.shift offset := by
  unfold Rule.move Rule.shift
  rw [wrap_eq h]

variable {a b : Automaton}

/-- The table of an automaton, if there is room for it. -/
def allocate (a : Automaton) : Except Fault Table := do
  checkTable a.stateCount ruleListBytes
  return ofAutomaton a

theorem map_move_eq {rules : List Rule} {offset : Nat}
    (h : ∀ r ∈ rules, r.target + offset ≤ maxWord) :
    rules.map (·.move offset) = rules.map (·.shift offset) :=
  List.map_congr_left fun r hr => move_eq (h r hr)

section

variable (a : Automaton)

@[simp]
theorem stateCount_ofAutomaton : (ofAutomaton a).stateCount = a.stateCount := rfl

@[simp]
theorem initial_ofAutomaton : (ofAutomaton a).initial = a.initial := rfl

@[simp]
theorem finals_ofAutomaton : (ofAutomaton a).finals = a.finals.items := rfl

@[simp]
theorem isFinal_ofAutomaton : (ofAutomaton a).isFinal q = a.isFinal q := rfl

@[simp]
theorem acceptsEmpty_ofAutomaton : (ofAutomaton a).acceptsEmpty = a.acceptsEmpty := rfl

end

theorem map_snd_zipIdx (ha : a.Valid) :
    a.transitions.zipIdx.map Prod.snd = List.range a.stateCount := by
  rw [List.zipIdx_map_snd, ha.length_transitions, List.range_eq_range']

theorem rulesAt_ofAutomaton {rules : List Rule} (h : (rules, q) ∈ a.transitions.zipIdx) :
    (ofAutomaton a).rulesAt q = .ok rules := by
  have stands : a.transitions[q]? = some rules := List.mem_zipIdx_iff_getElem?.mp h
  simp [rulesAt, ofAutomaton, stands]

theorem initialRules_ofAutomaton (ha : a.Valid) :
    (ofAutomaton a).initialRules = .ok a.initialRules := by
  have inside : a.initial < a.transitions.length := ha.length_transitions ▸ ha.initial_lt
  simp [initialRules, rulesAt, ofAutomaton, Automaton.initialRules, Automaton.rulesFrom, inside]

theorem movedFinals_ofAutomaton (ha : a.Valid) {offset : Nat}
    (small : offset + a.stateCount ≤ maxWord) :
    (ofAutomaton a).movedFinals offset = (a.finals.shift offset).items := by
  apply Array.toList_inj.mp
  rw [movedFinals, Array.toList_map]
  refine List.map_congr_left fun q hq => wrap_eq ?_
  have := ha.finals_lt q hq
  omega

theorem insertFinal_items (finals : StateSet) (q : Nat) :
    insertFinal finals.items q = (finals.insert q).items := by
  have found : (finals.items[placeOf finals.items q]? == some q) = finals.contains q := rfl
  unfold insertFinal SortedSet.insert
  dsimp only
  rw [found]
  split
  · rfl
  · apply Array.toList_inj.mp
    simp [SortedSet.listing, SortedSet.toList, SortedSet.place, placeOf, List.take_of_length_le]

theorem embed_withLists (t : Table) (ha : a.Valid) (before after : List (List Rule))
    (small : before.length + a.stateCount ≤ maxWord) :
    (t.withLists (before ++ (List.replicate a.stateCount [] ++ after))).embed
        (ofAutomaton a) before.length =
      .ok (t.withLists
        (before ++ (Automaton.shiftRules a.transitions before.length ++ after))) := by
  have length : a.stateCount = a.transitions.zipIdx.length := by
    rw [List.length_zipIdx, ha.length_transitions]
  have shifted : Automaton.shiftRules a.transitions before.length =
      a.transitions.zipIdx.map fun p => p.1.map (·.shift before.length) := by
    rw [Automaton.shiftRules, ← List.zipIdx_map_fst 0 a.transitions, List.map_map,
      List.zipIdx_map_fst]
    rfl
  unfold embed
  rw [length]
  refine (foldlM_fill t (fun p => p.2 + before.length) before after
    (f := fun p => pure (p.1.map (·.shift before.length))) ?_ ?_).trans ?_
  · have places := congrArg (List.map (before.length + ·)) (List.zipIdx_map_snd 0 a.transitions)
    rw [List.map_map, List.map_add_range'] at places
    simpa [Nat.add_comm, Function.comp_def] using places
  · rintro ⟨rules, q⟩ hp t inside
    obtain ⟨listed, stands⟩ := List.mem_zipIdx' hp
    rw [ha.length_transitions] at listed
    dsimp only at inside ⊢
    rw [wrap_eq (by omega), addRules_eq inside, map_move_eq]
    · rfl
    · intro r hr
      have := ha.target_lt rules (stands ▸ List.getElem_mem _) r hr
      omega
  · rw [List.mapM_pure, shifted]
    rfl

theorem add_le_maxWord (roomA : a.HasRoom) (roomB : b.HasRoom) :
    a.stateCount + b.stateCount + 1 ≤ maxWord := by
  unfold Automaton.HasRoom ruleListBytes maxTableBytes at roomA roomB
  unfold maxWord
  omega

/-- What is built in a table without rules is the table of an automaton, if there is room for it. -/
theorem blank_bind {c : Automaton} {f : Table → Except Fault Table}
    (h : f ((ofAutomaton c).withLists (List.replicate c.stateCount [])) = .ok (ofAutomaton c)) :
    (blank c.atomCount c.stateCount c.initial c.finals.items >>= f) = allocate c := by
  unfold blank allocate
  cases checkTable c.stateCount ruleListBytes with
  | error e => rfl
  | ok _ =>
    rw [← List.toArray_replicate]
    exact h

theorem bind_of_eq_ok {α β : Type} {x : Except Fault α} {y : α} (h : x = .ok y)
    (f : α → Except Fault β) : (x >>= f) = f y := by
  rw [h]
  rfl

theorem shiftRules_zero (transitions : List (List Rule)) :
    Automaton.shiftRules transitions 0 = transitions := by
  simp [Automaton.shiftRules, Rule.shift]

theorem map_move_initialRules (ha : a.Valid) {offset : Nat}
    (small : offset + a.stateCount ≤ maxWord) :
    a.initialRules.map (·.move offset) = a.initialRules.map (·.shift offset) := by
  refine map_move_eq fun r hr => ?_
  have := (ha.mem_initialRules hr).1
  omega

/-! ## Union -/

theorem finals_union (hb : b.Valid) (small : a.stateCount + b.stateCount ≤ maxWord) :
    (if (ofAutomaton a).acceptsEmpty || (ofAutomaton b).acceptsEmpty then
      insertFinal (mergeFinals a.finals.items ((ofAutomaton b).movedFinals a.stateCount))
        (a.stateCount + b.stateCount)
    else mergeFinals a.finals.items ((ofAutomaton b).movedFinals a.stateCount)) =
    (a.union b).finals.items := by
  have merged : mergeFinals a.finals.items ((ofAutomaton b).movedFinals a.stateCount) =
      (a.finals.union (b.finals.shift a.stateCount)).items := by
    rw [movedFinals_ofAutomaton hb small]
    rfl
  rw [merged, insertFinal_items, acceptsEmpty_ofAutomaton, acceptsEmpty_ofAutomaton]
  unfold Automaton.union
  dsimp only
  split
  · rfl
  · rfl

theorem union_ofAutomaton (ha : a.Valid) (hb : b.Valid) (roomA : a.HasRoom) (roomB : b.HasRoom) :
    (ofAutomaton a).union (ofAutomaton b) = allocate (a.union b) := by
  have small := add_le_maxWord roomA roomB
  have lengthA : a.transitions.length = a.stateCount := ha.length_transitions
  have lengthB : b.transitions.length = b.stateCount := hb.length_transitions
  have finals := finals_union (a := a) hb (Nat.le_of_succ_le small)
  unfold union
  rw [stateCount_ofAutomaton, stateCount_ofAutomaton,
    wrap_eq (Nat.le_of_succ_le small)]
  dsimp only
  rw [wrap_eq small, finals_ofAutomaton, finals]
  refine blank_bind (c := a.union b) ?_
  -- the lists of the first operand, those of the second, and the one of the new initial state
  have lists : List.replicate (a.union b).stateCount ([] : List Rule) =
      [] ++ (List.replicate a.stateCount [] ++ (List.replicate b.stateCount [] ++ [[]])) := by
    rw [List.nil_append, ← List.replicate_one, List.replicate_append_replicate,
      List.replicate_append_replicate]
    rfl
  have first := (ofAutomaton (a.union b)).embed_withLists ha []
    (List.replicate b.stateCount [] ++ [[]]) (by simp; omega)
  have second := (ofAutomaton (a.union b)).embed_withLists hb a.transitions [[]] (by omega)
  have places : (a.transitions ++ Automaton.shiftRules b.transitions a.stateCount).length =
      a.stateCount + b.stateCount := by
    simp [Automaton.shiftRules, lengthA, lengthB]
  rw [List.length_nil, shiftRules_zero] at first
  rw [lengthA] at second
  rw [lists, bind_of_eq_ok first, List.nil_append, bind_of_eq_ok second,
    bind_of_eq_ok (initialRules_ofAutomaton ha), ← List.append_assoc, ← places,
    bind_of_eq_ok (addRules_withLists _ _ _ _ _), bind_of_eq_ok (initialRules_ofAutomaton hb),
    addRules_withLists]
  rw [map_move_initialRules hb (by omega)]
  rfl

/-! ## Concatenation -/

theorem finals_concat (hb : b.Valid) (small : a.stateCount + b.stateCount ≤ maxWord) :
    mergeFinals (if (ofAutomaton b).acceptsEmpty then (ofAutomaton a).finals else #[])
      ((ofAutomaton b).movedFinals a.stateCount) = (a.concat b).finals.items := by
  rw [movedFinals_ofAutomaton hb small, acceptsEmpty_ofAutomaton]
  unfold Automaton.concat
  dsimp only
  split
  · rfl
  · rfl

/-- A loop over the states of an automaton that adds what it builds to the list of each of them. -/
theorem foldlM_states {m : Type → Type} [Monad m] [LawfulMonad m] (t : Table) (ha : a.Valid)
    (f : List Rule × Nat → m (List Rule)) {step : Table → Nat → m Table}
    (after : List (List Rule))
    (adds : ∀ p ∈ a.transitions.zipIdx, ∀ t : Table, p.2 < t.transitions.size →
      step t p.2 = do return t.extend p.2 (← f p)) :
    (List.range a.stateCount).foldlM step
        (t.withLists (List.replicate a.stateCount [] ++ after)) = do
      return t.withLists ((← a.transitions.zipIdx.mapM f) ++ after) := by
  have length : a.stateCount = a.transitions.zipIdx.length := by
    rw [List.length_zipIdx, ha.length_transitions]
  rw [← map_snd_zipIdx ha, List.foldlM_map, length]
  refine foldlM_fill t Prod.snd [] after ?_ adds
  rw [List.zipIdx_map_snd, List.length_zipIdx, List.length_nil]

theorem concat_ofAutomaton (ha : a.Valid) (hb : b.Valid) (roomA : a.HasRoom) (roomB : b.HasRoom) :
    (ofAutomaton a).concat (ofAutomaton b) = allocate (a.concat b) := by
  have small := Nat.le_of_succ_le (add_le_maxWord roomA roomB)
  unfold concat
  rw [stateCount_ofAutomaton, stateCount_ofAutomaton]
  dsimp only
  rw [wrap_eq small, finals_concat hb small]
  refine blank_bind (c := a.concat b) ?_
  have lists : List.replicate (a.concat b).stateCount ([] : List Rule) =
      List.replicate a.stateCount [] ++ List.replicate b.stateCount [] :=
    List.replicate_append_replicate.symm
  have embedded := (ofAutomaton (a.concat b)).embed_withLists hb
    (a.transitions.zipIdx.map fun p =>
      if a.isFinal p.2 then p.1 ++ b.initialRules.map (·.shift a.stateCount) else p.1) []
    (by simpa [ha.length_transitions] using small)
  rw [List.append_nil, List.append_nil, List.length_map, List.length_zipIdx,
    ha.length_transitions] at embedded
  rw [lists, foldlM_states _ ha (fun p => (pure (if a.isFinal p.2 then
    p.1 ++ b.initialRules.map (·.shift a.stateCount) else p.1) : Except Fault _))]
  · rw [List.mapM_pure]
    exact embedded
  · rintro ⟨rules, q⟩ hp t inside
    rw [bind_of_eq_ok (rulesAt_ofAutomaton hp), bind_of_eq_ok (addRules_eq inside rules),
      bind_of_eq_ok (initialRules_ofAutomaton hb), map_move_initialRules hb small,
      addRules_eq (by simpa using inside), extend_extend]
    show (if a.isFinal q then _ else _) = _
    split
    · rfl
    · rfl

/-! ## Repetition -/

theorem allocate_eq_ok (room : a.HasRoom) : allocate a = .ok (ofAutomaton a) :=
  bind_of_eq_ok (if_pos room) _

theorem allocate_eq_error (full : ¬a.HasRoom) : allocate a = .error .outOfRange := by
  have fault : checkTable a.stateCount ruleListBytes = .error .outOfRange := if_neg full
  rw [allocate, fault]
  rfl

theorem plus_ofAutomaton (ha : a.Valid) : (ofAutomaton a).plus = allocate a.plus := by
  have lists : ((ofAutomaton a).transitions.mapIdx fun q rules =>
      if (ofAutomaton a).isFinal q then rules ++ a.initialRules else rules) =
      a.plus.transitions.toArray := by
    show a.transitions.toArray.mapIdx _ = _
    rw [List.mapIdx_toArray, List.mapIdx_eq_zipIdx_map]
    rfl
  have size : (ofAutomaton a.plus).transitions.size = (ofAutomaton a.plus).stateCount := by
    show (a.transitions.zipIdx.map _).toArray.size = a.stateCount
    rw [List.size_toArray, List.length_map, List.length_zipIdx, ha.length_transitions]
  have fitted : (ofAutomaton a.plus).fitted = .ok (ofAutomaton a.plus) := by
    rw [fitted_eq, if_pos (fits_of_size_eq size), padded_eq size]
  unfold plus allocate
  rw [initialRules_ofAutomaton ha]
  show (checkTable a.stateCount ruleListBytes >>= fun _ => _) =
    (checkTable a.stateCount ruleListBytes >>= fun _ => _)
  congr 1
  funext _
  refine (bind_of_eq_ok rfl _).trans ?_
  dsimp only
  rw [lists]
  exact fitted

theorem any_rules (a : Automaton) :
    ((ofAutomaton a).rules.any fun p => p.2.target == a.initial) = a.isReentrant := by
  have firsts := List.zipIdx_map_fst 0 a.transitions
  unfold Automaton.isReentrant
  rw [← firsts, List.any_map]
  simp [rules, ofAutomaton, List.any_flatMap, Function.comp_def]

theorem finals_isolated (a : Automaton) :
    (if (ofAutomaton a).acceptsEmpty then insertFinal (ofAutomaton a).finals a.stateCount
      else (ofAutomaton a).finals) = a.isolated.finals.items := by
  rw [finals_ofAutomaton, insertFinal_items, acceptsEmpty_ofAutomaton]
  unfold Automaton.isolated
  dsimp only
  split
  · rfl
  · rfl

theorem isolate_ofAutomaton (ha : a.Valid) (room : a.HasRoom) :
    (ofAutomaton a).isolate = allocate a.isolate := by
  have small : a.stateCount + 1 ≤ maxWord := by
    unfold Automaton.HasRoom ruleListBytes maxTableBytes at room
    unfold maxWord
    omega
  have shape : a.isolate = if a.isReentrant then a.isolated else a := rfl
  unfold isolate
  rw [initial_ofAutomaton, stateCount_ofAutomaton, any_rules, shape]
  by_cases reentrant : a.isReentrant
  · rw [if_pos reentrant, if_pos reentrant, wrap_eq small, finals_isolated]
    refine blank_bind (c := a.isolated) ?_
    have lists : List.replicate a.isolated.stateCount ([] : List Rule) =
        [] ++ (List.replicate a.stateCount [] ++ [[]]) := by
      rw [List.nil_append, ← List.replicate_one, List.replicate_append_replicate]
      rfl
    have embedded := (ofAutomaton a.isolated).embed_withLists ha [] [[]] (by simp; omega)
    rw [List.length_nil, shiftRules_zero] at embedded
    have last := (ofAutomaton a.isolated).addRules_withLists a.transitions [] [] a.initialRules
    rw [ha.length_transitions] at last
    rw [lists, bind_of_eq_ok embedded, bind_of_eq_ok (initialRules_ofAutomaton ha)]
    exact last
  · rw [if_neg reentrant, if_neg reentrant, allocate_eq_ok room]
    rfl

theorem star_ofAutomaton (ha : a.Valid) (room : a.HasRoom) :
    (ofAutomaton a).star = allocate a.star := by
  have valid := (Automaton.isolate_spec ha).1
  have count : a.star.stateCount = a.isolate.stateCount := rfl
  unfold star
  rw [isolate_ofAutomaton ha room]
  by_cases isolated : a.isolate.HasRoom
  · have made : a.isolate.plus.HasRoom := isolated
    have result : a.star.HasRoom := isolated
    rw [bind_of_eq_ok (allocate_eq_ok isolated), plus_ofAutomaton valid,
      bind_of_eq_ok (allocate_eq_ok made), allocate_eq_ok result,
      finals_ofAutomaton, insertFinal_items]
    rfl
  · have full : ¬a.star.HasRoom := isolated
    rw [allocate_eq_error isolated, allocate_eq_error full]
    rfl

/-! ## Fusion and intersection -/

/-- The conjunctions of a rule with others, each of which leads to where `target` says. -/
def conjunctions (target : Nat → Nat) (r : Rule) (others : List Rule) : Build (List Rule) :=
  others.mapM fun r' => do return ⟨← Build.and r.guard r'.guard, target r'.target⟩

theorem liftM_ok {α : Type} (x : α) : (liftM (Except.ok x : Except Fault α) : Lookup α) = pure x :=
  rfl

theorem addConjunctions_eq (h : q < t.transitions.size) (target : Nat → Nat) (r : Rule)
    (others : List Rule) : t.addConjunctions q target r others =
      do return t.extend q (← conjunctions target r others) := by
  unfold addConjunctions conjunctions
  rw [← mapM_liftM, ← mapM_singletons, foldlM_extend h (f := fun r' => do
    return [Rule.mk (← Build.and r.guard r'.guard) (target r'.target)])]
  · simp
  · intro r' _ t h
    simp [addRule_eq h, liftM_ok]

theorem blank_bindM (c : Automaton) {f : Table → Lookup Table} {result : Lookup Table}
    (h : f ((ofAutomaton c).withLists (List.replicate c.stateCount [])) = result) :
    (do f (← blank c.atomCount c.stateCount c.initial c.finals.items) : Lookup Table) = (do
      checkTable c.stateCount ruleListBytes
      result : Lookup Table) := by
  unfold blank
  cases checkTable c.stateCount ruleListBytes with
  | error e => rfl
  | ok _ =>
    rw [← h, ← List.toArray_replicate]
    rfl

theorem conjunctions_congr {target target' : Nat → Nat} {others : List Rule}
    (h : ∀ r ∈ others, target r.target = target' r.target) (r : Rule) :
    conjunctions target r others = conjunctions target' r others := by
  refine mapM_congr fun r' hr' => ?_
  rw [h r' hr']

theorem fuseRule_eq (a b : Automaton) (r : Rule) : Automaton.fuseRule a b r =
    if a.isFinal r.target then
      return r :: (← conjunctions (· + a.stateCount) r b.initialRules)
    else return [r] := rfl

/-- Fusing one rule adds it, and after it its conjunctions. -/
theorem addFused (hb : b.Valid) (small : a.stateCount + b.stateCount ≤ maxWord)
    (h : q < t.transitions.size) (r : Rule) :
    (do let t ← t.addRule q r
        if (ofAutomaton a).isFinal r.target then
          t.addConjunctions q (fun p => wrap (p + a.stateCount)) r (← (ofAutomaton b).initialRules)
        else return t : Lookup Table) = do return t.extend q (← Automaton.fuseRule a b r) := by
  rw [addRule_eq h, initialRules_ofAutomaton hb, fuseRule_eq, isFinal_ofAutomaton]
  by_cases final : a.isFinal r.target
  · have size : q < (t.extend q [r]).transitions.size := by simpa using h
    have same : conjunctions (fun p => wrap (p + a.stateCount)) r b.initialRules =
        conjunctions (· + a.stateCount) r b.initialRules := by
      refine conjunctions_congr (fun r' hr' => wrap_eq ?_) r
      have := (hb.mem_initialRules hr').1
      omega
    simp [final, liftM_ok, addConjunctions_eq size, extend_extend, same]
  · simp [final, liftM_ok]

theorem fuse_ofAutomaton (ha : a.Valid) (hb : b.Valid) (roomA : a.HasRoom) (roomB : b.HasRoom) :
    (ofAutomaton a).fuse (ofAutomaton b) = (do
      checkTable (a.stateCount + b.stateCount) ruleListBytes
      return ofAutomaton (← a.fuse b) : Lookup Table) := by
  have small := Nat.le_of_succ_le (add_le_maxWord roomA roomB)
  unfold fuse
  rw [stateCount_ofAutomaton, stateCount_ofAutomaton]
  dsimp only
  rw [wrap_eq small, movedFinals_ofAutomaton hb small]
  refine blank_bindM { a with
    atomCount := max a.atomCount b.atomCount
    stateCount := a.stateCount + b.stateCount
    finals := b.finals.shift a.stateCount } ?_
  have lists : List.replicate (a.stateCount + b.stateCount) ([] : List Rule) =
      List.replicate a.stateCount [] ++ List.replicate b.stateCount [] :=
    List.replicate_append_replicate.symm
  dsimp only
  rw [lists, foldlM_states _ ha fun p => (liftM (do
    return (← p.1.mapM (Automaton.fuseRule a b)).flatten : Build (List Rule)) : Lookup _)]
  · rw [mapM_zipIdx a.transitions fun rules => (liftM (do
      return (← rules.mapM (Automaton.fuseRule a b)).flatten : Build (List Rule)) : Lookup _)]
    unfold Automaton.fuse
    rw [bind_assoc, liftM_bind, bind_assoc, ← mapM_liftM]
    refine mapM_bind_congr fun fused length => ?_
    rw [ha.length_transitions] at length
    have embedded := embed_withLists (ofAutomaton { a with
      atomCount := max a.atomCount b.atomCount
      stateCount := a.stateCount + b.stateCount
      finals := b.finals.shift a.stateCount }) hb fused [] (length ▸ small)
    rw [List.append_nil, List.append_nil, length] at embedded
    rw [pure_bind, embedded]
    rfl
  · rintro ⟨rules, q⟩ hp t inside
    rw [rulesAt_ofAutomaton hp, liftM_ok, pure_bind,
      foldlM_extend inside fun r _ t h => addFused hb small h r, mapM_liftM]
    simp

/-- The rules of a pair of states in the intersection. -/
def products (width : Nat) (rules rules' : List Rule) : Build (List Rule) := do
  return (← rules.mapM fun r => conjunctions (r.target * width + ·) r rules').flatten

theorem pair_le {p q : Nat} (hp : p < a.stateCount) (hq : q < b.stateCount)
    (small : a.stateCount * b.stateCount ≤ maxWord) : p * b.stateCount + q ≤ maxWord :=
  Nat.le_trans (Nat.le_of_lt (Automaton.pair_lt hp hq)) small

theorem addProducts (ha : a.Valid) (hb : b.Valid) (small : a.stateCount * b.stateCount ≤ maxWord)
    {rules rules' : List Rule} {p q : Nat} (hp : (rules, p) ∈ a.transitions.zipIdx)
    (hq : (rules', q) ∈ b.transitions.zipIdx) (h : p * b.stateCount + q < t.transitions.size) :
    (do (← (ofAutomaton a).rulesAt p).foldlM (fun (t : Table) r => do
          t.addConjunctions (wrap (p * b.stateCount + q))
            (fun q => wrap (r.target * b.stateCount + q)) r (← (ofAutomaton b).rulesAt q)) t
        : Lookup Table) =
      do return t.extend (p * b.stateCount + q) (← products b.stateCount rules rules') := by
  obtain ⟨insideA, standsA⟩ := List.mem_zipIdx' hp
  obtain ⟨insideB, standsB⟩ := List.mem_zipIdx' hq
  rw [ha.length_transitions] at insideA
  rw [hb.length_transitions] at insideB
  rw [rulesAt_ofAutomaton hp, rulesAt_ofAutomaton hq, liftM_ok, pure_bind,
    wrap_eq (pair_le insideA insideB small),
    foldlM_extend h (f := fun r => liftM (conjunctions (r.target * b.stateCount + ·) r rules'))]
  · rw [mapM_liftM, products]
    simp
  · intro r hr t h
    have target := ha.target_lt rules (standsA ▸ List.getElem_mem _) r hr
    have same : conjunctions (fun q => wrap (r.target * b.stateCount + q)) r rules' =
        conjunctions (r.target * b.stateCount + ·) r rules' :=
      conjunctions_congr (fun r' hr' => wrap_eq (pair_le target
        (hb.target_lt rules' (standsB ▸ List.getElem_mem _) r' hr') small)) r
    rw [liftM_ok, pure_bind, addConjunctions_eq h, same]

theorem finals_intersect (ha : a.Valid) (hb : b.Valid)
    (small : a.stateCount * b.stateCount ≤ maxWord) :
    ((ofAutomaton a).finals.toList.flatMap fun p => (ofAutomaton b).finals.toList.map fun q =>
      wrap (p * b.stateCount + q)) =
    a.finals.toList.flatMap fun p => b.finals.toList.map fun q => p * b.stateCount + q := by
  refine congrArg List.flatten (List.map_congr_left fun p hp => List.map_congr_left fun q hq => ?_)
  exact wrap_eq (pair_le (ha.finals_lt p hp) (hb.finals_lt q hq) small)

/-- Pairs of states with their lists, in the order of their numbers. -/
theorem places_pairs (ha : a.Valid) (hb : b.Valid) :
    ((a.transitions.zipIdx.flatMap fun x => b.transitions.zipIdx.map (x, ·)).map
      fun p => p.1.2 * b.stateCount + p.2.2) = List.range (a.stateCount * b.stateCount) := by
  rw [← flatMap_range_eq, ← map_snd_zipIdx ha, ← map_snd_zipIdx hb, List.map_flatMap,
    List.flatMap_map]
  simp only [List.map_map, Function.comp_def]

/-- The rules of all pairs are the rows of the product, one after the other. -/
theorem mapM_products (a b : Automaton) (width : Nat) :
    ((a.transitions.zipIdx.flatMap fun x => b.transitions.zipIdx.map (x, ·)).mapM
      fun p => (liftM (products width p.1.1 p.2.1) : Lookup _)) = (do
      let rows ← liftM (a.transitions.mapM fun rules => b.transitions.mapM (products width rules))
      return rows.flatten) := by
  have row (rules : List Rule) : (b.transitions.zipIdx.mapM fun y =>
      (liftM (products width rules y.1) : Lookup _)) =
      liftM (b.transitions.mapM (products width rules)) :=
    (mapM_zipIdx b.transitions fun rules' => _).trans (mapM_liftM _ _)
  rw [mapM_pairs a.transitions.zipIdx b.transitions.zipIdx fun x y =>
    (liftM (products width x.1 y.1) : Lookup _)]
  simp only [row]
  rw [mapM_zipIdx a.transitions fun rules =>
    (liftM (b.transitions.mapM (products width rules)) : Lookup _), mapM_liftM]

theorem intersect_ofAutomaton (ha : a.Valid) (hb : b.Valid)
    (small : a.stateCount * b.stateCount ≤ maxWord) :
    (ofAutomaton a).intersect (ofAutomaton b) = (do
      checkTable (a.stateCount * b.stateCount) ruleListBytes
      return ofAutomaton (← a.intersect b) : Lookup Table) := by
  unfold intersect
  rw [stateCount_ofAutomaton, stateCount_ofAutomaton, initial_ofAutomaton,
    initial_ofAutomaton]
  dsimp only
  rw [wrap_eq small, finals_intersect ha hb small,
    wrap_eq (pair_le ha.initial_lt hb.initial_lt small)]
  refine blank_bindM { a with
    atomCount := max a.atomCount b.atomCount
    stateCount := a.stateCount * b.stateCount
    initial := a.initial * b.stateCount + b.initial
    finals := .ofList (a.finals.toList.flatMap fun p =>
      b.finals.toList.map fun q => p * b.stateCount + q) } ?_
  dsimp only
  rw [← map_snd_zipIdx ha, ← map_snd_zipIdx hb, List.foldlM_map]
  simp only [List.foldlM_map]
  -- one loop over pairs, which come in the order of their numbers
  rw [foldlM_pairs]
  have places := places_pairs ha hb
  have length := congrArg List.length places
  rw [List.length_map, List.length_range] at length
  have lists : List.replicate (a.stateCount * b.stateCount) ([] : List Rule) =
      [] ++ (List.replicate (a.transitions.zipIdx.flatMap fun x =>
        b.transitions.zipIdx.map (x, ·)).length [] ++ []) := by
    rw [length, List.nil_append, List.append_nil]
  rw [lists, foldlM_fill (f := fun p => (liftM (products b.stateCount p.1.1 p.2.1) : Lookup _)) _
    (fun p => p.1.2 * b.stateCount + p.2.2) [] []]
  · have shape : a.intersect b = (do
        let rows ← a.transitions.mapM fun rules => b.transitions.mapM (products b.stateCount rules)
        return { a with
          atomCount := max a.atomCount b.atomCount
          stateCount := a.stateCount * b.stateCount
          initial := a.initial * b.stateCount + b.initial
          finals := .ofList (a.finals.toList.flatMap fun p =>
            b.finals.toList.map fun q => p * b.stateCount + q)
          transitions := rows.flatten }) := rfl
    rw [mapM_products, shape, liftM_bind]
    simp only [bind_assoc, pure_bind, List.nil_append, List.append_nil, liftM_pure]
    rfl
  · rw [places, length, List.length_nil, List.range_eq_range']
  · rintro ⟨⟨rules, p⟩, ⟨rules', q⟩⟩ mem t inside
    obtain ⟨x, hx, paired⟩ := List.mem_flatMap.mp mem
    obtain ⟨y, hy, same⟩ := List.mem_map.mp paired
    cases same
    exact addProducts ha hb small hx hy inside

end Table

end TraceRegex
