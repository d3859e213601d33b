import TraceRegex.Proofs.Printing
import TraceRegex.Proofs.SearchCompilation

/-! # The numbers of atoms

Reading an expression numbers its identifiers in the order in which they first occur.  The derived
forms repeat their operands, and a permutation also changes their order, but the first copy of each
operand stands where the operand stood.  So the atoms of the expression first occur in the order of
their numbers, and the names are an alphabet for all automata that it is compiled to.
-/

namespace TraceRegex

/-! ## First occurrences -/

section

variable {α β : Type} [BEq α] [LawfulBEq α] [BEq β] [LawfulBEq β]

theorem eraseDups_filter (p : α → Bool) (xs : List α) :
    (xs.filter p).eraseDups = xs.eraseDups.filter p := by
  match xs with
  | [] => rfl
  | x :: xs =>
    have ih := eraseDups_filter p (xs.filter fun y => !y == x)
    rw [List.filter_filter] at ih
    by_cases hp : p x = true
    · rw [List.filter_cons_of_pos hp, List.eraseDups_cons, List.eraseDups_cons,
        List.filter_cons_of_pos hp, ← ih, List.filter_filter]
      simp only [Bool.and_comm]
    · rw [List.filter_cons_of_neg hp, List.eraseDups_cons, List.filter_cons_of_neg hp, ← ih]
      congr 1
      refine List.filter_congr fun y _ => ?_
      by_cases same : y = x
      · simp [same, hp]
      · simp [same]
termination_by xs.length
decreasing_by exact Nat.lt_succ_of_le (List.length_filter_le _ _)

theorem eraseDups_map {f : α → β} {xs : List α}
    (injective : ∀ x ∈ xs, ∀ y ∈ xs, f x = f y → x = y) :
    (xs.map f).eraseDups = xs.eraseDups.map f := by
  match xs with
  | [] => rfl
  | x :: xs =>
    have rest : (xs.map f).filter (fun y => !y == f x) = (xs.filter fun y => !y == x).map f := by
      rw [List.filter_map]
      congr 1
      refine List.filter_congr fun y hy => ?_
      have only := injective y (List.mem_cons_of_mem x hy) x List.mem_cons_self
      by_cases same : y = x
      · simp [same]
      · have other : f y ≠ f x := fun h => same (only h)
        simp [same, other]
    rw [List.map_cons, List.eraseDups_cons, rest, List.eraseDups_cons, List.map_cons]
    congr 1
    exact eraseDups_map fun y hy z hz => injective y
      (List.mem_cons_of_mem x (List.mem_filter.mp hy).1) z
      (List.mem_cons_of_mem x (List.mem_filter.mp hz).1)
termination_by xs.length
decreasing_by exact Nat.lt_succ_of_le (List.length_filter_le _ _)

theorem eraseDups_of_nodup {xs : List α} (h : xs.Nodup) : xs.eraseDups = xs := by
  induction xs with
  | nil => rfl
  | cons x xs ih =>
    rw [List.nodup_cons] at h
    have others : xs.filter (fun y => !y == x) = xs := by
      refine List.filter_eq_self.mpr fun y hy => ?_
      have other : y ≠ x := fun same => h.1 (same ▸ hy)
      simp [other]
    rw [List.eraseDups_cons, others, ih h.2]

/-- The second list adds what does not occur in the first. -/
theorem eraseDups_append_eq (xs ys : List α) :
    (xs ++ ys).eraseDups = xs.eraseDups ++ ys.eraseDups.filter (fun y => !xs.contains y) := by
  rw [List.eraseDups_append, ← eraseDups_filter]
  rfl

end

/-- The same numbers occur, in the same order of their first occurrences. -/
def SameFirsts (xs ys : List Nat) : Prop := xs.eraseDups = ys.eraseDups

namespace SameFirsts

variable {xs xs' ys ys' zs : List Nat}

theorem refl (xs : List Nat) : SameFirsts xs xs := rfl

theorem of_eq (h : xs = ys) : SameFirsts xs ys := congrArg List.eraseDups h

theorem trans (h : SameFirsts xs ys) (h' : SameFirsts ys zs) : SameFirsts xs zs := Eq.trans h h'

theorem mem_iff (h : SameFirsts xs ys) {x : Nat} : x ∈ xs ↔ x ∈ ys := by
  rw [← List.mem_eraseDups, h, List.mem_eraseDups]

theorem append (h : SameFirsts xs xs') (h' : SameFirsts ys ys') :
    SameFirsts (xs ++ ys) (xs' ++ ys') := by
  have same : (fun y => !xs.contains y) = fun y => !xs'.contains y := by
    funext y
    rw [Bool.eq_iff_iff]
    simp [h.mem_iff]
  unfold SameFirsts at h h' ⊢
  rw [eraseDups_append_eq, eraseDups_append_eq, h, h', same]

/-- What has occurred before adds nothing. -/
theorem absorb (h : ∀ y ∈ ys, y ∈ xs) : SameFirsts (xs ++ ys) xs := by
  have none : ys.eraseDups.filter (fun y => !xs.contains y) = [] := by
    refine List.filter_eq_nil_iff.mpr fun y hy => ?_
    simp [h y (List.mem_eraseDups.mp hy)]
  unfold SameFirsts
  rw [eraseDups_append_eq, none, List.append_nil]

end SameFirsts

/-! ## Derived forms -/

/-- What is joined from the left has the atoms of its parts in a row. -/
theorem atoms_foldl {α : Type} {atoms : α → List Nat} {combine : α → α → α}
    (both : ∀ x y, atoms (combine x y) = atoms x ++ atoms y) (x : α) (xs : List α) :
    atoms (xs.foldl combine x) = atoms x ++ xs.flatMap atoms := by
  induction xs generalizing x with
  | nil => simp
  | cons y xs ih => rw [List.foldl_cons, ih, both, List.flatMap_cons, List.append_assoc]

namespace Expression

theorem firsts_power (e : Expression) (n : Nat) : SameFirsts (e.power n).atoms e.atoms := by
  induction n with
  | zero => exact .refl _
  | succ n ih => exact (ih.append (.refl _)).trans (.absorb fun _ hi => hi)

theorem firsts_upTo (e : Expression) (n : Nat) : SameFirsts (e.upTo n).atoms e.atoms := by
  induction n with
  | zero => exact .refl _
  | succ n ih => exact ((SameFirsts.refl e.atoms).append ih).trans (.absorb fun _ hi => hi)

/-- A repetition keeps its operand, unless it asks for no copy at all. -/
theorem firsts_between (e : Expression) {lo hi : Nat} (some : lo ≠ 0 ∨ hi ≠ 0) :
    SameFirsts (e.between lo hi).atoms e.atoms := by
  unfold between
  split
  next none => omega
  next => exact e.firsts_power _
  next => exact e.firsts_upTo _
  next => exact ((e.firsts_power _).append (e.firsts_upTo _)).trans (.absorb fun _ hi => hi)

theorem firsts_atLeast (e : Expression) (lo : Nat) : SameFirsts (e.atLeast lo).atoms e.atoms := by
  unfold atLeast
  split
  next => exact .refl _
  next => exact .refl _
  next => exact ((e.firsts_power _).append (.refl e.atoms)).trans (.absorb fun _ hi => hi)

theorem firsts_abort (body exit : Expression) :
    SameFirsts (body.abort exit).atoms (body.atoms ++ exit.atoms) :=
  .absorb fun _ hi => List.mem_append_left _ hi

theorem atoms_unionOf (first : Expression) (rest : List Expression) :
    (unionOf first rest).atoms = first.atoms ++ rest.flatMap atoms :=
  atoms_foldl (fun _ _ => rfl) first rest

theorem perm_of_mem_picks {α : Type} {xs ys : List α} {y : α} (h : (y, ys) ∈ picks xs) :
    (y :: ys).Perm xs := by
  induction xs generalizing y ys with
  | nil => cases h
  | cons x xs ih =>
    rw [picks, List.mem_cons] at h
    cases h with
    | inl here =>
      cases here
      exact .refl _
    | inr later =>
      obtain ⟨⟨z, zs⟩, mem, same⟩ := List.mem_map.mp later
      cases same
      exact (List.Perm.swap _ _ _).trans ((ih mem).cons x)

/-- The first order that a permutation tries is the given one. -/
theorem firsts_permuteOf {n : Nat} {es : List Expression} (enough : es.length ≤ n) :
    SameFirsts (permuteOf n es).atoms (es.flatMap atoms) := by
  induction n generalizing es with
  | zero =>
    rw [List.length_eq_zero_iff.mp (Nat.le_zero.mp enough)]
    exact .refl _
  | succ n ih =>
    match es with
    | [] => exact .refl _
    | [e] => simp [permuteOf, SameFirsts]
    | e :: f :: rest =>
      rw [List.length_cons] at enough
      have first := (SameFirsts.refl e.atoms).append (ih (Nat.le_of_succ_le_succ enough))
      show SameFirsts (unionOf (.concat e (permuteOf n (f :: rest))) _).atoms _
      rw [atoms_unionOf]
      refine (first.append (.refl _)).trans (.absorb fun i hi => ?_)
      -- the other orders have the same operands
      obtain ⟨other, listed, occurs⟩ := List.mem_flatMap.mp hi
      obtain ⟨⟨y, ys⟩, picked, rfl⟩ := List.mem_map.mp listed
      have perm : (y :: ys).Perm (e :: f :: rest) :=
        perm_of_mem_picks (by rw [picks]; exact List.mem_cons_of_mem _ picked)
      have fewer : ys.length ≤ n := by
        have := perm.length_eq
        simp only [List.length_cons] at this enough
        omega
      have inside : i ∈ (y :: ys).flatMap atoms := by
        rw [List.flatMap_cons, List.mem_append]
        exact (List.mem_append.mp occurs).imp_right (ih fewer).mem_iff.mp
      exact (perm.flatMap_right atoms).mem_iff.mp inside

end Expression

/-- A repetition of some width keeps its operand. -/
theorem Repetition.firsts_apply {r : Repetition} {e e' : Expression}
    (wide : r.isZeroWidth = false) (applied : r.apply e = .ok e') :
    SameFirsts e'.atoms e.atoms := by
  have counted {text : String} {n : Nat} (h : readCount text = .ok n) : count? text = some n := by
    unfold readCount at h
    split at h
    next found => cases h; exact found
    next => cases h
  cases r with
  | star =>
    cases applied
    exact .refl _
  | plus =>
    cases applied
    exact .refl _
  | exactly text =>
    obtain ⟨n, read, made⟩ := bind_eq_ok applied
    cases made
    refine e.firsts_between (.inl fun zero => ?_)
    simp [isZeroWidth, counted read, zero] at wide
  | atLeast text =>
    obtain ⟨n, read, made⟩ := bind_eq_ok applied
    cases made
    exact e.firsts_atLeast n
  | between loText hiText =>
    obtain ⟨lo, readLo, applied⟩ := bind_eq_ok applied
    obtain ⟨hi, readHi, made⟩ := bind_eq_ok applied
    split at made
    next => cases made
    next =>
      cases made
      refine e.firsts_between ?_
      by_contra none
      simp only [not_or, not_not] at none
      simp [isZeroWidth, counted readLo, counted readHi, none] at wide

/-! ## Reading -/

/-- From any names, the action numbers the identifiers that are new, in their order, and the atoms
    of its result first occur in the order of those before it and of the identifiers. -/
def Meets {α : Type} (atoms : α → List Nat) (before : List Nat) (ids : List String)
    (action : Reading α) : Prop :=
  ∀ names x names', names.Nodup → action names = .ok (x, names') →
    names' = (names ++ ids).eraseDups ∧
      SameFirsts (atoms x) (before ++ ids.map fun name => names'.idxOf name)

section

variable {α β : Type} {atoms : α → List Nat} {atoms' : β → List Nat} {before : List Nat}
  {ids ids' : List String} {action : Reading α}

theorem meets_pure {x : α} (same : SameFirsts (atoms x) before) :
    Meets atoms before [] (pure x) := by
  intro names y names' distinct read
  cases read
  refine ⟨?_, ?_⟩
  · rw [List.append_nil, eraseDups_of_nodup distinct]
  · rwa [List.map_nil, List.append_nil]

theorem meets_throw {e : SyntaxError} : Meets atoms before ids (throw e) := by
  intro names x names' _ read
  cases read

/-- Names that were numbered keep their numbers. -/
theorem idxOf_eraseDups_append {names : List String} (distinct : names.Nodup) {name : String}
    (known : name ∈ names) : (names ++ ids).eraseDups.idxOf name = names.idxOf name := by
  rw [eraseDups_append_eq, eraseDups_of_nodup distinct, List.idxOf_append_of_mem known]

theorem Meets.bind {k : α → Reading β} (first : Meets atoms before ids action)
    (rest : ∀ x, (∃ names names', action names = .ok (x, names')) →
      Meets atoms' (atoms x) ids' (k x)) :
    Meets atoms' before (ids ++ ids') (action >>= k) := by
  intro names y names'' distinct read
  obtain ⟨⟨x, names'⟩, early, late⟩ := bind_eq_ok read
  obtain ⟨grown, firsts⟩ := first names x names' distinct early
  have distinct' : names'.Nodup := grown ▸ nodup_eraseDups _
  obtain ⟨grown', firsts'⟩ := rest x ⟨names, names', early⟩ names' y names'' distinct' late
  constructor
  · rw [grown', grown, ← List.append_assoc, eraseDups_append_eq, eraseDups_append_eq (names ++ ids),
      eraseDups_of_nodup (nodup_eraseDups _)]
    simp [List.mem_eraseDups]
  · have kept : (ids.map fun name => names'.idxOf name) =
        ids.map fun name => names''.idxOf name := by
      refine List.map_congr_left fun name hname => ?_
      have known : name ∈ names' := by
        rw [grown, List.mem_eraseDups]
        exact List.mem_append_right _ hname
      rw [grown', idxOf_eraseDups_append distinct' known]
    rw [kept] at firsts
    rw [List.map_append, ← List.append_assoc]
    exact firsts'.trans (firsts.append (.refl _))

/-- The second action reads nothing. -/
theorem Meets.bind_known {k : α → Reading β} (first : Meets atoms before ids action)
    (rest : ∀ x, (∃ names names', action names = .ok (x, names')) →
      Meets atoms' (atoms x) [] (k x)) :
    Meets atoms' before ids (action >>= k) := by
  have both := first.bind rest
  rwa [List.append_nil] at both

/-- What is done after the action puts `front` before what it gave. -/
theorem Meets.map {f : α → β} {front : List Nat} (h : Meets atoms [] ids action)
    (same : ∀ x, SameFirsts (atoms' (f x)) (front ++ atoms x)) :
    Meets atoms' front ids (action >>= fun x => pure (f x)) := by
  intro names y names' distinct read
  obtain ⟨⟨x, names''⟩, early, late⟩ := bind_eq_ok read
  cases late
  obtain ⟨grown, firsts⟩ := h names x names' distinct early
  exact ⟨grown, (same x).trans ((SameFirsts.refl front).append firsts)⟩

theorem meets_lift {x : Except SyntaxError α}
    (same : ∀ y, x = .ok y → SameFirsts (atoms y) before) :
    Meets atoms before [] (liftM x : Reading α) := by
  cases x with
  | error e => exact meets_throw
  | ok y => exact meets_pure (same y rfl)

end

theorem meets_atom (name : String) : Meets (fun i => [i]) [] [name] (Reading.atom name) := by
  intro names i names' distinct read
  rw [Reading.atom_eq] at read
  rw [eraseDups_append_eq, eraseDups_of_nodup distinct]
  cases known : names.idxOf? name with
  | some i =>
    rw [known] at read
    cases read
    obtain ⟨inside, stands, -⟩ := List.idxOf?_eq_some_iff.mp known
    have mem : name ∈ names := stands ▸ List.getElem_mem inside
    have place : names.idxOf name = i := by rw [← stands, distinct.idxOf_getElem]
    refine ⟨by simp [mem], ?_⟩
    rw [List.map_singleton, place]
    exact .refl _
  | none =>
    rw [known] at read
    cases read
    have fresh := List.idxOf?_eq_none_iff.mp known
    refine ⟨by simp [List.eraseDups_cons, fresh], ?_⟩
    simp [List.idxOf_append, fresh, SameFirsts]

theorem meets_asCondition (op : String) (start : Nat) (e : Expression) :
    Meets Condition.atoms e.atoms [] (Reading.asCondition op start e) := by
  cases e with
  | condition c => exact meets_pure (.refl _)
  | _ => exact meets_throw

/-! ## Derivations -/

namespace Grammar

namespace Tree

variable {tokens : Array Token}

mutual

/-- The identifiers of a derivation from left to right, without those of the operands of zero-width
    repetitions. -/
def identifiers (tokens : Array Token) : Tree → List String
  | .leaf _ => []
  | .node .primary _ _ [.leaf i] =>
    let name := (tokenAt tokens i).text
    if name = "true" ∨ name = "false" then [] else [name]
  | .node .repeated _ _ (arg :: reps) =>
    if (reps.filterMap (repetition? tokens)).any (·.1.isZeroWidth) then []
    else arg.identifiers tokens
  | .node _ _ _ children => identifiersOf tokens children

def identifiersOf (tokens : Array Token) : List Tree → List String
  | [] => []
  | t :: ts => t.identifiers tokens ++ identifiersOf tokens ts

end

/-- The derivation is read as it should be. -/
def Numbered (tokens : Array Token) (t : Tree) : Prop :=
  Meets Expression.atoms [] (t.identifiers tokens) (t.toExpression tokens)

theorem meets_operands {ts : List Tree} (each : ∀ t ∈ ts, t.Numbered tokens) :
    Meets (List.flatMap Expression.atoms) [] (identifiersOf tokens ts) (operands tokens ts) := by
  induction ts with
  | nil =>
    rw [operands]
    exact meets_pure (.refl _)
  | cons t ts ih =>
    rw [List.forall_mem_cons] at each
    have rest := ih each.2
    rw [operands, identifiersOf]
    cases t with
    | leaf i => exact rest
    | node s first next children =>
      exact each.1.bind fun e _ => rest.map fun es => .refl _

theorem meets_conditions (op : String) {ts : List Tree} (each : ∀ t ∈ ts, t.Numbered tokens) :
    Meets (List.flatMap Condition.atoms) [] (identifiersOf tokens ts)
      (conditions tokens op ts) := by
  induction ts with
  | nil =>
    rw [conditions]
    exact meets_pure (.refl _)
  | cons t ts ih =>
    rw [List.forall_mem_cons] at each
    have rest := ih each.2
    rw [conditions, identifiersOf]
    cases t with
    | leaf i => exact rest
    | node s first next children =>
      refine each.1.bind fun e _ => ?_
      exact (meets_asCondition op _ e).bind fun c _ => rest.map fun cs => .refl _

theorem atoms_join (combine : Expression → Expression → Expression)
    (both : ∀ e f, (combine e f).atoms = e.atoms ++ f.atoms) (es : List Expression) :
    (join combine es).atoms = es.flatMap Expression.atoms := by
  cases es with
  | nil => rfl
  | cons e es => exact atoms_foldl both e es

theorem atoms_joinConditions {combine : Condition → Condition → Condition}
    (both : ∀ c d, (combine c d).atoms = c.atoms ++ d.atoms) (cs : List Condition) :
    (joinConditions combine cs).atoms = cs.flatMap Condition.atoms := by
  cases cs with
  | nil => rfl
  | cons c cs => exact atoms_foldl both c cs

theorem meets_applyOperators (start : Nat) (e : Expression) (ops : List String) :
    Meets Expression.atoms e.atoms [] (applyOperators start e ops) := by
  induction ops with
  | nil => exact meets_pure (.refl _)
  | cons op ops ih =>
    rw [applyOperators]
    refine ih.bind_known fun e _ => ?_
    split
    · exact (meets_asCondition "!" start e).bind_known fun c _ => meets_pure (.refl _)
    · exact meets_pure (.refl _)

theorem meets_repeatAll {reps : List (Repetition × Nat × Nat)} (e : Expression)
    (wide : ∀ r ∈ reps, r.1.isZeroWidth = false) :
    Meets Expression.atoms e.atoms [] (liftM (repeatAll tokens e reps) : Reading Expression) := by
  refine meets_lift fun e' repeated => ?_
  induction reps generalizing e with
  | nil =>
    cases repeated
    exact .refl _
  | cons r reps ih =>
    obtain ⟨r, first, next⟩ := r
    rw [List.forall_mem_cons] at wide
    rw [repeatAll] at repeated
    split at repeated
    next e₁ applied => exact (ih e₁ wide.2 repeated).trans (Repetition.firsts_apply wide.1 applied)
    next => cases repeated

theorem texts_leaf (i : Nat) (ts : List Tree) :
    texts tokens (.leaf i :: ts) = (tokenAt tokens i).text :: texts tokens ts := rfl

theorem texts_node (s : NonTerminal) (first next : Nat) (children ts : List Tree) :
    texts tokens (.node s first next children :: ts) = texts tokens ts := rfl

theorem length_operands {ts : List Tree} {names names' : List String} {es : List Expression}
    (read : operands tokens ts names = .ok (es, names')) :
    (texts tokens ts).length + es.length = ts.length := by
  induction ts generalizing names es with
  | nil =>
    rw [operands] at read
    cases read
    rfl
  | cons t ts ih =>
    rw [operands] at read
    cases t with
    | leaf i =>
      rw [texts_leaf, List.length_cons, List.length_cons, ← ih read]
      omega
    | node s first next children =>
      obtain ⟨⟨e, _⟩, -, read⟩ := bind_eq_ok read
      obtain ⟨⟨rest, _⟩, later, same⟩ := bind_eq_ok read
      cases same
      rw [texts_node, List.length_cons, List.length_cons, ← ih later]
      omega

/-- A word by itself is a constant or an identifier. -/
theorem numbered_word (first next i : Nat) :
    (node .primary first next [.leaf i]).Numbered tokens := by
  have said : texts tokens [.leaf i] = [(tokenAt tokens i).text] := rfl
  unfold Numbered
  rw [toExpression, identifiers, said]
  simp only [operands, isNode, Bool.false_eq_true, if_false, pure_bind]
  generalize (tokenAt tokens i).text = name
  by_cases isTrue : name = "true"
  · have constant : Meets Expression.atoms [] [] (pure (.condition .true)) := meets_pure (.refl _)
    simpa [isTrue] using constant
  by_cases isFalse : name = "false"
  · have constant : Meets Expression.atoms [] [] (pure (.condition .false)) := meets_pure (.refl _)
    simpa [isFalse] using constant
  · have read : Meets Expression.atoms [] [name]
        (do return .condition (.atom (← Reading.atom name))) :=
      (meets_atom name).map fun i => .refl _
    simpa [isTrue, isFalse] using read

theorem numbered_primary {first next : Nat} {children : List Tree}
    (each : ∀ t ∈ children, t.Numbered tokens) :
    (node .primary first next children).Numbered tokens := by
  by_cases word : ∃ i, children = [.leaf i]
  · obtain ⟨i, rfl⟩ := word
    exact numbered_word first next i
  · have whole : (node .primary first next children).identifiers tokens =
        identifiersOf tokens children := by
      rw [identifiers]
      · intro i _ same
        exact word ⟨i, same⟩
      · intro arg reps other
        cases other
    unfold Numbered
    rw [whole, toExpression]
    refine (meets_operands each).bind_known fun es reached => ?_
    obtain ⟨names, names', read⟩ := reached
    have count := length_operands read
    split
    next => exact meets_pure (.refl _)
    next => exact meets_pure (by simp [SameFirsts])
    next => exact meets_pure (by simp [SameFirsts, Expression.atoms])
    next => exact meets_pure (by simp [SameFirsts])
    next => exact meets_pure (by simp [SameFirsts])
    next => exact meets_pure (.refl _)
    next => exact meets_pure (.refl _)
    next said =>
      -- one text and no operand make a single leaf
      rw [said] at count
      obtain ⟨t, rfl⟩ := List.length_eq_one_iff.mp count.symm
      cases t with
      | leaf i => exact absurd ⟨i, rfl⟩ word
      | node s first next children => cases said
    next => exact meets_throw

/-- A chain of conditions is a condition, unless it has only one link. -/
theorem numbered_conditions {s : NonTerminal} (op : String)
    (combine : Condition → Condition → Condition)
    (both : ∀ c d, (combine c d).atoms = c.atoms ++ d.atoms) {first next : Nat}
    {children : List Tree} (each : ∀ t ∈ children, t.Numbered tokens)
    (ids : (node s first next children).identifiers tokens = identifiersOf tokens children)
    (single : ∀ child, children = [child] →
      (node s first next children).toExpression tokens = child.toExpression tokens)
    (several : (∀ child, children ≠ [child]) → (node s first next children).toExpression tokens =
      do return joinConditions combine (← conditions tokens op children)) :
    (node s first next children).Numbered tokens := by
  unfold Numbered
  rw [ids]
  by_cases alone : ∃ child, children = [child]
  · obtain ⟨child, rfl⟩ := alone
    have same : identifiersOf tokens [child] = child.identifiers tokens := List.append_nil _
    rw [single child rfl, same]
    exact each child List.mem_cons_self
  · rw [several fun child same => alone ⟨child, same⟩]
    exact (meets_conditions op each).map fun cs => .of_eq (atoms_joinConditions both cs)

/-- An operand is not read if some repetition after it is of zero width. -/
theorem numbered_repeated {first next : Nat} {arg : Tree} {reps : List Tree}
    (h : arg.Numbered tokens) : (node .repeated first next (arg :: reps)).Numbered tokens := by
  unfold Numbered
  rw [toExpression, identifiers]
  simp only [afterZeroWidth?]
  by_cases zero : (reps.filterMap (repetition? tokens)).any (·.1.isZeroWidth) = true
  · rw [if_pos zero, if_pos zero]
    refine meets_repeatAll .empty fun r hr => ?_
    have wide := List.all_eq_true.mp List.all_takeWhile r (List.mem_reverse.mp hr)
    simpa using wide
  · rw [if_neg zero, if_neg zero]
    refine h.bind_known fun e _ => meets_repeatAll e fun r hr => ?_
    simpa using (List.any_eq_false.mp (Bool.eq_false_iff.mpr zero)) r hr

theorem numbered_node {s : NonTerminal} {first next : Nat} {children : List Tree}
    (each : ∀ t ∈ children, t.Numbered tokens) : (node s first next children).Numbered tokens := by
  have sub := meets_operands each
  cases s with
  | union | intersection | concatenation | fusion =>
    unfold Numbered
    rw [toExpression]
    exact sub.map fun es => .of_eq (atoms_join _ (fun _ _ => rfl) es)
  | disjunction =>
    refine numbered_conditions "||" .or (fun _ _ => rfl) each rfl ?_ ?_
    · rintro child rfl
      rw [toExpression]
    · intro several
      rw [toExpression]
      exact several
  | conjunction =>
    refine numbered_conditions "&&" .and (fun _ _ => rfl) each rfl ?_ ?_
    · rintro child rfl
      rw [toExpression]
    · intro several
      rw [toExpression]
      exact several
  | unary =>
    unfold Numbered
    rw [toExpression]
    refine sub.bind_known fun es _ => ?_
    rw [← atoms_join .concat (fun _ _ => rfl) es]
    exact meets_applyOperators _ _ _
  | repeated =>
    cases children with
    | nil =>
      unfold Numbered
      rw [toExpression]
      exact meets_pure (.refl _)
    | cons arg reps => exact numbered_repeated (each arg List.mem_cons_self)
  | repetition =>
    unfold Numbered
    rw [toExpression]
    exact meets_throw
  | primary => exact numbered_primary each
  | abort =>
    unfold Numbered
    rw [toExpression]
    refine sub.bind_known fun es _ => ?_
    split
    next body exit _ => exact meets_pure (by simpa using body.firsts_abort exit)
    next => exact meets_throw
  | permute =>
    unfold Numbered
    rw [toExpression]
    exact sub.map fun es => Expression.firsts_permuteOf (Nat.le_refl _)

theorem numbered (t : Tree) : t.Numbered tokens := by
  match t with
  | .leaf i =>
    unfold Numbered
    rw [toExpression]
    exact meets_throw
  | .node s first next children => exact numbered_node fun child _ => numbered child

end Tree

end Grammar

/-! ## Whole texts -/

theorem map_idxOf_self {names : List String} (distinct : names.Nodup) :
    (names.map fun name => names.idxOf name) = List.range names.length := by
  refine List.ext_getElem (by simp) fun i hi _ => ?_
  rw [List.getElem_map, List.getElem_range, distinct.idxOf_getElem]

namespace Expression

/-- The names of a text are its identifiers, each once, and the atoms first occur in the order of
    the names. -/
theorem names_of_parse {source : List Text.Glyph} {e : Expression} {names : List String}
    (parsed : parse source = .ok (e, names)) :
    ∃ text tree, Token.tokenize source = .ok text ∧ Grammar.parse text.toArray = .ok tree ∧
      names = (tree.identifiers text.toArray).eraseDups ∧
      e.atoms.eraseDups = List.range names.length := by
  obtain ⟨text, scanned, parsed⟩ := bind_eq_ok parsed
  dsimp only at parsed
  split at parsed
  next tree derived =>
    obtain ⟨grown, firsts⟩ := tree.numbered [] e names List.nodup_nil parsed
    rw [List.nil_append] at grown firsts
    have distinct : names.Nodup := grown ▸ nodup_eraseDups _
    have known (name : String) (h : name ∈ tree.identifiers text.toArray) : name ∈ names := by
      rw [grown, List.mem_eraseDups]
      exact h
    refine ⟨text, tree, scanned, derived, grown, ?_⟩
    calc e.atoms.eraseDups
      _ = ((tree.identifiers text.toArray).map fun name => names.idxOf name).eraseDups := firsts
      _ = (tree.identifiers text.toArray).eraseDups.map fun name => names.idxOf name :=
        eraseDups_map fun x hx y _ same => (List.idxOf_inj (known x hx)).mp same
      _ = names.map fun name => names.idxOf name := by rw [← grown]
      _ = List.range names.length := map_idxOf_self distinct
  next => cases parsed

theorem compile_declares (e : Expression) (settings : Settings) {names : List String}
    (bound : ∀ i ∈ e.atoms, i < names.length) :
    ∃ c, Build.Returns (e.compile settings names) c ∧ c.Declares settings.target names := by
  obtain ⟨c, returned, -, -, declares⟩ :=
    compile_spec e.wrap e.lt_of_mem_atoms_wrap settings names
  rw [compile_wrap] at returned
  refine ⟨c, returned, declares ?_⟩
  rw [atoms_wrap, List.forall_mem_map]
  exact fun i hi => Nat.lt_of_le_of_lt (Nat.mod_le _ _) (bound i hi)

/-- The names of a text are different.  They are its identifiers in the order in which they first
    occur, and so are the atoms of the expression in the order of their numbers; operands of
    zero-width repetitions do not count.  With all settings, the automata that the expression is
    compiled to have just these atoms and pass their checks. -/
theorem atoms_numbered_by_first_use {source : List Text.Glyph} {e : Expression}
    {names : List String} (parsed : parse source = .ok (e, names)) :
    names.Nodup ∧ (∀ i, i ∈ e.atoms ↔ i < names.length) ∧
      e.atoms.eraseDups = List.range names.length ∧
      (∃ text tree, Token.tokenize source = .ok text ∧ Grammar.parse text.toArray = .ok tree ∧
        names = (tree.identifiers text.toArray).eraseDups) ∧
      ∀ settings, compileText settings source = .ok ((e.compile settings names).run .empty) ∧
        ∀ ctx, let c := ((e.compile settings names).run ctx).1
          c.names = names ∧ c.automaton.atomCount = names.length ∧
          (∀ rules ∈ c.automaton.transitions, ∀ r ∈ rules, r.guard.varCount ≤ names.length) ∧
          c.automaton.validate = .ok () ∧
          (c.deterministic.isSome ↔ settings.target = .deterministic) ∧
          ∀ d ∈ c.deterministic, d.atomCount = names.length ∧
            (∀ rules ∈ d.transitions, ∀ r ∈ rules, r.guard.varCount ≤ names.length) ∧
            ∀ ctx', (d.validateDeterministic.run.run ctx').1 = .ok () := by
  obtain ⟨text, tree, scanned, derived, once, firsts⟩ := names_of_parse parsed
  have occurs (i : Nat) : i ∈ e.atoms ↔ i < names.length := by
    rw [← List.mem_eraseDups, firsts, List.mem_range]
  refine ⟨once ▸ nodup_eraseDups _, occurs, firsts, ⟨text, tree, scanned, derived, once⟩,
    fun settings => ⟨?_, fun ctx => ?_⟩⟩
  · rw [compileText, parsed]
    rfl
  · obtain ⟨c, returned, declares⟩ := e.compile_declares settings fun i hi => (occurs i).mp hi
    dsimp only
    rw [returned ctx]
    refine ⟨declares.names_eq, declares.atomCount_eq, ?_, Automaton.validate_iff.mpr declares.valid,
      declares.built_iff, fun d built => ?_⟩
    · exact declares.atomCount_eq ▸ declares.valid.varCount_le
    · obtain ⟨valid, deterministic, atoms⟩ := declares.deterministic d built
      exact ⟨atoms, atoms ▸ valid.varCount_le,
        Automaton.validateDeterministic_returns valid deterministic⟩

/-- The operand that is repeated no times has no number, and the permutation starts with the new
    atom. -/
theorem atoms_numbered_by_first_use_of_permutation :
    let source := Text.glyphsOfString "c{0}; b; PERMUTE(a, b)"
    let a : Expression := .condition (.atom 1)
    let b : Expression := .condition (.atom 0)
    let e : Expression := .concat (.concat .empty b) (.union (.concat a b) (.concat b a))
    let c := ((e.compile ⟨.deterministic, .json, true⟩ ["b", "a"]).run .empty).1
    parse source = .ok (e, ["b", "a"]) ∧ e.atoms = [0, 1, 0, 0, 1] ∧
      e.atoms.eraseDups = [0, 1] ∧ c.automaton.atomCount = 2 ∧
      ∃ d, c.deterministic = some d ∧ d.atomCount = 2 ∧
        (d.validateDeterministic.run.run .empty).1 = .ok () := by
  intro source a b e c
  have parsed : parse source = .ok (e, ["b", "a"]) := by decide +kernel
  obtain ⟨-, -, firsts, -, compiled⟩ := atoms_numbered_by_first_use parsed
  obtain ⟨-, atoms, -, -, built, checked⟩ := (compiled ⟨.deterministic, .json, true⟩).2 .empty
  obtain ⟨d, made⟩ := Option.isSome_iff_exists.mp (built.mpr rfl)
  obtain ⟨atoms', -, passes⟩ := checked d made
  exact ⟨parsed, rfl, firsts, atoms, d, made, atoms', passes .empty⟩

end Expression

end TraceRegex
