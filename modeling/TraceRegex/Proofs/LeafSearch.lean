import TraceRegex.Collection.BoundedStack
import TraceRegex.Proofs.NormalForms

/-! # The search for redundant leaves on a stack

`simplify` looks for a leaf to replace by recursion.  `LeafSearch` is the same search as a loop: it
keeps the connectives above the subformula at hand on a stack with a bound, goes down while there is
room, goes back to the nearest connective whose right side is still to be searched, and starts over
from the root after each replacement.  The operations on the stack may be refused.

The loop ends with what the recursion returns, in the same context, and no operation is refused on
the way.  It is compared with the recursion subformula by subformula (`Explores`).  It ends because
each replacement leaves fewer leaves, whatever the depth at which the stack cut the formula off.
-/

namespace TraceRegex

/-! ## Stacks -/

namespace BoundedStack

variable {α : Type} {s t : BoundedStack α}

theorem eq_of_items (items : s.items = t.items) (bound : s.bound = t.bound) : s = t := by
  obtain ⟨_, _, _⟩ := s
  obtain ⟨_, _, _⟩ := t
  cases items
  cases bound
  rfl

theorem isFull_eq {b : Nat} (h : s.bound = some b) : s.isFull = decide (b ≤ s.items.length) := by
  rw [isFull, h]
  rfl

theorem exists_push (h : s.isFull = false) (x : α) :
    ∃ t, s.push x = .ok t ∧ t.items = x :: s.items ∧ t.bound = s.bound :=
  ⟨_, dif_pos h, rfl, rfl⟩

theorem pop_eq {x : α} (items : s.items = x :: t.items) (bound : s.bound = t.bound) :
    s.pop = .ok (x, t) := by
  obtain ⟨_, _, _⟩ := s
  cases items
  cases bound
  rfl

theorem peek_zero_eq {x : α} {xs : List α} (h : s.items = x :: xs) : s.peek 0 = .ok x := by
  simp [peek, h]

theorem size_lt_of_pop {x : α} (h : s.pop = .ok (x, t)) : t.size < s.size := by
  obtain ⟨items, _, _⟩ := s
  cases items with
  | nil => cases h
  | cons y items =>
    cases h
    exact Nat.lt_succ_self _

end BoundedStack

/-! ## The loop -/

/-- The operand of a connective that is being searched. -/
inductive Side where
  | left
  | right

/-- A connective above the subformula at hand: a conjunction or else a disjunction, the operand that
    the subformula is in, and both operands. -/
structure Fork where
  conjunction : Bool
  side : Side
  lhs : Formula
  rhs : Formula

namespace Fork

/-- The connective of a formula, of which the left operand is searched first. -/
def of? : Formula → Option Fork
  | .and lhs rhs => some ⟨true, .left, lhs, rhs⟩
  | .or lhs rhs => some ⟨false, .left, lhs, rhs⟩
  | .const _ | .var _ | .not _ => none

/-- The same connective without the operand that is being searched. -/
def frame : Fork → Frame
  | ⟨true, .left, _, rhs⟩ => .andLeft rhs
  | ⟨true, .right, lhs, _⟩ => .andRight lhs
  | ⟨false, .left, _, rhs⟩ => .orLeft rhs
  | ⟨false, .right, lhs, _⟩ => .orRight lhs

end Fork

/-- A search for redundant leaves: the whole formula, the way down to the subformula at hand, and
    that subformula. -/
structure LeafSearch where
  top : Formula
  path : BoundedStack Fork
  current : Formula

namespace LeafSearch

/-- What a step comes to: the search goes on, or it is over. -/
inductive Outcome where
  | next (s : LeafSearch)
  | done (f : Formula)

/-- A computation in a context whose stack may refuse an operation. -/
abbrev Stacked := ExceptT StackError Build

/-- Leaves the connectives whose right operand has been searched. -/
def unwind (path : BoundedStack Fork) : Except StackError (BoundedStack Fork) :=
  if path.isEmpty then .ok path
  else
    match path.peek 0 with
    | .error e => .error e
    | .ok fork =>
      match fork.side with
      | .left => .ok path
      | .right =>
        match popped : path.pop with
        | .error e => .error e
        | .ok (_, rest) =>
          have : rest.size < path.size := BoundedStack.size_lt_of_pop popped
          unwind rest
termination_by path.size

/-- Goes back to the nearest connective whose right operand is still to be searched. -/
def backtrack (top : Formula) (path : BoundedStack Fork) : Except StackError Outcome := do
  let path ← unwind path
  if path.isEmpty then return .done top
  let (fork, rest) ← path.pop
  let path ← rest.push { fork with side := .right }
  return .next ⟨top, path, fork.rhs⟩

/-- The way down as a path, read from the top of the stack on. -/
def readPath (path : BoundedStack Fork) : Except StackError Path :=
  (List.range path.size).mapM fun depth => do return (← path.peek depth).frame

/-- Takes the subformula at hand for a leaf and tries to replace it. -/
def tryLeaf (s : LeafSearch) : Stacked Outcome := do
  if s.path.isEmpty then return .done s.top
  let path ← readPath s.path
  match ← Build.reduceLeaf s.top path with
  | some reduced => return .next ⟨reduced, s.path.clear, reduced⟩
  | none => backtrack s.top s.path

/-- Goes down to the left operand, if there is one and there is room for it on the stack. -/
def step (s : LeafSearch) : Stacked Outcome :=
  match Fork.of? s.current with
  | some fork =>
    if s.path.isFull then s.tryLeaf
    else do return .next ⟨s.top, ← s.path.push fork, fork.lhs⟩
  | none => s.tryLeaf

/-- Searches for at most the given number of steps; there is no result if these are not enough. -/
def run : Nat → LeafSearch → Stacked (Option Formula)
  | 0, _ => return none
  | steps + 1, s => do
    match ← s.step with
    | .next s => run steps s
    | .done f => return some f

/-- Simplifies a formula by the loop, with the given number of steps. -/
def simplify (steps : Nat) (f : Formula) : Stacked (Option Formula) := do
  let top ← Build.nnf f
  let path ← BoundedStack.withBound simplifyDepth
  run steps ⟨top, path, top⟩

/-! ## Going back -/

variable {path path' : BoundedStack Fork} {fork : Fork} {top : Formula}

theorem unwind_of_nil (h : path.items = []) : unwind path = .ok path := by
  rw [unwind, if_pos (by simp [BoundedStack.isEmpty, h])]

theorem unwind_of_left {forks : List Fork} (h : path.items = fork :: forks)
    (left : fork.side = .left) : unwind path = .ok path := by
  rw [unwind, if_neg (by simp [BoundedStack.isEmpty, h]), BoundedStack.peek_zero_eq h]
  simp [left]

theorem unwind_of_right (items : path'.items = fork :: path.items)
    (bound : path'.bound = path.bound) (right : fork.side = .right) :
    unwind path' = unwind path := by
  rw [unwind, if_neg (by simp [BoundedStack.isEmpty, items]), BoundedStack.peek_zero_eq items]
  simp only [right]
  split
  next refused =>
    rw [BoundedStack.pop_eq items bound] at refused
    cases refused
  next popped =>
    rw [BoundedStack.pop_eq items bound] at popped
    cases popped
    rfl

theorem backtrack_of_nil (h : path.items = []) : backtrack top path = .ok (.done top) := by
  rw [backtrack, unwind_of_nil h]
  show (if path.isEmpty then _ else _) = _
  rw [if_pos (by simp [BoundedStack.isEmpty, h])]
  rfl

/-- From the left operand of a connective the search goes on to the right one.  There is room for
    the connective that was taken off. -/
theorem backtrack_of_left (top : Formula) (items : path'.items = fork :: path.items)
    (bound : path'.bound = path.bound) (left : fork.side = .left) :
    ∃ path'', backtrack top path' = .ok (.next ⟨top, path'', fork.rhs⟩) ∧
      path''.items = { fork with side := .right } :: path.items ∧ path''.bound = path.bound := by
  have room : path.isFull = false := by
    cases limit : path.bound with
    | none => simp [BoundedStack.isFull, limit]
    | some b =>
      have within := path'.within b (bound.trans limit)
      rw [items, List.length_cons] at within
      rw [BoundedStack.isFull_eq limit, decide_eq_false_iff_not]
      omega
  obtain ⟨path'', pushed, items', bound'⟩ :=
    BoundedStack.exists_push room { fork with side := .right }
  refine ⟨path'', ?_, items', bound'⟩
  rw [backtrack, unwind_of_left items left]
  show (if path'.isEmpty then _ else path'.pop >>= _) = _
  rw [if_neg (by simp [BoundedStack.isEmpty, items]), BoundedStack.pop_eq items bound]
  show (path.push _ >>= _) = _
  rw [pushed]
  rfl

theorem backtrack_of_right (items : path'.items = fork :: path.items)
    (bound : path'.bound = path.bound) (right : fork.side = .right) :
    backtrack top path' = backtrack top path := by
  rw [backtrack, backtrack, unwind_of_right items bound right]

/-- What is left of the stack from a depth on is read from there on. -/
theorem mapM_peek {depth : Nat} {forks : List Fork} (h : path.items.drop depth = forks) :
    ((List.range' depth forks.length).mapM fun depth => do return (← path.peek depth).frame) =
      (.ok (forks.map Fork.frame) : Except StackError Path) := by
  induction forks generalizing depth with
  | nil => rfl
  | cons fork forks ih =>
    have here : path.items[depth]? = some fork := by rw [← List.head?_drop, h, List.head?_cons]
    have below : path.items.drop (depth + 1) = forks := by rw [← List.tail_drop, h, List.tail_cons]
    have peeked : path.peek depth = .ok fork := by rw [BoundedStack.peek, here]
    rw [List.length_cons, List.range'_succ, List.mapM_cons, peeked, ih below]
    rfl

theorem readPath_eq (path : BoundedStack Fork) :
    readPath path = .ok (path.items.map Fork.frame) := by
  rw [readPath, List.range_eq_range']
  exact mapM_peek List.drop_zero

/-! ## Steps -/

section

variable {ε α β : Type}

theorem run_bind_of_ok {m : ExceptT ε Build α} {k : α → ExceptT ε Build β} {ctx ctx' : Context}
    {x : α} (h : m.run.run ctx = (.ok x, ctx')) : (m >>= k).run.run ctx = (k x).run.run ctx' := by
  show (ExceptT.bindCont k (m.run.run ctx).1).run (m.run.run ctx).2 = _
  rw [h]
  rfl

end

/-- The search gets to the outcome by steps of which none is refused. -/
inductive Reaches : LeafSearch → Context → Outcome → Context → Prop where
  | last {s : LeafSearch} {ctx ctx' : Context} {o : Outcome}
      (step : s.step.run.run ctx = (.ok o, ctx')) : Reaches s ctx o ctx'
  | further {s t : LeafSearch} {ctx ctx' ctx'' : Context} {o : Outcome}
      (step : s.step.run.run ctx = (.ok (.next t), ctx')) (rest : Reaches t ctx' o ctx'') :
      Reaches s ctx o ctx''

theorem Reaches.trans {s t : LeafSearch} {ctx ctx' ctx'' : Context} {o : Outcome}
    (h : Reaches s ctx (.next t) ctx') (rest : Reaches t ctx' o ctx'') : Reaches s ctx o ctx'' := by
  -- the steps that lead to `t` are kept, and only the last one of them is extended
  generalize reached : Outcome.next t = via at h
  induction h with
  | last step =>
    subst reached
    exact .further step rest
  | further step _ ih => exact .further step (ih rest reached)

theorem run_succ {s : LeafSearch} {ctx ctx' : Context} {o : Outcome}
    (step : s.step.run.run ctx = (.ok o, ctx')) (n : Nat) :
    (run (n + 1) s).run.run ctx = match o with
      | .next t => (run n t).run.run ctx'
      | .done f => (.ok (some f), ctx') := by
  rw [run, run_bind_of_ok step]
  cases o with
  | next t => rfl
  | done f => rfl

/-- A search that gets to its end needs a certain number of steps: with fewer it is not over, and
    with these or more it has the result. -/
theorem Reaches.exists_run {s : LeafSearch} {ctx ctx' : Context} {f : Formula}
    (h : Reaches s ctx (.done f) ctx') :
    ∃ steps, (∀ n < steps, ((run n s).run.run ctx).1 = .ok none) ∧
      ∀ n, steps ≤ n → (run n s).run.run ctx = (.ok (some f), ctx') := by
  generalize reached : Outcome.done f = o at h
  induction h with
  | last step =>
    subst reached
    refine ⟨1, fun n few => ?_, fun n enough => ?_⟩
    · cases Nat.lt_one_iff.mp few
      rfl
    · obtain ⟨n, rfl⟩ := Nat.exists_eq_succ_of_ne_zero (Nat.ne_zero_of_lt enough)
      exact run_succ step n
  | further step _ ih =>
    obtain ⟨steps, before, behind⟩ := ih reached
    refine ⟨steps + 1, fun n few => ?_, fun n enough => ?_⟩
    · cases n with
      | zero => rfl
      | succ n =>
        rw [run_succ step]
        exact before n (Nat.lt_of_succ_lt_succ few)
    · obtain ⟨n, rfl⟩ := Nat.exists_eq_succ_of_ne_zero (Nat.ne_zero_of_lt enough)
      rw [run_succ step]
      exact behind n (Nat.le_of_succ_le_succ enough)

/-! ## The loop and the recursion -/

/-- From the subformula `f` below the path on, the loop does what the computation `m` does: it goes
    on with the replacement that `m` finds, or else back to where the path leads. -/
structure Explores (top : Formula) (path : BoundedStack Fork) (f : Formula)
    (m : Build (Option Formula)) : Prop where
  found : ∀ ctx g, (m.run ctx).1 = some g →
    Reaches ⟨top, path, f⟩ ctx (.next ⟨g, path.clear, g⟩) (m.run ctx).2
  exhausted : ∀ ctx o, (m.run ctx).1 = none → backtrack top path = .ok o →
    Reaches ⟨top, path, f⟩ ctx o (m.run ctx).2

variable {f : Formula} {m m' : Build (Option Formula)}

theorem step_eq_tryLeaf (h : Fork.of? f = none ∨ path.isFull = true) :
    (LeafSearch.mk top path f).step = (LeafSearch.mk top path f).tryLeaf := by
  unfold step
  split
  next fork found =>
    rcases h with none | full
    · rw [found] at none
      cases none
    · rw [if_pos full]
  next => rfl

/-- At the root there is nothing to replace, and the search is over. -/
theorem explores_root (leaf : Fork.of? f = none ∨ path.isFull = true) (root : path.items = []) :
    Explores top path f (pure none) where
  found _ _ h := by cases h
  exhausted ctx o _ back := by
    rw [backtrack_of_nil root] at back
    cases back
    refine .last ?_
    rw [step_eq_tryLeaf leaf, tryLeaf, if_pos (by simp [BoundedStack.isEmpty, root])]
    rfl

theorem tryLeaf_run (below : path.items ≠ []) (ctx : Context) :
    let r := (Build.reduceLeaf top (path.items.map Fork.frame)).run ctx
    (LeafSearch.mk top path f).tryLeaf.run.run ctx =
      (match r.1 with
        | some g => .ok (.next ⟨g, path.clear, g⟩)
        | none => backtrack top path, r.2) := by
  intro r
  have read : (liftM (readPath path) : Stacked Path).run.run ctx =
      (.ok (path.items.map Fork.frame), ctx) := by
    rw [readPath_eq]
    rfl
  have tried : (liftM (Build.reduceLeaf top (path.items.map Fork.frame)) :
      Stacked (Option Formula)).run.run ctx = (.ok r.1, r.2) := rfl
  rw [tryLeaf, if_neg (by simpa [BoundedStack.isEmpty] using below), run_bind_of_ok read,
    run_bind_of_ok tried]
  cases r.1 with
  | some g => rfl
  | none => rfl

theorem explores_leaf (leaf : Fork.of? f = none ∨ path.isFull = true) (below : path.items ≠ []) :
    Explores top path f (Build.reduceLeaf top (path.items.map Fork.frame)) where
  found ctx g found := by
    refine .last ?_
    rw [step_eq_tryLeaf leaf, tryLeaf_run below, found]
  exhausted ctx o none back := by
    refine .last ?_
    rw [step_eq_tryLeaf leaf, tryLeaf_run below, none, ← back]

theorem step_of_fork {ctx : Context} (is : Fork.of? f = some fork) (room : path.isFull = false)
    (pushed : path.push fork = .ok path') :
    (LeafSearch.mk top path f).step.run.run ctx = (.ok (.next ⟨top, path', fork.lhs⟩), ctx) := by
  unfold step
  simp only [is, room]
  rw [pushed]
  rfl

theorem orElse_run (m m' : Build (Option Formula)) (ctx : Context) :
    StateT.run (do match ← m with | some g => return some g | none => m') ctx =
      match (m.run ctx).1 with
      | some g => (some g, (m.run ctx).2)
      | none => m'.run (m.run ctx).2 := by
  show StateT.run (match (m.run ctx).1 with | some g => pure (some g) | none => m') _ = _
  cases (m.run ctx).1 with
  | some g => rfl
  | none => rfl

/-- At a connective the left operand is searched first and then, unless something was found there,
    the right one. -/
theorem explores_fork (is : Fork.of? f = some fork) (room : path.isFull = false)
    (left : ∀ path' : BoundedStack Fork, path'.items = fork :: path.items →
      path'.bound = path.bound → Explores top path' fork.lhs m)
    (right : ∀ path' : BoundedStack Fork, path'.items = { fork with side := .right } :: path.items →
      path'.bound = path.bound → Explores top path' fork.rhs m') :
    Explores top path f (do match ← m with | some g => return some g | none => m') := by
  have onLeft : fork.side = .left := by
    cases f with
    | and lhs rhs | or lhs rhs => cases is; rfl
    | const _ | var _ | not _ => cases is
  obtain ⟨path', pushed, items, bound⟩ := BoundedStack.exists_push room fork
  obtain ⟨path'', back, items', bound'⟩ := backtrack_of_left top items bound onLeft
  have cleared (path₀ : BoundedStack Fork) (h : path₀.bound = path.bound) :
      path₀.clear = path.clear := BoundedStack.eq_of_items rfl h
  -- the loop goes down to the left; from there going back turns the connective to its right side,
  -- and from the right side it leaves the connective altogether
  refine ⟨fun ctx g found => ?_, fun ctx o none back' => ?_⟩
  · rw [orElse_run] at found ⊢
    cases first : (m.run ctx).1 with
    | some g' =>
      simp only [first] at found ⊢
      cases found
      have reached := (left path' items bound).found ctx g first
      rw [cleared path' bound] at reached
      exact .further (step_of_fork is room pushed) reached
    | none =>
      simp only [first] at found ⊢
      have ended := (left path' items bound).exhausted ctx _ first back
      have reached := (right path'' items' bound').found _ g found
      rw [cleared path'' bound'] at reached
      exact .further (step_of_fork is room pushed) (ended.trans reached)
  · rw [orElse_run] at none ⊢
    cases first : (m.run ctx).1 with
    | some g' =>
      simp only [first] at none
      cases none
    | none =>
      simp only [first] at none ⊢
      have ended := (left path' items bound).exhausted ctx _ first back
      rw [← backtrack_of_right items' bound' rfl] at back'
      have rest := (right path'' items' bound').exhausted _ o none back'
      exact .further (step_of_fork is room pushed) (ended.trans rest)

/-- Where the recursion does not go down, the loop does not either. -/
theorem leaf_of_not_fork {room : Nat} (depth : path.bound = some (path.items.length + room))
    (not_and : ∀ room' lhs rhs, room = room' + 1 → f = .and lhs rhs → False)
    (not_or : ∀ room' lhs rhs, room = room' + 1 → f = .or lhs rhs → False) :
    Fork.of? f = none ∨ path.isFull = true := by
  cases room with
  | zero => exact .inr (by simp [BoundedStack.isFull_eq depth])
  | succ room =>
    cases f with
    | const _ | var _ | not _ => exact .inl rfl
    | and lhs rhs => exact (not_and room lhs rhs rfl rfl).elim
    | or lhs rhs => exact (not_or room lhs rhs rfl rfl).elim

/-- The loop explores every subformula as the recursion does. -/
theorem explores_reduceFirst {room : Nat} {frames : Path}
    (same : path.items.map Fork.frame = frames)
    (depth : path.bound = some (path.items.length + room)) :
    Explores top path f (Build.reduceFirst top room frames f) := by
  -- what is left of the bound is the depth that the recursion may still go down
  have room_for {room : Nat} {path : BoundedStack Fork}
      (depth : path.bound = some (path.items.length + (room + 1))) : path.isFull = false := by
    rw [BoundedStack.isFull_eq depth, decide_eq_false_iff_not]
    omega
  have deeper {room : Nat} {path path' : BoundedStack Fork} {fork : Fork}
      (depth : path.bound = some (path.items.length + (room + 1)))
      (items : path'.items = fork :: path.items) (bound : path'.bound = path.bound) :
      path'.bound = some (path'.items.length + room) := by
    rw [bound, depth, items, List.length_cons]
    exact congrArg some (by omega)
  fun_induction Build.reduceFirst top room frames f generalizing path with
  | case1 frames room lhs rhs left right =>
    have is : Fork.of? (.and lhs rhs) = some ⟨true, .left, lhs, rhs⟩ := rfl
    refine explores_fork is (room_for depth)
      (fun path' items bound => left ?_ (deeper depth items bound))
      (fun path' items bound => right ?_ (deeper depth items bound))
    · rw [items, List.map_cons, same]
      rfl
    · rw [items, List.map_cons, same]
      rfl
  | case2 frames room lhs rhs left right =>
    have is : Fork.of? (.or lhs rhs) = some ⟨false, .left, lhs, rhs⟩ := rfl
    refine explores_fork is (room_for depth)
      (fun path' items bound => left ?_ (deeper depth items bound))
      (fun path' items bound => right ?_ (deeper depth items bound))
    · rw [items, List.map_cons, same]
      rfl
    · rw [items, List.map_cons, same]
      rfl
  | case3 f room not_and not_or =>
    exact explores_root (leaf_of_not_fork depth not_and not_or) (List.map_eq_nil_iff.mp same)
  | case4 frames f room below not_and not_or =>
    subst same
    exact explores_leaf (leaf_of_not_fork depth not_and not_or)
      fun none => below (List.map_eq_nil_iff.mpr none)

theorem reduceAll_succ_run (rounds : Nat) (top : Formula) (ctx : Context) :
    let r := (Build.reduceFirst top simplifyDepth [] top).run ctx
    (Build.reduceAll (rounds + 1) top).run ctx = match r.1 with
      | some g => (Build.reduceAll rounds g).run r.2
      | none => (top, r.2) := by
  intro r
  show StateT.run (match r.1 with | some f => Build.reduceAll rounds f | none => pure top) r.2 = _
  cases r.1 with
  | some g => rfl
  | none => rfl

/-- The loop comes to the end of all rounds.  These suffice, since each replacement leaves fewer
    leaves and there is always one. -/
theorem reaches_reduceAll {rounds : Nat} (root : path.items = [])
    (bound : path.bound = some simplifyDepth) (enough : top.leafCount ≤ rounds) (ctx : Context) :
    Reaches ⟨top, path, top⟩ ctx (.done ((Build.reduceAll rounds top).run ctx).1)
      ((Build.reduceAll rounds top).run ctx).2 := by
  induction rounds generalizing top ctx with
  | zero => exact absurd top.leafCount_pos (Nat.not_lt.mpr enough)
  | succ rounds ih =>
    have explores : Explores top path top (Build.reduceFirst top simplifyDepth [] top) :=
      explores_reduceFirst (by rw [root, List.map_nil])
        (by rw [bound, root, List.length_nil, Nat.zero_add])
    rw [reduceAll_succ_run]
    cases first : ((Build.reduceFirst top simplifyDepth [] top).run ctx).1 with
    | none => exact explores.exhausted ctx _ first (backtrack_of_nil root)
    | some g =>
      obtain ⟨r, returned, reduction⟩ := Build.reduceFirst_returns simplifyDepth [] top rfl
      have fewer : g.leafCount < top.leafCount :=
        (reduction g ((returned ctx).symm.trans first)).leafCount_lt
      -- the stack is cleared, so the next round starts with the same one
      have restarted : Reaches ⟨top, path, top⟩ ctx (.next ⟨g, path, g⟩) _ :=
        BoundedStack.eq_of_items (s := path.clear) root.symm rfl ▸ explores.found ctx g first
      exact restarted.trans (ih (Nat.le_of_lt_succ (Nat.lt_of_lt_of_le fewer enough)) _)

/-- The loop starts from the normal form with an empty stack, for which there is room. -/
theorem exists_simplify_run (f : Formula) (ctx : Context) :
    ∃ path : BoundedStack Fork, path.items = [] ∧ path.bound = some simplifyDepth ∧
      ∀ steps, (simplify steps f).run.run ctx =
        (run steps ⟨f.nnf, path, f.nnf⟩).run.run ((Build.nnf f).run ctx).2 := by
  let path : BoundedStack Fork := ⟨[], some simplifyDepth, by simp⟩
  refine ⟨path, rfl, rfl, fun steps => ?_⟩
  have normal : (liftM (Build.nnf f) : Stacked Formula).run.run ctx =
      (.ok f.nnf, ((Build.nnf f).run ctx).2) :=
    Prod.ext (congrArg Except.ok (Build.nnf_run_fst f ctx)) rfl
  have made (ctx : Context) : (liftM (BoundedStack.withBound simplifyDepth :
      Except StackError (BoundedStack Fork)) : Stacked (BoundedStack Fork)).run.run ctx =
      (.ok path, ctx) := rfl
  rw [simplify, run_bind_of_ok normal, run_bind_of_ok (made _)]

/-- The loop comes to its end with what the recursion returns. -/
theorem exists_simplify_eq (f : Formula) (ctx : Context) :
    ∃ steps, (∀ n < steps, ((simplify n f).run.run ctx).1 = .ok none) ∧
      ∀ n, steps ≤ n → (simplify n f).run.run ctx =
        (.ok (some ((Build.simplify f).run ctx).1), ((Build.simplify f).run ctx).2) := by
  have recursion : (Build.simplify f).run ctx =
      (Build.reduceAll f.nnf.leafCount f.nnf).run ((Build.nnf f).run ctx).2 := by
    show (Build.reduceAll ((Build.nnf f).run ctx).1.leafCount ((Build.nnf f).run ctx).1).run _ = _
    rw [Build.nnf_run_fst]
    rfl
  obtain ⟨path, root, bound, started⟩ := exists_simplify_run f ctx
  obtain ⟨steps, before, behind⟩ :=
    (reaches_reduceAll root bound (Nat.le_refl _) ((Build.nnf f).run ctx).2).exists_run
  refine ⟨steps, fun n few => ?_, fun n enough => ?_⟩
  · rw [started]
    exact before n few
  · rw [started, recursion]
    exact behind n enough

end LeafSearch

namespace Build

theorem simplify_returns_nnf (f : Formula) : ∃ g, Returns (simplify f) g ∧ g.isNnf = true ∧
    ∀ i, g.mentions i = true → f.mentions i = true := by
  obtain ⟨g, returned, normal, mentioned⟩ := exists_reduceAll_returns
    (P := fun g => g.isNnf = true ∧ ∀ i, g.mentions i = true → f.mentions i = true)
    (fun reduction h => ⟨reduction.normal.isNnf, fun i mentioned => h.2 i (reduction.mentions mentioned)⟩)
    f.nnf.leafCount ⟨Formula.isNnf_nnf f, fun _ => Formula.mentions_nnf⟩
  exact ⟨g, (nnf_returns f).bind returned, normal, mentioned⟩

/-- Simplification as a loop on a bounded stack ends, without an operation on the stack being
    refused, with the formula that the recursion returns and in the same context.  This formula is
    in normal form, means the same, and mentions no further atoms. -/
theorem simplify_exact (f : Formula) (ctx : Context) :
    let r := (simplify f).run ctx
    (∃ steps, (∀ n < steps, ((LeafSearch.simplify n f).run.run ctx).1 = .ok none) ∧
      ∀ n, steps ≤ n → (LeafSearch.simplify n f).run.run ctx = (.ok (some r.1), r.2)) ∧
    r.1.isNnf = true ∧ (∀ l, r.1.eval l = f.eval l) ∧
    ∀ i, r.1.mentions i = true → f.mentions i = true := by
  obtain ⟨g, returned, restates⟩ := simplify_returns f
  obtain ⟨g', returned', normal, mentioned⟩ := simplify_returns_nnf f
  have same : g' = g := (returned' ctx).symm.trans (returned ctx)
  subst same
  refine ⟨LeafSearch.exists_simplify_eq f ctx, ?_⟩
  show ((simplify f).run ctx).1.isNnf = true ∧ _
  rw [returned ctx]
  exact ⟨normal, restates.eval_eq, mentioned⟩

end Build

end TraceRegex
