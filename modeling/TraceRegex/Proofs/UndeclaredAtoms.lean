import TraceRegex.Proofs.SafeRuns

/-! # Undeclared atoms

A snapshot declares how many atoms its guards are about.  A guard that has been checked against that
number looks at no other atom, so letters that agree on the declared ones move every executor to the
same states, and words of such letters get the same verdicts.
-/

namespace TraceRegex

/-! ## Guards -/

/-- The letters differ at most in atoms from `n` on. -/
def Letter.AgreeBelow (n : Nat) (l l' : Letter) : Prop := ∀ i < n, l.holds i = l'.holds i

instance (n : Nat) (l l' : Letter) : Decidable (l.AgreeBelow n l') :=
  inferInstanceAs (Decidable (∀ i < n, l.holds i = l'.holds i))

section

variable {n : Nat} {l l' : Letter}

theorem Formula.eval_eq_of_agreeBelow (agree : l.AgreeBelow n l') {f : Formula}
    (bound : f.varCount ≤ n) : f.eval l = f.eval l' := by
  induction f with
  | const b => rfl
  | var i => exact agree i.toNat bound
  | not f ih => simp only [eval, ih bound]
  | and f g ihf ihg =>
    have both := Nat.max_le.mp bound
    simp only [eval, ihf both.1, ihg both.2]
  | or f g ihf ihg =>
    have both := Nat.max_le.mp bound
    simp only [eval, ihf both.1, ihg both.2]

theorem Bytecode.eval_eq_of_agreeBelow (agree : l.AgreeBelow n l') {code : Bytecode}
    (checked : code.check n = .ok ()) : code.eval l = code.eval l' := by
  obtain ⟨f, encoded, bound⟩ := exists_encode_of_check checked
  rw [eval_of_encode encoded l, eval_of_encode encoded l', f.eval_eq_of_agreeBelow agree bound]

end

/-! ## Lists of rules

Each of the walks over a list of rules depends on the letter through the guards alone. -/

section

variable {s : Snapshot} {l l' : Letter} {rules : List CodedRule}

theorem Snapshot.enabledTargets_congr (same : ∀ r ∈ rules, r.guard.eval l = r.guard.eval l') :
    enabledTargets l rules = enabledTargets l' rules := by
  induction rules with
  | nil => rfl
  | cons r rules ih =>
    rw [List.forall_mem_cons] at same
    rw [enabledTargets, enabledTargets, same.1, ih same.2]

theorem Snapshot.firstEnabled?_congr (same : ∀ r ∈ rules, r.guard.eval l = r.guard.eval l') :
    firstEnabled? l rules = firstEnabled? l' rules := by
  induction rules with
  | nil => rfl
  | cons r rules ih =>
    rw [List.forall_mem_cons] at same
    rw [firstEnabled?, firstEnabled?, same.1, ih same.2]

theorem SearchRun.moveState_congr (same : ∀ r ∈ rules, r.guard.eval l = r.guard.eval l') (a : Age)
    (next : AgedStates) : moveState s l a next rules = moveState s l' a next rules := by
  induction rules generalizing next with
  | nil => rfl
  | cons r rules ih =>
    rw [List.forall_mem_cons] at same
    rw [moveState, moveState, same.1, ih same.2 next, ih same.2 (next.join r.target a)]

end

/-! ## Runs -/

/-- Each guard of the snapshot gives the same answer on both letters. -/
def Snapshot.Blurs (s : Snapshot) (l l' : Letter) : Prop :=
  ∀ rules ∈ s.transitions, ∀ r ∈ rules, r.guard.eval l = r.guard.eval l'

section

variable {s : Snapshot} {l l' : Letter}

theorem Snapshot.Checked.blurs (checked : s.Checked) (agree : l.AgreeBelow s.atomCount l') :
    s.Blurs l l' := fun rules hrules r hr =>
  Bytecode.eval_eq_of_agreeBelow agree (checked.guard_checked rules hrules r hr)

/-- What is done with the rules of a state depends on the letter through the guards alone. -/
theorem Snapshot.Blurs.bind_rulesAt {α : Type} (blurs : s.Blurs l l')
    {f g : List CodedRule → Except Fault α}
    (same : ∀ rules, (∀ r ∈ rules, r.guard.eval l = r.guard.eval l') → f rules = g rules)
    (q : Nat) : (s.rulesAt q >>= f) = (s.rulesAt q >>= g) := by
  unfold rulesAt
  cases found : s.transitions[q]? with
  | none => rfl
  | some rules => exact same rules (blurs rules (List.mem_of_getElem? found))

theorem SetRun.advance_congr (blurs : s.Blurs l l') (run : SetRun) :
    run.advance s l = run.advance s l' := by
  have moves : (fun q => s.rulesAt q >>= Snapshot.enabledTargets l) =
      fun q => s.rulesAt q >>= Snapshot.enabledTargets l' :=
    funext fun q => blurs.bind_rulesAt (fun _ same => Snapshot.enabledTargets_congr same) q
  rw [advance, advance, moves]

theorem StateRun.advance_congr (blurs : s.Blurs l l') (run : StateRun) :
    run.advance s l = run.advance s l' := by
  have moves : (s.rulesAt run.current >>= Snapshot.firstEnabled? l) =
      (s.rulesAt run.current >>= Snapshot.firstEnabled? l') :=
    blurs.bind_rulesAt (fun _ same => Snapshot.firstEnabled?_congr same) run.current
  unfold advance
  split
  · rfl
  · rw [← bind_assoc, moves, bind_assoc]

theorem SearchRun.advance_congr (blurs : s.Blurs l l') (run : SearchRun) :
    run.advance s l = run.advance s l' := by
  have moves : move s l = move s l' := by
    funext live
    unfold move
    congr 1
    funext next x
    exact blurs.bind_rulesAt (fun _ same => moveState_congr same _ _) x.1
  rw [advance, advance, moves]

end

/-! ## Executors -/

/-- An executor that moves alike on letters that agree gives words of such letters the same
    verdicts.  The function `trace` lists these after each letter. -/
theorem Call.Keeps.exists_trace {α β : Type} {reset : α → Except Fault α}
    {advance : α → Letter → Except Fault α} {tracks : α → Word → Prop} {n : Nat}
    (keeps : Keeps reset advance tracks) (verdict : α → β)
    (trace : α → Word → Except Fault (List β)) (nil : ∀ x, trace x [] = .ok [])
    (cons : ∀ x l w, trace x (l :: w) =
      advance x l >>= fun y => trace y w >>= fun verdicts => .ok (verdict y :: verdicts))
    (same : ∀ x u l l', tracks x u → l.AgreeBelow n l' → advance x l = advance x l')
    {x : α} {u w w' : Word} (h : tracks x u) (agree : List.Forall₂ (Letter.AgreeBelow n) w w') :
    ∃ verdicts, trace x w = .ok verdicts ∧ trace x w' = .ok verdicts ∧
      verdicts.length = w.length := by
  induction agree generalizing x u with
  | nil => exact ⟨[], nil x, nil x, rfl⟩
  | @cons l l' w w' first _ ih =>
    obtain ⟨y, moved, tracked⟩ := keeps.advance x u l h
    obtain ⟨verdicts, rest, rest', length⟩ := ih tracked
    refine ⟨verdict y :: verdicts, ?_, ?_, by simp [length]⟩
    · rw [cons, moved]
      show (trace y w >>= fun verdicts => _) = _
      rw [rest]
      rfl
    · rw [cons, ← same x u l l' h first, moved]
      show (trace y w' >>= fun verdicts => _) = _
      rw [rest']
      rfl

namespace Executor

variable {s : Snapshot} {x y : Executor} {l l' : Letter}

theorem advance_congr (blurs : x.snapshot.Blurs l l') : x.advance l = x.advance l' := by
  unfold advance
  split
  · rw [SetRun.advance_congr blurs]
  · rw [StateRun.advance_congr blurs]

/-- A reset forgets the letters that were read. -/
theorem reset_of_advance (moved : x.advance l = .ok y) : y.reset = x.reset := by
  obtain ⟨t, run⟩ := x
  cases run with
  | set run =>
    obtain ⟨run', -, made⟩ := bind_eq_ok moved
    cases made
    rfl
  | state run =>
    obtain ⟨run', -, made⟩ := bind_eq_ok moved
    cases made
    rfl

theorem reset_of_ofSnapshot (made : ofSnapshot s = .ok x) : x.reset = .ok x := by
  unfold ofSnapshot at made
  split at made
  · cases made
    rfl
  split at made
  · obtain ⟨run, started, same⟩ := bind_eq_ok made
    cases same
    exact made
  · cases made

theorem keeps_start (checked : s.Checked) (inside : Inside s x) (start : x.reset = .ok x) :
    Call.Keeps reset advance fun y _ => Inside s y ∧ y.reset = .ok x where
  reset _ _ h := ⟨x, h.2, inside, start⟩
  advance y _ l h := by
    obtain ⟨next, moved, stays⟩ := h.1.exists_advance checked l
    exact ⟨next, moved, stays, (reset_of_advance moved).trans h.2⟩

end Executor

theorem SearchExecutor.advance_congr {x : SearchExecutor} {l l' : Letter}
    (blurs : x.snapshot.Blurs l l') : x.advance l = x.advance l' := by
  rw [advance, advance, SearchRun.advance_congr blurs]

/-! ## Decoded snapshots -/

/-- The executors of a decoded snapshot give the same verdicts on words that agree on the declared
    atoms, letter by letter, and whatever they have been asked before, a reset takes them back to
    where those verdicts start. -/
theorem Snapshot.verdicts_ignore_undeclared {bytes : List UInt8} {s : Snapshot}
    {names : List String} (decoded : decode bytes = .ok (s, names)) {w w' : Word}
    (agree : List.Forall₂ (Letter.AgreeBelow s.atomCount) w w') :
    (∃ x verdicts, Executor.ofSnapshot s = .ok x ∧ x.trace w = .ok verdicts ∧
      x.trace w' = .ok verdicts ∧ verdicts.length = w.length ∧
      ∀ calls : List Call, ∃ y,
        calls.foldlM (Call.perform Executor.reset Executor.advance) x = .ok y ∧ y.reset = .ok x) ∧
    ∃ verdicts, (SearchExecutor.ofSnapshot s).trace w = .ok verdicts ∧
      (SearchExecutor.ofSnapshot s).trace w' = .ok verdicts ∧ verdicts.length = w.length ∧
      ∀ calls : List Call, ∃ y,
        calls.foldlM (Call.perform (fun x => .ok x.reset) SearchExecutor.advance)
          (SearchExecutor.ofSnapshot s) = .ok y ∧ y.reset = SearchExecutor.ofSnapshot s := by
  have checked := checked_of_decode decoded
  constructor
  · obtain ⟨x, made, inside⟩ := Executor.exists_ofSnapshot checked
    have start := Executor.reset_of_ofSnapshot made
    have keeps := Executor.keeps_start checked inside start
    obtain ⟨verdicts, read, read', length⟩ := keeps.exists_trace Executor.verdict Executor.trace
      (fun _ => rfl) (fun _ _ _ => rfl)
      (fun y _ l l' h same => Executor.advance_congr (h.1.1 ▸ checked.blurs same))
      (u := []) ⟨inside, start⟩ agree
    refine ⟨x, verdicts, made, read, read', length, fun calls => ?_⟩
    obtain ⟨y, done, -, back⟩ := keeps.exists_foldlM (w := []) ⟨inside, start⟩ calls
    exact ⟨y, done, back⟩
  · have keeps := SearchExecutor.keeps_follows checked.toRunnable
    have start := SearchExecutor.follows_ofSnapshot s
    obtain ⟨verdicts, read, read', length⟩ := keeps.exists_trace SearchExecutor.verdict
      SearchExecutor.trace (fun _ => rfl) (fun _ _ _ => rfl)
      (fun y _ l l' h same => SearchExecutor.advance_congr (h.snapshot_eq ▸ checked.blurs same))
      start agree
    refine ⟨verdicts, read, read', length, fun calls => ?_⟩
    obtain ⟨y, done, follows⟩ := keeps.exists_foldlM start calls
    exact ⟨y, done, by rw [SearchExecutor.reset, follows.snapshot_eq]⟩

/-- One declared atom leads to the only final state; the words differ in two others. -/
theorem Snapshot.verdicts_ignore_undeclared_of_step :
    let bytes : List UInt8 :=
      [98, 116, 51, 130, 1, 0, 1, 0, 2, 0, 1, 0, 0, 0, 1, 0, 1, 0, 1, 0, 0, 0, 3, 0, 0, 0, 2, 0, 0,
        1, 0, 0, 0, 0, 0]
    let s : Snapshot := ⟨.deterministic, 1, 2, [0], [1], [[⟨[2, 0, 0], 1⟩], []]⟩
    let w : Word := [.ofList [0], .ofList [3]]
    let w' : Word := [.ofList [0, 65536], .ofList []]
    decode bytes = .ok (s, []) ∧ List.Forall₂ (Letter.AgreeBelow s.atomCount) w w' ∧
      (∃ x, Executor.ofSnapshot s = .ok x ∧ x.trace w' = .ok [.ok, .failed]) ∧
      (SearchExecutor.ofSnapshot s).trace w' = .ok [.ok 1 1 1, .pending 0] := by
  intro bytes s w w'
  have decoded : decode bytes = .ok (s, []) := by cbv
  have agree : List.Forall₂ (Letter.AgreeBelow s.atomCount) w w' :=
    .cons (by decide) (.cons (by decide) .nil)
  obtain ⟨⟨x, verdicts, made, read, read', -⟩, verdicts', search, search', -⟩ :=
    verdicts_ignore_undeclared decoded agree
  have start : Executor.ofSnapshot s = .ok ⟨s, .state ⟨0, .pending⟩⟩ := rfl
  cases start.symm.trans made
  have computed : Executor.trace ⟨s, .state ⟨0, .pending⟩⟩ w = .ok [.ok, .failed] := rfl
  have computed' : (SearchExecutor.ofSnapshot s).trace w = .ok [.ok 1 1 1, .pending 0] := rfl
  cases computed.symm.trans read
  cases computed'.symm.trans search
  exact ⟨decoded, agree, ⟨_, made, read'⟩, search'⟩

end TraceRegex
