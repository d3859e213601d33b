import TraceRegex.Proofs.Minimization
import TraceRegex.Proofs.SafeRuns
import TraceRegex.Proofs.TableAlgebra
import TraceRegex.Table.Clean

/-! # Cleaning and determinising tables of automata

On the table of an automaton that there is room for, the removal of what no accepted word can use
meets none of the faults that it looks out for, and neither does the exploration of sets of states.
So both are what they are on the automaton itself, down to the formulas that they build and the
questions that they ask the solver.
-/

namespace TraceRegex

variable {a : Automaton} {q : Nat}

/-! ## Rows of bits for states -/

theorem Automaton.HasRoom.stateCount_le (room : a.HasRoom) : a.stateCount ≤ maxTableBytes := by
  unfold HasRoom ruleListBytes at room
  omega

theorem Automaton.HasRoom.lt_maxTableBytes (room : a.HasRoom) (hq : q < a.stateCount) :
    q < maxTableBytes :=
  Nat.lt_of_lt_of_le hq room.stateCount_le

/-! ## Computations that meet no fault -/

section

variable {α β : Type}

/-- What follows a computation may count on what it returns. -/
theorem liftM_bind_congr {m : Build α} {x : α} (h : Build.Returns m x) {f g : α → Lookup β}
    (same : f x = g x) : (liftM m >>= f : Lookup β) = liftM m >>= g := by
  refine ExceptT.ext (StateT.ext fun ctx => ?_)
  show (f (m.run ctx).1).run.run (m.run ctx).2 = (g (m.run ctx).1).run.run (m.run ctx).2
  rw [h ctx, same]

theorem filterM_eq_liftM {xs : List α} {p : α → Lookup Bool} {p' : α → Build Bool}
    (h : ∀ x ∈ xs, p x = liftM (p' x)) : xs.filterM p = liftM (xs.filterM p') := by
  have kept (ys : List α) : List.filterAuxM p xs ys = liftM (List.filterAuxM p' xs ys) := by
    induction xs generalizing ys with
    | nil => rfl
    | cons x xs ih =>
      rw [List.filterAuxM, List.filterAuxM, h x List.mem_cons_self, liftM_bind]
      simp only [ih fun y hy => h y (List.mem_cons_of_mem x hy)]
  unfold List.filterM
  rw [kept, liftM_bind]
  rfl

end

namespace Table

theorem checkRoots_eq_ok (room : a.HasRoom) {roots : List Nat}
    (inside : ∀ q ∈ roots, q < a.stateCount) : (ofAutomaton a).checkRoots roots = .ok () := by
  have all : roots.all (· < a.stateCount) = true := by simpa using inside
  unfold checkRoots
  rw [checkRows_eq_ok fun q hq => room.lt_maxTableBytes (inside q hq)]
  exact if_pos all

theorem toAutomaton_ofAutomaton (a : Automaton) : (ofAutomaton a).toAutomaton = a := by
  show { a with finals := SortedSet.ofList a.finals.toList } = a
  rw [SortedSet.ofList_toList]

/-! ## Cleaning -/

theorem isLive_ofAutomaton {r : Rule} (hq : q < a.stateCount) (hr : r.target < a.stateCount) :
    (ofAutomaton a).isLive q r = liftM (Build.sat r.guard) := by
  simp [isLive, hq, hr]

theorem dropDeadRules_ofAutomaton (ha : a.Valid) : (ofAutomaton a).dropDeadRules =
    (do return ofAutomaton (← a.dropDeadRules) : Lookup Table) := by
  have lists : (a.transitions.zipIdx.mapM fun p => p.1.filterM ((ofAutomaton a).isLive p.2)) =
      liftM (a.transitions.mapM fun rules => rules.filterM fun r => Build.sat r.guard) := by
    rw [← mapM_liftM, ← mapM_zipIdx a.transitions fun rules =>
      (liftM (rules.filterM fun r => Build.sat r.guard) : Lookup _)]
    refine mapM_congr ?_
    rintro ⟨rules, q⟩ hp
    obtain ⟨inside, stands⟩ := List.mem_zipIdx' hp
    rw [ha.length_transitions] at inside
    exact filterM_eq_liftM fun r hr =>
      isLive_ofAutomaton inside (ha.target_lt rules (stands ▸ List.getElem_mem _) r hr)
  unfold dropDeadRules Automaton.dropDeadRules
  refine (congrArg (· >>= _) lists).trans ?_
  rw [liftM_bind, bind_assoc]
  rfl

theorem idxOf_lt_idxOf {keep : List Nat} (ascending : keep.Pairwise (· < ·)) {p q : Nat}
    (hp : p ∈ keep) (hq : q ∈ keep) (h : p < q) : keep.idxOf p < keep.idxOf q := by
  rcases Nat.lt_trichotomy (keep.idxOf p) (keep.idxOf q) with less | same | more
  · exact less
  · rw [List.idxOf_inj hp] at same
    omega
  · have := List.pairwise_iff_getElem.mp ascending _ _ (List.idxOf_lt_length_of_mem hq)
      (List.idxOf_lt_length_of_mem hp) more
    rw [List.getElem_idxOf, List.getElem_idxOf] at this
    omega

/-- Renumbering keeps final states in order. -/
theorem finals_restrict (a : Automaton) {keep : List Nat} (ascending : keep.Pairwise (· < ·)) :
    (a.finals.items.filter keep.contains).map keep.idxOf = (a.restrict keep).finals.items := by
  have sorted : ((a.finals.toList.filter keep.contains).map keep.idxOf).Pairwise (· < ·) := by
    rw [List.pairwise_map]
    refine (a.finals.ascending.filter _).imp_of_mem fun {p q} hp hq less => ?_
    simp only [List.mem_filter, List.contains_iff_mem] at hp hq
    exact idxOf_lt_idxOf ascending hp.2 hq.2 less
  apply Array.toList_inj.mp
  rw [Array.toList_map, Array.toList_filter]
  exact (SortedSet.toList_ofList sorted).symm

theorem pairwise_kept (a : Automaton) : a.kept.Pairwise (· < ·) := by
  unfold Automaton.kept
  split
  · exact List.pairwise_singleton _ _
  · exact List.pairwise_lt_range.filter _

theorem lt_of_mem_kept (h : a.initial < a.stateCount) (hq : q ∈ a.kept) : q < a.stateCount := by
  unfold Automaton.kept at hq
  split at hq
  · rwa [List.mem_singleton.mp hq]
  · exact List.mem_range.mp (List.mem_of_mem_filter hq)

theorem clean_ofAutomaton (ha : a.Valid) (room : a.HasRoom) :
    (ofAutomaton a).clean = (do return ofAutomaton (← a.clean) : Lookup Table) := by
  have enough : checkTable a.stateCount ruleListBytes = .ok () := if_pos room
  have initial : (ofAutomaton a).checkRoots [a.initial] = .ok () :=
    checkRoots_eq_ok room (by simpa using ha.initial_lt)
  have finals : (ofAutomaton a).checkRoots a.finals.items.toList = .ok () :=
    checkRoots_eq_ok room fun q hq => ha.finals_lt q hq
  unfold clean Automaton.clean
  rw [dropDeadRules_ofAutomaton ha, stateCount_ofAutomaton, enough, initial_ofAutomaton, initial,
    finals_ofAutomaton, finals]
  unfold Automaton.dropDeadRules
  simp only [liftM_ok, pure_bind, bind_assoc, liftM_bind, liftM_pure, toAutomaton_ofAutomaton]
  refine bind_congr fun transitions => ?_
  let live : Automaton := { a with transitions }
  have all : live.kept.all (· < (ofAutomaton a).transitions.size) = true := by
    rw [List.all_eq_true]
    intro q hq
    have inside : q < a.stateCount := lt_of_mem_kept (a := live) ha.initial_lt hq
    simpa [ofAutomaton, ha.length_transitions] using inside
  refine (if_pos all).trans (congrArg pure ?_)
  rw [show a.finals.items = live.finals.items from rfl]
  exact congrArg (fun finals => { ofAutomaton live.trim with finals })
    (finals_restrict live (pairwise_kept live))

theorem prefixClosure_ofAutomaton (ha : a.Valid) (room : a.HasRoom) :
    (ofAutomaton a).prefixClosure = (do return ofAutomaton (← a.prefixClosure) : Lookup Table) := by
  unfold prefixClosure Automaton.prefixClosure
  rw [clean_ofAutomaton ha room]
  simp only [bind_assoc, pure_bind, liftM_bind, liftM_pure]
  refine bind_congr fun c => congrArg pure ?_
  have all : Array.range c.stateCount = (SortedSet.range c.stateCount).items :=
    Array.toList_inj.mp Array.toList_range
  have none : (ofAutomaton c).finals.isEmpty = c.finals.isEmpty := rfl
  rw [none, stateCount_ofAutomaton, all]
  split
  · rfl
  · rfl

theorem minimize_ofAutomaton (ha : a.Valid) (room : a.HasRoom) :
    (ofAutomaton a).minimize = (do return ofAutomaton (← a.minimize) : Lookup Table) := by
  unfold minimize Automaton.minimize
  rw [clean_ofAutomaton ha room]
  simp [toAutomaton_ofAutomaton]

/-! ## Determinisation -/

theorem regions_eq (upper : Formula) (enabled : StateSet) {groups : List (Nat × Formula)}
    (rows : ∀ g ∈ groups, checkRow g.1 = .ok ()) :
    regions upper enabled groups = liftM (Automaton.regions upper enabled groups) := by
  induction groups generalizing upper enabled with
  | nil =>
    unfold regions Automaton.regions
    split
    · rfl
    · simp
  | cons g rest ih =>
    obtain ⟨target, guard⟩ := g
    have later : ∀ g ∈ rest, checkRow g.1 = .ok () := fun g hg => rows g (List.mem_cons_of_mem _ hg)
    unfold regions Automaton.regions
    simp [rows _ List.mem_cons_self, ih _ _ later, liftM_ok, apply_ite]

theorem rulesAt_of_lt_stateCount (ha : a.Valid) (hq : q < a.stateCount) :
    (ofAutomaton a).rulesAt q = .ok (a.rulesFrom q) := by
  have inside : q < a.transitions.length := ha.length_transitions ▸ hq
  simp [rulesAt, ofAutomaton, Automaton.rulesFrom, inside]

theorem foldlM_liftM {α β : Type} (xs : List α) (f : β → α → Build β) (x : β) :
    xs.foldlM (fun y z => (liftM (f y z) : Lookup β)) x = liftM (xs.foldlM f x) := by
  induction xs generalizing x with
  | nil => rfl
  | cons z xs ih => simp [ih]

theorem joinGuards_eq (ha : a.Valid) {states : List Nat} (inside : ∀ q ∈ states, q < a.stateCount)
    (groups : List (Nat × Formula)) :
    states.foldlM (fun groups q => (do
        (← (ofAutomaton a).rulesAt q).foldlM
          (fun groups r => liftM (Automaton.joinGuard groups r)) groups : Lookup _)) groups =
      liftM ((states.flatMap a.rulesFrom).foldlM Automaton.joinGuard groups) := by
  induction states generalizing groups with
  | nil => rfl
  | cons q states ih =>
    rw [List.foldlM_cons, rulesAt_of_lt_stateCount ha (inside q List.mem_cons_self), liftM_ok,
      pure_bind, foldlM_liftM, List.flatMap_cons, List.foldlM_append, liftM_bind]
    exact bind_congr fun groups => ih (fun p hp => inside p (List.mem_cons_of_mem q hp)) groups

theorem mem_map_fst_groupsOf {rules : List Rule} {t : Nat} :
    t ∈ (Automaton.groupsOf rules).map Prod.fst ↔ ∃ r ∈ rules, r.target = t := by
  have folded (groups : List (Nat × Formula)) :
      t ∈ (rules.foldl Automaton.joined groups).map Prod.fst ↔
        t ∈ groups.map Prod.fst ∨ ∃ r ∈ rules, r.target = t := by
    induction rules generalizing groups with
    | nil => simp
    | cons r rules ih =>
      rw [List.foldl_cons, ih, Automaton.mem_map_fst_joined, or_assoc, List.exists_mem_cons_iff]
      simp only [eq_comm (a := t)]
  rw [Automaton.groupsOf, folded]
  simp

theorem regionsFrom_eq (ha : a.Valid) (room : a.HasRoom) {states : StateSet}
    (inside : ∀ q ∈ states, q < a.stateCount) :
    (ofAutomaton a).regionsFrom states = liftM (a.regionsFrom states) := by
  have joined : Build.Returns ((states.toList.flatMap a.rulesFrom).foldlM Automaton.joinGuard [])
      (Automaton.groupsOf (states.toList.flatMap a.rulesFrom)) :=
    Build.Returns.foldlM fun groups r _ => Automaton.joinGuard_returns groups r
  unfold regionsFrom Automaton.regionsFrom
  refine (congrArg (· >>= _) (joinGuards_eq ha inside [])).trans ?_
  rw [liftM_bind]
  refine liftM_bind_congr joined (regions_eq _ _ fun g hg => ?_)
  obtain ⟨r, hr, target⟩ := mem_map_fst_groupsOf.mp (List.mem_map.mpr ⟨g, hg, rfl⟩)
  obtain ⟨q, -, hr⟩ := List.mem_flatMap.mp hr
  obtain ⟨rules, hrules, hr⟩ := Automaton.mem_transitions_of_mem_rulesFrom hr
  rw [← target]
  exact checkRow_eq_ok (room.lt_maxTableBytes (ha.target_lt rules hrules r hr))

theorem explore_eq (ha : a.Valid) (room : a.HasRoom) (rounds : Nat) (s : Automaton.Subsets)
    (h : s.Sound a) :
    (ofAutomaton a).explore rounds s = liftM (Automaton.Subsets.explore a rounds s) := by
  induction rounds generalizing s with
  | zero => rfl
  | succ rounds ih =>
    unfold explore Automaton.Subsets.explore
    cases hx : s.sets[s.transitions.length]? with
    | none => rfl
    | some x =>
      have mem := List.mem_of_getElem? hx
      dsimp only
      rw [regionsFrom_eq ha room fun q hq => h.lt_stateCount ha mem hq, liftM_bind]
      exact liftM_bind_congr (Automaton.regionsFrom_steady a x) (ih _ (h.step hx))

theorem determinize_ofAutomaton (ha : a.Valid) (room : a.HasRoom) :
    (ofAutomaton a).determinize = liftM a.determinize := by
  have size : (ofAutomaton a).transitions.size = a.stateCount := ha.length_transitions
  unfold determinize Automaton.determinize
  rw [size, initial_ofAutomaton, checkRow_eq_ok (room.lt_maxTableBytes ha.initial_lt), liftM_ok,
    pure_bind, explore_eq ha room _ _ (Automaton.sound_start a), liftM_bind]
  rfl

theorem complement_ofAutomaton (ha : a.Valid) (room : a.HasRoom) :
    (ofAutomaton a).complement = (do return ofAutomaton (← a.complement) : Lookup Table) := by
  unfold complement Automaton.complement
  rw [determinize_ofAutomaton ha room]
  simp

end Table

end TraceRegex
