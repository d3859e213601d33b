import TraceRegex.Proofs.PartitionRefinement

/-! # Minimisation

The quotient of an automaton by a stable partition has the runs of the automaton, read block by
block: so it gives the same verdict on every word.  A bisimulation of the quotient by bisimilarity
leads back to one of the automaton, so no two states of the quotient are bisimilar, and minimising
again changes nothing.
-/

namespace TraceRegex

namespace Automaton

open Refinement

variable {a : Automaton}

/-! ## Guards by target -/

/-- The guard stands under the target. -/
def Lists (groups : List (Nat × List Formula)) (t : Nat) (f : Formula) : Prop :=
  ∃ g ∈ groups, g.1 = t ∧ f ∈ g.2

theorem lists_cons {g : Nat × List Formula} {groups : List (Nat × List Formula)} {t : Nat}
    {f : Formula} : Lists (g :: groups) t f ↔ (g.1 = t ∧ f ∈ g.2) ∨ Lists groups t f := by
  simp [Lists]

theorem lists_addGuard {groups : List (Nat × List Formula)} {target t : Nat} {guard f : Formula} :
    Lists (addGuard groups target guard) t f ↔ Lists groups t f ∨ (target = t ∧ f = guard) := by
  induction groups with
  | nil => simp [addGuard, Lists]
  | cons g rest ih =>
    obtain ⟨t', guards⟩ := g
    unfold addGuard
    split
    · next same =>
      subst same
      simp only [lists_cons]
      split
      · next known =>
        have : guard ∈ guards := List.contains_iff_mem.mp known
        grind
      · simp only [List.mem_append, List.mem_singleton]
        grind
    · simp only [lists_cons, ih, or_assoc]

theorem map_fst_addGuard (groups : List (Nat × List Formula)) (target : Nat) (guard : Formula) :
    (addGuard groups target guard).map Prod.fst =
      if target ∈ groups.map Prod.fst then groups.map Prod.fst
      else groups.map Prod.fst ++ [target] := by
  induction groups with
  | nil => simp [addGuard]
  | cons g rest ih =>
    obtain ⟨t, guards⟩ := g
    unfold addGuard
    by_cases same : t = target
    · simp [same]
    · have other : ¬target = t := fun h => same h.symm
      by_cases known : target ∈ rest.map Prod.fst
      · rw [if_neg same, List.map_cons, ih, if_pos known]
        simp only [List.map_cons, List.mem_cons, known, or_true, if_true]
      · rw [if_neg same, List.map_cons, ih, if_neg known]
        simp only [List.map_cons, List.mem_cons, known, other, or_self, if_false, List.cons_append]

/-- The guards of a list of rules, by the place of the target. -/
def guardsBy (place : Nat → Nat) (rules : List Rule) : List (Nat × List Formula) :=
  rules.foldl (fun groups r => addGuard groups (place r.target) r.guard) []

theorem lists_guardsBy {place : Nat → Nat} {rules : List Rule} {t : Nat} {f : Formula} :
    Lists (guardsBy place rules) t f ↔ ∃ r ∈ rules, place r.target = t ∧ f = r.guard := by
  have folded : ∀ groups, Lists (rules.foldl
      (fun groups r => addGuard groups (place r.target) r.guard) groups) t f ↔
      Lists groups t f ∨ ∃ r ∈ rules, place r.target = t ∧ f = r.guard := by
    induction rules with
    | nil => simp
    | cons r rules ih =>
      intro groups
      rw [List.foldl_cons, ih, lists_addGuard, or_assoc]
      simp
  rw [guardsBy, folded]
  simp [Lists]

theorem nodup_guardsBy (place : Nat → Nat) (rules : List Rule) :
    ((guardsBy place rules).map Prod.fst).Nodup := by
  have folded : ∀ groups : List (Nat × List Formula), (groups.map Prod.fst).Nodup →
      ((rules.foldl (fun groups r => addGuard groups (place r.target) r.guard) groups).map
        Prod.fst).Nodup := by
    induction rules with
    | nil => exact fun groups h => h
    | cons r rules ih =>
      intro groups h
      refine ih _ ?_
      rw [map_fst_addGuard]
      split
      · exact h
      · next absent =>
        refine List.nodup_append.mpr ⟨h, List.pairwise_singleton _ _, fun x hx y hy same => ?_⟩
        rw [List.mem_singleton.mp hy] at same
        exact absent (same ▸ hx)
  exact folded [] List.nodup_nil

theorem ne_nil_addGuard {groups : List (Nat × List Formula)} (h : ∀ g ∈ groups, g.2 ≠ [])
    (target : Nat) (guard : Formula) : ∀ g ∈ addGuard groups target guard, g.2 ≠ [] := by
  induction groups with
  | nil => simp [addGuard]
  | cons g rest ih =>
    obtain ⟨t, guards⟩ := g
    have first : guards ≠ [] := h _ List.mem_cons_self
    have later : ∀ g ∈ rest, g.2 ≠ [] := fun g hg => h g (List.mem_cons_of_mem _ hg)
    intro g hg
    unfold addGuard at hg
    split at hg
    · rcases List.mem_cons.mp hg with rfl | hg
      · dsimp only
        split
        · exact first
        · simp
      · exact later g hg
    · rcases List.mem_cons.mp hg with rfl | hg
      · exact first
      · exact ih later g hg

/-- Every group comes from a rule. -/
theorem exists_rule_of_mem_guardsBy {place : Nat → Nat} {rules : List Rule}
    {g : Nat × List Formula} (hg : g ∈ guardsBy place rules) :
    ∃ r ∈ rules, place r.target = g.1 ∧ r.guard ∈ g.2 := by
  have folded : ∀ groups : List (Nat × List Formula), (∀ g ∈ groups, g.2 ≠ []) →
      ∀ g ∈ rules.foldl (fun groups r => addGuard groups (place r.target) r.guard) groups,
        g.2 ≠ [] := by
    clear hg
    induction rules with
    | nil => exact fun groups h => h
    | cons r rules ih => exact fun groups h => ih _ (ne_nil_addGuard h _ _)
  obtain ⟨f, hf⟩ := List.exists_mem_of_ne_nil _ (folded [] (by simp) g hg)
  obtain ⟨r, hr, place, rfl⟩ := lists_guardsBy.mp ⟨g, hg, rfl, hf⟩
  exact ⟨r, hr, place, hf⟩

/-- With one rule for each target there is nothing to group. -/
theorem guardsBy_eq_map {place : Nat → Nat} {rules : List Rule}
    (fixed : ∀ r ∈ rules, place r.target = r.target) (nodup : (rules.map Rule.target).Nodup) :
    guardsBy place rules = rules.map fun r => (r.target, [r.guard]) := by
  have appended : ∀ (groups : List (Nat × List Formula)) (t : Nat) (f : Formula),
      ¬t ∈ groups.map Prod.fst → addGuard groups t f = groups ++ [(t, [f])] := by
    intro groups t f absent
    induction groups with
    | nil => rfl
    | cons g rest ih =>
      obtain ⟨t', guards⟩ := g
      simp only [List.map_cons, List.mem_cons, not_or] at absent
      unfold addGuard
      rw [if_neg fun same => absent.1 same.symm, ih absent.2, List.cons_append]
  have folded : ∀ groups : List (Nat × List Formula),
      (∀ r ∈ rules, ¬r.target ∈ groups.map Prod.fst) →
      rules.foldl (fun groups r => addGuard groups (place r.target) r.guard) groups =
        groups ++ rules.map fun r => (r.target, [r.guard]) := by
    induction rules with
    | nil => simp
    | cons r rules ih =>
      intro groups absent
      obtain ⟨apart, nodup⟩ := List.nodup_cons.mp nodup
      have first := appended groups r.target r.guard (absent r List.mem_cons_self)
      rw [List.foldl_cons, fixed r List.mem_cons_self, first,
        ih (fun r hr => fixed r (List.mem_cons_of_mem _ hr)) nodup]
      · simp
      · intro r' hr' known
        rw [List.map_append, List.mem_append] at known
        rcases known with known | known
        · exact absent r' (List.mem_cons_of_mem _ hr') known
        · have same : r'.target = r.target := by simpa using known
          exact apart (same ▸ List.mem_map.mpr ⟨r', hr', rfl⟩)
  exact folded [] (by simp)

/-! ## The quotient -/

/-- The rules of a block. -/
def blockRules (a : Automaton) (blocks : List Block) (block : Block) : List Rule :=
  (guardsBy (blockOf blocks) (block.flatMap a.rulesFrom)).map
    fun g => ⟨(Build.disjunction g.2).result, g.1⟩

/-- The automaton that `quotient` makes. -/
def merged (a : Automaton) (blocks : List Block) : Automaton where
  atomCount := a.atomCount
  stateCount := blocks.length
  initial := blockOf blocks a.initial
  finals := .ofList (a.finals.toList.map (blockOf blocks))
  transitions := blocks.map (blockRules a blocks)

theorem quotient_returns (a : Automaton) (blocks : List Block) :
    Build.Returns (a.quotient blocks) (a.merged blocks) := by
  have rules : ∀ block, Build.Returns
      ((guardsBy (blockOf blocks) (block.flatMap a.rulesFrom)).mapM
        fun g => do return Rule.mk (← Build.disjunction g.2) g.1)
      (blockRules a blocks block) :=
    fun block => Build.Returns.mapM fun g _ =>
      (Build.disjunction_steady g.2).bind (Build.Returns.pure _)
  have transitions := Build.Returns.mapM fun block (_ : block ∈ blocks) => rules block
  exact transitions.bind (Build.Returns.pure _)

theorem exists_rule_iff {blocks : List Block} {block : Block} {l : Letter} {t : Nat} :
    (∃ r ∈ blockRules a blocks block, r.guard.eval l = true ∧ r.target = t) ↔
      ∃ q ∈ block, ∃ s, a.Step q l s ∧ blockOf blocks s = t := by
  have listed : (∃ r ∈ blockRules a blocks block, r.guard.eval l = true ∧ r.target = t) ↔
      ∃ f, Lists (guardsBy (blockOf blocks) (block.flatMap a.rulesFrom)) t f ∧ f.eval l = true := by
    simp only [blockRules, List.mem_map, Lists]
    constructor
    · rintro ⟨r, ⟨g, hg, rfl⟩, enabled, rfl⟩
      rw [Build.eval_disjunction] at enabled
      obtain ⟨f, hf, holds⟩ := List.any_eq_true.mp enabled
      exact ⟨f, ⟨g, hg, rfl, hf⟩, holds⟩
    · rintro ⟨f, ⟨g, hg, rfl, hf⟩, holds⟩
      refine ⟨_, ⟨g, hg, rfl⟩, ?_, rfl⟩
      rw [Build.eval_disjunction]
      exact List.any_eq_true.mpr ⟨f, hf, holds⟩
  rw [listed]
  simp only [lists_guardsBy, List.mem_flatMap, Step]
  constructor
  · rintro ⟨-, ⟨r, ⟨q, hq, hr⟩, place, rfl⟩, enabled⟩
    exact ⟨q, hq, r.target, ⟨r, hr, enabled, rfl⟩, place⟩
  · rintro ⟨q, hq, s, ⟨r, hr, enabled, rfl⟩, place⟩
    exact ⟨r.guard, ⟨r, ⟨q, hq, hr⟩, place, rfl⟩, enabled⟩

/-- A partition in which no block splits another and final states are apart from the others. -/
structure StablePartition (a : Automaton) (blocks : List Block) : Prop
    extends Partition a.stateCount blocks where
  final : ∀ b ∈ blocks, ∀ x ∈ b, ∀ y ∈ b, x ∈ a.finals → y ∈ a.finals
  unsplit : ∀ b ∈ blocks, ∀ c ∈ blocks, Unsplit a b c

theorem blockOf_eq_iff {n : Nat} {blocks : List Block} (h : Partition n blocks) {q i : Nat}
    (hq : q < n) : blockOf blocks q = i ↔ ∃ b, blocks[i]? = some b ∧ q ∈ b := by
  have found : ∃ b ∈ blocks, b.contains q = true := by
    obtain ⟨b, hb, mem⟩ := h.lt_iff.mp hq
    exact ⟨b, hb, List.contains_iff_mem.mpr mem⟩
  have hlt : blockOf blocks q < blocks.length := List.findIdx_lt_length_of_exists found
  have mem : q ∈ blocks[blockOf blocks q] := List.contains_iff_mem.mp List.findIdx_getElem
  constructor
  · rintro rfl
    exact ⟨_, List.getElem?_eq_getElem hlt, mem⟩
  · rintro ⟨b, hb, hqb⟩
    obtain ⟨hi, rfl⟩ := List.getElem?_eq_some_iff.mp hb
    -- the state would be in two blocks if it stood at another place too
    have apart := List.pairwise_iff_getElem.mp h.disjoint
    rcases Nat.lt_trichotomy (blockOf blocks q) i with less | same | more
    · exact absurd rfl (apart _ _ hlt hi less q mem q hqb)
    · exact same
    · exact absurd rfl (apart _ _ hi hlt more q hqb q mem)

namespace StablePartition

variable {blocks : List Block}

theorem blockOf_lt (h : StablePartition a blocks) {q : Nat} (hq : q < a.stateCount) :
    blockOf blocks q < blocks.length := by
  obtain ⟨b, hb, -⟩ := (blockOf_eq_iff h.toPartition hq).mp rfl
  exact (List.getElem?_eq_some_iff.mp hb).1

theorem exists_state (h : StablePartition a blocks) {i : Nat} (hi : i < blocks.length) :
    ∃ q < a.stateCount, blockOf blocks q = i := by
  have mem := List.getElem_mem hi
  obtain ⟨q, hq⟩ := List.exists_mem_of_ne_nil _ (h.nonempty _ mem)
  have hlt := h.lt_iff.mpr ⟨_, mem, hq⟩
  exact ⟨q, hlt, (blockOf_eq_iff h.toPartition hlt).mpr ⟨_, List.getElem?_eq_getElem hi, hq⟩⟩

theorem rulesFrom_merged (h : StablePartition a blocks) {q : Nat} (hq : q < a.stateCount) :
    ∃ b ∈ blocks, q ∈ b ∧
      (a.merged blocks).rulesFrom (blockOf blocks q) = blockRules a blocks b := by
  obtain ⟨b, hb, mem⟩ := (blockOf_eq_iff h.toPartition hq).mp rfl
  refine ⟨b, List.mem_of_getElem? hb, mem, ?_⟩
  simp [rulesFrom, merged, List.getD_eq_getElem?_getD, hb]

/-- The steps of a block are those of any of its states. -/
theorem step_merged (h : StablePartition a blocks) (ha : a.Valid) {q t : Nat} {l : Letter}
    (hq : q < a.stateCount) : (a.merged blocks).Step (blockOf blocks q) l t ↔
      ∃ s, a.Step q l s ∧ blockOf blocks s = t := by
  obtain ⟨b, hb, mem, rules⟩ := h.rulesFrom_merged hq
  rw [Step, rules, exists_rule_iff]
  constructor
  · rintro ⟨q', hq', s, step, place⟩
    -- the state at hand enters the same block
    have hs := (ha.step_lt step).2
    obtain ⟨c, hc, hsc⟩ := (blockOf_eq_iff h.toPartition hs).mp place
    obtain ⟨s', hs', step'⟩ :=
      h.unsplit b hb c (List.mem_of_getElem? hc) q' hq' q mem l ⟨s, hsc, step⟩
    have hlt := (ha.step_lt step').2
    exact ⟨s', step', (blockOf_eq_iff h.toPartition hlt).mpr ⟨c, hc, hs'⟩⟩
  · rintro ⟨s, step, place⟩
    exact ⟨q, mem, s, step, place⟩

theorem path_merged (h : StablePartition a blocks) (ha : a.Valid) {q t : Nat} {w : Word}
    (hq : q < a.stateCount) : (a.merged blocks).Path (blockOf blocks q) w t ↔
      ∃ s, a.Path q w s ∧ blockOf blocks s = t :=
  path_copy (blockOf blocks) (fun _ _ _ hq => h.step_merged ha hq) ha hq

theorem mem_finals_merged (h : StablePartition a blocks) (ha : a.Valid) {q : Nat}
    (hq : q < a.stateCount) : blockOf blocks q ∈ (a.merged blocks).finals ↔ q ∈ a.finals := by
  simp only [merged, SortedSet.mem_ofList, List.mem_map, SortedSet.mem_toList]
  constructor
  · rintro ⟨f, hf, place⟩
    obtain ⟨b, hb, hfb⟩ := (blockOf_eq_iff h.toPartition (ha.finals_lt f hf)).mp place
    obtain ⟨c, hc, hqc⟩ := (blockOf_eq_iff h.toPartition hq).mp rfl
    obtain rfl : b = c := Option.some.inj (hb.symm.trans hc)
    exact h.final b (List.mem_of_getElem? hb) f hfb q hqc hf
  · exact fun hq => ⟨q, hq, rfl⟩

theorem exists_final {i : Nat} (hi : i ∈ (a.merged blocks).finals) :
    ∃ f ∈ a.finals, blockOf blocks f = i := by
  simpa [merged] using hi

theorem valid_merged (h : StablePartition a blocks) (ha : a.Valid) : (a.merged blocks).Valid := by
  refine ⟨h.blockOf_lt ha.initial_lt, by simp [merged], fun i hi => ?_, ?_, ?_⟩
  · obtain ⟨f, hf, rfl⟩ := exists_final hi
    exact h.blockOf_lt (ha.finals_lt f hf)
  · intro rules hrules r hr
    obtain ⟨b, hb, rfl⟩ := List.mem_map.mp hrules
    obtain ⟨g, hg, rfl⟩ := List.mem_map.mp hr
    obtain ⟨r', hr', place, -⟩ := exists_rule_of_mem_guardsBy hg
    obtain ⟨q, -, mem⟩ := List.mem_flatMap.mp hr'
    show g.1 < blocks.length
    rw [← place]
    exact h.blockOf_lt (ha.target_lt_of_mem mem)
  · intro rules hrules r hr
    obtain ⟨b, hb, rfl⟩ := List.mem_map.mp hrules
    obtain ⟨g, hg, rfl⟩ := List.mem_map.mp hr
    refine Build.varCount_disjunction_le fun f hf => ?_
    obtain ⟨r', hr', -, rfl⟩ := lists_guardsBy.mp ⟨g, hg, rfl, hf⟩
    obtain ⟨q, -, mem⟩ := List.mem_flatMap.mp hr'
    obtain ⟨rules', hrules', mem⟩ := mem_transitions_of_mem_rulesFrom mem
    exact ha.varCount_le rules' hrules' r' mem

theorem feasible_merged (feasible : a.Feasible) :
    (a.merged blocks).Feasible := by
  intro i r hr
  obtain ⟨rules, hrules, hr⟩ := mem_transitions_of_mem_rulesFrom hr
  obtain ⟨b, hb, rfl⟩ := List.mem_map.mp hrules
  obtain ⟨g, hg, rfl⟩ := List.mem_map.mp hr
  obtain ⟨r', hr', -, listed⟩ := exists_rule_of_mem_guardsBy hg
  obtain ⟨q, -, mem⟩ := List.mem_flatMap.mp hr'
  obtain ⟨l, hl⟩ := feasible q r' mem
  refine ⟨l, ?_⟩
  rw [Build.eval_disjunction]
  exact List.any_eq_true.mpr ⟨_, listed, hl⟩

/-- A block is useful when its states are. -/
theorem useful_merged (h : StablePartition a blocks) (ha : a.Valid) {q : Nat}
    (hq : q < a.stateCount) (useful : a.Useful q) :
    (a.merged blocks).Useful (blockOf blocks q) := by
  obtain ⟨⟨u, reached⟩, v, f, hf, leads⟩ := useful
  refine ⟨⟨u, (h.path_merged ha ha.initial_lt).mpr ⟨q, reached, rfl⟩⟩, v, blockOf blocks f, ?_, ?_⟩
  · exact (h.mem_finals_merged ha (ha.finals_lt f hf)).mpr hf
  · exact (h.path_merged ha hq).mpr ⟨f, leads, rfl⟩

theorem trim_merged (h : StablePartition a blocks) (ha : a.Trim) : (a.merged blocks).Trim := by
  refine ⟨h.valid_merged ha.valid, feasible_merged ha.feasible, ?_⟩
  rcases ha.useful with useful | ⟨single, noFinals⟩
  · refine Or.inl fun i hi => ?_
    obtain ⟨q, hq, rfl⟩ := h.exists_state hi
    exact h.useful_merged ha.valid hq (useful q hq)
  · refine Or.inr ⟨?_, fun i hi => ?_⟩
    · -- one state makes one block, since there is a block and no more than there are states
      have some := h.length_pos (Nat.zero_lt_of_lt ha.valid.initial_lt)
      have few := h.length_le
      show blocks.length = 1
      omega
    · obtain ⟨f, hf, -⟩ := exists_final hi
      exact noFinals f hf

theorem accepts_merged_iff (h : StablePartition a blocks) (ha : a.Valid) {w : Word} :
    (a.merged blocks).Accepts w ↔ a.Accepts w := by
  constructor
  · rintro ⟨i, hi, path⟩
    obtain ⟨q, path', rfl⟩ := (h.path_merged ha ha.initial_lt).mp path
    exact ⟨q, (h.mem_finals_merged ha (ha.path_lt path' ha.initial_lt)).mp hi, path'⟩
  · rintro ⟨q, hq, path⟩
    exact ⟨_, (h.mem_finals_merged ha (ha.finals_lt q hq)).mpr hq,
      (h.path_merged ha ha.initial_lt).mpr ⟨q, path, rfl⟩⟩

/-- The quotient gives the verdicts of the automaton. -/
theorem eval_merged (h : StablePartition a blocks) (ha : a.Valid) (w : Word) :
    (a.merged blocks).eval w = a.eval w := by
  have noFinals : (∀ i, ¬i ∈ (a.merged blocks).finals) ↔ ∀ q, ¬q ∈ a.finals := by
    constructor
    · exact fun none q hq => none _ ((h.mem_finals_merged ha (ha.finals_lt q hq)).mpr hq)
    · intro none i hi
      obtain ⟨f, hf, -⟩ := exists_final hi
      exact none f hf
  have noRun : (∀ i, ¬(a.merged blocks).Path (a.merged blocks).initial w i) ↔
      ∀ q, ¬a.Path a.initial w q := by
    constructor
    · exact fun none q path => none _ ((h.path_merged ha ha.initial_lt).mpr ⟨q, path, rfl⟩)
    · intro none i path
      obtain ⟨q, path', -⟩ := (h.path_merged ha ha.initial_lt).mp path
      exact none q path'
  refine eval_eq_of_iff (h.accepts_merged_iff ha) ?_
  rw [eval_eq_failed_iff, eval_eq_failed_iff, noFinals, noRun]

/-- The states are the same, or their blocks are related. -/
def Pulled (a : Automaton) (blocks : List Block) (rel : Nat → Nat → Prop) (x y : Nat) : Prop :=
  x = y ∨ (x < a.stateCount ∧ y < a.stateCount ∧ rel (blockOf blocks x) (blockOf blocks y))

theorem equivalence_pulled {rel : Nat → Nat → Prop} (h : Equivalence rel) :
    Equivalence (Pulled a blocks rel) := by
  refine ⟨fun x => Or.inl rfl, ?_, ?_⟩
  · rintro x y (rfl | ⟨hx, hy, xy⟩)
    · exact Or.inl rfl
    · exact Or.inr ⟨hy, hx, h.symm xy⟩
  · rintro x y z (rfl | ⟨hx, hy, xy⟩) (rfl | ⟨hy', hz, yz⟩)
    · exact Or.inl rfl
    · exact Or.inr ⟨hy', hz, yz⟩
    · exact Or.inr ⟨hx, hy, xy⟩
    · exact Or.inr ⟨hx, hz, h.trans xy yz⟩

theorem bisimulation_pulled (h : StablePartition a blocks) (ha : a.Valid)
    {rel : Nat → Nat → Prop} (bisimulation : (a.merged blocks).Bisimulation rel) :
    a.Bisimulation (Pulled a blocks rel) := by
  refine .of_forward (equivalence_pulled bisimulation.equivalence) ?_ ?_
  · rintro x y (rfl | ⟨hx, hy, xy⟩) final
    · exact final
    · rw [← h.mem_finals_merged ha hx] at final
      rw [← h.mem_finals_merged ha hy]
      exact (bisimulation.final_iff _ _ xy).mp final
  · rintro x y (rfl | ⟨hx, hy, xy⟩) l t step
    · exact ⟨t, Or.inl rfl, step⟩
    · -- the step goes up to the blocks, across by the relation, and down to a state again
      have entered : ∃ i, rel (blockOf blocks t) i ∧
          (a.merged blocks).Step (blockOf blocks x) l i :=
        ⟨_, bisimulation.equivalence.refl _, (h.step_merged ha hx).mpr ⟨t, step, rfl⟩⟩
      obtain ⟨i, ti, enters⟩ := (bisimulation.enters_iff _ _ xy l _).mp entered
      obtain ⟨t', step', rfl⟩ := (h.step_merged ha hy).mp enters
      exact ⟨t', Or.inr ⟨(ha.step_lt step).2, (ha.step_lt step').2, ti⟩, step'⟩

/-- States of bisimilar blocks are bisimilar. -/
theorem bisimilar_of_merged (h : StablePartition a blocks) (ha : a.Valid) {p q : Nat}
    (hp : p < a.stateCount) (hq : q < a.stateCount)
    (similar : (a.merged blocks).Bisimilar (blockOf blocks p) (blockOf blocks q)) :
    a.Bisimilar p q := by
  obtain ⟨rel, bisimulation, related⟩ := similar
  exact ⟨_, h.bisimulation_pulled ha bisimulation, Or.inr ⟨hp, hq, related⟩⟩

end StablePartition

/-! ## Partitions into single states -/

theorem partition_singletons (n : Nat) : Partition n ((List.range n).map fun q => [q]) := by
  refine ⟨?_, ?_, ?_⟩
  · have : ((List.range n).map fun q => [q]).flatten = List.range n := by
      induction List.range n with
      | nil => rfl
      | cons q qs ih => simp [ih]
    rw [this]
  · intro b hb
    obtain ⟨q, -, rfl⟩ := List.mem_map.mp hb
    exact List.cons_ne_nil q []
  · intro b hb
    obtain ⟨q, -, rfl⟩ := List.mem_map.mp hb
    exact List.pairwise_singleton _ q

/-- An ordered partition into single states lists them. -/
theorem eq_singletons {n : Nat} {blocks : List Block} (h : Partition n blocks)
    (ordered : blocks.Pairwise fun b c => b.headD 0 ≤ c.headD 0)
    (single : ∀ b ∈ blocks, ∀ x ∈ b, ∀ y ∈ b, x = y) :
    blocks = (List.range n).map fun q => [q] := by
  have shape : ∀ b ∈ blocks, b = [b.headD 0] := by
    intro b hb
    -- two members of a block would be equal, yet the second is greater
    match b, h.nonempty b hb, h.ascending b hb, single b hb with
    | [x], _, _, _ => rfl
    | x :: y :: _, _, ascending, same =>
      have less := (List.pairwise_cons.mp ascending).1 y List.mem_cons_self
      have : x = y := same x (by simp) y (by simp)
      omega
  have heads : blocks.flatten = blocks.map fun b => b.headD 0 := by
    clear h ordered single
    induction blocks with
    | nil => rfl
    | cons b bs ih =>
      have later := ih fun c hc => shape c (List.mem_cons_of_mem b hc)
      rw [List.flatten_cons, List.map_cons, later, shape b List.mem_cons_self]
      rfl
  have sorted : blocks.flatten = List.range n := by
    refine List.Perm.eq_of_pairwise (fun x y _ _ => Nat.le_antisymm) ?_
      List.pairwise_le_range h.perm
    rw [heads, List.pairwise_map]
    exact ordered
  rw [← sorted, heads, List.map_map]
  refine ((List.map_congr_left fun b hb => ?_).trans (List.map_id blocks)).symm
  exact (shape b hb).symm

/-- There is one rule for each target. -/
def Grouped (a : Automaton) : Prop := ∀ rules ∈ a.transitions, (rules.map Rule.target).Nodup

theorem grouped_merged (a : Automaton) (blocks : List Block) : (a.merged blocks).Grouped := by
  intro rules hrules
  obtain ⟨b, -, rfl⟩ := List.mem_map.mp hrules
  rw [blockRules, List.map_map]
  exact nodup_guardsBy _ _

/-- Merging single states changes nothing. -/
theorem merged_singletons (ha : a.Valid) (grouped : a.Grouped) :
    a.merged ((List.range a.stateCount).map fun q => [q]) = a := by
  have place : ∀ q < a.stateCount,
      blockOf ((List.range a.stateCount).map fun q => [q]) q = q := by
    intro q hq
    have stands : ((List.range a.stateCount).map fun q => [q])[q]? = some [q] := by simp [hq]
    exact (blockOf_eq_iff (partition_singletons _) hq).mpr ⟨_, stands, List.mem_singleton_self q⟩
  have finals : SortedSet.ofList (a.finals.toList.map
      (blockOf ((List.range a.stateCount).map fun q => [q]))) = a.finals := by
    refine SortedSet.ext_mem fun x => ?_
    simp only [SortedSet.mem_ofList, List.mem_map, SortedSet.mem_toList]
    constructor
    · rintro ⟨q, hq, rfl⟩
      exact (place q (ha.finals_lt q hq)).symm ▸ hq
    · exact fun hx => ⟨x, hx, place x (ha.finals_lt x hx)⟩
  have rules : ∀ rules ∈ a.transitions,
      (guardsBy (blockOf ((List.range a.stateCount).map fun q => [q])) rules).map
        (fun g => Rule.mk (Build.disjunction g.2).result g.1) = rules := by
    intro rules hrules
    have fixed : ∀ r ∈ rules,
        blockOf ((List.range a.stateCount).map fun q => [q]) r.target = r.target :=
      fun r hr => place r.target (ha.target_lt rules hrules r hr)
    rw [guardsBy_eq_map fixed (grouped rules hrules), List.map_map]
    refine (List.map_congr_left fun r _ => ?_).trans (List.map_id rules)
    show Rule.mk (Build.disjunction [r.guard]).result r.target = r
    rw [Build.disjunction_singleton]
  have transitions : ((List.range a.stateCount).map fun q => [q]).map
      (blockRules a ((List.range a.stateCount).map fun q => [q])) = a.transitions := by
    refine List.ext_getElem (by simp [ha.length_transitions]) fun q hq hq' => ?_
    have own : [q].flatMap a.rulesFrom = a.transitions[q] := by simp [rulesFrom, hq']
    rw [List.getElem_map, List.getElem_map, List.getElem_range, blockRules, own]
    exact rules _ (List.getElem_mem hq')
  unfold merged
  rw [finals, transitions, place a.initial ha.initial_lt, List.length_map, List.length_range]

/-! ## Minimisation -/

/-- The blocks of the stable partition, and what they are. -/
theorem stablePartition_stable (ha : a.Valid) : StablePartition a (stable a).result ∧
    Settles a (stable a).result ∧
    (stable a).result.Pairwise (fun b c => b.headD 0 ≤ c.headD 0) ∧
    ∀ x < a.stateCount, ∀ y < a.stateCount,
      ((∃ b ∈ (stable a).result, x ∈ b ∧ y ∈ b) ↔ a.Bisimilar x y) := by
  obtain ⟨p, returned, settles, sound, settled⟩ := stable_returns ha
  have mem_iff : ∀ b, b ∈ p.sorted ↔ b ∈ p.blocks := fun b => (perm_sorted p).mem_iff
  rw [returned.result_eq]
  refine ⟨⟨sound.partition.of_perm (perm_sorted p), fun b hb => ?_, fun b hb c hc => ?_⟩, settles,
    pairwise_sorted p, fun x hx y hy => ?_⟩
  · exact sound.final b ((mem_iff b).mp hb)
  · exact unsplit_of_firstSplit settled ((mem_iff b).mp hb) hc
  · simp only [bisimilar_iff ha sound settled hx hy, mem_iff]

theorem stable_steady (ha : a.Valid) : Build.Steady (stable a) := by
  obtain ⟨p, returned, -⟩ := stable_returns ha
  exact returned.steady

theorem merge_returns (ha : a.Valid) : Build.Returns a.merge (a.merged (stable a).result) :=
  (stable_steady ha).bind (quotient_returns a _)

theorem minimize_returns (ha : a.Valid) : Build.Returns a.minimize
    (a.clean.result.merged (stable a.clean.result).result) :=
  (clean_returns a).steady.bind (merge_returns (trim_clean ha).valid)

theorem atomCount_minimize (h : a.Valid) : a.minimize.result.atomCount = a.atomCount := by
  rw [(minimize_returns h).result_eq]
  exact atomCount_clean a

theorem trim_minimize (h : a.Valid) : a.minimize.result.Trim := by
  have trim := trim_clean h
  rw [(minimize_returns h).result_eq]
  exact (stablePartition_stable trim.valid).1.trim_merged trim

theorem accepts_minimize_iff (h : a.Valid) {w : Word} :
    a.minimize.result.Accepts w ↔ a.Accepts w := by
  have trim := trim_clean h
  rw [(minimize_returns h).result_eq,
    (stablePartition_stable trim.valid).1.accepts_merged_iff trim.valid, accepts_clean_iff h]

/-- No two blocks of the stable partition are bisimilar. -/
theorem eq_of_bisimilar_merged (ha : a.Valid) {i j : Nat}
    (hi : i < (a.merged (stable a).result).stateCount)
    (hj : j < (a.merged (stable a).result).stateCount)
    (similar : (a.merged (stable a).result).Bisimilar i j) : i = j := by
  obtain ⟨stable, -, -, classes⟩ := stablePartition_stable ha
  obtain ⟨p, hp, rfl⟩ := stable.exists_state hi
  obtain ⟨q, hq, rfl⟩ := stable.exists_state hj
  obtain ⟨b, hb, hpb, hqb⟩ := (classes p hp q hq).mpr (stable.bisimilar_of_merged ha hp hq similar)
  obtain ⟨i, hi, rfl⟩ := List.mem_iff_getElem.mp hb
  have stands := List.getElem?_eq_getElem hi
  rw [(blockOf_eq_iff stable.toPartition hp).mpr ⟨_, stands, hpb⟩,
    (blockOf_eq_iff stable.toPartition hq).mpr ⟨_, stands, hqb⟩]

/-- An automaton without bisimilar states, clean and with one rule for each target, is minimal. -/
theorem minimize_eq_self (trim : a.Trim) (grouped : a.Grouped)
    (distinct : ∀ p < a.stateCount, ∀ q < a.stateCount, a.Bisimilar p q → p = q) :
    Build.Returns a.minimize a := by
  have returned := minimize_returns trim.valid
  rw [trim.clean_eq_self] at returned
  obtain ⟨partition, -, ordered, classes⟩ := stablePartition_stable trim.valid
  have singletons := eq_singletons partition.toPartition ordered fun b hb x hx y hy => by
    have hx' := partition.lt_iff.mpr ⟨b, hb, hx⟩
    have hy' := partition.lt_iff.mpr ⟨b, hb, hy⟩
    exact distinct x hx' y hy' ((classes x hx' y hy').mp ⟨b, hb, hx, hy⟩)
  rwa [singletons, merged_singletons trim.valid grouped] at returned

/-- Minimising keeps the verdict of the clean automaton on every word, and the result is well
    formed. -/
theorem eval_minimize_eq_eval_clean (a : Automaton) (valid : a.validate = .ok ())
    (ctx ctx' : Context) (w : Word) : (a.minimize.run ctx).1.eval w = (a.clean.run ctx').1.eval w ∧
      (a.minimize.run ctx).1.validate = .ok () := by
  have ha := validate_iff.mp valid
  have clean := (trim_clean ha).valid
  obtain ⟨partition, -⟩ := stablePartition_stable clean
  rw [minimize_returns ha ctx, (clean_returns a).steady ctx', validate_iff]
  exact ⟨partition.eval_merged clean w, partition.valid_merged clean⟩

/-- Two final states that no letter tells apart, and a state that leads to both. -/
theorem eval_minimize_eq_eval_clean_of_twins :
    let a : Automaton := ⟨1, 3, 0, .listing [1, 2] (by decide),
      [[⟨.var 0, 1⟩, ⟨.not (.var 0), 2⟩], [⟨.const true, 2⟩], [⟨.const true, 1⟩]]⟩
    a.validate = .ok () ∧
      (a.minimize.run .empty).1.eval [.ofList [0]] = (a.clean.run .empty).1.eval [.ofList [0]] ∧
      (a.minimize.run .empty).1.validate = .ok () := by
  intro a
  have valid : a.validate = .ok () := rfl
  exact ⟨valid, eval_minimize_eq_eval_clean a valid .empty .empty [.ofList [0]]⟩

/-- The refinement of the clean automaton comes to an end, its blocks are the classes of
    bisimilarity, and what minimising makes of them has no two bisimilar states, no more states than
    the clean automaton, and stays as it is when it is minimised again. -/
theorem minimize_coarsest (a : Automaton) (valid : a.validate = .ok ())
    (ctx₀ ctx₁ ctx₂ ctx₃ : Context) :
    let clean := (a.clean.run ctx₀).1
    let blocks := ((stable clean).run ctx₁).1
    let minimal := (a.minimize.run ctx₂).1
    Settles clean blocks ∧
      (∀ b ∈ blocks, b ≠ []) ∧
      (blocks.Pairwise fun b c => ∀ x ∈ b, ¬x ∈ c) ∧
      (∀ q, q < clean.stateCount ↔ ∃ b ∈ blocks, q ∈ b) ∧
      (∀ p < clean.stateCount, ∀ q < clean.stateCount,
        ((∃ b ∈ blocks, p ∈ b ∧ q ∈ b) ↔ clean.Bisimilar p q)) ∧
      (∀ i < minimal.stateCount, ∀ j < minimal.stateCount, minimal.Bisimilar i j → i = j) ∧
      minimal.stateCount ≤ clean.stateCount ∧
      (minimal.minimize.run ctx₃).1 = minimal := by
  have ha := validate_iff.mp valid
  have trim := trim_clean ha
  obtain ⟨partition, settles, -, classes⟩ := stablePartition_stable trim.valid
  intro clean blocks minimal
  have clean_eq : clean = a.clean.result := (clean_returns a).steady ctx₀
  have blocks_eq : blocks = (stable a.clean.result).result := by
    show ((stable clean).run ctx₁).1 = _
    rw [clean_eq]
    exact stable_steady trim.valid ctx₁
  have minimal_eq : minimal = a.clean.result.merged (stable a.clean.result).result :=
    minimize_returns ha ctx₂
  rw [clean_eq, blocks_eq, minimal_eq]
  have distinct := fun i hi j hj => eq_of_bisimilar_merged trim.valid (i := i) (j := j) hi hj
  refine ⟨settles, partition.nonempty, ?_, fun q => partition.lt_iff, classes, distinct,
    partition.length_le, ?_⟩
  · exact partition.disjoint.imp fun apart x hx hx' => apart x hx x hx' rfl
  · exact minimize_eq_self (partition.trim_merged trim) (grouped_merged _ _) distinct ctx₃

/-- Three states in a row of which the last two are final and alike. -/
theorem minimize_coarsest_of_row :
    let a : Automaton := ⟨2, 3, 0, .listing [1, 2] (by decide),
      [[⟨.var 1, 1⟩], [⟨.var 0, 2⟩], [⟨.var 0, 2⟩, ⟨.const false, 0⟩]]⟩
    let minimal := (a.minimize.run .empty).1
    a.validate = .ok () ∧ minimal.stateCount ≤ (a.clean.run .empty).1.stateCount ∧
      (minimal.minimize.run .empty).1 = minimal := by
  intro a minimal
  have valid : a.validate = .ok () := rfl
  obtain ⟨-, -, -, -, -, -, fewer, same⟩ :=
    minimize_coarsest a valid .empty .empty .empty .empty
  exact ⟨valid, fewer, same⟩

end Automaton

end TraceRegex
