import TraceRegex.Automaton.Minimize
import TraceRegex.Proofs.Cleaning

/-! # Partition refinement

Two things hold at every stage of the refinement.  The blocks are a partition of the states in which
final states and others are apart, and no block or splitter takes one of two bisimilar states
without the other.  A split makes a block more, so the loops end, and they end by themselves: the
bounds on their rounds are never what stops them (`Settles`).  When no block splits another, states
of one block are bisimilar, so the blocks are the classes of bisimilarity.
-/

namespace TraceRegex

namespace Automaton

variable {a : Automaton}

/-! ## Bisimulations -/

/-- An equivalence that respects finality and, for every letter and every class, whether the letter
    leads into the class.  Numbers beyond the states have no rules and are of no account. -/
structure Bisimulation (a : Automaton) (rel : Nat → Nat → Prop) : Prop where
  equivalence : Equivalence rel
  final_iff : ∀ p q, rel p q → (p ∈ a.finals ↔ q ∈ a.finals)
  enters_iff : ∀ p q, rel p q → ∀ l c,
    (∃ t, rel c t ∧ a.Step p l t) ↔ ∃ t, rel c t ∧ a.Step q l t

/-- Some bisimulation relates the states. -/
def Bisimilar (a : Automaton) (p q : Nat) : Prop := ∃ rel, a.Bisimulation rel ∧ rel p q

/-- The letter leads from the state into the given states. -/
def Enters (a : Automaton) (q : Nat) (l : Letter) (into : Block) : Prop := ∃ t ∈ into, a.Step q l t

/-- The set has with a state all states that are related to it. -/
def Saturated (a : Automaton) (rel : Nat → Nat → Prop) (s : Block) : Prop :=
  ∀ p q, p < a.stateCount → q < a.stateCount → rel p q → p ∈ s → q ∈ s

section

variable {rel : Nat → Nat → Prop}

/-- One direction of each condition is enough. -/
theorem Bisimulation.of_forward (equivalence : Equivalence rel)
    (final : ∀ p q, rel p q → p ∈ a.finals → q ∈ a.finals)
    (enters : ∀ p q, rel p q → ∀ l t, a.Step p l t → ∃ t', rel t t' ∧ a.Step q l t') :
    a.Bisimulation rel := by
  have class_enters : ∀ p q, rel p q → ∀ l c, (∃ t, rel c t ∧ a.Step p l t) →
      ∃ t, rel c t ∧ a.Step q l t := by
    rintro p q related l c ⟨t, ct, step⟩
    obtain ⟨t', tt', step'⟩ := enters p q related l t step
    exact ⟨t', equivalence.trans ct tt', step'⟩
  exact ⟨equivalence,
    fun p q related => ⟨final p q related, final q p (equivalence.symm related)⟩,
    fun p q related l c =>
      ⟨class_enters p q related l c, class_enters q p (equivalence.symm related) l c⟩⟩

theorem Bisimulation.enters (h : a.Bisimulation rel) (ha : a.Valid) {s : Block}
    (hs : a.Saturated rel s) {p q : Nat} (related : rel p q) {l : Letter}
    (enters : a.Enters p l s) : a.Enters q l s := by
  obtain ⟨t, ht, step⟩ := enters
  have class_of_t : ∃ t', rel t t' ∧ a.Step p l t' := ⟨t, h.equivalence.refl t, step⟩
  obtain ⟨t', related', step'⟩ := (h.enters_iff p q related l t).mp class_of_t
  exact ⟨t', hs t t' (ha.step_lt step).2 (ha.step_lt step').2 related' ht, step'⟩

theorem saturated_range : a.Saturated rel (List.range a.stateCount) :=
  fun _ _ _ hq _ _ => List.mem_range.mpr hq

theorem Bisimulation.saturated_finals (h : a.Bisimulation rel) : a.Saturated rel a.finals.toList :=
  fun p q _ _ related final => (h.final_iff p q related).mp final

theorem Saturated.filter {s : Block} (hs : a.Saturated rel s) {test : Nat → Bool}
    (same : ∀ p q, rel p q → test p = test q) : a.Saturated rel (s.filter test) := by
  intro p q hp hq related mem
  obtain ⟨mem, flag⟩ := List.mem_filter.mp mem
  exact List.mem_filter.mpr ⟨hs p q hp hq related mem, same p q related ▸ flag⟩

theorem Bisimulation.saturated_subtract (h : a.Bisimulation rel) {s t : Block}
    (hs : a.Saturated rel s) (ht : a.Saturated rel t) (ascendingS : s.Pairwise (· < ·))
    (ascendingT : t.Pairwise (· < ·)) : a.Saturated rel (SortedSet.subtractLists s t) := by
  intro p q hp hq related hps
  rw [SortedSet.mem_subtractLists ascendingS ascendingT] at hps ⊢
  exact ⟨hs p q hp hq related hps.1, fun hqt =>
    hps.2 (ht q p hq hp (h.equivalence.symm related) hqt)⟩

end

end Automaton

namespace Refinement

open Automaton

variable {a : Automaton}

/-! ## Splitting a block -/

theorem delta_steady (q : Nat) (into : Block) : Build.Steady (delta a q into) :=
  Build.disjunction_steady _

theorem eval_delta {q : Nat} {into : Block} {l : Letter} :
    (delta a q into).result.eval l = true ↔ a.Enters q l into := by
  have unfolded : (delta a q into).result.eval l = _ := Build.eval_disjunction _ l
  rw [unfolded]
  simp only [List.any_eq_true, List.mem_map, List.mem_filter, List.contains_iff_mem, Enters, Step]
  constructor
  · rintro ⟨-, ⟨r, ⟨hr, target⟩, rfl⟩, enabled⟩
    exact ⟨_, target, r, hr, enabled, rfl⟩
  · rintro ⟨t, ht, r, hr, enabled, rfl⟩
    exact ⟨_, ⟨r, ⟨hr, ht⟩, rfl⟩, enabled⟩

theorem mem_candidatePairs {deltas : List Formula} {pair : Formula × Formula} :
    pair ∈ candidatePairs deltas ↔ pair.1 ≠ .const false ∧
      ∃ i j : Nat, i ≠ j ∧ deltas[i]? = some pair.1 ∧ deltas[j]? = some pair.2 := by
  obtain ⟨d, e⟩ := pair
  simp only [candidatePairs, List.mem_flatMap, Prod.exists, List.mk_mem_zipIdx_iff_getElem?]
  constructor
  · rintro ⟨d', i, hi, mem⟩
    split at mem
    · cases mem
    · next proper =>
      obtain ⟨⟨e', j⟩, hj, chosen⟩ := List.mem_filterMap.mp mem
      rw [List.mk_mem_zipIdx_iff_getElem?] at hj
      dsimp only at chosen
      split at chosen
      · cases chosen
      · next apart =>
        cases chosen
        exact ⟨proper, i, j, apart, hi, hj⟩
  · rintro ⟨proper, i, j, apart, hi, hj⟩
    refine ⟨d, i, hi, ?_⟩
    rw [if_neg proper]
    refine List.mem_filterMap.mpr ⟨(e, j), List.mk_mem_zipIdx_iff_getElem?.mpr hj, ?_⟩
    exact if_neg apart

/-- What `distinguish` finds. -/
def difference? (pair : Formula × Formula) : Option Formula :=
  if (Formula.and pair.1 (.not pair.2)).satisfiable then some (.and pair.1 (.not pair.2)) else none

theorem distinguish_returns (pair : Formula × Formula) :
    Build.Returns (distinguish pair) (difference? pair) :=
  (Build.not_returns _).bind ((Build.and_returns _ _).bind
    ((Build.sat_returns _).bind (Build.Returns.pure _)))

theorem overlaps_returns (f g : Formula) :
    Build.Returns (overlaps f g) (Formula.and f g).satisfiable :=
  (Build.and_returns _ _).bind (Build.sat_returns _)

/-- No letter leads from one state of the block into the splitter and from another one not. -/
def Unsplit (a : Automaton) (block splitter : Block) : Prop :=
  ∀ p ∈ block, ∀ q ∈ block, ∀ l, a.Enters p l splitter → a.Enters q l splitter

/-- The parts are divided by a test that does not tell states apart from which the same letters lead
    into the splitter, and neither part is empty. -/
structure SplitBy (a : Automaton) (block splitter part rest : Block) : Prop where
  exists_test : ∃ test : Nat → Bool,
    (∀ p q, (∀ l, a.Enters p l splitter ↔ a.Enters q l splitter) → test p = test q) ∧
    part = block.filter test ∧ rest = block.filter (!test ·)
  part_ne_nil : part ≠ []
  rest_ne_nil : rest ≠ []

theorem unsplit_of_length_lt {block splitter : Block} (h : block.length < 2) :
    Unsplit a block splitter := by
  match block, h with
  | [], _ =>
    intro p hp
    cases hp
  | [x], _ =>
    intro p hp q hq l enters
    rw [List.mem_singleton] at hp hq
    exact hq ▸ hp ▸ enters

theorem filter_zip_map {α : Type} (xs : List α) (flag : α → Bool) (keep : Bool → Bool) :
    ((xs.zip (xs.map flag)).filter fun m => keep m.2).map Prod.fst =
      xs.filter fun x => keep (flag x) := by
  induction xs with
  | nil => rfl
  | cons x xs ih =>
    cases hx : keep (flag x) with
    | true => simp [hx, ih]
    | false => simp [hx, ih]

/-- The letters that lead from the states of a block into the splitter. -/
def deltasOf (a : Automaton) (block splitter : Block) : List Formula :=
  block.map fun q => (delta a q splitter).result

theorem unsplit_of_none {block splitter : Block}
    (found : (candidatePairs (deltasOf a block splitter)).findSome? difference? = none) :
    Unsplit a block splitter := by
  intro p hp q hq l enters
  obtain ⟨i, hi⟩ := List.mem_iff_getElem?.mp hp
  obtain ⟨j, hj⟩ := List.mem_iff_getElem?.mp hq
  by_cases same : i = j
  · rw [same, hj] at hi
    exact Option.some.inj hi ▸ enters
  · -- otherwise the letter would have told the two apart
    have proper : (delta a p splitter).result ≠ .const false := by
      intro never
      have := eval_delta.mpr enters
      rw [never] at this
      cases this
    have mem : ((delta a p splitter).result, (delta a q splitter).result) ∈
        candidatePairs (deltasOf a block splitter) :=
      mem_candidatePairs.mpr ⟨proper, i, j, same, by simp [deltasOf, hi], by simp [deltasOf, hj]⟩
    have unsatisfiable := List.findSome?_eq_none_iff.mp found _ mem
    refine Classical.byContradiction fun missing => ?_
    have : (Formula.and (delta a p splitter).result
        (.not (delta a q splitter).result)).satisfiable = true := by
      refine Formula.satisfiable_iff.mpr ⟨l, ?_⟩
      rw [← eval_delta] at missing
      simp [Formula.eval, eval_delta.mpr enters, missing]
    simp [difference?, this] at unsatisfiable

/-- Whether a letter that satisfies the formula leads from the state into the splitter. -/
def meets (a : Automaton) (splitter : Block) (witness : Formula) (q : Nat) : Bool :=
  (Formula.and (delta a q splitter).result witness).satisfiable

theorem meets_iff {splitter : Block} {witness : Formula} {q : Nat} :
    meets a splitter witness q = true ↔ ∃ l, a.Enters q l splitter ∧ witness.eval l = true := by
  rw [meets, Formula.satisfiable_iff, Formula.Satisfiable]
  simp only [Formula.eval, Bool.and_eq_true, eval_delta]

theorem splitBy_of_some {block splitter : Block} {witness : Formula}
    (found : (candidatePairs (deltasOf a block splitter)).findSome? difference? = some witness) :
    SplitBy a block splitter (block.filter (meets a splitter witness))
      (block.filter (!meets a splitter witness ·)) := by
  obtain ⟨⟨d, e⟩, mem, chosen⟩ := List.exists_of_findSome?_eq_some found
  obtain ⟨-, i, j, -, hi, hj⟩ := mem_candidatePairs.mp mem
  unfold difference? at chosen
  split at chosen
  · next satisfiable =>
    cases chosen
    simp only [deltasOf, List.getElem?_map, Option.map_eq_some_iff] at hi hj
    obtain ⟨p, hp, rfl⟩ := hi
    obtain ⟨q, hq, rfl⟩ := hj
    refine ⟨⟨_, fun p q same => ?_, rfl, rfl⟩, ?_, ?_⟩
    · refine Bool.eq_iff_iff.mpr ?_
      simp only [meets_iff, same]
    · -- the first state of the pair meets the witness
      obtain ⟨l, hl⟩ := Formula.satisfiable_iff.mp satisfiable
      have reads : a.Enters p l splitter := by
        simp only [Formula.eval, Bool.and_eq_true] at hl
        exact eval_delta.mp hl.1
      exact List.ne_nil_of_mem (List.mem_filter.mpr
        ⟨List.mem_of_getElem? hp, meets_iff.mpr ⟨l, reads, hl⟩⟩)
    · -- and the second does not
      refine List.ne_nil_of_mem (List.mem_filter.mpr ⟨List.mem_of_getElem? hq, ?_⟩)
      have : ¬meets a splitter (.and (delta a p splitter).result
          (.not (delta a q splitter).result)) q = true := by
        rw [meets_iff]
        rintro ⟨l, reads, hl⟩
        simp [Formula.eval, eval_delta.mpr reads] at hl
      simpa using this
  · cases chosen

theorem split_returns (block splitter : Block) : ∃ r, Build.Returns (split a block splitter) r ∧
    (r = none → Unsplit a block splitter) ∧
    ∀ part rest, r = some (part, rest) → SplitBy a block splitter part rest := by
  unfold split
  split
  · next short =>
    exact ⟨none, Build.Returns.pure none, fun _ => unsplit_of_length_lt short, by simp⟩
  · have deltas : Build.Returns (block.mapM fun q => delta a q splitter)
        (deltasOf a block splitter) :=
      Build.Returns.mapM fun q _ => delta_steady q splitter
    have search : Build.Returns
        ((candidatePairs (deltasOf a block splitter)).findSomeM? distinguish)
        ((candidatePairs (deltasOf a block splitter)).findSome? difference?) :=
      Build.Returns.findSomeM? fun pair _ => distinguish_returns pair
    cases found : (candidatePairs (deltasOf a block splitter)).findSome? difference? with
    | none =>
      rw [found] at search
      exact ⟨none, deltas.bind (search.bind (Build.Returns.pure none)),
        fun _ => unsplit_of_none found, by simp⟩
    | some witness =>
      rw [found] at search
      have flags : Build.Returns
          ((deltasOf a block splitter).mapM fun d => overlaps d witness)
          (block.map (meets a splitter witness)) := by
        have each := Build.Returns.mapM (g := fun d => (Formula.and d witness).satisfiable)
          fun d (_ : d ∈ deltasOf a block splitter) => overlaps_returns d witness
        rwa [deltasOf, List.map_map] at each
      refine ⟨_, deltas.bind (search.bind (flags.bind (Build.Returns.pure _))), by simp, ?_⟩
      intro part rest parts
      cases parts
      rw [filter_zip_map block (meets a splitter witness) (fun b => b),
        filter_zip_map block (meets a splitter witness) (fun b => !b)]
      exact splitBy_of_some found

theorem split_steady (block splitter : Block) : Build.Steady (split a block splitter) := by
  obtain ⟨r, returned, -⟩ := split_returns (a := a) block splitter
  exact returned.steady

theorem unsplit_of_split {block splitter : Block} (h : (split a block splitter).result = none) :
    Unsplit a block splitter := by
  obtain ⟨r, returned, unsplit, -⟩ := split_returns (a := a) block splitter
  exact unsplit (returned.result_eq ▸ h)

theorem splitBy_of_split {block splitter part rest : Block}
    (h : (split a block splitter).result = some (part, rest)) :
    SplitBy a block splitter part rest := by
  obtain ⟨r, returned, -, splitBy⟩ := split_returns (a := a) block splitter
  exact splitBy part rest (returned.result_eq ▸ h)

/-! ## One round -/

/-- What `refine` finds. -/
def firstSplit (a : Automaton) (p : Refinement) (splitters : List Block) : Option Refinement :=
  p.blocks.findSome? fun block => (splitters.filter (!·.isEmpty)).findSome? fun splitter =>
    (split a block splitter).result.map fun parts => p.replace block parts.1 parts.2

theorem refine_returns (p : Refinement) (splitters : List Block) :
    Build.Returns (refine a p splitters) (firstSplit a p splitters) := by
  refine Build.Returns.findSomeM? fun block _ => Build.Returns.findSomeM? fun splitter _ => ?_
  refine (split_steady block splitter).bind ?_
  cases (split a block splitter).result with
  | none => exact Build.Returns.pure none
  | some parts => exact Build.Returns.pure _

theorem unsplit_of_firstSplit {p : Refinement} {splitters : List Block}
    (h : firstSplit a p splitters = none) {block splitter : Block} (hb : block ∈ p.blocks)
    (hs : splitter ∈ splitters) : Unsplit a block splitter := by
  cases splitter with
  | nil =>
    rintro p hp q hq l ⟨t, ht, -⟩
    cases ht
  | cons t ts =>
    have rows := List.findSome?_eq_none_iff.mp h block hb
    have cell := List.findSome?_eq_none_iff.mp rows (t :: ts) (List.mem_filter.mpr ⟨hs, rfl⟩)
    exact unsplit_of_split (Option.map_eq_none_iff.mp cell)

theorem exists_of_firstSplit {p p' : Refinement} {splitters : List Block}
    (h : firstSplit a p splitters = some p') : ∃ block ∈ p.blocks, ∃ splitter ∈ splitters,
      ∃ part rest, SplitBy a block splitter part rest ∧ p' = p.replace block part rest := by
  obtain ⟨block, hb, row⟩ := List.exists_of_findSome?_eq_some h
  obtain ⟨splitter, hs, cell⟩ := List.exists_of_findSome?_eq_some row
  obtain ⟨⟨part, rest⟩, parts, rfl⟩ := Option.map_eq_some_iff.mp cell
  exact ⟨block, hb, splitter, (List.mem_filter.mp hs).1, part, rest, splitBy_of_split parts, rfl⟩

/-! ## Partitions -/

/-- The blocks are ascending, not empty, and hold every number below `n` once. -/
structure Partition (n : Nat) (blocks : List Block) : Prop where
  perm : blocks.flatten.Perm (List.range n)
  nonempty : ∀ b ∈ blocks, b ≠ []
  ascending : ∀ b ∈ blocks, b.Pairwise (· < ·)

namespace Partition

variable {n : Nat} {blocks : List Block}

theorem lt_iff (h : Partition n blocks) {q : Nat} : q < n ↔ ∃ b ∈ blocks, q ∈ b := by
  rw [← List.mem_range, ← h.perm.mem_iff, List.mem_flatten]

theorem disjoint (h : Partition n blocks) :
    blocks.Pairwise fun b c => ∀ x ∈ b, ∀ y ∈ c, x ≠ y :=
  (List.pairwise_flatten.mp (h.perm.nodup_iff.mpr List.nodup_range)).2

/-- A number is in one block only. -/
theorem eq_of_mem (h : Partition n blocks) {b c : Block} (hb : b ∈ blocks) (hc : c ∈ blocks)
    {x : Nat} (hxb : x ∈ b) (hxc : x ∈ c) : b = c := by
  have apart := h.disjoint
  -- only the disjointness is handed down to shorter lists
  clear h
  induction blocks with
  | nil => cases hb
  | cons d ds ih =>
    obtain ⟨first, later⟩ := List.pairwise_cons.mp apart
    rcases List.mem_cons.mp hb with rfl | inB
    · rcases List.mem_cons.mp hc with rfl | inC
      · rfl
      · exact absurd rfl (first c inC x hxb x hxc)
    · rcases List.mem_cons.mp hc with rfl | inC
      · exact absurd rfl (first b inB x hxc x hxb)
      · exact ih inB inC later

theorem length_le_flatten {blocks : List Block} (h : ∀ b ∈ blocks, b ≠ []) :
    blocks.length ≤ blocks.flatten.length := by
  induction blocks with
  | nil => exact Nat.le_refl 0
  | cons b bs ih =>
    have first := List.length_pos_iff.mpr (h b List.mem_cons_self)
    have later := ih fun c hc => h c (List.mem_cons_of_mem b hc)
    rw [List.flatten_cons, List.length_append, List.length_cons]
    omega

theorem length_le (h : Partition n blocks) : blocks.length ≤ n := by
  have := length_le_flatten h.nonempty
  rwa [h.perm.length_eq, List.length_range] at this

theorem length_pos (h : Partition n blocks) (hn : 0 < n) : 0 < blocks.length := by
  obtain ⟨b, hb, -⟩ := h.lt_iff.mp hn
  exact List.length_pos_of_mem hb

theorem of_perm (h : Partition n blocks) {blocks' : List Block} (perm : blocks'.Perm blocks) :
    Partition n blocks' :=
  ⟨perm.flatten.trans h.perm, fun b hb => h.nonempty b (perm.mem_iff.mp hb),
    fun b hb => h.ascending b (perm.mem_iff.mp hb)⟩

/-- A block that stands at one place of the list is replaced there. -/
theorem map_replace {blocks before behind : List Block} {block part : Block}
    (shape : blocks = before ++ block :: behind) (notBefore : ¬block ∈ before)
    (notBehind : ¬block ∈ behind) :
    (blocks.map fun b => if b = block then part else b) = before ++ part :: behind := by
  have others : ∀ bs : List Block, ¬block ∈ bs →
      (bs.map fun b => if b = block then part else b) = bs := by
    intro bs absent
    have each : ∀ b ∈ bs, (if b = block then part else b) = id b := by
      intro b hb
      have other : ¬b = block := fun same => absent (same ▸ hb)
      exact if_neg other
    exact (List.map_congr_left each).trans (List.map_id bs)
  rw [shape, List.map_append, List.map_cons, others before notBefore, others behind notBehind,
    if_pos rfl]

/-- Putting the two parts of a block in its place gives a partition again. -/
theorem replace (h : Partition n blocks) {block part rest : Block} (hb : block ∈ blocks)
    (parts : (part ++ rest).Perm block) (part_ne : part ≠ []) (rest_ne : rest ≠ [])
    (part_sub : part.Sublist block) (rest_sub : rest.Sublist block) :
    Partition n ((blocks.map fun b => if b = block then part else b) ++ [rest]) := by
  obtain ⟨before, behind, shape⟩ := List.append_of_mem hb
  have apart := h.disjoint
  rw [shape] at apart
  obtain ⟨-, later, across⟩ := List.pairwise_append.mp apart
  obtain ⟨x, hx⟩ := List.exists_mem_of_ne_nil block (h.nonempty block hb)
  have notBefore : ¬block ∈ before := fun mem =>
    across block mem block List.mem_cons_self x hx x hx rfl
  have notBehind : ¬block ∈ behind := fun mem =>
    (List.pairwise_cons.mp later).1 block mem x hx x hx rfl
  have mem_cases : ∀ b ∈ before ++ part :: behind ++ [rest],
      b ∈ blocks ∨ b = part ∨ b = rest := by
    intro b hb
    simp only [shape, List.mem_append, List.mem_cons] at hb ⊢
    grind
  rw [map_replace shape notBefore notBehind]
  refine ⟨?_, fun b hb => ?_, fun b hb => ?_⟩
  · refine List.Perm.trans ?_ h.perm
    rw [shape]
    simp only [List.flatten_append, List.flatten_cons, List.flatten_nil, List.append_nil,
      List.append_assoc]
    refine List.Perm.append_left _ ?_
    -- the rest moves in front of what stands behind the block
    have moved : (part ++ (behind.flatten ++ rest)).Perm (part ++ (rest ++ behind.flatten)) :=
      List.Perm.append_left part List.perm_append_comm
    refine moved.trans ?_
    rw [← List.append_assoc]
    exact parts.append_right behind.flatten
  · rcases mem_cases b hb with hb | rfl | rfl
    · exact h.nonempty b hb
    · exact part_ne
    · exact rest_ne
  · rcases mem_cases b hb with hb | rfl | rfl
    · exact h.ascending b hb
    · exact (h.ascending block ‹_›).sublist part_sub
    · exact (h.ascending block ‹_›).sublist rest_sub

end Partition

namespace SplitBy

variable {block splitter part rest : Block}

theorem perm (h : SplitBy a block splitter part rest) : (part ++ rest).Perm block := by
  obtain ⟨test, -, rfl, rfl⟩ := h.exists_test
  exact List.filter_append_perm test block

theorem part_sublist (h : SplitBy a block splitter part rest) : part.Sublist block := by
  obtain ⟨test, -, rfl, -⟩ := h.exists_test
  exact List.filter_sublist

theorem rest_sublist (h : SplitBy a block splitter part rest) : rest.Sublist block := by
  obtain ⟨test, -, -, rfl⟩ := h.exists_test
  exact List.filter_sublist

/-- A saturated splitter divides a saturated block into saturated parts. -/
theorem saturated (h : SplitBy a block splitter part rest) (ha : a.Valid) {rel : Nat → Nat → Prop}
    (bisimulation : a.Bisimulation rel) (hb : a.Saturated rel block)
    (hs : a.Saturated rel splitter) : a.Saturated rel part ∧ a.Saturated rel rest := by
  obtain ⟨test, same, rfl, rfl⟩ := h.exists_test
  have test_eq : ∀ p q, rel p q → test p = test q := fun p q related => same p q fun l =>
    ⟨bisimulation.enters ha hs related,
      bisimulation.enters ha hs (bisimulation.equivalence.symm related)⟩
  exact ⟨hb.filter test_eq, hb.filter fun p q related => congrArg not (test_eq p q related)⟩

end SplitBy

/-! ## The invariant -/

/-- What holds at every stage of the refinement. -/
structure Sound (a : Automaton) (p : Refinement) : Prop where
  partition : Partition a.stateCount p.blocks
  final : ∀ b ∈ p.blocks, ∀ x ∈ b, ∀ y ∈ b, x ∈ a.finals → y ∈ a.finals
  saturated : ∀ rel, a.Bisimulation rel → (∀ b ∈ p.blocks, a.Saturated rel b) ∧
    ∀ s ∈ p.splitters, a.Saturated rel s.1 ∧ a.Saturated rel s.2
  ascending : ∀ s ∈ p.splitters, s.1.Pairwise (· < ·) ∧ s.2.Pairwise (· < ·)

/-- Every bisimulation respects the set. -/
def Respected (a : Automaton) (s : Block) : Prop := ∀ rel, a.Bisimulation rel → a.Saturated rel s

theorem blocks_replace {p : Refinement} {block part rest : Block} :
    (p.replace block part rest).blocks =
      (p.blocks.map fun b => if b = block then part else b) ++ [rest] := by
  unfold replace
  split
  · rfl
  · rfl

theorem forall_blocks_replace {p : Refinement} {block part rest : Block} {P : Block → Prop}
    (old : ∀ b ∈ p.blocks, P b) (ofPart : P part) (ofRest : P rest) :
    ∀ b ∈ (p.replace block part rest).blocks, P b := by
  intro b hb
  rw [blocks_replace] at hb
  rcases List.mem_append.mp hb with hb | hb
  · obtain ⟨c, hc, rfl⟩ := List.mem_map.mp hb
    split
    · exact ofPart
    · exact old c hc
  · exact List.mem_singleton.mp hb ▸ ofRest

theorem length_blocks_replace {p : Refinement} {block part rest : Block} :
    (p.replace block part rest).blocks.length = p.blocks.length + 1 := by
  simp [blocks_replace]

theorem length_splitters_replace {p : Refinement} {block part rest : Block} :
    (p.replace block part rest).splitters.length = p.splitters.length + 1 := by
  unfold replace
  split
  · simp
  · simp

/-- A new splitter is one of the parts, with the block or an earlier set around it. -/
theorem forall_splitters_replace {p : Refinement} {block part rest : Block} {P : Block → Prop}
    (old : ∀ s ∈ p.splitters, P s.1 ∧ P s.2) (ofBlock : P block) (ofPart : P part)
    (ofRest : P rest) : ∀ s ∈ (p.replace block part rest).splitters, P s.1 ∧ P s.2 := by
  intro s hs
  unfold replace at hs
  split at hs
  · next parent found =>
    -- the block waits as a splitter itself, and its parts take over the set around it
    obtain ⟨before, behind, shape, -⟩ := List.lookup_eq_some_iff.mp found
    have around : P parent := (old (block, parent) (shape ▸ by simp)).2
    rcases List.mem_append.mp hs with hs | hs
    · obtain ⟨s', hs', rfl⟩ := List.mem_map.mp hs
      split
      · exact ⟨ofPart, around⟩
      · exact old s' hs'
    · rw [List.mem_singleton.mp hs]
      exact ⟨ofRest, around⟩
  · rcases List.mem_append.mp hs with hs | hs
    · exact old s hs
    · rw [List.mem_singleton.mp hs]
      refine ⟨?_, ofBlock⟩
      dsimp only
      split
      · exact ofPart
      · exact ofRest

theorem Sound.replace {p : Refinement} (h : Sound a p) (ha : a.Valid)
    {block splitter part rest : Block} (hb : block ∈ p.blocks)
    (splitBy : SplitBy a block splitter part rest) (respected : Respected a splitter) :
    Sound a (p.replace block part rest) := by
  have saturated : ∀ rel, a.Bisimulation rel → a.Saturated rel part ∧ a.Saturated rel rest :=
    fun rel bisimulation => splitBy.saturated ha bisimulation
      ((h.saturated rel bisimulation).1 block hb) (respected rel bisimulation)
  have ascendingBlock := h.partition.ascending block hb
  have ascendingPart := ascendingBlock.sublist splitBy.part_sublist
  have ascendingRest := ascendingBlock.sublist splitBy.rest_sublist
  refine ⟨?_, ?_, fun rel bisimulation => ?_, ?_⟩
  · rw [blocks_replace]
    exact h.partition.replace hb splitBy.perm splitBy.part_ne_nil splitBy.rest_ne_nil
      splitBy.part_sublist splitBy.rest_sublist
  · have inside {part : Block} (sub : part.Sublist block) : ∀ x ∈ part, ∀ y ∈ part,
        x ∈ a.finals → y ∈ a.finals :=
      fun x hx y hy => h.final block hb x (sub.mem hx) y (sub.mem hy)
    exact forall_blocks_replace h.final (inside splitBy.part_sublist) (inside splitBy.rest_sublist)
  · obtain ⟨ofPart, ofRest⟩ := saturated rel bisimulation
    obtain ⟨blocks, splitters⟩ := h.saturated rel bisimulation
    exact ⟨forall_blocks_replace blocks ofPart ofRest,
      forall_splitters_replace splitters (blocks block hb) ofPart ofRest⟩
  · exact forall_splitters_replace h.ascending ascendingBlock ascendingPart ascendingRest

theorem Sound.respected {p : Refinement} (h : Sound a p) {b : Block} (hb : b ∈ p.blocks) :
    Respected a b := fun rel bisimulation => (h.saturated rel bisimulation).1 b hb

/-- A round with splitters that every bisimulation respects keeps the invariant. -/
theorem Sound.firstSplit {p p' : Refinement} (h : Sound a p) (ha : a.Valid)
    {splitters : List Block} (respected : ∀ s ∈ splitters, Respected a s)
    (found : firstSplit a p splitters = some p') : Sound a p' ∧
      p'.blocks.length = p.blocks.length + 1 ∧ p'.splitters.length = p.splitters.length + 1 := by
  obtain ⟨block, hb, splitter, hs, part, rest, splitBy, rfl⟩ := exists_of_firstSplit found
  exact ⟨h.replace ha hb splitBy (respected splitter hs), length_blocks_replace,
    length_splitters_replace⟩

/-! ## The loops -/

/-- Splitting by the given splitters until nothing changes, with no bound on the rounds. -/
inductive Exhausts (a : Automaton) (splitters : Refinement → List Block) :
    Refinement → Refinement → Prop where
  | done {p : Refinement} (settled : Build.Returns (refine a p (splitters p)) none) :
      Exhausts a splitters p p
  | split {p p' p'' : Refinement} (found : Build.Returns (refine a p (splitters p)) (some p'))
      (rest : Exhausts a splitters p' p'') : Exhausts a splitters p p''

/-- Using up the listed splitters, with no bound on the rounds. -/
inductive Drains (a : Automaton) : Refinement → Refinement → Prop where
  | done {p : Refinement} (empty : p.splitters = []) : Drains a p p
  | use {p p' p'' : Refinement} {splitter parent : Block} {later : List (Block × Block)}
      (next : p.splitters = (splitter, parent) :: later)
      (used : Exhausts a (fun _ => [splitter, SortedSet.subtractLists parent splitter])
        { p with splitters := later } p')
      (rest : Drains a p' p'') : Drains a p p''

/-- The refinement of the automaton comes to its end by itself, with these blocks. -/
def Settles (a : Automaton) (blocks : List Block) : Prop :=
  ∃ p p', Drains a (start a) p ∧ Exhausts a sorted p p' ∧ p'.sorted = blocks

theorem Exhausts.settled {splitters : Refinement → List Block} {p p' : Refinement}
    (h : Exhausts a splitters p p') : firstSplit a p' (splitters p') = none := by
  induction h with
  | done settled => exact (refine_returns _ _).result_eq ▸ settled.result_eq
  | split _ _ ih => exact ih

theorem refineBy_returns (ha : a.Valid) {splitters : Refinement → List Block}
    (respected : ∀ p, Sound a p → ∀ s ∈ splitters p, Respected a s) (rounds : Nat) (p : Refinement)
    (h : Sound a p) (enough : a.stateCount ≤ rounds + p.blocks.length) :
    ∃ p', Build.Returns (refineBy a splitters rounds p) p' ∧ Exhausts a splitters p p' ∧
      Sound a p' ∧
      p'.splitters.length + p.blocks.length = p.splitters.length + p'.blocks.length := by
  induction rounds generalizing p with
  | zero =>
    -- there are as many blocks as states, so there is no room for a split
    refine ⟨p, Build.Returns.pure p, .done ?_, h, rfl⟩
    cases found : firstSplit a p (splitters p) with
    | none => exact found ▸ refine_returns p (splitters p)
    | some p' =>
      obtain ⟨sound, blocks, -⟩ := h.firstSplit ha (respected p h) found
      have := sound.partition.length_le
      omega
  | succ rounds ih =>
    have round := refine_returns (a := a) p (splitters p)
    cases found : firstSplit a p (splitters p) with
    | none =>
      rw [found] at round
      exact ⟨p, round.bind (Build.Returns.pure p), .done round, h, rfl⟩
    | some p' =>
      rw [found] at round
      obtain ⟨sound, blocks, count⟩ := h.firstSplit ha (respected p h) found
      obtain ⟨p'', returned, exhausts, sound', counts⟩ := ih p' sound (by omega)
      exact ⟨p'', round.bind returned, .split round exhausts, sound', by omega⟩

/-- A round uses up one splitter and makes at most as many new ones as blocks. -/
theorem drain_returns (ha : a.Valid) (rounds : Nat) (p : Refinement) (h : Sound a p)
    (enough : p.splitters.length + a.stateCount ≤ rounds + p.blocks.length) :
    ∃ p', Build.Returns (drain a rounds p) p' ∧ Drains a p p' ∧ Sound a p' := by
  induction rounds generalizing p with
  | zero =>
    -- the bound counts the splitters that wait and the splits that are still possible
    have := h.partition.length_le
    have empty : p.splitters = [] := List.length_eq_zero_iff.mp (by omega)
    exact ⟨p, Build.Returns.pure p, .done empty, h⟩
  | succ rounds ih =>
    unfold drain
    cases next : p.splitters with
    | nil => exact ⟨p, Build.Returns.pure p, .done next, h⟩
    | cons s later =>
      obtain ⟨splitter, parent⟩ := s
      have mem : (splitter, parent) ∈ p.splitters := next ▸ List.mem_cons_self
      have inLater : ∀ s ∈ later, s ∈ p.splitters := fun s hs => next ▸ List.mem_cons_of_mem _ hs
      have popped : Sound a { p with splitters := later } :=
        ⟨h.partition, h.final, fun rel bisimulation => ⟨(h.saturated rel bisimulation).1,
          fun s hs => (h.saturated rel bisimulation).2 s (inLater s hs)⟩,
          fun s hs => h.ascending s (inLater s hs)⟩
      have respected : ∀ s ∈ [splitter, SortedSet.subtractLists parent splitter],
          Respected a s := by
        intro s hs rel bisimulation
        obtain ⟨own, around⟩ := (h.saturated rel bisimulation).2 _ mem
        obtain ⟨ascending, ascending'⟩ := h.ascending _ mem
        rcases List.mem_cons.mp hs with rfl | hs
        · exact own
        · rw [List.mem_singleton.mp hs]
          exact bisimulation.saturated_subtract around own ascending' ascending
      obtain ⟨p', returned, exhausts, sound, counts⟩ := refineBy_returns ha
        (fun _ _ => respected) a.stateCount _ popped (Nat.le_add_right _ _)
      dsimp only at counts
      rw [next, List.length_cons] at enough
      obtain ⟨p'', returned', drains, sound'⟩ := ih p' sound (by omega)
      exact ⟨p'', returned.bind returned', .use next exhausts drains, sound'⟩

/-! ## The start -/

/-- The states that are not final. -/
def others (a : Automaton) : Block :=
  SortedSet.subtractLists (List.range a.stateCount) a.finals.toList

theorem mem_others {q : Nat} : q ∈ others a ↔ q < a.stateCount ∧ ¬q ∈ a.finals := by
  have members : q ∈ others a ↔ q ∈ List.range a.stateCount ∧ ¬q ∈ a.finals.toList :=
    SortedSet.mem_subtractLists List.pairwise_lt_range a.finals.ascending
  rw [members, List.mem_range, SortedSet.mem_toList]

theorem ascending_others : (others a).Pairwise (· < ·) :=
  List.pairwise_lt_range.sublist (SortedSet.subtractLists_sublist _ _)

theorem blocks_start :
    (start a).blocks = [a.finals.toList, others a].filter (!·.isEmpty) := rfl

theorem mem_blocks_start {b : Block} (h : b ∈ (start a).blocks) :
    b = a.finals.toList ∨ b = others a := by
  rw [blocks_start] at h
  simpa using (List.mem_filter.mp h).1

theorem partition_start (ha : a.Valid) : Partition a.stateCount (start a).blocks := by
  refine ⟨?_, fun b hb => ?_, fun b hb => ?_⟩
  · have states : (a.finals.toList ++ others a).Perm (List.range a.stateCount) := by
      refine (List.perm_ext_iff_of_nodup ?_ List.nodup_range).mpr fun q => ?_
      · refine List.nodup_append.mpr ⟨?_, ?_, fun p hp q hq same => ?_⟩
        · exact a.finals.ascending.imp Nat.ne_of_lt
        · exact ascending_others.imp Nat.ne_of_lt
        · exact (mem_others.mp hq).2 (same ▸ hp)
      · rw [List.mem_append, mem_others, List.mem_range]
        constructor
        · rintro (final | ⟨hq, -⟩)
          · exact ha.finals_lt q final
          · exact hq
        · intro hq
          by_cases final : q ∈ a.finals
          · exact Or.inl final
          · exact Or.inr ⟨hq, final⟩
    rw [blocks_start, List.flatten_filter_not_isEmpty]
    simpa using states
  · rw [blocks_start] at hb
    intro empty
    simp [empty] at hb
  · rcases mem_blocks_start hb with rfl | rfl
    · exact a.finals.ascending
    · exact ascending_others

/-- The first splitter is one of the blocks. -/
theorem splitters_start (ha : a.Valid) :
    ∃ first ∈ (start a).blocks, (start a).splitters = [(first, List.range a.stateCount)] := by
  have some := (partition_start ha).length_pos (Nat.zero_lt_of_lt ha.initial_lt)
  refine ⟨if (start a).blocks.length = 2 ∧ (others a).length < a.finals.toList.length then others a
    else (start a).blocks.headD [], ?_, rfl⟩
  split
  · next both =>
    -- with two blocks nothing was left out
    have full : (start a).blocks = [a.finals.toList, others a] :=
      List.filter_sublist.eq_of_length (both.1.trans rfl)
    simp [full]
  · cases shape : (start a).blocks with
    | nil => simp [shape] at some
    | cons b bs => simp

theorem sound_start (ha : a.Valid) : Sound a (start a) := by
  have saturated : ∀ rel, a.Bisimulation rel → ∀ b ∈ (start a).blocks, a.Saturated rel b := by
    intro rel bisimulation b hb
    rcases mem_blocks_start hb with rfl | rfl
    · exact bisimulation.saturated_finals
    · exact bisimulation.saturated_subtract saturated_range bisimulation.saturated_finals
        List.pairwise_lt_range a.finals.ascending
  obtain ⟨first, hfirst, splitters⟩ := splitters_start ha
  refine ⟨partition_start ha, fun b hb x hx y hy final => ?_,
    fun rel bisimulation => ⟨saturated rel bisimulation, fun s hs => ?_⟩, fun s hs => ?_⟩
  · rcases mem_blocks_start hb with rfl | rfl
    · exact hy
    · exact absurd final (mem_others.mp hx).2
  · rw [splitters] at hs
    rw [List.mem_singleton.mp hs]
    exact ⟨saturated rel bisimulation first hfirst, saturated_range⟩
  · rw [splitters] at hs
    rw [List.mem_singleton.mp hs]
    exact ⟨(partition_start ha).ascending first hfirst, List.pairwise_lt_range⟩

/-! ## The end -/

theorem perm_sorted (p : Refinement) : p.sorted.Perm p.blocks := List.mergeSort_perm _ _

/-- The blocks come in the order of their least states. -/
theorem pairwise_sorted (p : Refinement) : p.sorted.Pairwise fun b c => b.headD 0 ≤ c.headD 0 := by
  have sorted : p.sorted.Pairwise fun b c => decide (b.headD 0 ≤ c.headD 0) = true := by
    refine List.pairwise_mergeSort (fun b c d hbc hcd => ?_) (fun b c => ?_) p.blocks
    · exact decide_eq_true (Nat.le_trans (of_decide_eq_true hbc) (of_decide_eq_true hcd))
    · simpa using Nat.le_total _ _
  exact sorted.imp fun h => of_decide_eq_true h

theorem stable_returns (ha : a.Valid) : ∃ p, Build.Returns (stable a) p.sorted ∧
    Settles a p.sorted ∧ Sound a p ∧ firstSplit a p p.sorted = none := by
  obtain ⟨first, -, splitters⟩ := splitters_start ha
  have one : (start a).splitters.length = 1 := by rw [splitters]; rfl
  have some := (partition_start ha).length_pos (Nat.zero_lt_of_lt ha.initial_lt)
  obtain ⟨p, drained, drains, sound⟩ := drain_returns ha a.stateCount (start a) (sound_start ha)
    (by omega)
  have respected : ∀ p, Sound a p → ∀ s ∈ sorted p, Respected a s :=
    fun p sound s hs => sound.respected ((perm_sorted p).mem_iff.mp hs)
  obtain ⟨p', returned, exhausts, sound', -⟩ := refineBy_returns ha respected a.stateCount p sound
    (Nat.le_add_right _ _)
  exact ⟨p', drained.bind (returned.bind (Build.Returns.pure _)), ⟨p, p', drains, exhausts, rfl⟩,
    sound', exhausts.settled⟩

/-- The states are the same or in one block. -/
def Together (blocks : List Block) (p q : Nat) : Prop := p = q ∨ ∃ b ∈ blocks, p ∈ b ∧ q ∈ b

theorem equivalence_together {n : Nat} {blocks : List Block} (h : Partition n blocks) :
    Equivalence (Together blocks) := by
  refine ⟨fun p => Or.inl rfl, ?_, ?_⟩
  · rintro p q (rfl | ⟨b, hb, hp, hq⟩)
    · exact Or.inl rfl
    · exact Or.inr ⟨b, hb, hq, hp⟩
  · rintro p q r (rfl | ⟨b, hb, hp, hq⟩) (rfl | ⟨c, hc, hq', hr⟩)
    · exact Or.inl rfl
    · exact Or.inr ⟨c, hc, hq', hr⟩
    · exact Or.inr ⟨b, hb, hp, hq⟩
    · obtain rfl := h.eq_of_mem hb hc hq hq'
      exact Or.inr ⟨b, hb, hp, hr⟩

/-- When no block splits another, being in one block is a bisimulation. -/
theorem bisimulation_together (ha : a.Valid) {p : Refinement} (sound : Sound a p)
    (settled : firstSplit a p p.sorted = none) : a.Bisimulation (Together p.blocks) := by
  refine .of_forward (equivalence_together sound.partition) ?_ ?_
  · rintro x y (rfl | ⟨b, hb, hx, hy⟩) final
    · exact final
    · exact sound.final b hb x hx y hy final
  · rintro x y (rfl | ⟨b, hb, hx, hy⟩) l t step
    · exact ⟨t, Or.inl rfl, step⟩
    · obtain ⟨d, hd, ht⟩ := sound.partition.lt_iff.mp (ha.step_lt step).2
      have unsplit := unsplit_of_firstSplit settled hb ((perm_sorted p).mem_iff.mpr hd)
      -- the block of the target does not split the block of the source
      obtain ⟨t', ht', step'⟩ := unsplit x hx y hy l ⟨t, ht, step⟩
      exact ⟨t', Or.inr ⟨d, hd, ht, ht'⟩, step'⟩

/-- The blocks that the refinement ends with are the classes of bisimilarity. -/
theorem bisimilar_iff (ha : a.Valid) {p : Refinement} (sound : Sound a p)
    (settled : firstSplit a p p.sorted = none) {x y : Nat} (hx : x < a.stateCount)
    (hy : y < a.stateCount) : a.Bisimilar x y ↔ ∃ b ∈ p.blocks, x ∈ b ∧ y ∈ b := by
  obtain ⟨b, hb, hxb⟩ := sound.partition.lt_iff.mp hx
  constructor
  · rintro ⟨rel, bisimulation, related⟩
    exact ⟨b, hb, hxb, sound.respected hb rel bisimulation x y hx hy related hxb⟩
  · exact fun together => ⟨_, bisimulation_together ha sound settled, Or.inr together⟩

end Refinement

end TraceRegex
