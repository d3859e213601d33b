import TraceRegex.Automaton.Algebra
import TraceRegex.Expression.Language
import TraceRegex.Proofs.Cleaning

/-! # The languages of combined automata

Each construction keeps the rules of its operands and adds some.  What it adds is said once, as the
steps of the combined automaton in terms of those of its operands; the language then follows by
induction on the word.
-/

namespace TraceRegex

namespace Automaton

variable {a b : Automaton}

/-! ## Rule lists that are put together -/

theorem getD_append_left {α : Type} {xs ys : List (List α)} {q : Nat} (h : q < xs.length) :
    (xs ++ ys).getD q [] = xs.getD q [] := by
  simp [List.getD_eq_getElem?_getD, List.getElem?_append_left h]

theorem getD_append_right {α : Type} (xs ys : List (List α)) (q : Nat) :
    (xs ++ ys).getD (q + xs.length) [] = ys.getD q [] := by
  simp [List.getD_eq_getElem?_getD, List.getElem?_append_right]

/-- The letter enables a rule in the list that leads to the state. -/
def Leads (rules : List Rule) (l : Letter) (t : Nat) : Prop :=
  ∃ r ∈ rules, r.guard.eval l = true ∧ r.target = t

theorem leads_append {rules rules' : List Rule} {l : Letter} {t : Nat} :
    Leads (rules ++ rules') l t ↔ Leads rules l t ∨ Leads rules' l t := by
  simp only [Leads, List.mem_append, or_and_right, exists_or]

theorem leads_shift {rules : List Rule} {offset : Nat} {l : Letter} {t : Nat} :
    Leads (rules.map (·.shift offset)) l t ↔ ∃ s, Leads rules l s ∧ s + offset = t := by
  constructor
  · rintro ⟨r, hr, enabled, rfl⟩
    obtain ⟨r', hr', rfl⟩ := List.mem_map.mp hr
    exact ⟨_, ⟨r', hr', enabled, rfl⟩, rfl⟩
  · rintro ⟨s, ⟨r, hr, enabled, rfl⟩, rfl⟩
    exact ⟨_, List.mem_map.mpr ⟨r, hr, rfl⟩, enabled, rfl⟩

theorem getD_shiftRules (transitions : List (List Rule)) (offset q : Nat) :
    (shiftRules transitions offset).getD q [] = (transitions.getD q []).map (·.shift offset) := by
  simp only [shiftRules, List.getD_eq_getElem?_getD, List.getElem?_map]
  cases transitions[q]? <;> simp

/-- What the rules of a valid automaton satisfy in a larger one, moved up by `offset`. -/
theorem Valid.mem_shiftRules (h : b.Valid) {offset states atoms : Nat}
    (hstates : b.stateCount + offset ≤ states) (hatoms : b.atomCount ≤ atoms) {rules : List Rule}
    (hrules : rules ∈ shiftRules b.transitions offset) {r : Rule} (hr : r ∈ rules) :
    r.target < states ∧ r.guard.varCount ≤ atoms := by
  obtain ⟨rules', hrules', rfl⟩ := List.mem_map.mp hrules
  obtain ⟨r', hr', rfl⟩ := List.mem_map.mp hr
  have target := h.target_lt rules' hrules' r' hr'
  have guard := h.varCount_le rules' hrules' r' hr'
  exact ⟨by simp only [Rule.shift]; omega, Nat.le_trans guard hatoms⟩

theorem Valid.mem_initialRules (h : a.Valid) {r : Rule} (hr : r ∈ a.initialRules) :
    r.target < a.stateCount ∧ r.guard.varCount ≤ a.atomCount := by
  obtain ⟨rules, hrules, hr⟩ := mem_transitions_of_mem_rulesFrom hr
  exact ⟨h.target_lt rules hrules r hr, h.varCount_le rules hrules r hr⟩

/-- An automaton is valid if its rules are, each by itself. -/
theorem valid_of_rules (initial_lt : a.initial < a.stateCount)
    (length_transitions : a.transitions.length = a.stateCount)
    (finals_lt : ∀ q ∈ a.finals, q < a.stateCount)
    (rules : ∀ rules ∈ a.transitions, ∀ r ∈ rules,
      r.target < a.stateCount ∧ r.guard.varCount ≤ a.atomCount) : a.Valid :=
  ⟨initial_lt, length_transitions, finals_lt, fun rs hrs r hr => (rules rs hrs r hr).1,
    fun rs hrs r hr => (rules rs hrs r hr).2⟩

/-! ## The empty word, and single letters -/

theorem valid_eps : eps.Valid := by
  refine valid_of_rules (by decide) rfl (fun q hq => ?_) ?_
  · rw [SortedSet.mem_singleton.mp hq]
    decide
  · simp [eps]

theorem accepts_eps_iff {w : Word} : eps.Accepts w ↔ w = [] := by
  constructor
  · rintro ⟨q, -, path⟩
    cases path with
    | nil => rfl
    | cons mem => cases mem
  · rintro rfl
    exact ⟨0, SortedSet.mem_singleton.mpr rfl, .nil⟩

theorem valid_phi (guard : Formula) : (phi guard).Valid := by
  refine valid_of_rules (Nat.zero_lt_two) rfl (fun q hq => ?_) ?_
  · rw [SortedSet.mem_singleton.mp hq]
    exact Nat.one_lt_two
  · simp [phi]

theorem accepts_phi_iff {guard : Formula} {w : Word} :
    (phi guard).Accepts w ↔ ∃ l, w = [l] ∧ guard.eval l = true := by
  have fromFirst : ∀ l t, (phi guard).Step 0 l t ↔ guard.eval l = true ∧ 1 = t := by
    simp [Step, rulesFrom, phi]
  have fromSecond : ∀ l t, ¬(phi guard).Step 1 l t := by
    simp [Step, rulesFrom, phi]
  constructor
  · rintro ⟨q, hq, path⟩
    rw [SortedSet.mem_singleton.mp hq] at path
    cases w with
    | nil =>
      rw [path_nil_iff] at path
      cases path
    | cons l w =>
      obtain ⟨t, first, rest⟩ := path_cons_iff.mp path
      obtain ⟨enabled, rfl⟩ := (fromFirst l t).mp first
      cases w with
      | nil => exact ⟨l, rfl, enabled⟩
      | cons l' w =>
        obtain ⟨t, second, -⟩ := path_cons_iff.mp rest
        exact absurd second (fromSecond l' t)
  · rintro ⟨l, rfl, enabled⟩
    exact ⟨1, SortedSet.mem_singleton.mpr rfl,
      path_singleton_iff.mpr ((fromFirst l 1).mpr ⟨enabled, rfl⟩)⟩

theorem acceptsEmpty_iff : a.acceptsEmpty = true ↔ a.Accepts [] := by
  simp only [acceptsEmpty, isFinal, SortedSet.contains_iff, Accepts, path_nil_iff]
  constructor
  · exact fun h => ⟨_, h, rfl⟩
  · rintro ⟨q, hq, rfl⟩
    exact hq

/-! ## Union -/

theorem step_union_left (ha : a.Valid) {q t : Nat} {l : Letter} (hq : q < a.stateCount) :
    (a.union b).Step q l t ↔ a.Step q l t := by
  have : (a.union b).rulesFrom q = a.rulesFrom q := by
    have hq' : q < a.transitions.length := ha.length_transitions ▸ hq
    simp only [rulesFrom, union, List.append_assoc]
    exact getD_append_left hq'
  simp [Step, this]

theorem step_union_right (ha : a.Valid) (hb : b.Valid) {q t : Nat} {l : Letter}
    (hq : q < b.stateCount) :
    (a.union b).Step (q + a.stateCount) l t ↔ ∃ s, b.Step q l s ∧ s + a.stateCount = t := by
  have : (a.union b).rulesFrom (q + a.stateCount) = (b.rulesFrom q).map (·.shift a.stateCount) := by
    have hq' : q < (shiftRules b.transitions a.stateCount).length := by
      simpa [shiftRules, hb.length_transitions] using hq
    simp only [rulesFrom, union, List.append_assoc]
    rw [← ha.length_transitions, getD_append_right, ha.length_transitions, getD_append_left hq']
    exact getD_shiftRules _ _ _
  exact (this ▸ leads_shift : Leads ((a.union b).rulesFrom (q + a.stateCount)) l t ↔ _)

theorem step_union_initial (ha : a.Valid) (hb : b.Valid) {t : Nat} {l : Letter} :
    (a.union b).Step (a.union b).initial l t ↔
      a.Step a.initial l t ∨ ∃ s, b.Step b.initial l s ∧ s + a.stateCount = t := by
  have : (a.union b).rulesFrom (a.union b).initial =
      a.initialRules ++ b.initialRules.map (·.shift a.stateCount) := by
    have length : (a.transitions ++ shiftRules b.transitions a.stateCount).length =
        a.stateCount + b.stateCount := by
      simp [shiftRules, ha.length_transitions, hb.length_transitions]
    have := getD_append_right (a.transitions ++ shiftRules b.transitions a.stateCount)
      [a.initialRules ++ b.initialRules.map (·.shift a.stateCount)] 0
    rw [length, Nat.zero_add] at this
    simpa [rulesFrom, union] using this
  exact (this ▸ leads_append.trans (or_congr Iff.rfl leads_shift) :
    Leads ((a.union b).rulesFrom (a.union b).initial) l t ↔ _)

theorem mem_finals_union {q : Nat} : q ∈ (a.union b).finals ↔
    q ∈ a.finals ∨ (∃ p ∈ b.finals, p + a.stateCount = q) ∨
      ((a.Accepts [] ∨ b.Accepts []) ∧ q = a.stateCount + b.stateCount) := by
  simp only [← acceptsEmpty_iff, union, ← Bool.or_eq_true]
  split
  · next h => simp [h, or_comm, or_left_comm]
  · next h => simp [h]

theorem valid_union (ha : a.Valid) (hb : b.Valid) : (a.union b).Valid := by
  refine valid_of_rules (by simp [union]) ?_ (fun q hq => ?_) ?_
  · simp only [union, shiftRules, List.length_append, List.length_map, List.length_singleton,
      ha.length_transitions, hb.length_transitions]
  · show q < a.stateCount + b.stateCount + 1
    rcases mem_finals_union.mp hq with hq | ⟨p, hp, rfl⟩ | ⟨-, rfl⟩
    · have := ha.finals_lt q hq
      omega
    · have := hb.finals_lt p hp
      omega
    · omega
  · intro rules hrules r hr
    show r.target < a.stateCount + b.stateCount + 1 ∧
      r.guard.varCount ≤ max a.atomCount b.atomCount
    simp only [union, List.mem_append, List.mem_singleton] at hrules
    rcases hrules with (hrules | hrules) | rfl
    · have target := ha.target_lt rules hrules r hr
      have guard := ha.varCount_le rules hrules r hr
      omega
    · exact hb.mem_shiftRules (by omega) (Nat.le_max_right _ _) hrules hr
    · rcases List.mem_append.mp hr with hr | hr
      · have := ha.mem_initialRules hr
        omega
      · obtain ⟨r', hr', rfl⟩ := List.mem_map.mp hr
        have := hb.mem_initialRules hr'
        simp only [Rule.shift]
        omega

/-- A union accepts what either automaton accepts. -/
theorem accepts_union_iff (ha : a.Valid) (hb : b.Valid) {w : Word} :
    (a.union b).Accepts w ↔ a.Accepts w ∨ b.Accepts w := by
  have left : ∀ {q t : Nat} {w : Word}, q < a.stateCount →
      ((a.union b).Path q w t ↔ ∃ s, a.Path q w s ∧ s = t) := fun hq =>
    path_copy id (fun q l t hq => by simp [step_union_left ha hq]) ha hq
  have right : ∀ {q t : Nat} {w : Word}, q < b.stateCount →
      ((a.union b).Path (q + a.stateCount) w t ↔ ∃ s, b.Path q w s ∧ s + a.stateCount = t) :=
    fun hq => path_copy _ (fun q l t hq => step_union_right ha hb hq) hb hq
  -- the new initial state is left at once and never entered again
  cases w with
  | nil =>
    constructor
    · rintro ⟨q, hq, path⟩
      obtain rfl : a.stateCount + b.stateCount = q := path_nil_iff.mp path
      rcases mem_finals_union.mp hq with hq | ⟨p, hp, hq⟩ | ⟨accepted, -⟩
      · have := ha.finals_lt _ hq
        omega
      · have := hb.finals_lt _ hp
        omega
      · exact accepted
    · exact fun accepted =>
        ⟨_, mem_finals_union.mpr (Or.inr (Or.inr ⟨accepted, rfl⟩)), path_nil_iff.mpr rfl⟩
  | cons l w =>
    simp only [Accepts, path_cons_iff, step_union_initial ha hb]
    constructor
    · rintro ⟨q, hq, t, first | ⟨s, first, rfl⟩, rest⟩
      · obtain ⟨q', behind, rfl⟩ := (left (ha.step_lt first).2).mp rest
        have hlt := ha.path_lt behind (ha.step_lt first).2
        rcases mem_finals_union.mp hq with hq | ⟨p, -, hp⟩ | ⟨-, hq⟩
        · exact Or.inl ⟨q', hq, t, first, behind⟩
        · omega
        · omega
      · obtain ⟨q', behind, rfl⟩ := (right (hb.step_lt first).2).mp rest
        have hlt := hb.path_lt behind (hb.step_lt first).2
        rcases mem_finals_union.mp hq with hq | ⟨p, hp, same⟩ | ⟨-, hq⟩
        · have := ha.finals_lt _ hq
          omega
        · obtain rfl : p = q' := by omega
          exact Or.inr ⟨p, hp, s, first, behind⟩
        · omega
    · rintro (⟨q, hq, t, first, rest⟩ | ⟨q, hq, t, first, rest⟩)
      · exact ⟨q, mem_finals_union.mpr (Or.inl hq), t, Or.inl first,
          (left (ha.step_lt first).2).mpr ⟨q, rest, rfl⟩⟩
      · exact ⟨q + a.stateCount, mem_finals_union.mpr (Or.inr (Or.inl ⟨q, hq, rfl⟩)), _,
          Or.inr ⟨t, first, rfl⟩, (right (hb.step_lt first).2).mpr ⟨q, rest, rfl⟩⟩

/-! ## Going over to a second automaton

Concatenation and fusion have the same shape: the states of the first automaton have, besides their
own rules, some that jump into the second one. -/

/-- A run over from the first automaton into the second: it stays in the first, or jumps once. -/
theorem path_jump {c : Automaton} {Jump : Nat → Letter → Nat → Prop} (ha : a.Valid) (hb : b.Valid)
    (jump_lt : ∀ q l s, Jump q l s → s < b.stateCount)
    (first : ∀ q l t, q < a.stateCount →
      (c.Step q l t ↔ a.Step q l t ∨ ∃ s, Jump q l s ∧ s + a.stateCount = t))
    (second : ∀ q l t, q < b.stateCount →
      (c.Step (q + a.stateCount) l t ↔ ∃ s, b.Step q l s ∧ s + a.stateCount = t))
    {q t : Nat} {w : Word} (hq : q < a.stateCount) :
    c.Path q w t ↔ a.Path q w t ∨ ∃ u l v p s s', w = u ++ l :: v ∧ a.Path q u p ∧ Jump p l s ∧
      b.Path s v s' ∧ s' + a.stateCount = t := by
  induction w generalizing q with
  | nil => simp [path_nil_iff]
  | cons l w ih =>
    constructor
    · intro path
      obtain ⟨m, step, rest⟩ := path_cons_iff.mp path
      -- as long as the run stays in the first automaton, the jump is still to come
      rcases (first q l m hq).mp step with step | ⟨s, jump, rfl⟩
      · rcases (ih (ha.step_lt step).2).mp rest with rest | ⟨u, l', v, p, s, s', rfl, before, jump⟩
        · exact Or.inl (path_cons_iff.mpr ⟨m, step, rest⟩)
        · exact Or.inr ⟨l :: u, l', v, p, s, s', rfl, path_cons_iff.mpr ⟨m, step, before⟩, jump⟩
      · obtain ⟨s', behind, same⟩ := (path_copy _ second hb (jump_lt q l s jump)).mp rest
        exact Or.inr ⟨[], l, w, q, s, s', rfl, .nil, jump, behind, same⟩
    · rintro (path | ⟨u, l', v, p, s, s', split, before, jump, behind, same⟩)
      · obtain ⟨m, step, rest⟩ := path_cons_iff.mp path
        exact path_cons_iff.mpr ⟨m, (first q l m hq).mpr (Or.inl step),
          (ih (ha.step_lt step).2).mpr (Or.inl rest)⟩
      · cases u with
        | nil =>
          obtain ⟨rfl, rfl⟩ := List.cons.inj split
          obtain rfl := path_nil_iff.mp before
          exact path_cons_iff.mpr ⟨_, (first q l _ hq).mpr (Or.inr ⟨s, jump, rfl⟩),
            (path_copy _ second hb (jump_lt q l s jump)).mpr ⟨s', behind, same⟩⟩
        | cons k u =>
          obtain ⟨rfl, rfl⟩ := List.cons.inj split
          obtain ⟨m, step, before⟩ := path_cons_iff.mp before
          exact path_cons_iff.mpr ⟨m, (first q l m hq).mpr (Or.inl step),
            (ih (ha.step_lt step).2).mpr
              (Or.inr ⟨u, l', v, p, s, s', rfl, before, jump, behind, same⟩)⟩

/-! ## Concatenation -/

/-- The rules that lead from a final state of the first automaton into the second. -/
theorem rulesFrom_concat (ha : a.Valid) {q : Nat} (hq : q < a.stateCount) :
    (a.concat b).rulesFrom q = if a.isFinal q then
      a.rulesFrom q ++ b.initialRules.map (·.shift a.stateCount) else a.rulesFrom q := by
  have hq' : q < a.transitions.length := ha.length_transitions ▸ hq
  simp only [rulesFrom, concat]
  rw [getD_append_left (by simpa using hq')]
  simp [List.getD_eq_getElem?_getD, hq']

theorem step_concat_left (ha : a.Valid) {q t : Nat} {l : Letter} (hq : q < a.stateCount) :
    (a.concat b).Step q l t ↔ a.Step q l t ∨
      ∃ s, (q ∈ a.finals ∧ b.Step b.initial l s) ∧ s + a.stateCount = t := by
  show Leads ((a.concat b).rulesFrom q) l t ↔ _
  rw [rulesFrom_concat ha hq]
  split
  · next final =>
    rw [isFinal, SortedSet.contains_iff] at final
    rw [leads_append, leads_shift]
    simp [final, Step, Leads, initialRules]
  · next other =>
    rw [isFinal, SortedSet.contains_iff] at other
    simp [other, Step, Leads]

theorem step_concat_right (ha : a.Valid) {q t : Nat} {l : Letter} :
    (a.concat b).Step (q + a.stateCount) l t ↔ ∃ s, b.Step q l s ∧ s + a.stateCount = t := by
  have : (a.concat b).rulesFrom (q + a.stateCount) =
      (b.rulesFrom q).map (·.shift a.stateCount) := by
    simp only [rulesFrom, concat]
    have := getD_append_right (a.transitions.zipIdx.map fun place =>
        if a.isFinal place.2 then place.1 ++ b.initialRules.map (·.shift a.stateCount)
        else place.1)
      (shiftRules b.transitions a.stateCount) q
    rw [List.length_map, List.length_zipIdx, ha.length_transitions, getD_shiftRules] at this
    exact this
  exact (this ▸ leads_shift : Leads ((a.concat b).rulesFrom (q + a.stateCount)) l t ↔ _)

theorem mem_finals_concat {q : Nat} : q ∈ (a.concat b).finals ↔
    (b.Accepts [] ∧ q ∈ a.finals) ∨ ∃ p ∈ b.finals, p + a.stateCount = q := by
  rw [← acceptsEmpty_iff]
  simp only [concat]
  split
  · next h => simp [h]
  · next h => simp [h]

theorem valid_concat (ha : a.Valid) (hb : b.Valid) : (a.concat b).Valid := by
  refine valid_of_rules ?_ ?_ (fun q hq => ?_) ?_
  · have := ha.initial_lt
    simp only [concat]
    omega
  · simp only [concat, shiftRules, List.length_append, List.length_map, List.length_zipIdx,
      ha.length_transitions, hb.length_transitions]
  · show q < a.stateCount + b.stateCount
    rcases mem_finals_concat.mp hq with ⟨-, hq⟩ | ⟨p, hp, rfl⟩
    · have := ha.finals_lt q hq
      omega
    · have := hb.finals_lt p hp
      omega
  · intro rules hrules r hr
    show r.target < a.stateCount + b.stateCount ∧ r.guard.varCount ≤ max a.atomCount b.atomCount
    simp only [concat, List.mem_append, List.mem_map, Prod.exists] at hrules
    rcases hrules with ⟨rules', q, hrules', rfl⟩ | hrules
    · have inside := List.fst_mem_of_mem_zipIdx hrules'
      have own : ∀ r ∈ rules', r.target < a.stateCount + b.stateCount ∧
          r.guard.varCount ≤ max a.atomCount b.atomCount := fun r hr => by
        have := ha.target_lt rules' inside r hr
        have := ha.varCount_le rules' inside r hr
        omega
      split at hr
      · rcases List.mem_append.mp hr with hr | hr
        · exact own r hr
        · obtain ⟨r', hr', rfl⟩ := List.mem_map.mp hr
          have := hb.mem_initialRules hr'
          simp only [Rule.shift]
          omega
      · exact own r hr
    · exact hb.mem_shiftRules (by omega) (Nat.le_max_right _ _) hrules hr

/-- A concatenation accepts a word of the first automaton followed by one of the second. -/
theorem accepts_concat_iff (ha : a.Valid) (hb : b.Valid) {w : Word} :
    (a.concat b).Accepts w ↔ ∃ u v, w = u ++ v ∧ a.Accepts u ∧ b.Accepts v := by
  have runs : ∀ t, (a.concat b).Path a.initial w t ↔ _ := fun t =>
    path_jump ha hb (fun q l s jump => (hb.step_lt jump.2).2)
      (fun q l t hq => step_concat_left ha hq) (fun q l t _ => step_concat_right ha) ha.initial_lt
  show (∃ t ∈ (a.concat b).finals, (a.concat b).Path a.initial w t) ↔ _
  simp only [runs]
  constructor
  · rintro ⟨t, ht, path | ⟨u, l, v, p, s, s', rfl, before, ⟨hp, step⟩, behind, rfl⟩⟩
    · have hlt := ha.path_lt path ha.initial_lt
      rcases mem_finals_concat.mp ht with ⟨empty, ht⟩ | ⟨p, -, rfl⟩
      · exact ⟨w, [], by simp, ⟨t, ht, path⟩, empty⟩
      · omega
    · rcases mem_finals_concat.mp ht with ⟨-, ht⟩ | ⟨p', hp', same⟩
      · have := ha.finals_lt _ ht
        omega
      · obtain rfl : p' = s' := by omega
        exact ⟨u, l :: v, rfl, ⟨p, hp, before⟩, p', hp', path_cons_iff.mpr ⟨s, step, behind⟩⟩
  · rintro ⟨u, v, rfl, ⟨p, hp, before⟩, p', hp', behind⟩
    -- without letters for the second automaton there is no jump, and the run ends in the first
    cases v with
    | nil =>
      exact ⟨p, mem_finals_concat.mpr (Or.inl ⟨⟨p', hp', behind⟩, hp⟩),
        Or.inl (by simpa using before)⟩
    | cons l v =>
      obtain ⟨s, step, behind⟩ := path_cons_iff.mp behind
      exact ⟨p' + a.stateCount, mem_finals_concat.mpr (Or.inr ⟨p', hp', rfl⟩),
        Or.inr ⟨u, l, v, p, s, p', rfl, before, ⟨hp, step⟩, behind, rfl⟩⟩

/-! ## Fusion -/

/-- What `fuseRule` returns. -/
def fusions (a b : Automaton) (r : Rule) : List Rule :=
  if a.isFinal r.target then
    r :: b.initialRules.map fun r' => ⟨.and r.guard r'.guard, r'.target + a.stateCount⟩
  else [r]

theorem fuseRule_returns (r : Rule) : Build.Returns (fuseRule a b r) (fusions a b r) := by
  unfold fuseRule fusions
  refine Build.Returns.ite (fun _ => ?_) fun _ => Build.Returns.pure _
  refine Build.Returns.bind (Build.Returns.mapM fun r' _ => ?_) (Build.Returns.pure _)
  exact (Build.and_returns _ _).bind (Build.Returns.pure _)

theorem fuse_returns : Build.Returns (a.fuse b)
    { atomCount := max a.atomCount b.atomCount
      stateCount := a.stateCount + b.stateCount
      initial := a.initial
      finals := b.finals.shift a.stateCount
      transitions := (a.transitions.map fun rules => rules.flatMap (fusions a b)) ++
        shiftRules b.transitions a.stateCount } := by
  refine Build.Returns.bind (Build.Returns.mapM fun rules _ => ?_) (Build.Returns.pure _)
  refine Build.Returns.bind (Build.Returns.mapM fun r _ => fuseRule_returns r) ?_
  rw [← List.flatMap_def]
  exact Build.Returns.pure _

theorem leads_fusions {rules : List Rule} {l : Letter} {t : Nat} :
    Leads (rules.flatMap (fusions a b)) l t ↔ Leads rules l t ∨
      ∃ s, ((∃ f ∈ a.finals, Leads rules l f) ∧ b.Step b.initial l s) ∧ s + a.stateCount = t := by
  constructor
  · rintro ⟨r, hr, enabled, rfl⟩
    obtain ⟨r₀, hr₀, hr⟩ := List.mem_flatMap.mp hr
    unfold fusions at hr
    split at hr
    · next final =>
      rw [isFinal, SortedSet.contains_iff] at final
      rcases List.mem_cons.mp hr with rfl | hr
      · exact Or.inl ⟨r, hr₀, enabled, rfl⟩
      · obtain ⟨r', hr', rfl⟩ := List.mem_map.mp hr
        simp only [Formula.eval, Bool.and_eq_true] at enabled
        exact Or.inr ⟨_, ⟨⟨_, final, r₀, hr₀, enabled.1, rfl⟩, r', hr', enabled.2, rfl⟩, rfl⟩
    · obtain rfl := List.mem_singleton.mp hr
      exact Or.inl ⟨r, hr₀, enabled, rfl⟩
  · rintro (⟨r, hr, enabled, rfl⟩ |
      ⟨s, ⟨⟨f, hf, r, hr, enabled, rfl⟩, r', hr', enabled', rfl⟩, rfl⟩)
    · refine ⟨r, List.mem_flatMap.mpr ⟨r, hr, ?_⟩, enabled, rfl⟩
      unfold fusions
      split <;> simp
    · refine ⟨⟨.and r.guard r'.guard, r'.target + a.stateCount⟩, List.mem_flatMap.mpr ⟨r, hr, ?_⟩,
        by simp [Formula.eval, enabled, enabled'], rfl⟩
      have final : a.isFinal r.target = true := SortedSet.contains_iff.mpr hf
      simp only [fusions, final, if_true]
      exact List.mem_cons_of_mem _ (List.mem_map.mpr ⟨r', hr', rfl⟩)

theorem step_fuse_left (ha : a.Valid) {q t : Nat} {l : Letter} (hq : q < a.stateCount) :
    (a.fuse b).result.Step q l t ↔ a.Step q l t ∨
      ∃ s, ((∃ f ∈ a.finals, a.Step q l f) ∧ b.Step b.initial l s) ∧ s + a.stateCount = t := by
  have : (a.fuse b).result.rulesFrom q = (a.rulesFrom q).flatMap (fusions a b) := by
    have hq' : q < a.transitions.length := ha.length_transitions ▸ hq
    rw [fuse_returns.result_eq]
    simp only [rulesFrom]
    rw [getD_append_left (by simpa using hq')]
    simp [List.getD_eq_getElem?_getD, hq']
  exact (this ▸ leads_fusions : Leads ((a.fuse b).result.rulesFrom q) l t ↔ _)

theorem step_fuse_right (ha : a.Valid) {q t : Nat} {l : Letter} :
    (a.fuse b).result.Step (q + a.stateCount) l t ↔
      ∃ s, b.Step q l s ∧ s + a.stateCount = t := by
  have : (a.fuse b).result.rulesFrom (q + a.stateCount) =
      (b.rulesFrom q).map (·.shift a.stateCount) := by
    rw [fuse_returns.result_eq]
    simp only [rulesFrom]
    have := getD_append_right (a.transitions.map fun rules => rules.flatMap (fusions a b))
      (shiftRules b.transitions a.stateCount) q
    rw [List.length_map, ha.length_transitions, getD_shiftRules] at this
    exact this
  exact (this ▸ leads_shift : Leads ((a.fuse b).result.rulesFrom (q + a.stateCount)) l t ↔ _)

theorem valid_fuse (ha : a.Valid) (hb : b.Valid) : (a.fuse b).result.Valid := by
  rw [fuse_returns.result_eq]
  refine valid_of_rules ?_ ?_ (fun q hq => ?_) ?_
  · have := ha.initial_lt
    show a.initial < a.stateCount + b.stateCount
    omega
  · simp only [shiftRules, List.length_append, List.length_map, ha.length_transitions,
      hb.length_transitions]
  · obtain ⟨p, hp, rfl⟩ := SortedSet.mem_shift.mp hq
    have := hb.finals_lt p hp
    show p + a.stateCount < a.stateCount + b.stateCount
    omega
  · intro rules hrules r hr
    show r.target < a.stateCount + b.stateCount ∧ r.guard.varCount ≤ max a.atomCount b.atomCount
    rcases List.mem_append.mp hrules with hrules | hrules
    · obtain ⟨rules', hrules', rfl⟩ := List.mem_map.mp hrules
      obtain ⟨r₀, hr₀, hr⟩ := List.mem_flatMap.mp hr
      have target := ha.target_lt rules' hrules' r₀ hr₀
      have guard := ha.varCount_le rules' hrules' r₀ hr₀
      unfold fusions at hr
      split at hr
      · rcases List.mem_cons.mp hr with rfl | hr
        · omega
        · obtain ⟨r', hr', rfl⟩ := List.mem_map.mp hr
          have := hb.mem_initialRules hr'
          simp only [Formula.varCount]
          omega
      · obtain rfl := List.mem_singleton.mp hr
        omega
    · exact hb.mem_shiftRules (by omega) (Nat.le_max_right _ _) hrules hr

/-- A fusion accepts a word of each automaton that share one letter. -/
theorem accepts_fuse_iff (ha : a.Valid) (hb : b.Valid) {w : Word} :
    (a.fuse b).result.Accepts w ↔
      ∃ u l v, w = u ++ l :: v ∧ a.Accepts (u ++ [l]) ∧ b.Accepts (l :: v) := by
  have runs : ∀ t, (a.fuse b).result.Path a.initial w t ↔ _ := fun t =>
    path_jump ha hb (fun q l s jump => (hb.step_lt jump.2).2)
      (fun q l t hq => step_fuse_left ha hq) (fun q l t _ => step_fuse_right ha) ha.initial_lt
  have initial : (a.fuse b).result.initial = a.initial := by rw [fuse_returns.result_eq]
  have finals : (a.fuse b).result.finals = b.finals.shift a.stateCount := by
    rw [fuse_returns.result_eq]
  rw [Accepts, initial, finals]
  simp only [runs]
  constructor
  · rintro ⟨t, ht, path | ⟨u, l, v, p, s, s', rfl, before, ⟨⟨f, hf, last⟩, step⟩, behind, rfl⟩⟩
    · have := ha.path_lt path ha.initial_lt
      obtain ⟨p, -, rfl⟩ := SortedSet.mem_shift.mp ht
      omega
    · obtain ⟨p', hp', same⟩ := SortedSet.mem_shift.mp ht
      obtain rfl : p' = s' := by omega
      exact ⟨u, l, v, rfl, ⟨f, hf, path_append_iff.mpr ⟨p, before, path_singleton_iff.mpr last⟩⟩,
        p', hp', path_cons_iff.mpr ⟨s, step, behind⟩⟩
  · rintro ⟨u, l, v, rfl, ⟨f, hf, before⟩, p', hp', behind⟩
    obtain ⟨p, before, last⟩ := path_append_iff.mp before
    obtain ⟨s, step, behind⟩ := path_cons_iff.mp behind
    have jump : (∃ f ∈ a.finals, a.Step p l f) ∧ b.Step b.initial l s :=
      ⟨⟨f, hf, path_singleton_iff.mp last⟩, step⟩
    exact ⟨p' + a.stateCount, SortedSet.mem_shift.mpr ⟨p', hp', rfl⟩,
      Or.inr ⟨u, l, v, p, s, p', rfl, before, jump, behind, rfl⟩⟩

/-! ## Intersection -/

/-- The rules of a pair of states in the product, whose second automaton has `width` states. -/
def products (width : Nat) (rules rules' : List Rule) : List Rule :=
  rules.flatMap fun r => rules'.map fun r' =>
    ⟨.and r.guard r'.guard, r.target * width + r'.target⟩

theorem intersect_returns : Build.Returns (a.intersect b)
    { atomCount := max a.atomCount b.atomCount
      stateCount := a.stateCount * b.stateCount
      initial := a.initial * b.stateCount + b.initial
      finals := .ofList (a.finals.toList.flatMap fun p =>
        b.finals.toList.map (p * b.stateCount + ·))
      transitions := a.transitions.flatMap fun rules =>
        b.transitions.map (products b.stateCount rules) } := by
  refine Build.Returns.bind (Build.Returns.mapM fun rules _ => Build.Returns.mapM fun rules' _ =>
    Build.Returns.bind (Build.Returns.mapM fun r _ => Build.Returns.mapM fun r' _ =>
      (Build.and_returns _ _).bind (Build.Returns.pure _)) (Build.Returns.pure _)) ?_
  simp only [← List.flatMap_def]
  exact Build.Returns.pure _

/-- Rows of equal width, one after the other. -/
theorem getElem?_flatMap_rows {α β : Type} {rows : List α} {f : α → List β} {width p q : Nat}
    (h : ∀ x, (f x).length = width) (hq : q < width) :
    (rows.flatMap f)[p * width + q]? = rows[p]?.bind fun x => (f x)[q]? := by
  induction rows generalizing p with
  | nil => simp
  | cons x rows ih =>
    rw [List.flatMap_cons]
    cases p with
    | zero => simp [List.getElem?_append_left, h x, hq]
    | succ p =>
      have beyond : (f x).length ≤ (p + 1) * width + q := by
        rw [h x, Nat.add_mul]
        omega
      have rest : (p + 1) * width + q - (f x).length = p * width + q := by
        rw [h x, Nat.add_mul]
        omega
      rw [List.getElem?_append_right beyond, rest, ih]
      rfl

theorem length_flatMap_rows {α β : Type} {rows : List α} {f : α → List β} {width : Nat}
    (h : ∀ x, (f x).length = width) : (rows.flatMap f).length = rows.length * width := by
  induction rows with
  | nil => simp
  | cons x rows ih =>
    rw [List.flatMap_cons, List.length_append, h x, ih, List.length_cons, Nat.succ_mul,
      Nat.add_comm]

theorem step_intersect (hb : b.Valid) {p q t : Nat} {l : Letter} (hq : q < b.stateCount) :
    (a.intersect b).result.Step (p * b.stateCount + q) l t ↔
      ∃ p' q', a.Step p l p' ∧ b.Step q l q' ∧ p' * b.stateCount + q' = t := by
  have rules : (a.intersect b).result.rulesFrom (p * b.stateCount + q) =
      products b.stateCount (a.rulesFrom p) (b.rulesFrom q) := by
    rw [intersect_returns.result_eq]
    simp only [rulesFrom, List.getD_eq_getElem?_getD]
    rw [getElem?_flatMap_rows (fun x => by simp [hb.length_transitions]) hq]
    cases a.transitions[p]? with
    | none => simp [products]
    | some rules =>
      simp only [Option.bind_some, List.getElem?_map, Option.getD_some]
      cases b.transitions[q]? with
      | none => simp [products]
      | some rules' => rfl
  simp only [Step, rules, products, List.mem_flatMap, List.mem_map]
  constructor
  · rintro ⟨-, ⟨r, hr, r', hr', rfl⟩, enabled, rfl⟩
    simp only [Formula.eval, Bool.and_eq_true] at enabled
    exact ⟨_, _, ⟨r, hr, enabled.1, rfl⟩, ⟨r', hr', enabled.2, rfl⟩, rfl⟩
  · rintro ⟨-, -, ⟨r, hr, enabled, rfl⟩, ⟨r', hr', enabled', rfl⟩, rfl⟩
    exact ⟨_, ⟨r, hr, r', hr', rfl⟩, by simp [Formula.eval, enabled, enabled'], rfl⟩

/-- A run of the product is a run of each automaton. -/
theorem path_intersect (hb : b.Valid) {p q t : Nat} {w : Word} (hq : q < b.stateCount) :
    (a.intersect b).result.Path (p * b.stateCount + q) w t ↔
      ∃ p' q', a.Path p w p' ∧ b.Path q w q' ∧ p' * b.stateCount + q' = t := by
  induction w generalizing p q with
  | nil => simp [path_nil_iff]
  | cons l w ih =>
    simp only [path_cons_iff, step_intersect hb hq]
    constructor
    · rintro ⟨-, ⟨p', q', first, first', rfl⟩, rest⟩
      obtain ⟨p'', q'', behind, behind', rfl⟩ := (ih (hb.step_lt first').2).mp rest
      exact ⟨p'', q'', ⟨p', first, behind⟩, ⟨q', first', behind'⟩, rfl⟩
    · rintro ⟨p'', q'', ⟨p', first, rest⟩, ⟨q', first', rest'⟩, rfl⟩
      exact ⟨_, ⟨p', q', first, first', rfl⟩,
        (ih (hb.step_lt first').2).mpr ⟨p'', q'', rest, rest', rfl⟩⟩

theorem mem_finals_intersect {t : Nat} : t ∈ (a.intersect b).result.finals ↔
    ∃ p ∈ a.finals, ∃ q ∈ b.finals, p * b.stateCount + q = t := by
  rw [intersect_returns.result_eq]
  simp

/-- The number of a pair determines it. -/
theorem pair_inj {width p p' q q' : Nat} (hq : q < width) (hq' : q' < width)
    (h : p * width + q = p' * width + q') : p = p' ∧ q = q' := by
  have division : ∀ {p q}, q < width → (p * width + q) / width = p := fun hq => by
    rw [Nat.mul_comm, Nat.mul_add_div (by omega), Nat.div_eq_of_lt hq, Nat.add_zero]
  have hp : p = p' := by rw [← division (p := p) hq, h, division hq']
  subst hp
  exact ⟨rfl, by omega⟩

theorem pair_lt {count width p q : Nat} (hp : p < count) (hq : q < width) :
    p * width + q < count * width :=
  calc p * width + q < p * width + width := by omega
    _ = (p + 1) * width := (Nat.succ_mul p width).symm
    _ ≤ count * width := Nat.mul_le_mul_right width hp

theorem valid_intersect (ha : a.Valid) (hb : b.Valid) : (a.intersect b).result.Valid := by
  have finals : ∀ t ∈ (a.intersect b).result.finals, t < a.stateCount * b.stateCount := by
    intro t ht
    obtain ⟨p, hp, q, hq, rfl⟩ := mem_finals_intersect.mp ht
    exact pair_lt (ha.finals_lt p hp) (hb.finals_lt q hq)
  rw [intersect_returns.result_eq] at finals ⊢
  refine valid_of_rules (pair_lt ha.initial_lt hb.initial_lt) ?_ finals ?_
  · show (a.transitions.flatMap fun rules =>
      b.transitions.map (products b.stateCount rules)).length = a.stateCount * b.stateCount
    rw [length_flatMap_rows fun rules => by rw [List.length_map, hb.length_transitions],
      ha.length_transitions]
  · intro rules hrules r hr
    obtain ⟨rules₀, hrules₀, hrules⟩ := List.mem_flatMap.mp hrules
    obtain ⟨rules₁, hrules₁, rfl⟩ := List.mem_map.mp hrules
    obtain ⟨r₀, hr₀, hr⟩ := List.mem_flatMap.mp hr
    obtain ⟨r₁, hr₁, rfl⟩ := List.mem_map.mp hr
    have guard := ha.varCount_le rules₀ hrules₀ r₀ hr₀
    have guard' := hb.varCount_le rules₁ hrules₁ r₁ hr₁
    refine ⟨pair_lt (ha.target_lt rules₀ hrules₀ r₀ hr₀) (hb.target_lt rules₁ hrules₁ r₁ hr₁), ?_⟩
    simp only [Formula.varCount]
    omega

/-- An intersection accepts what both automata accept. -/
theorem accepts_intersect_iff (hb : b.Valid) {w : Word} :
    (a.intersect b).result.Accepts w ↔ a.Accepts w ∧ b.Accepts w := by
  have initial : (a.intersect b).result.initial = a.initial * b.stateCount + b.initial := by
    rw [intersect_returns.result_eq]
  simp only [Accepts, initial, path_intersect hb hb.initial_lt, mem_finals_intersect]
  constructor
  · rintro ⟨-, ⟨p, hp, q, hq, rfl⟩, p', q', path, path', same⟩
    obtain ⟨rfl, rfl⟩ := pair_inj (hb.path_lt path' hb.initial_lt) (hb.finals_lt q hq) same
    exact ⟨⟨_, hp, path⟩, _, hq, path'⟩
  · rintro ⟨⟨p, hp, path⟩, q, hq, path'⟩
    exact ⟨_, ⟨p, hp, q, hq, rfl⟩, p, q, path, path', rfl⟩

/-! ## Repetition -/

theorem step_plus (ha : a.Valid) {q t : Nat} {l : Letter} :
    a.plus.Step q l t ↔ a.Step q l t ∨ (q ∈ a.finals ∧ a.Step a.initial l t) := by
  have rules : q < a.stateCount → a.plus.rulesFrom q =
      if a.isFinal q then a.rulesFrom q ++ a.initialRules else a.rulesFrom q := by
    intro hq
    have hq' : q < a.transitions.length := ha.length_transitions ▸ hq
    simp [rulesFrom, plus, List.getD_eq_getElem?_getD, hq']
  by_cases hq : q < a.stateCount
  · show Leads (a.plus.rulesFrom q) l t ↔ _
    rw [rules hq]
    split
    · next final =>
      rw [isFinal, SortedSet.contains_iff] at final
      rw [leads_append]
      simp [final, Step, Leads, initialRules]
    · next other =>
      rw [isFinal, SortedSet.contains_iff] at other
      simp [other, Step, Leads]
  · -- there is no such state
    constructor
    · rintro ⟨r, hr, -⟩
      have := lt_length_of_mem_rulesFrom hr
      simp only [plus, List.length_map, List.length_zipIdx, ha.length_transitions] at this
      omega
    · rintro (step | ⟨final, -⟩)
      · exact absurd (ha.step_lt step).1 hq
      · exact absurd (ha.finals_lt q final) hq

theorem valid_plus (ha : a.Valid) : a.plus.Valid := by
  refine valid_of_rules ha.initial_lt ?_ ha.finals_lt ?_
  · simp only [plus, List.length_map, List.length_zipIdx, ha.length_transitions]
  · intro rules hrules r hr
    obtain ⟨⟨rules', q⟩, hrules', rfl⟩ := List.mem_map.mp hrules
    have inside := List.fst_mem_of_mem_zipIdx hrules'
    have own : ∀ r ∈ rules', r.target < a.stateCount ∧ r.guard.varCount ≤ a.atomCount :=
      fun r hr => ⟨ha.target_lt rules' inside r hr, ha.varCount_le rules' inside r hr⟩
    dsimp only at hr
    split at hr
    · exact (List.mem_append.mp hr).elim (own r) ha.mem_initialRules
    · exact own r hr

theorem path_plus_of_path (ha : a.Valid) {q t : Nat} {w : Word} (h : a.Path q w t) :
    a.plus.Path q w t := by
  induction w generalizing q with
  | nil => exact path_nil_iff.mpr (path_nil_iff.mp h)
  | cons l w ih =>
    obtain ⟨s, first, rest⟩ := path_cons_iff.mp h
    exact path_cons_iff.mpr ⟨s, (step_plus ha).mpr (Or.inl first), ih rest⟩

/-- From a final state on, any number of words can follow. -/
theorem path_plus_of_power (ha : a.Valid) {n : Nat} {w : Word} (h : Power a.Accepts n w) {q : Nat}
    (hq : q ∈ a.finals) : ∃ t ∈ a.finals, a.plus.Path q w t := by
  induction h generalizing q with
  | zero => exact ⟨q, hq, .nil⟩
  | @succ n u v head tail ih =>
    obtain ⟨f, hf, path⟩ := head
    -- an empty word needs no run; the first letter of any other goes back to the start
    cases u with
    | nil => exact ih hq
    | cons l u =>
      obtain ⟨s, first, rest⟩ := path_cons_iff.mp path
      obtain ⟨t, ht, behind⟩ := ih hf
      have again : a.plus.Path q (l :: u) f :=
        path_cons_iff.mpr ⟨s, (step_plus ha).mpr (Or.inr ⟨hq, first⟩), path_plus_of_path ha rest⟩
      exact ⟨t, ht, path_append_iff.mpr ⟨f, again, behind⟩⟩

/-- A run falls into words at the places where it goes back to the start; `before` is what was read
    of the word at hand. -/
theorem power_of_path_plus (ha : a.Valid) {q t : Nat} {before w : Word}
    (reached : a.Path a.initial before q) (h : a.plus.Path q w t) (ht : t ∈ a.finals) :
    ∃ n, Power a.Accepts (n + 1) (before ++ w) := by
  induction w generalizing before q with
  | nil =>
    obtain rfl := path_nil_iff.mp h
    exact ⟨0, .succ ⟨q, ht, reached⟩ .zero⟩
  | cons l w ih =>
    obtain ⟨s, first, rest⟩ := path_cons_iff.mp h
    -- the step continues the word at hand, or ends it and begins the next one
    rcases (step_plus ha).mp first with step | ⟨final, step⟩
    · obtain ⟨n, power⟩ := ih (path_append_iff.mpr ⟨q, reached, path_singleton_iff.mpr step⟩) rest
      exact ⟨n, by simpa using power⟩
    · obtain ⟨n, power⟩ := ih (path_singleton_iff.mpr step) rest
      exact ⟨n + 1, .succ ⟨q, final, reached⟩ power⟩

/-- `plus` accepts one or more words in a row. -/
theorem accepts_plus_iff (ha : a.Valid) {w : Word} :
    a.plus.Accepts w ↔ ∃ n, Power a.Accepts (n + 1) w := by
  constructor
  · rintro ⟨t, ht, path⟩
    exact power_of_path_plus ha (.nil : a.Path a.initial [] a.initial) path ht
  · rintro ⟨n, power⟩
    cases power with
    | succ head tail =>
      obtain ⟨f, hf, path⟩ := head
      obtain ⟨t, ht, behind⟩ := path_plus_of_power ha tail hf
      exact ⟨t, ht, path_append_iff.mpr ⟨f, path_plus_of_path ha path, behind⟩⟩

/-! ## An initial state of its own -/

theorem isReentrant_iff :
    a.isReentrant = true ↔ ∃ q, ∃ r ∈ a.rulesFrom q, r.target = a.initial := by
  simp only [isReentrant, List.any_eq_true, beq_iff_eq]
  constructor
  · rintro ⟨rules, hrules, r, hr, target⟩
    obtain ⟨q, hq, rfl⟩ := List.mem_iff_getElem.mp hrules
    exact ⟨q, r, by simpa [rulesFrom, hq] using hr, target⟩
  · rintro ⟨q, r, hr, target⟩
    obtain ⟨rules, hrules, hr⟩ := mem_transitions_of_mem_rulesFrom hr
    exact ⟨rules, hrules, r, hr, target⟩

/-- The automaton that `isolate` makes when a rule leads back to the initial state. -/
def isolated (a : Automaton) : Automaton :=
  { a with
    stateCount := a.stateCount + 1
    initial := a.stateCount
    finals := if a.acceptsEmpty then a.finals.insert a.stateCount else a.finals
    transitions := a.transitions ++ [a.initialRules] }

theorem step_isolated_left (ha : a.Valid) {q t : Nat} {l : Letter} (hq : q < a.stateCount) :
    a.isolated.Step q l t ↔ a.Step q l t := by
  have hq' : q < a.transitions.length := ha.length_transitions ▸ hq
  have : a.isolated.rulesFrom q = a.rulesFrom q := getD_append_left hq'
  simp [Step, this]

theorem step_isolated_initial (ha : a.Valid) {t : Nat} {l : Letter} :
    a.isolated.Step a.stateCount l t ↔ a.Step a.initial l t := by
  have : a.isolated.rulesFrom a.stateCount = a.initialRules := by
    have := getD_append_right a.transitions [a.initialRules] 0
    rw [ha.length_transitions, Nat.zero_add] at this
    exact this
  simp [Step, this, initialRules]

theorem mem_finals_isolated {q : Nat} : q ∈ a.isolated.finals ↔
    q ∈ a.finals ∨ (a.Accepts [] ∧ q = a.stateCount) := by
  rw [← acceptsEmpty_iff]
  simp only [isolated]
  split
  · next h => simp [h, or_comm]
  · next h => simp [h]

theorem valid_isolated (ha : a.Valid) : a.isolated.Valid := by
  refine valid_of_rules (Nat.lt_succ_self _) ?_ (fun q hq => ?_) ?_
  · simp only [isolated, List.length_append, List.length_singleton, ha.length_transitions]
  · show q < a.stateCount + 1
    rcases mem_finals_isolated.mp hq with hq | ⟨-, rfl⟩
    · exact Nat.lt_succ_of_lt (ha.finals_lt q hq)
    · exact Nat.lt_succ_self _
  · intro rules hrules r hr
    have own : r.target < a.stateCount ∧ r.guard.varCount ≤ a.atomCount := by
      rcases List.mem_append.mp hrules with hrules | hrules
      · exact ⟨ha.target_lt rules hrules r hr, ha.varCount_le rules hrules r hr⟩
      · rw [List.mem_singleton.mp hrules] at hr
        exact ha.mem_initialRules hr
    exact ⟨Nat.lt_succ_of_lt own.1, own.2⟩

theorem accepts_isolated_iff (ha : a.Valid) {w : Word} : a.isolated.Accepts w ↔ a.Accepts w := by
  have copy : ∀ {q t : Nat} {w : Word}, q < a.stateCount →
      (a.isolated.Path q w t ↔ ∃ s, a.Path q w s ∧ s = t) := fun hq =>
    path_copy id (fun q l t hq => by simp [step_isolated_left ha hq]) ha hq
  cases w with
  | nil =>
    constructor
    · rintro ⟨q, hq, path⟩
      obtain rfl : a.stateCount = q := path_nil_iff.mp path
      rcases mem_finals_isolated.mp hq with hq | ⟨accepted, -⟩
      · exact absurd (ha.finals_lt _ hq) (Nat.lt_irrefl _)
      · exact accepted
    · exact fun accepted =>
        ⟨_, mem_finals_isolated.mpr (Or.inr ⟨accepted, rfl⟩), path_nil_iff.mpr rfl⟩
  | cons l w =>
    show (∃ q ∈ a.isolated.finals, a.isolated.Path a.stateCount (l :: w) q) ↔ _
    simp only [Accepts, path_cons_iff, step_isolated_initial ha]
    constructor
    · rintro ⟨q, hq, t, first, rest⟩
      obtain ⟨q', behind, rfl⟩ := (copy (ha.step_lt first).2).mp rest
      have hlt := ha.path_lt behind (ha.step_lt first).2
      rcases mem_finals_isolated.mp hq with hq | ⟨-, hq⟩
      · exact ⟨q', hq, t, first, behind⟩
      · omega
    · rintro ⟨q, hq, t, first, rest⟩
      exact ⟨q, mem_finals_isolated.mpr (Or.inl hq), t, first,
        (copy (ha.step_lt first).2).mpr ⟨q, rest, rfl⟩⟩

/-- What `isolate` achieves. -/
theorem isolate_spec (ha : a.Valid) : a.isolate.Valid ∧
    (∀ w, a.isolate.Accepts w ↔ a.Accepts w) ∧ ∀ q l, ¬a.isolate.Step q l a.isolate.initial := by
  have shape : a.isolate = if a.isReentrant then a.isolated else a := rfl
  rw [shape]
  split
  · refine ⟨valid_isolated ha, fun w => accepts_isolated_iff ha, fun q l step => ?_⟩
    -- every rule comes from the given automaton, which has no such state
    have inside : ∀ {q t}, a.Step q l t → t < a.stateCount := fun step => (ha.step_lt step).2
    have hq := ((valid_isolated ha).step_lt step).1
    rcases Nat.lt_or_ge q a.stateCount with hlt | hge
    · exact Nat.lt_irrefl _ (inside ((step_isolated_left ha hlt).mp step))
    · obtain rfl : q = a.stateCount := Nat.le_antisymm (Nat.le_of_lt_succ hq) hge
      exact Nat.lt_irrefl _ (inside ((step_isolated_initial ha).mp step))
  · next h =>
    refine ⟨ha, fun w => Iff.rfl, fun q l step => h ?_⟩
    obtain ⟨r, hr, -, target⟩ := step
    exact isReentrant_iff.mpr ⟨q, r, hr, target⟩

theorem atomCount_star (a : Automaton) : a.star.atomCount = a.atomCount := by
  show a.isolate.atomCount = a.atomCount
  unfold isolate
  split
  · rfl
  · rfl

theorem valid_star (ha : a.Valid) : a.star.Valid := by
  have valid := valid_plus (isolate_spec ha).1
  refine ⟨valid.initial_lt, valid.length_transitions, fun q hq => ?_, valid.target_lt,
    valid.varCount_le⟩
  rcases SortedSet.mem_insert.mp hq with rfl | hq
  · exact valid.initial_lt
  · exact valid.finals_lt q hq

/-- `star` accepts any number of words in a row. -/
theorem accepts_star_iff (ha : a.Valid) {w : Word} :
    a.star.Accepts w ↔ ∃ n, Power a.Accepts n w := by
  obtain ⟨valid, same, entered⟩ := isolate_spec ha
  have language : a.isolate.Accepts = a.Accepts := funext fun w => propext (same w)
  have plus_iff := fun w => accepts_plus_iff valid (w := w)
  rw [language] at plus_iff
  -- no rule leads to the initial state, so only the empty word ends there
  have returned : ∀ {q w}, a.isolate.plus.Path q w a.isolate.initial → w = [] := by
    intro q w path
    induction w generalizing q with
    | nil => rfl
    | cons l w ih =>
      obtain ⟨s, first, rest⟩ := path_cons_iff.mp path
      obtain rfl := ih rest
      obtain rfl := path_nil_iff.mp rest
      exact ((step_plus valid).mp first).elim (fun step => absurd step (entered _ _))
        fun step => absurd step.2 (entered _ _)
  constructor
  · rintro ⟨t, ht, path⟩
    replace path : a.isolate.plus.Path a.isolate.initial w t := (path_with_finals _).mp path
    rcases SortedSet.mem_insert.mp ht with rfl | ht
    · exact ⟨0, returned path ▸ .zero⟩
    · obtain ⟨n, power⟩ := (plus_iff w).mp ⟨t, ht, path⟩
      exact ⟨n + 1, power⟩
  · rintro ⟨n, power⟩
    cases n with
    | zero =>
      cases power
      exact ⟨_, SortedSet.mem_insert.mpr (Or.inl rfl), .nil⟩
    | succ n =>
      obtain ⟨t, ht, path⟩ := (plus_iff w).mpr ⟨n, power⟩
      exact ⟨t, SortedSet.mem_insert.mpr (Or.inr ht), (path_with_finals _).mpr path⟩

end Automaton

end TraceRegex
