import TraceRegex.Automaton.Deterministic
import TraceRegex.Proofs.Cleaning
import TraceRegex.Proofs.InsertHistory
import TraceRegex.Proofs.Simplification

/-! # The subset construction

The rules that leave a set of states are joined by target, and the letters are then divided into
regions by the targets that they enable.  So every letter lies in exactly one region, the one of the
set that it leads to, or in none if it leads nowhere.  Exploring the sets in order of discovery ends
because there are finitely many, and the runs of the resulting automaton follow the sets of states
that a word leads to.
-/

namespace TraceRegex

namespace Automaton

variable {a : Automaton}

/-! ## Following sets of states -/

/-- The states that a letter leads to from those of a set. -/
def follow (a : Automaton) (l : Letter) (s : StateSet) : StateSet := .ofList (a.step l s.toList)

@[simp]
theorem mem_follow {l : Letter} {s : StateSet} {t : Nat} :
    t ∈ a.follow l s ↔ ∃ q ∈ s, a.Step q l t := by
  simp [follow, mem_step]

/-- The states that a word leads to from those of a set. -/
def followWord (a : Automaton) (w : Word) (s : StateSet) : StateSet :=
  w.foldl (fun s l => a.follow l s) s

theorem followWord_cons (a : Automaton) (l : Letter) (w : Word) (s : StateSet) :
    a.followWord (l :: w) s = a.followWord w (a.follow l s) := rfl

theorem followWord_concat (a : Automaton) (w : Word) (l : Letter) (s : StateSet) :
    a.followWord (w ++ [l]) s = a.follow l (a.followWord w s) := by
  simp [followWord]

theorem mem_followWord {w : Word} {s : StateSet} {t : Nat} :
    t ∈ a.followWord w s ↔ ∃ q ∈ s, a.Path q w t := by
  induction w generalizing s with
  | nil => simp [followWord, path_nil_iff]
  | cons l w ih =>
    rw [followWord_cons, ih]
    simp only [mem_follow, path_cons_iff]
    constructor
    · rintro ⟨m, ⟨q, hq, first⟩, rest⟩
      exact ⟨q, hq, m, first, rest⟩
    · rintro ⟨q, hq, m, first, rest⟩
      exact ⟨m, ⟨q, hq, first⟩, rest⟩

/-! ## Joining rules by target -/

/-- The groups that `joinGuard` makes. -/
def joined : List (Nat × Formula) → Rule → List (Nat × Formula)
  | [], r => [(r.target, r.guard)]
  | (t, guard) :: rest, r =>
    if t = r.target then (t, .or guard r.guard) :: rest else (t, guard) :: joined rest r

theorem joinGuard_returns (groups : List (Nat × Formula)) (r : Rule) :
    Build.Returns (joinGuard groups r) (joined groups r) := by
  induction groups with
  | nil => exact Build.Returns.pure _
  | cons g rest ih =>
    obtain ⟨t, guard⟩ := g
    unfold joinGuard joined
    by_cases same : t = r.target
    · simp only [if_pos same]
      exact (Build.or_returns _ _).bind (Build.Returns.pure _)
    · simp only [if_neg same]
      exact ih.bind (Build.Returns.pure _)

/-- A group for the target holds under the letter. -/
def Enables (groups : List (Nat × Formula)) (l : Letter) (t : Nat) : Prop :=
  ∃ g ∈ groups, g.2.eval l = true ∧ g.1 = t

theorem enables_cons {g : Nat × Formula} {groups : List (Nat × Formula)} {l : Letter} {t : Nat} :
    Enables (g :: groups) l t ↔ (g.2.eval l = true ∧ g.1 = t) ∨ Enables groups l t := by
  simp [Enables]

theorem enables_joined {groups : List (Nat × Formula)} {r : Rule} {l : Letter} {t : Nat} :
    Enables (joined groups r) l t ↔
      Enables groups l t ∨ (r.guard.eval l = true ∧ r.target = t) := by
  induction groups with
  | nil => simp [joined, Enables]
  | cons g rest ih =>
    obtain ⟨t', guard⟩ := g
    unfold joined
    split
    · next same =>
      simp only [enables_cons, Formula.eval, Bool.or_eq_true, same]
      grind
    · simp only [enables_cons, ih, or_assoc]

theorem varCount_joined_le {groups : List (Nat × Formula)} {r : Rule} {n : Nat}
    (h : ∀ g ∈ groups, g.2.varCount ≤ n) (hr : r.guard.varCount ≤ n) :
    ∀ g ∈ joined groups r, g.2.varCount ≤ n := by
  induction groups with
  | nil =>
    intro g hg
    rw [List.mem_singleton.mp hg]
    exact hr
  | cons g rest ih =>
    obtain ⟨t, guard⟩ := g
    have first : guard.varCount ≤ n := h _ List.mem_cons_self
    have others : ∀ g ∈ rest, g.2.varCount ≤ n := fun g hg => h g (List.mem_cons_of_mem _ hg)
    intro g hg
    unfold joined at hg
    split at hg
    · rcases List.mem_cons.mp hg with rfl | hg
      · exact Nat.max_le.mpr ⟨first, hr⟩
      · exact others g hg
    · rcases List.mem_cons.mp hg with rfl | hg
      · exact first
      · exact ih others g hg

/-- The groups of a list of rules. -/
def groupsOf (rules : List Rule) : List (Nat × Formula) := rules.foldl joined []

theorem enables_groupsOf {rules : List Rule} {l : Letter} {t : Nat} :
    Enables (groupsOf rules) l t ↔ ∃ r ∈ rules, r.guard.eval l = true ∧ r.target = t := by
  have folded : ∀ groups, Enables (rules.foldl joined groups) l t ↔
      Enables groups l t ∨ ∃ r ∈ rules, r.guard.eval l = true ∧ r.target = t := by
    induction rules with
    | nil => simp
    | cons r rules ih =>
      intro groups
      rw [List.foldl_cons, ih, enables_joined, or_assoc]
      simp
  rw [groupsOf, folded]
  simp [Enables]

theorem varCount_groupsOf_le {rules : List Rule} {n : Nat}
    (h : ∀ r ∈ rules, r.guard.varCount ≤ n) : ∀ g ∈ groupsOf rules, g.2.varCount ≤ n := by
  have folded : ∀ groups : List (Nat × Formula), (∀ g ∈ groups, g.2.varCount ≤ n) →
      ∀ g ∈ rules.foldl joined groups, g.2.varCount ≤ n := by
    induction rules with
    | nil => exact fun groups hgroups => hgroups
    | cons r rules ih =>
      intro groups hgroups
      exact ih (fun r hr => h r (List.mem_cons_of_mem _ hr)) _
        (varCount_joined_le hgroups (h r List.mem_cons_self))
  exact folded [] fun g hg => absurd hg List.not_mem_nil

theorem mem_map_fst_joined {groups : List (Nat × Formula)} {r : Rule} {t : Nat} :
    t ∈ (joined groups r).map Prod.fst ↔ t ∈ groups.map Prod.fst ∨ t = r.target := by
  induction groups with
  | nil => simp [joined]
  | cons g rest ih =>
    unfold joined
    by_cases same : g.1 = r.target
    · simp only [List.map_cons, List.mem_cons, ← same]
      grind
    · simp only [if_neg same, List.map_cons, List.mem_cons, ih, or_assoc]

theorem nodup_groupsOf (rules : List Rule) : ((groupsOf rules).map Prod.fst).Nodup := by
  have one : ∀ (groups : List (Nat × Formula)) (r : Rule), (groups.map Prod.fst).Nodup →
      ((joined groups r).map Prod.fst).Nodup := by
    intro groups r nodup
    induction groups with
    | nil => simp [joined]
    | cons g rest ih =>
      obtain ⟨absent, nodup⟩ := List.nodup_cons.mp nodup
      unfold joined
      by_cases same : g.1 = r.target
      · simp only [if_pos same, List.map_cons]
        exact List.nodup_cons.mpr ⟨absent, nodup⟩
      · simp only [if_neg same, List.map_cons]
        refine List.nodup_cons.mpr ⟨fun mem => ?_, ih nodup⟩
        exact (mem_map_fst_joined.mp mem).elim absent same
  have folded : ∀ groups : List (Nat × Formula), (groups.map Prod.fst).Nodup →
      ((rules.foldl joined groups).map Prod.fst).Nodup := by
    induction rules with
    | nil => exact fun groups nodup => nodup
    | cons r rules ih => exact fun groups nodup => ih _ (one groups r nodup)
  exact folded [] List.nodup_nil

/-! ## Regions -/

/-- The given set with the targets that a letter enables. -/
def gather (l : Letter) (enabled : StateSet) (groups : List (Nat × Formula)) : StateSet :=
  groups.foldl (fun s g => if g.2.eval l then s.insert g.1 else s) enabled

theorem mem_gather {l : Letter} {enabled : StateSet} {groups : List (Nat × Formula)} {t : Nat} :
    t ∈ gather l enabled groups ↔ t ∈ enabled ∨ Enables groups l t := by
  induction groups generalizing enabled with
  | nil => simp [gather, Enables]
  | cons g rest ih =>
    have unfolded : gather l enabled (g :: rest) =
        gather l (if g.2.eval l then enabled.insert g.1 else enabled) rest := rfl
    rw [unfolded, ih, enables_cons]
    split
    · next h =>
      simp only [SortedSet.mem_insert, h, true_and]
      grind
    · next h => simp [h]

/-- The sets of the regions that a letter lies in. -/
def setsAt (regions : List (Formula × StateSet)) (l : Letter) : List StateSet :=
  (regions.filter (·.1.eval l)).map Prod.snd

theorem setsAt_append (rs rs' : List (Formula × StateSet)) (l : Letter) :
    setsAt (rs ++ rs') l = setsAt rs l ++ setsAt rs' l := by
  simp [setsAt]

/-- What the regions below a formula achieve: a letter that satisfies the formula and enables a
    target lies in one region, the one of the targets that it enables; other letters lie in none. -/
structure Regional (upper : Formula) (enabled : StateSet) (groups : List (Nat × Formula))
    (regions : List (Formula × StateSet)) : Prop where
  sets_at : ∀ l, setsAt regions l =
    if upper.eval l = true ∧ (gather l enabled groups).isEmpty = false then
      [gather l enabled groups] else []
  satisfiable : ∀ p ∈ regions, ∃ l, p.1.eval l = true
  varCount_le : ∀ n, upper.varCount ≤ n → (∀ g ∈ groups, g.2.varCount ≤ n) →
    ∀ p ∈ regions, p.1.varCount ≤ n
  distinct : (groups.map Prod.fst).Nodup → (∀ g ∈ groups, ¬g.1 ∈ enabled) →
    (regions.map Prod.snd).Nodup

theorem regional_of_unsatisfiable {upper : Formula} {enabled : StateSet}
    {groups : List (Nat × Formula)} (h : upper.satisfiable = false) :
    Regional upper enabled groups [] := by
  have none : ∀ l, ¬upper.eval l = true := by
    intro l hl
    rw [Formula.satisfiable_iff.mpr ⟨l, hl⟩] at h
    cases h
  exact ⟨fun l => by simp [setsAt, none l], by simp, by simp, by simp⟩

/-- A region belongs to the targets that one of its letters enables. -/
theorem Regional.exists_letter {upper : Formula} {enabled : StateSet}
    {groups : List (Nat × Formula)} {regions : List (Formula × StateSet)}
    (h : Regional upper enabled groups regions) {p : Formula × StateSet} (hp : p ∈ regions) :
    ∃ l, p.2 = gather l enabled groups := by
  obtain ⟨l, hl⟩ := h.satisfiable p hp
  have inside : p.2 ∈ setsAt regions l :=
    List.mem_map.mpr ⟨p, List.mem_filter.mpr ⟨hp, hl⟩, rfl⟩
  rw [h.sets_at] at inside
  split at inside
  · exact ⟨l, List.mem_singleton.mp inside⟩
  · cases inside

theorem regions_returns (upper : Formula) (enabled : StateSet) (groups : List (Nat × Formula))
    (h : upper.satisfiable = true) :
    ∃ rs, Build.Returns (regions upper enabled groups) rs ∧ Regional upper enabled groups rs := by
  induction groups generalizing upper enabled with
  | nil =>
    unfold regions
    split
    · next none =>
      refine ⟨[], Build.Returns.pure _, fun l => ?_, by simp, by simp, by simp⟩
      simp [setsAt, gather, none]
    · next some =>
      have restates := Build.restates_simplify upper
      refine ⟨_, (Build.simplify_steady upper).bind (Build.Returns.pure _), fun l => ?_, ?_, ?_,
        by simp⟩
      · cases hl : upper.eval l with
        | true => simp [setsAt, gather, some, restates.eval_eq l, hl]
        | false => simp [setsAt, restates.eval_eq l, hl]
      · intro p hp
        obtain ⟨l, hl⟩ := Formula.satisfiable_iff.mp h
        exact ⟨l, by rw [List.mem_singleton.mp hp, restates.eval_eq l, hl]⟩
      · intro n bound _ p hp
        rw [List.mem_singleton.mp hp]
        exact Nat.le_trans restates.varCount_le bound
  | cons g rest ih =>
    obtain ⟨target, guard⟩ := g
    -- one side at a time: a side without letters has no regions
    have side : ∀ (f : Formula) (enabled : StateSet), ∃ rs, Build.Returns
        (if f.satisfiable then regions f enabled rest else pure []) rs ∧
        Regional f enabled rest rs := by
      intro f enabled
      split
      · next some => exact ih f enabled some
      · next none =>
        exact ⟨[], Build.Returns.pure _, regional_of_unsatisfiable (Bool.eq_false_iff.mpr none)⟩
    obtain ⟨inside, insideReturned, insideRegional⟩ :=
      side (.and upper guard) (enabled.insert target)
    obtain ⟨outside, outsideReturned, outsideRegional⟩ := side (.and upper (.not guard)) enabled
    refine ⟨inside ++ outside, ?_, fun l => ?_, ?_, ?_, ?_⟩
    · refine (Build.and_returns _ _).bind ((Build.not_returns _).bind
        ((Build.and_returns _ _).bind ?_))
      refine (Build.sat_returns _).bind (insideReturned.branch ?_)
      exact (Build.sat_returns _).bind (outsideReturned.branch (Build.Returns.pure _))
    · have unfolded : gather l enabled ((target, guard) :: rest) =
          gather l (if guard.eval l then enabled.insert target else enabled) rest := rfl
      -- the guard decides on which side the letter is, and the other side has no region for it
      rw [setsAt_append, insideRegional.sets_at, outsideRegional.sets_at, unfolded]
      cases hg : guard.eval l with
      | true => simp [Formula.eval, hg]
      | false => simp [Formula.eval, hg]
    · intro p hp
      exact (List.mem_append.mp hp).elim (insideRegional.satisfiable p)
        (outsideRegional.satisfiable p)
    · intro n bound bounds p hp
      have first : guard.varCount ≤ n := bounds _ List.mem_cons_self
      have others : ∀ g ∈ rest, g.2.varCount ≤ n := fun g hg => bounds g (List.mem_cons_of_mem _ hg)
      have both := Nat.max_le.mpr ⟨bound, first⟩
      exact (List.mem_append.mp hp).elim (insideRegional.varCount_le n both others p)
        (outsideRegional.varCount_le n both others p)
    · intro nodup fresh
      obtain ⟨absent, nodup⟩ := List.nodup_cons.mp nodup
      have missing : ¬target ∈ enabled := fresh _ List.mem_cons_self
      have others : ∀ g ∈ rest, ¬g.1 ∈ enabled := fun g hg => fresh g (List.mem_cons_of_mem _ hg)
      have beside : ∀ g ∈ rest, ¬g.1 ∈ enabled.insert target := by
        intro g hg mem
        cases SortedSet.mem_insert.mp mem with
        | inl same => exact absent (List.mem_map.mpr ⟨g, hg, same⟩)
        | inr old => exact others g hg old
      rw [List.map_append, List.nodup_append]
      refine ⟨insideRegional.distinct nodup beside, outsideRegional.distinct nodup others, ?_⟩
      -- the target is in every set on the one side and in none on the other
      intro x hx y hy same
      obtain ⟨p, hp, rfl⟩ := List.mem_map.mp hx
      obtain ⟨p', hp', rfl⟩ := List.mem_map.mp hy
      obtain ⟨l, found⟩ := insideRegional.exists_letter hp
      obtain ⟨l', found'⟩ := outsideRegional.exists_letter hp'
      have mem : target ∈ p.2 := by
        rw [found, mem_gather]
        exact Or.inl (SortedSet.mem_insert.mpr (Or.inl rfl))
      rw [same, found', mem_gather] at mem
      cases mem with
      | inl old => exact missing old
      | inr enables =>
        obtain ⟨g, hg, -, place⟩ := enables
        exact absent (List.mem_map.mpr ⟨g, hg, place⟩)

/-- What the regions of the letters that leave a set of states achieve. -/
structure Covers (a : Automaton) (s : StateSet) (regions : List (Formula × StateSet)) : Prop where
  sets_at : ∀ l, setsAt regions l = if (a.follow l s).isEmpty then [] else [a.follow l s]
  satisfiable : ∀ p ∈ regions, ∃ l, p.1.eval l = true
  varCount_le : a.Valid → ∀ p ∈ regions, p.1.varCount ≤ a.atomCount
  distinct : (regions.map Prod.snd).Nodup

theorem regionsFrom_returns (a : Automaton) (s : StateSet) :
    ∃ rs, Build.Returns (a.regionsFrom s) rs ∧ a.Covers s rs := by
  obtain ⟨rs, returned, regional⟩ := regions_returns (.const true) ∅
    (groupsOf (s.toList.flatMap a.rulesFrom)) (Formula.satisfiable_iff.mpr ⟨default, rfl⟩)
  have gathered : ∀ l, gather l ∅ (groupsOf (s.toList.flatMap a.rulesFrom)) = a.follow l s := by
    intro l
    refine SortedSet.ext_mem fun t => ?_
    simp only [mem_gather, enables_groupsOf, mem_follow, Step, List.mem_flatMap,
      SortedSet.mem_toList, SortedSet.not_mem_empty, false_or]
    constructor
    · rintro ⟨r, ⟨q, hq, hr⟩, enabled⟩
      exact ⟨q, hq, r, hr, enabled⟩
    · rintro ⟨q, hq, r, hr, enabled⟩
      exact ⟨r, ⟨q, hq, hr⟩, enabled⟩
  refine ⟨rs, ?_, fun l => ?_, regional.satisfiable, fun ha => ?_,
    regional.distinct (nodup_groupsOf _) fun g _ => SortedSet.not_mem_empty g.1⟩
  · exact (Build.Returns.foldlM fun groups r _ => joinGuard_returns groups r).bind returned
  · rw [regional.sets_at, gathered]
    cases (a.follow l s).isEmpty with
    | true => simp
    | false => simp [Formula.eval]
  · refine regional.varCount_le a.atomCount (Nat.zero_le _) (varCount_groupsOf_le fun r hr => ?_)
    obtain ⟨q, -, hr⟩ := List.mem_flatMap.mp hr
    obtain ⟨rules, hrules, hr⟩ := mem_transitions_of_mem_rulesFrom hr
    exact ha.varCount_le rules hrules r hr

theorem regionsFrom_steady (a : Automaton) (s : StateSet) : Build.Steady (a.regionsFrom s) := by
  obtain ⟨rs, returned, -⟩ := regionsFrom_returns a s
  exact returned.steady

theorem covers_regionsFrom (a : Automaton) (s : StateSet) :
    a.Covers s (a.regionsFrom s).result := by
  obtain ⟨rs, returned, covers⟩ := regionsFrom_returns a s
  exact returned.result_eq ▸ covers

/-- Each region belongs to a set that some letter leads to. -/
theorem Covers.exists_letter {s : StateSet} {regions : List (Formula × StateSet)}
    (h : a.Covers s regions) {p : Formula × StateSet} (hp : p ∈ regions) :
    ∃ l, a.follow l s = p.2 ∧ p.2.isEmpty = false := by
  obtain ⟨l, hl⟩ := h.satisfiable p hp
  have inside : p.2 ∈ setsAt regions l :=
    List.mem_map.mpr ⟨p, List.mem_filter.mpr ⟨hp, hl⟩, rfl⟩
  rw [h.sets_at] at inside
  cases none : (a.follow l s).isEmpty with
  | true => simp [none] at inside
  | false =>
    have same : p.2 = a.follow l s := by simpa [none] using inside
    exact ⟨l, same.symm, same ▸ none⟩

theorem Covers.exists_region {s : StateSet} {regions : List (Formula × StateSet)}
    (h : a.Covers s regions) {l : Letter} (some : (a.follow l s).isEmpty = false) :
    ∃ p ∈ regions, p.2 = a.follow l s := by
  have inside : a.follow l s ∈ setsAt regions l := by simp [h.sets_at, some]
  obtain ⟨p, hp, same⟩ := List.mem_map.mp inside
  exact ⟨p, (List.mem_filter.mp hp).1, same⟩

/-! ## Numbering sets -/

/-- The rules for regions whose sets have their places in a list. -/
def rulesBy (sets : List StateSet) (regions : List (Formula × StateSet)) : List Rule :=
  regions.map fun p => ⟨p.1, sets.idxOf p.2⟩

/-- In a longer list, what was there stays where it was. -/
theorem idxOf_of_isPrefix {sets sets' : List StateSet} (h : sets <+: sets') {s : StateSet}
    (hs : s ∈ sets) : sets'.idxOf s = sets.idxOf s := by
  obtain ⟨new, rfl⟩ := h
  rw [List.idxOf_append, if_pos hs]

theorem rulesBy_of_isPrefix {sets sets' : List StateSet} (h : sets <+: sets')
    {regions : List (Formula × StateSet)} (hs : ∀ p ∈ regions, p.2 ∈ sets) :
    rulesBy sets' regions = rulesBy sets regions :=
  List.map_congr_left fun p hp => by rw [idxOf_of_isPrefix h (hs p hp)]

theorem idxOf?_concat (sets : List StateSet) (x y : StateSet) :
    (sets ++ [x]).idxOf? y = (sets.idxOf? y).or (if x = y then some sets.length else none) := by
  unfold List.idxOf?
  rw [List.findIdx?_append, List.findIdx?_singleton]
  by_cases same : x = y
  · simp [same]
  · simp [same]

/-- Rows of bits tell sets of states apart. -/
theorem rows_beq_iff {x y : StateSet} :
    (BitSet.ofMembers x.toList == BitSet.ofMembers y.toList) = true ↔ x = y := by
  rw [BitSet.beq_iff_contains]
  constructor
  · intro same
    apply SortedSet.ext_mem
    intro q
    have bits := same q
    rw [BitSet.contains_ofMembers, BitSet.contains_ofMembers, Bool.eq_iff_iff,
      List.contains_iff_mem, List.contains_iff_mem] at bits
    exact bits
  · rintro rfl q
    rfl

namespace Numbering

variable {n : Numbering}

/-- The map has the numbers of the listed sets, and no others. -/
def Known (n : Numbering) : Prop :=
  ∀ x : StateSet, n.ids.get? (BitSet.ofMembers x.toList) = n.sets.idxOf? x

theorem known_empty : empty.Known := by
  intro x
  simp [empty, BucketMap.empty, BucketMap.get?, BucketMap.bucketOf, BucketMap.find?]

/-- A set has a number already, or it gets the next one. -/
theorem number_cases (known : n.Known) (nodup : n.sets.Nodup) (x : StateSet) :
    (x ∈ n.sets ∧ n.number x = (n.sets.idxOf x, n)) ∨
      (¬x ∈ n.sets ∧ ∃ n' : Numbering, n.number x = (n.sets.length, n') ∧ n'.sets = n.sets ++ [x] ∧
        n'.Known) := by
  unfold number
  dsimp only
  rw [known x]
  split
  · next i found =>
    obtain ⟨hi, stands, -⟩ := List.idxOf?_eq_some_iff.mp found
    have hx : x ∈ n.sets := stands ▸ List.getElem_mem hi
    have place : n.sets.idxOf x = i :=
      (idxOf_eq_iff nodup hx).mpr (stands ▸ List.getElem?_eq_getElem hi)
    exact Or.inl ⟨hx, by rw [place]⟩
  · next missing =>
    refine Or.inr ⟨List.idxOf?_eq_none_iff.mp missing, _, rfl, rfl, fun y => ?_⟩
    have absent := List.idxOf?_eq_none_iff.mp missing
    dsimp only
    rw [BucketMap.get?_insert, known y]
    by_cases same : y = x
    · subst same
      rw [if_pos (rows_beq_iff.mpr rfl)]
      rw [idxOf?_concat, missing, if_pos rfl]
      rfl
    · rw [if_neg fun equal => same (rows_beq_iff.mp equal)]
      rw [idxOf?_concat, if_neg (Ne.symm same), Option.or_none]

end Numbering

/-- How a numbering grows when regions are turned into rules. -/
structure Numbered (sets : List StateSet) (regions : List (Formula × StateSet))
    (numbered : List Rule × Numbering) : Prop where
  isPrefix : sets <+: numbered.2.sets
  known : numbered.2.Known
  nodup : numbered.2.sets.Nodup
  mem : ∀ p ∈ regions, p.2 ∈ numbered.2.sets
  origin : ∀ s ∈ numbered.2.sets, s ∈ sets ∨ ∃ p ∈ regions, p.2 = s
  rules_eq : numbered.1 = rulesBy numbered.2.sets regions

theorem numbered_rules {n : Numbering} (known : n.Known) (nodup : n.sets.Nodup)
    (regions : List (Formula × StateSet)) : Numbered n.sets regions (n.rules regions) := by
  induction regions generalizing n with
  | nil => exact ⟨List.prefix_rfl, known, nodup, by simp, fun s hs => Or.inl hs, rfl⟩
  | cons p rest ih =>
    obtain ⟨guard, s⟩ := p
    -- the first set has its place, and the rest is numbered after it
    have first : ∃ n' : Numbering, n.number s = (n'.sets.idxOf s, n') ∧ n.sets <+: n'.sets ∧
        n'.Known ∧ n'.sets.Nodup ∧ s ∈ n'.sets ∧ ∀ x ∈ n'.sets, x ∈ n.sets ∨ x = s := by
      rcases n.number_cases known nodup s with ⟨hs, numbered⟩ | ⟨hs, n', numbered, grown, known'⟩
      · exact ⟨n, numbered, List.prefix_rfl, known, nodup, hs, fun x hx => Or.inl hx⟩
      · refine ⟨n', ?_, grown ▸ List.prefix_append _ _, known', ?_, by simp [grown],
          by simp [grown]⟩
        · simpa [grown, List.idxOf_append, hs] using numbered
        · rw [grown]
          refine List.nodup_append.mpr
            ⟨nodup, List.pairwise_singleton _ _, fun x hx y hy same => ?_⟩
          rw [same, List.mem_singleton.mp hy] at hx
          exact hs hx
    obtain ⟨n', numbered, isPrefix, known', nodup', hs, origin⟩ := first
    have later := ih known' nodup'
    have unfolded : n.rules ((guard, s) :: rest) =
        (⟨guard, n'.sets.idxOf s⟩ :: (n'.rules rest).1, (n'.rules rest).2) := by
      rw [Numbering.rules, numbered]
    rw [unfolded]
    refine ⟨isPrefix.trans later.isPrefix, later.known, later.nodup, ?_, ?_, ?_⟩
    · intro p hp
      rcases List.mem_cons.mp hp with rfl | hp
      · exact later.isPrefix.subset hs
      · exact later.mem p hp
    · intro x hx
      rcases later.origin x hx with hx | ⟨p, hp, same⟩
      · rcases origin x hx with hx | rfl
        · exact Or.inl hx
        · exact Or.inr ⟨_, List.mem_cons_self, rfl⟩
      · exact Or.inr ⟨p, List.mem_cons_of_mem _ hp, same⟩
    · have place := idxOf_of_isPrefix later.isPrefix hs
      rw [later.rules_eq, ← place]
      rfl

/-! ## Counting sets -/

/-- The sets of states below `n`. -/
def subsetsBelow : Nat → List StateSet
  | 0 => [∅]
  | n + 1 => subsetsBelow n ++ (subsetsBelow n).map (·.insert n)

theorem length_subsetsBelow (n : Nat) : (subsetsBelow n).length = Nat.pow 2 n := by
  induction n with
  | zero => rfl
  | succ n ih =>
    rw [subsetsBelow, List.length_append, List.length_map, ih]
    show _ = Nat.pow 2 n * 2
    omega

theorem mem_subsetsBelow {n : Nat} {s : StateSet} (h : ∀ q ∈ s, q < n) : s ∈ subsetsBelow n := by
  induction n generalizing s with
  | zero =>
    have : s = ∅ := SortedSet.ext_mem fun q =>
      iff_of_false (fun hq => absurd (h q hq) (Nat.not_lt_zero q)) (SortedSet.not_mem_empty q)
    simp [subsetsBelow, this]
  | succ n ih =>
    rw [subsetsBelow, List.mem_append, List.mem_map]
    -- a set with the last state is another one with that state put in
    by_cases last : n ∈ s
    · refine Or.inr ⟨s.difference (.singleton n), ih fun q hq => ?_, SortedSet.ext_mem fun q => ?_⟩
      · obtain ⟨hq, other⟩ := SortedSet.mem_difference.mp hq
        have := h q hq
        have : ¬q = n := fun same => other (SortedSet.mem_singleton.mpr same)
        omega
      · simp only [SortedSet.mem_insert, SortedSet.mem_difference, SortedSet.mem_singleton]
        by_cases same : q = n
        · simp [same, last]
        · simp [same]
    · refine Or.inl (ih fun q hq => ?_)
      have := h q hq
      have : ¬q = n := fun same => last (same ▸ hq)
      omega

theorem length_le_of_subsets {n : Nat} {sets : List StateSet} (nodup : sets.Nodup)
    (h : ∀ s ∈ sets, ∀ q ∈ s, q < n) : sets.length ≤ Nat.pow 2 n := by
  rw [← length_subsetsBelow]
  exact nodup.length_le_of_subset fun s hs => mem_subsetsBelow (h s hs)

/-! ## Exploring sets -/

/-- What holds at every stage of the exploration: the sets found so far are reached by words, and
    those that were explored have their rules. -/
structure Subsets.Sound (a : Automaton) (s : Subsets) : Prop where
  known : s.Known
  nodup : s.sets.Nodup
  first : s.sets.head? = some (.singleton a.initial)
  nonempty : ∀ x ∈ s.sets, x.isEmpty = false
  reached : ∀ x ∈ s.sets, ∃ w, a.followWord w (.singleton a.initial) = x
  length_le : s.transitions.length ≤ s.sets.length
  transitions_eq : s.transitions =
    (s.sets.take s.transitions.length).map fun x => rulesBy s.sets (a.regionsFrom x).result
  closed : ∀ x ∈ s.sets.take s.transitions.length, ∀ p ∈ (a.regionsFrom x).result, p.2 ∈ s.sets

theorem sound_start (a : Automaton) : (Subsets.start a.initial).Sound a := by
  have fresh : ¬SortedSet.singleton a.initial ∈ Numbering.empty.sets := List.not_mem_nil
  obtain ⟨n, numbered, sets, known⟩ :=
    (Numbering.empty.number_cases Numbering.known_empty .nil (.singleton a.initial)).elim
      (fun old => absurd old.1 fresh) And.right
  have start : Subsets.start a.initial = ⟨n, []⟩ := by rw [Subsets.start, numbered]
  replace sets : n.sets = [.singleton a.initial] := sets
  rw [start]
  constructor
  · exact known
  · simp [sets]
  · simp [sets]
  · intro x hx
    replace hx : x ∈ n.sets := hx
    rw [sets, List.mem_singleton] at hx
    rw [hx]
    rfl
  · intro x hx
    replace hx : x ∈ n.sets := hx
    rw [sets, List.mem_singleton] at hx
    exact ⟨[], hx.symm⟩
  · exact Nat.zero_le _
  · rfl
  · exact fun x hx => absurd hx List.not_mem_nil

/-- Exploring one more set. -/
theorem Subsets.Sound.step {s : Subsets} (h : s.Sound a) {x : StateSet}
    (hx : s.sets[s.transitions.length]? = some x) :
    (s.expand (a.regionsFrom x).result).Sound a := by
  have new := numbered_rules h.known h.nodup (a.regionsFrom x).result
  unfold Subsets.expand
  generalize s.rules (a.regionsFrom x).result = numbered at new ⊢
  obtain ⟨hlt, stands⟩ := List.getElem?_eq_some_iff.mp hx
  have mem : x ∈ s.sets := stands ▸ List.getElem_mem hlt
  have covers := covers_regionsFrom a x
  -- a set that is new is reached by one more letter
  have origin : ∀ y ∈ numbered.2.sets, y ∈ s.sets ∨ ∃ l, a.follow l x = y ∧ y.isEmpty = false := by
    intro y hy
    rcases new.origin y hy with hy | ⟨p, hp, rfl⟩
    · exact Or.inl hy
    · exact Or.inr (covers.exists_letter hp)
  -- the sets that have been explored, with the one at hand
  have explored : numbered.2.sets.take (s.transitions.length + 1) =
      s.sets.take s.transitions.length ++ [x] := by
    obtain ⟨more, grown⟩ := new.isPrefix
    rw [← grown, List.take_append_of_le_length hlt, ← List.take_append_getElem hlt, stands]
  have length : (s.transitions ++ [numbered.1]).length = s.transitions.length + 1 := by simp
  refine ⟨new.known, new.nodup, ?_, ?_, ?_, ?_, ?_, ?_⟩
  · obtain ⟨more, grown⟩ := new.isPrefix
    rw [← grown, List.head?_append, h.first]
    rfl
  · intro y hy
    rcases origin y hy with hy | ⟨l, -, some⟩
    · exact h.nonempty y hy
    · exact some
  · intro y hy
    rcases origin y hy with hy | ⟨l, rfl, -⟩
    · exact h.reached y hy
    · obtain ⟨w, rfl⟩ := h.reached x mem
      exact ⟨w ++ [l], a.followWord_concat w l _⟩
  · show (s.transitions ++ [numbered.1]).length ≤ numbered.2.sets.length
    rw [length]
    exact Nat.le_trans hlt new.isPrefix.length_le
  · -- the earlier rules keep their targets, since sets are only added at the end
    have before : (s.sets.take s.transitions.length).map
        (fun x => rulesBy numbered.2.sets (a.regionsFrom x).result) = s.transitions := by
      rw [List.map_congr_left fun y hy => rulesBy_of_isPrefix new.isPrefix (h.closed y hy)]
      exact h.transitions_eq.symm
    show s.transitions ++ [numbered.1] =
      (numbered.2.sets.take (s.transitions ++ [numbered.1]).length).map
        fun x => rulesBy numbered.2.sets (a.regionsFrom x).result
    rw [length, explored, List.map_append, before, List.map_singleton, ← new.rules_eq]
  · intro y hy p hp
    replace hy : y ∈ s.sets.take s.transitions.length ++ [x] := by
      rw [← explored, ← length]
      exact hy
    rcases List.mem_append.mp hy with hy | hy
    · exact new.isPrefix.subset (h.closed y hy p hp)
    · rw [List.mem_singleton.mp hy] at hp
      exact new.mem p hp

/-- All sets have been explored. -/
structure Subsets.Complete (a : Automaton) (s : Subsets) : Prop extends Subsets.Sound a s where
  length_eq : s.transitions.length = s.sets.length

theorem Subsets.Sound.lt_stateCount {s : Subsets} (h : s.Sound a) (ha : a.Valid) {x : StateSet}
    (hx : x ∈ s.sets) {q : Nat} (hq : q ∈ x) : q < a.stateCount := by
  obtain ⟨w, rfl⟩ := h.reached x hx
  obtain ⟨q', hq', path⟩ := mem_followWord.mp hq
  rw [SortedSet.mem_singleton.mp hq'] at path
  exact ha.path_lt path ha.initial_lt

/-- Exploring the sets that wait until none is left, with no bound on the rounds. -/
inductive Subsets.Explores (a : Automaton) : Subsets → Subsets → Prop where
  | done {s : Subsets} (empty : s.sets[s.transitions.length]? = none) : Explores a s s
  | expand {s s' : Subsets} {x : StateSet} {regions : List (Formula × StateSet)}
      (next : s.sets[s.transitions.length]? = some x)
      (divided : Build.Returns (a.regionsFrom x) regions)
      (rest : Explores a (s.expand regions) s') : Explores a s s'

/-- As many rounds as there are sets of states are enough, since each round explores one. -/
theorem explore_returns (ha : a.Valid) (rounds : Nat) (s : Subsets) (h : s.Sound a)
    (enough : Nat.pow 2 a.stateCount ≤ rounds + s.transitions.length) :
    ∃ s', Build.Returns (Subsets.explore a rounds s) s' ∧ s'.Complete a ∧ s.Explores a s' := by
  induction rounds generalizing s with
  | zero =>
    -- as many sets have been explored as there can be, so none is left
    have := length_le_of_subsets h.nodup fun x hx q hq => h.lt_stateCount ha hx hq
    have := h.length_le
    refine ⟨s, Build.Returns.pure s, ⟨h, by omega⟩, .done ?_⟩
    rw [List.getElem?_eq_none_iff]
    omega
  | succ rounds ih =>
    unfold Subsets.explore
    cases hx : s.sets[s.transitions.length]? with
    | none =>
      have := List.getElem?_eq_none_iff.mp hx
      have := h.length_le
      exact ⟨s, Build.Returns.pure s, ⟨h, by omega⟩, .done hx⟩
    | some x =>
      have one : (s.expand (a.regionsFrom x).result).transitions.length =
          s.transitions.length + 1 := by simp [Subsets.expand]
      obtain ⟨s', returned, complete, explores⟩ := ih _ (h.step hx) (by rw [one]; omega)
      exact ⟨s', (regionsFrom_steady a x).bind returned, complete,
        .expand hx (regionsFrom_steady a x) explores⟩

theorem determinize_returns (ha : a.Valid) : ∃ s : Subsets, s.Complete a ∧
    (Subsets.start a.initial).Explores a s ∧
    Build.Returns a.determinize (s.toAutomaton a.atomCount a.finals.toList) := by
  obtain ⟨s, returned, complete, explores⟩ :=
    explore_returns ha (Nat.pow 2 a.stateCount) _ (sound_start a) (Nat.le_add_right _ _)
  exact ⟨s, complete, explores, returned.bind (Build.Returns.pure _)⟩

/-! ## The automaton of the sets -/

theorem isEmpty_followWord {w : Word} {s : StateSet} (h : s.isEmpty = true) :
    (a.followWord w s).isEmpty = true := by
  rw [SortedSet.isEmpty_iff] at h ⊢
  intro t ht
  obtain ⟨q, hq, -⟩ := mem_followWord.mp ht
  exact h q hq

namespace Subsets.Complete

variable {s : Subsets} {n : Nat} {finals : List Nat}

theorem rulesFrom_eq (h : s.Complete a) (n : Nat) (finals : List Nat) {x : StateSet}
    (hx : x ∈ s.sets) :
    (s.toAutomaton n finals).rulesFrom (s.sets.idxOf x) =
      rulesBy s.sets (a.regionsFrom x).result := by
  have stands := (idxOf_eq_iff h.nodup hx).mp rfl
  have explored : s.transitions = s.sets.map fun x => rulesBy s.sets (a.regionsFrom x).result := by
    have := h.transitions_eq
    rwa [h.length_eq, List.take_length] at this
  show s.transitions.getD (s.sets.idxOf x) [] = _
  rw [explored, List.getD_eq_getElem?_getD, List.getElem?_map, stands]
  rfl

theorem region_mem (h : s.Complete a) {x : StateSet} (hx : x ∈ s.sets)
    {p : Formula × StateSet} (hp : p ∈ (a.regionsFrom x).result) : p.2 ∈ s.sets := by
  have explored : x ∈ s.sets.take s.transitions.length := by
    rw [h.length_eq, List.take_length]
    exact hx
  exact h.closed x explored p hp

/-- The set that a letter leads to has been found, if it is not empty. -/
theorem follow_mem (h : s.Complete a) {x : StateSet} (hx : x ∈ s.sets) {l : Letter}
    (some : (a.follow l x).isEmpty = false) : a.follow l x ∈ s.sets := by
  obtain ⟨p, hp, same⟩ := (covers_regionsFrom a x).exists_region some
  exact same ▸ h.region_mem hx hp

theorem targets_eq (h : s.Complete a) (n : Nat) (finals : List Nat) {x : StateSet}
    (hx : x ∈ s.sets) (l : Letter) :
    (s.toAutomaton n finals).targets l (s.sets.idxOf x) =
      if (a.follow l x).isEmpty then [] else [s.sets.idxOf (a.follow l x)] := by
  have places : (s.toAutomaton n finals).targets l (s.sets.idxOf x) =
      (setsAt (a.regionsFrom x).result l).map fun y => s.sets.idxOf y := by
    simp only [targets, h.rulesFrom_eq n finals hx, rulesBy, setsAt, List.filter_map, List.map_map]
    rfl
  rw [places, (covers_regionsFrom a x).sets_at]
  split
  · rfl
  · rfl

theorem step_iff (h : s.Complete a) {x : StateSet} (hx : x ∈ s.sets) {l : Letter} {j : Nat} :
    (s.toAutomaton n finals).Step (s.sets.idxOf x) l j ↔
      (a.follow l x).isEmpty = false ∧ s.sets.idxOf (a.follow l x) = j := by
  rw [← mem_targets, h.targets_eq n finals hx]
  cases (a.follow l x).isEmpty with
  | true => simp
  | false => simp [eq_comm]

theorem followWord_mem (h : s.Complete a) {x : StateSet} (hx : x ∈ s.sets) {w : Word}
    (some : (a.followWord w x).isEmpty = false) : a.followWord w x ∈ s.sets := by
  induction w generalizing x with
  | nil => exact hx
  | cons l w ih =>
    rw [followWord_cons] at some ⊢
    cases next : (a.follow l x).isEmpty with
    | true =>
      rw [isEmpty_followWord next] at some
      cases some
    | false => exact ih (h.follow_mem hx next) some

/-- The automaton is at the place of the set of states that the word leads to. -/
theorem path_iff (h : s.Complete a) {x : StateSet} (hx : x ∈ s.sets) {w : Word} {j : Nat} :
    (s.toAutomaton n finals).Path (s.sets.idxOf x) w j ↔
      (a.followWord w x).isEmpty = false ∧ s.sets.idxOf (a.followWord w x) = j := by
  induction w generalizing x with
  | nil =>
    rw [path_nil_iff]
    exact (and_iff_right (h.nonempty x hx)).symm
  | cons l w ih =>
    simp only [path_cons_iff, h.step_iff hx, followWord_cons]
    cases next : (a.follow l x).isEmpty with
    | true => simp [isEmpty_followWord next]
    | false =>
      simp only [true_and, ← ih (h.follow_mem hx next)]
      constructor
      · rintro ⟨t, rfl, path⟩
        exact path
      · exact fun path => ⟨_, rfl, path⟩

theorem initial_eq (h : s.Complete a) :
    s.sets.idxOf (.singleton a.initial) = 0 ∧ SortedSet.singleton a.initial ∈ s.sets := by
  have first := h.first
  rw [List.head?_eq_getElem?] at first
  have mem := List.mem_of_getElem? first
  exact ⟨(idxOf_eq_iff h.nodup mem).mpr first, mem⟩

theorem mem_finals_iff {x : StateSet} (hx : x ∈ s.sets) :
    s.sets.idxOf x ∈ (s.toAutomaton n finals).finals ↔ ∃ q ∈ finals, q ∈ x := by
  simp [toAutomaton, List.idxOf_lt_length_of_mem hx, SortedSet.contains_iff]

theorem accepts_iff (h : s.Complete a) {w : Word} :
    (s.toAutomaton n a.finals.toList).Accepts w ↔ a.Accepts w := by
  obtain ⟨first, mem⟩ := h.initial_eq
  have runs : ∀ j, (s.toAutomaton n a.finals.toList).Path 0 w j ↔ _ := fun j =>
    first ▸ h.path_iff mem
  constructor
  · rintro ⟨j, hj, path⟩
    obtain ⟨some, rfl⟩ := (runs j).mp path
    obtain ⟨q, final, hq⟩ := (mem_finals_iff (h.followWord_mem mem some)).mp hj
    obtain ⟨q', hq', path⟩ := mem_followWord.mp hq
    rw [SortedSet.mem_singleton.mp hq'] at path
    exact ⟨q, final, path⟩
  · rintro ⟨q, final, path⟩
    have hq : q ∈ a.followWord w (.singleton a.initial) :=
      mem_followWord.mpr ⟨_, SortedSet.mem_singleton.mpr rfl, path⟩
    have some : (a.followWord w (.singleton a.initial)).isEmpty = false := by
      refine Bool.eq_false_iff.mpr fun none => ?_
      exact SortedSet.isEmpty_iff.mp none q hq
    exact ⟨_, (mem_finals_iff (h.followWord_mem mem some)).mpr ⟨q, final, hq⟩,
      (runs _).mpr ⟨some, rfl⟩⟩

/-- Every state of the automaton is the place of a set. -/
theorem exists_set (h : s.Complete a) {i : Nat} (hi : i < s.sets.length) :
    ∃ x ∈ s.sets, s.sets.idxOf x = i :=
  ⟨s.sets[i], List.getElem_mem hi,
    (idxOf_eq_iff h.nodup (List.getElem_mem hi)).mpr (List.getElem?_eq_getElem hi)⟩

theorem mem_transitions (h : s.Complete a) {rules : List Rule}
    (hrules : rules ∈ (s.toAutomaton n finals).transitions) :
    ∃ x ∈ s.sets, rules = rulesBy s.sets (a.regionsFrom x).result := by
  obtain ⟨i, hi, rfl⟩ := List.mem_iff_getElem.mp hrules
  obtain ⟨x, hx, rfl⟩ := h.exists_set (h.length_eq ▸ hi)
  refine ⟨x, hx, ?_⟩
  rw [← h.rulesFrom_eq n finals hx]
  simp [rulesFrom, hi]

theorem valid (h : s.Complete a) (ha : a.Valid) : (s.toAutomaton a.atomCount finals).Valid := by
  obtain ⟨first, mem⟩ := h.initial_eq
  refine ⟨?_, h.length_eq, ?_, ?_, ?_⟩
  · show 0 < s.sets.length
    exact List.length_pos_of_mem mem
  · intro i hi
    have : i ∈ List.range s.sets.length := (List.mem_filter.mp (SortedSet.mem_ofList.mp hi)).1
    exact List.mem_range.mp this
  · intro rules hrules r hr
    obtain ⟨x, hx, rfl⟩ := h.mem_transitions hrules
    obtain ⟨p, hp, rfl⟩ := List.mem_map.mp hr
    exact List.idxOf_lt_length_of_mem (h.region_mem hx hp)
  · intro rules hrules r hr
    obtain ⟨x, hx, rfl⟩ := h.mem_transitions hrules
    obtain ⟨p, hp, rfl⟩ := List.mem_map.mp hr
    exact (covers_regionsFrom a x).varCount_le ha p hp

end Subsets.Complete

/-! ## Determinism -/

/-- A letter enables at most one rule of a state exactly when the rules exclude each other. -/
theorem pairwise_disjoint_iff {rules : List Rule} :
    (rules.Pairwise fun r r' => ∀ l, ¬(r.guard.eval l ∧ r'.guard.eval l)) ↔
      ∀ l, (rules.filter (·.guard.eval l)).length ≤ 1 := by
  constructor
  · intro disjoint l
    have apart := disjoint.filter (·.guard.eval l)
    -- two enabled rules would both hold under the letter
    match enabled : rules.filter (·.guard.eval l) with
    | [] => simp [enabled]
    | [_] => simp [enabled]
    | r :: r' :: _ =>
      rw [enabled] at apart
      have holds : ∀ r ∈ rules.filter (·.guard.eval l), r.guard.eval l = true := fun r hr =>
        (List.mem_filter.mp hr).2
      rw [enabled] at holds
      exact absurd ⟨holds r (by simp), holds r' (by simp)⟩
        ((List.pairwise_cons.mp apart).1 r' (by simp) l)
  · intro single
    rw [List.pairwise_iff_forall_sublist]
    rintro r r' sublist l ⟨hr, hr'⟩
    have two : 2 ≤ (rules.filter (·.guard.eval l)).length := by
      simpa [hr, hr'] using (sublist.filter (·.guard.eval l)).length_le
    exact absurd (Nat.le_trans two (single l)) (by decide)

theorem Deterministic.length_targets_le (h : a.Deterministic) (l : Letter) (q : Nat) :
    (a.targets l q).length ≤ 1 := by
  rw [targets, List.length_map]
  by_cases hq : q < a.transitions.length
  · have mem : a.rulesFrom q ∈ a.transitions := by simp [rulesFrom, hq]
    exact pairwise_disjoint_iff.mp (h _ mem) l
  · have none : a.rulesFrom q = [] := by simp [rulesFrom, List.getD_eq_getElem?_getD, hq]
    simp [none]

/-- In a deterministic automaton a letter leads from a state to at most one. -/
theorem Deterministic.step_unique (h : a.Deterministic) {q t t' : Nat} {l : Letter}
    (step : a.Step q l t) (step' : a.Step q l t') : t = t' := by
  have one := h.length_targets_le l q
  rw [← mem_targets] at step step'
  match targets : a.targets l q with
  | [] => simp [targets] at step
  | [_] =>
    rw [targets, List.mem_singleton] at step step'
    rw [step, step']
  | _ :: _ :: _ => simp [targets] at one

theorem firstTarget?_eq_head? (l : Letter) (q : Nat) :
    a.firstTarget? l q = (a.targets l q).head? := by
  rw [firstTarget?, targets, List.head?_map, List.head?_filter]

theorem classify_singleton (q : Nat) :
    a.classify [q] = if a.isFinal q then .ok else .pending := by
  have final : a.finals.toList.any [q].contains = a.isFinal q := by
    rw [Bool.eq_iff_iff, isFinal, SortedSet.contains_iff]
    simp
  rw [classify, final]
  rfl

theorem Deterministic.evalFirstFrom_eq (h : a.Deterministic) (q : Nat) (w : Word) :
    a.evalFirstFrom q w = a.evalFrom [q] w := by
  induction w generalizing q with
  | nil => exact (classify_singleton q).symm
  | cons l w ih =>
    have one := h.length_targets_le l q
    have step : a.evalFrom [q] (l :: w) = a.evalFrom (a.targets l q).eraseDups w := by
      simp [evalFrom, Automaton.step]
    rw [evalFirstFrom, firstTarget?_eq_head?, step]
    cases targets : a.targets l q with
    | nil =>
      cases w with
      | nil => rfl
      | cons => rfl
    | cons t others =>
      cases others with
      | nil => exact ih t
      | cons => simp [targets] at one

/-- In a deterministic automaton, following the first enabled rule is following all of them. -/
theorem Deterministic.evalFirst_eq_eval (h : a.Deterministic) (w : Word) :
    a.evalFirst w = a.eval w := by
  rw [evalFirst, eval, h.evalFirstFrom_eq]

theorem Subsets.Complete.deterministic {s : Subsets} (h : s.Complete a) {n : Nat}
    {finals : List Nat} : (s.toAutomaton n finals).Deterministic := by
  intro rules hrules
  obtain ⟨x, hx, rfl⟩ := h.mem_transitions hrules
  refine pairwise_disjoint_iff.mpr fun l => ?_
  have targets := h.targets_eq n finals hx l
  have length := congrArg List.length targets
  rw [Automaton.targets, List.length_map, h.rulesFrom_eq n finals hx] at length
  rw [length]
  split
  · simp
  · simp

/-- Making an automaton deterministic changes no verdict if it accepts something, since then a set
    with a final state is found, or if it has no final states at all. -/
theorem Subsets.Complete.eval_toAutomaton {s : Subsets} (h : s.Complete a)
    (hope : (∀ q, ¬q ∈ a.finals) ∨ ∃ w, a.Accepts w) (n : Nat) (w : Word) :
    (s.toAutomaton n a.finals.toList).eval w = a.eval w := by
  obtain ⟨first, mem⟩ := h.initial_eq
  refine eval_eq_of_iff h.accepts_iff ?_
  rw [eval_eq_failed_iff, eval_eq_failed_iff]
  have reached : ∀ t, t ∈ a.followWord w (.singleton a.initial) ↔ a.Path a.initial w t := by
    intro t
    simp [mem_followWord]
  have runs : (∀ j, ¬(s.toAutomaton n a.finals.toList).Path 0 w j) ↔
      ∀ t, ¬a.Path a.initial w t := by
    simp only [← reached, ← SortedSet.isEmpty_iff]
    rw [← first]
    constructor
    · intro none
      refine Bool.of_not_eq_false fun some => ?_
      exact none _ ((h.path_iff mem).mpr ⟨some, rfl⟩)
    · intro empty j path
      rw [((h.path_iff mem).mp path).1] at empty
      cases empty
  have finals : (∀ j, ¬j ∈ (s.toAutomaton n a.finals.toList).finals) ↔ ∀ q, ¬q ∈ a.finals := by
    constructor
    · intro none
      cases hope with
      | inl noFinals => exact noFinals
      | inr accepted =>
        obtain ⟨u, accepted⟩ := accepted
        obtain ⟨j, final, -⟩ := (h.accepts_iff (n := n)).mpr accepted
        exact absurd final (none j)
    · intro none j final
      obtain ⟨x, hx, rfl⟩ := h.exists_set
        (List.mem_range.mp (List.mem_filter.mp (SortedSet.mem_ofList.mp final)).1)
      obtain ⟨q, final', -⟩ := (mem_finals_iff hx).mp final
      exact none q final'
  exact or_congr finals runs

theorem Trim.accepts_of_finals (h : a.Trim) : (∀ q, ¬q ∈ a.finals) ∨ ∃ w, a.Accepts w := by
  cases h.useful with
  | inl useful =>
    obtain ⟨-, w, f, final, path⟩ := useful a.initial h.valid.initial_lt
    exact Or.inr ⟨w, f, final, path⟩
  | inr useless => exact Or.inl useless.2

/-! ## Checking determinism -/

/-- The first two rules of a list that some letter enables both. -/
def overlapOf (rules : List Rule) : Option (Nat × Nat) :=
  rules.zipIdx.findSome? fun p => (rules.zipIdx.drop (p.2 + 1)).findSome? fun p' =>
    if (Formula.and p.1.guard p'.1.guard).satisfiable then some (p.2, p'.2) else none

theorem overlap?_returns (rules : List Rule) : Build.Returns (overlap? rules) (overlapOf rules) :=
  Build.Returns.findSomeM? fun _ _ => Build.Returns.findSomeM? fun _ _ =>
    (Build.and_returns _ _).bind ((Build.sat_returns _).bind (Build.Returns.pure _))

theorem overlapOf_eq_none_iff {rules : List Rule} :
    overlapOf rules = none ↔
      rules.Pairwise fun r r' => ∀ l, ¬(r.guard.eval l ∧ r'.guard.eval l) := by
  have disjoint {r r' : Rule} {found : Nat × Nat} :
      (if (Formula.and r.guard r'.guard).satisfiable then some found else none) = none
        ↔ ∀ l, ¬(r.guard.eval l ∧ r'.guard.eval l) := by
    have sat : (Formula.and r.guard r'.guard).satisfiable = true
        ↔ ∃ l, r.guard.eval l ∧ r'.guard.eval l := by
      rw [Formula.satisfiable_iff]
      exact exists_congr fun l => Bool.and_eq_true_iff
    rw [ite_eq_right_iff, sat, ← not_exists]
    exact ⟨fun h both => absurd (h both) nofun, fun h both => absurd both h⟩
  rw [overlapOf, List.findSome?_eq_none_iff, List.pairwise_iff_getElem]
  simp only [List.findSome?_eq_none_iff, disjoint]
  constructor
  · intro apart i j hi hj less
    have first : (rules[i], i) ∈ rules.zipIdx := by
      rw [List.mem_zipIdx_iff_getElem?]
      exact List.getElem?_eq_getElem hi
    have second : (rules[j], j) ∈ rules.zipIdx.drop (i + 1) := by
      refine List.mem_drop_iff_getElem.mpr ⟨j - (i + 1), ?_, ?_⟩
      · rw [List.length_zipIdx]
        omega
      · simp only [List.getElem_zipIdx, show i + 1 + (j - (i + 1)) = j by omega, Nat.zero_add]
    exact apart _ first _ second
  · intro apart p first p' second
    obtain ⟨k, hk, rfl⟩ := List.mem_drop_iff_getElem.mp second
    obtain ⟨hi, same⟩ := List.getElem?_eq_some_iff.mp (List.mem_zipIdx_iff_getElem?.mp first)
    rw [List.length_zipIdx] at hk
    have excluded := apart p.2 (p.2 + 1 + k) hi (by omega) (by omega)
    rwa [List.getElem_zipIdx, ← same]

/-- The first overlap in the lists of rules. -/
def overlapDefectOf (transitions : List (List Rule)) : Option Defect :=
  transitions.zipIdx.findSome? fun p =>
    (overlapOf p.1).map fun found => .overlappingRules p.2 found.1 found.2

theorem overlapDefect?_returns (transitions : List (List Rule)) :
    Build.Returns (overlapDefect? transitions) (overlapDefectOf transitions) :=
  Build.Returns.findSomeM? fun p _ => (overlap?_returns p.1).bind (Build.Returns.pure _)

theorem overlapDefectOf_eq_none_iff {transitions : List (List Rule)} :
    overlapDefectOf transitions = none ↔ ∀ rules ∈ transitions,
      rules.Pairwise fun r r' => ∀ l, ¬(r.guard.eval l ∧ r'.guard.eval l) := by
  simp only [overlapDefectOf, List.findSome?_eq_none_iff, Option.map_eq_none_iff,
    overlapOf_eq_none_iff]
  constructor
  · intro h rules hrules
    obtain ⟨i, hi⟩ := List.mem_iff_getElem?.mp hrules
    exact h (rules, i) (List.mem_zipIdx_iff_getElem?.mpr hi)
  · exact fun h p hp => h p.1 (List.fst_mem_of_mem_zipIdx hp)

/-- The first defect of an automaton that should be deterministic. -/
def deterministicDefectOf (a : Automaton) : Option Defect :=
  match a.defect? with
  | some d => some d
  | none => overlapDefectOf a.transitions

theorem deterministicDefect?_returns (a : Automaton) :
    Build.Returns a.deterministicDefect? a.deterministicDefectOf := by
  unfold deterministicDefect? deterministicDefectOf
  cases a.defect? with
  | some d => exact Build.Returns.pure _
  | none => exact overlapDefect?_returns a.transitions

theorem deterministicDefectOf_eq_none_iff :
    a.deterministicDefectOf = none ↔ a.Valid ∧ a.Deterministic := by
  have apart : overlapDefectOf a.transitions = none ↔ a.Deterministic := overlapDefectOf_eq_none_iff
  rw [← defect?_eq_none_iff, ← apart, deterministicDefectOf]
  cases a.defect? with
  | some d => simp
  | none => simp

/-- The check passes exactly the well-formed automata that are deterministic. -/
theorem validateDeterministic_returns_check (a : Automaton) :
    Build.Returns a.validateDeterministic.run (match a.deterministicDefectOf with
      | some d => .error d
      | none => .ok ()) := by
  unfold validateDeterministic
  refine a.deterministicDefect?_returns.lift.except_bind ?_
  cases a.deterministicDefectOf with
  | some d => exact Build.Returns.pure _
  | none => exact Build.Returns.pure _

theorem validateDeterministic_returns (valid : a.Valid) (h : a.Deterministic) :
    Build.Returns a.validateDeterministic.run (.ok ()) := by
  have check := a.validateDeterministic_returns_check
  rwa [deterministicDefectOf_eq_none_iff.mpr ⟨valid, h⟩] at check

end Automaton

end TraceRegex
