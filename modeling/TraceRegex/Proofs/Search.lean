import Mathlib.Order.Bounds.Image
import TraceRegex.Proofs.Streaming
import TraceRegex.Snapshot.Search

/-! # Searching finds the matching suffixes

A search keeps one age for each live state: the lengths of the longest and the shortest suffix of
what was read that leads to it.  What one age stands for is a set of lengths, of which it has the
greatest and the least.  Starting a run, reading a letter and meeting another run each do to the set
what they do to the age, so after any word the ages are those of all suffixes at once, and the
verdict is read off them.
-/

namespace TraceRegex

/-! ## Runs of a snapshot -/

namespace Snapshot

variable {s : Snapshot} {p q t : Nat} {l : Letter} {u v w : Word}

/-- The letter enables a rule from the first state to the second. -/
def Step (s : Snapshot) (q : Nat) (l : Letter) (t : Nat) : Prop :=
  ∃ rules, s.transitions[q]? = some rules ∧ ∃ r ∈ rules, r.guard.eval l = .ok true ∧ r.target = t

/-- A run: the word leads from the first state to the second. -/
inductive Path (s : Snapshot) : Nat → Word → Nat → Prop where
  | nil {q : Nat} : Path s q [] q
  | cons {q m t : Nat} {l : Letter} {w : Word} (first : s.Step q l m) (rest : Path s m w t) :
      Path s q (l :: w) t

theorem path_nil_iff : s.Path p [] q ↔ p = q := by
  constructor
  · intro path
    cases path
    rfl
  · intro same
    exact same ▸ .nil

theorem path_cons_iff : s.Path p (l :: w) t ↔ ∃ q, s.Step p l q ∧ s.Path q w t := by
  constructor
  · intro path
    cases path with
    | cons first rest => exact ⟨_, first, rest⟩
  · rintro ⟨q, first, rest⟩
    exact .cons first rest

theorem path_append_iff : s.Path p (u ++ v) t ↔ ∃ q, s.Path p u q ∧ s.Path q v t := by
  induction u generalizing p with
  | nil => simp [path_nil_iff]
  | cons l u ih =>
    simp only [List.cons_append, path_cons_iff, ih]
    constructor
    · rintro ⟨m, first, q, before, behind⟩
      exact ⟨q, ⟨m, first, before⟩, behind⟩
    · rintro ⟨q, ⟨m, first, before⟩, behind⟩
      exact ⟨m, first, q, before, behind⟩

theorem path_concat_iff : s.Path p (u ++ [l]) t ↔ ∃ q, s.Path p u q ∧ s.Step q l t := by
  simp [path_append_iff, path_cons_iff, path_nil_iff]

/-- The lengths of the non-empty suffixes that lead from an initial state to the state `q`. -/
def arrivals (s : Snapshot) (w : Word) (q : Nat) : Set Nat :=
  {n | ∃ u, u ≠ [] ∧ u <:+ w ∧ u.length = n ∧ ∃ p ∈ s.initials, s.Path p u q}

/-- The lengths of the non-empty suffixes that match. -/
def matchLengths (s : Snapshot) (w : Word) : Set Nat := {n | ∃ q ∈ s.finals, n ∈ s.arrivals w q}

/-- The lengths of the non-empty suffixes that lead anywhere. -/
def liveLengths (s : Snapshot) (w : Word) : Set Nat := {n | ∃ q, n ∈ s.arrivals w q}

theorem arrivals_nil : s.arrivals [] q = ∅ := by
  apply Set.eq_empty_of_forall_notMem
  rintro n ⟨u, some, suffix, -⟩
  exact some (List.suffix_nil.mp suffix)

/-- The last letter moves the runs of all suffixes before it, and one that starts with it. -/
theorem mem_arrivals_concat {n : Nat} : n ∈ s.arrivals (w ++ [l]) t ↔
    ∃ q m, (m ∈ s.arrivals w q ∨ (q ∈ s.initials ∧ m = 0)) ∧ s.Step q l t ∧ m + 1 = n := by
  constructor
  · rintro ⟨u, some, suffix, length, p, hp, path⟩
    cases List.suffix_concat_iff.mp suffix with
    | inl empty => exact absurd empty some
    | inr parts =>
      obtain ⟨v, rfl, before⟩ := parts
      obtain ⟨q, path, step⟩ := path_concat_iff.mp path
      refine ⟨q, v.length, ?_, step, by simpa using length⟩
      by_cases empty : v = []
      · subst empty
        exact Or.inr ⟨path_nil_iff.mp path ▸ hp, rfl⟩
      · exact Or.inl ⟨v, empty, before, rfl, p, hp, path⟩
  · rintro ⟨q, m, origin, step, rfl⟩
    cases origin with
    | inl earlier =>
      obtain ⟨u, -, suffix, rfl, p, hp, path⟩ := earlier
      refine ⟨u ++ [l], by simp, ?_, by simp, p, hp, path_concat_iff.mpr ⟨q, path, step⟩⟩
      exact List.suffix_concat_iff.mpr (Or.inr ⟨u, rfl, suffix⟩)
    | inr fresh =>
      obtain ⟨initial, rfl⟩ := fresh
      refine ⟨[l], by simp, List.suffix_append w [l], rfl, q, initial, ?_⟩
      exact .cons step .nil

theorem WellFormed.runnable (h : s.WellFormed) : s.Runnable where
  initials_lt := h.initials_lt
  length_transitions := h.length_transitions
  target_lt := h.target_lt
  guard_coded rules hrules r hr := by
    obtain ⟨f, encoded, -⟩ := Bytecode.exists_encode_of_check (h.guard_checked rules hrules r hr)
    exact ⟨f, encoded⟩

theorem Runnable.path_lt (h : s.Runnable) (path : s.Path p w q) (hp : p < s.stateCount) :
    q < s.stateCount := by
  induction path with
  | nil => exact hp
  | cons first rest ih =>
    obtain ⟨rules, found, r, hr, -, rfl⟩ := first
    exact ih (h.target_lt rules (List.mem_of_getElem? found) r hr)

theorem Runnable.exists_eval (h : s.Runnable) {rules : List CodedRule}
    (hrules : rules ∈ s.transitions) {r : CodedRule} (hr : r ∈ rules) (l : Letter) :
    ∃ b, r.guard.eval l = .ok b := by
  obtain ⟨f, encoded⟩ := h.guard_coded rules hrules r hr
  exact ⟨f.eval l, Bytecode.eval_of_encode encoded l⟩

end Snapshot

/-! ## Ages -/

namespace Age

variable {a b : Age} {lengths lengths' : Set Nat}

/-- The age of runs that have read these numbers of letters. -/
inductive Describes : Age → Set Nat → Prop where
  | undefined {a : Age} (none : a.defined = false) : Describes a ∅
  | defined {a : Age} {lengths : Set Nat} (some : a.defined = true)
      (least : IsLeast lengths a.shortest) (greatest : IsGreatest lengths a.longest) :
      Describes a lengths

theorem Describes.bounds (h : a.Describes lengths) (some : a.defined = true) :
    IsLeast lengths a.shortest ∧ IsGreatest lengths a.longest := by
  cases h with
  | undefined none => simp [none] at some
  | defined _ least greatest => exact ⟨least, greatest⟩

theorem Describes.eq_empty (h : a.Describes lengths) (none : a.defined = false) :
    lengths = ∅ := by
  cases h with
  | undefined _ => rfl
  | defined some _ _ => simp [none] at some

@[simp] theorem defined_started (a : Age) : a.started.defined = true := by
  unfold started
  split <;> rfl

@[simp] theorem defined_step (a : Age) : a.step.defined = true := by
  unfold step
  split <;> rfl

theorem defined_merge (some : b.defined = true) : (a.merge b).defined = true := by
  unfold merge
  cases first : a.defined <;> simp [some]

theorem Describes.started (h : a.Describes lengths) : a.started.Describes (insert 0 lengths) := by
  refine .defined (defined_started a) ⟨?_, fun n _ => ?_⟩ ?_
  · unfold Age.started
    split <;> exact Set.mem_insert 0 lengths
  · unfold Age.started
    split <;> exact Nat.zero_le n
  · cases h with
    | undefined none => simp [Age.started, none]
    | defined some _ greatest =>
      simpa [Age.started, some] using greatest.insert 0

theorem Describes.step (h : a.Describes lengths) (some : a.defined = true) :
    a.step.Describes {n | ∃ m ∈ lengths, m + 1 = n} := by
  obtain ⟨least, greatest⟩ := h.bounds some
  have later : Monotone fun n => n + 1 := fun _ _ => Nat.succ_le_succ
  have aged : a.step = ⟨a.longest + 1, a.shortest + 1, true⟩ := if_pos some
  rw [aged]
  exact .defined rfl (later.map_isLeast least) (later.map_isGreatest greatest)

theorem Describes.merge (ha : a.Describes lengths) (hb : b.Describes lengths')
    (some : b.defined = true) : (a.merge b).Describes (lengths ∪ lengths') := by
  obtain ⟨least, greatest⟩ := hb.bounds some
  cases ha with
  | undefined none => simpa [Age.merge, none, some] using hb
  | defined some' least' greatest' =>
    refine .defined (defined_merge some) ?_ ?_
    · simpa [Age.merge, some, some'] using least'.union least
    · simpa [Age.merge, some, some'] using greatest'.union greatest

end Age

/-! ## Ages of states -/

namespace AgedStates

variable {live next : AgedStates} {q t : Nat} {a : Age} {lengths : Set Nat}
  {reached : Nat → Set Nat}

theorem age_cons (p : Nat) (b : Age) (rest : AgedStates) (t : Nat) :
    age ((p, b) :: rest) t = if t = p then b else rest.age t := by
  by_cases same : t = p
  · simp [age, same]
  · simp only [age, List.lookup_cons, beq_eq_false_iff_ne.mpr same, if_neg same]

theorem age_set (live : AgedStates) (q : Nat) (a : Age) (t : Nat) :
    (live.set q a).age t = if t = q then a else live.age t := by
  induction live with
  | nil => exact age_cons q a [] t
  | cons first rest ih =>
    obtain ⟨p, b⟩ := first
    unfold AgedStates.set
    by_cases below : q < p
    · rw [if_pos below, age_cons]
    rw [if_neg below]
    by_cases place : q = p
    · subst place
      by_cases same : t = q <;> simp [age_cons, same]
    · rw [if_neg place, age_cons, age_cons, ih]
      by_cases same : t = p
      · have other : ¬p = q := Ne.symm place
        simp [same, other]
      · simp [same]

/-- The states stand in ascending order. -/
def Ascending (live : AgedStates) : Prop := live.Pairwise fun x y => x.1 < y.1

theorem mem_set {x : Nat × Age} (h : x ∈ live.set q a) : x = (q, a) ∨ x ∈ live := by
  induction live with
  | nil => exact Or.inl (List.mem_singleton.mp h)
  | cons first rest ih =>
    unfold AgedStates.set at h
    grind

theorem Ascending.set (h : live.Ascending) (q : Nat) (a : Age) : (live.set q a).Ascending := by
  induction live with
  | nil => exact List.pairwise_singleton _ _
  | cons first rest ih =>
    obtain ⟨above, rest⟩ := List.pairwise_cons.mp h
    unfold AgedStates.set
    split
    next below =>
      refine List.pairwise_cons.mpr ⟨fun x hx => ?_, h⟩
      cases List.mem_cons.mp hx with
      | inl same => exact same ▸ below
      | inr later => exact Nat.lt_trans below (above x later)
    next notBelow =>
      split
      next same => exact List.pairwise_cons.mpr ⟨same ▸ above, rest⟩
      next other =>
        refine List.pairwise_cons.mpr ⟨fun x hx => ?_, ih rest⟩
        cases mem_set hx with
        | inl same => subst same; dsimp only; omega
        | inr old => exact above x old

theorem Ascending.age_of_mem (h : live.Ascending) {x : Nat × Age} (hx : x ∈ live) :
    live.age x.1 = x.2 := by
  induction live with
  | nil => cases hx
  | cons first rest ih =>
    obtain ⟨above, rest⟩ := List.pairwise_cons.mp h
    cases List.mem_cons.mp hx with
    | inl same => rw [same, age_cons, if_pos rfl]
    | inr later => rw [age_cons, if_neg (Nat.ne_of_gt (above x later)), ih rest later]

theorem mem_of_defined (h : (live.age q).defined = true) : (q, live.age q) ∈ live := by
  induction live with
  | nil => cases h
  | cons first rest ih =>
    rw [age_cons] at h ⊢
    by_cases same : q = first.1
    · simp [same]
    · rw [if_neg same] at h ⊢
      exact List.mem_cons_of_mem _ (ih h)

/-- Each state has the age of the runs that have reached it, and those without runs are left out. -/
structure Records (live : AgedStates) (reached : Nat → Set Nat) : Prop where
  ascending : live.Ascending
  defined : ∀ x ∈ live, x.2.defined = true
  describes : ∀ q, (live.age q).Describes (reached q)

theorem records_nil : Records [] fun _ => ∅ := ⟨.nil, nofun, fun _ => .undefined rfl⟩

theorem Records.congr {reached' : Nat → Set Nat} (h : live.Records reached)
    (same : ∀ q n, n ∈ reached q ↔ n ∈ reached' q) : live.Records reached' := by
  have : reached = reached' := funext fun q => Set.ext (same q)
  exact this ▸ h

theorem Records.bounds (h : live.Records reached) {x : Nat × Age} (hx : x ∈ live) :
    IsLeast (reached x.1) x.2.shortest ∧ IsGreatest (reached x.1) x.2.longest := by
  have described := h.describes x.1
  rw [h.ascending.age_of_mem hx] at described
  exact described.bounds (h.defined x hx)

theorem Records.exists_mem (h : live.Records reached) {n : Nat} (hn : n ∈ reached q) :
    ∃ x ∈ live, x.1 = q := by
  cases defined : (live.age q).defined with
  | true => exact ⟨_, mem_of_defined defined, rfl⟩
  | false =>
    rw [(h.describes q).eq_empty defined] at hn
    cases hn

theorem Records.set (h : live.Records reached) (some : a.defined = true)
    (described : a.Describes lengths) :
    (live.set q a).Records fun t => if t = q then lengths else reached t := by
  refine ⟨h.ascending.set q a, fun x hx => ?_, fun t => ?_⟩
  · cases mem_set hx with
    | inl same => exact same ▸ some
    | inr old => exact h.defined x old
  · rw [age_set]
    by_cases same : t = q
    · simpa [same] using described
    · simpa [same] using h.describes t

theorem Records.start (h : live.Records reached) (q : Nat) :
    (live.start q).Records fun t => {n | n ∈ reached t ∨ (t = q ∧ n = 0)} := by
  refine (h.set (Age.defined_started _) (h.describes q).started).congr fun t n => ?_
  by_cases same : t = q
  · simp [same, or_comm]
  · simp [same]

theorem Records.join (h : live.Records reached) (some : a.defined = true)
    (described : a.Describes lengths) (q : Nat) :
    (live.join q a).Records fun t => {n | n ∈ reached t ∨ (t = q ∧ n ∈ lengths)} := by
  refine (h.set (Age.defined_merge some)
    ((h.describes q).merge described some)).congr fun t n => ?_
  by_cases same : t = q
  · simp [same]
  · simp [same]

end AgedStates

/-! ## Verdicts -/

/-- The verdict when suffixes of the one kind of lengths match and those of the other lead on. -/
inductive SearchVerdict.Describes : SearchVerdict → Set Nat → Set Nat → Prop where
  | ok {shortest longest horizon : Nat} {matching live : Set Nat}
      (least : IsLeast matching shortest) (greatest : IsGreatest matching longest)
      (oldest : IsGreatest (insert 0 live) horizon) :
      Describes (.ok shortest longest horizon) matching live
  | pending {horizon : Nat} {live : Set Nat} (oldest : IsGreatest (insert 0 live) horizon) :
      Describes (.pending horizon) ∅ live

/-- Two sets of lengths allow for one verdict only. -/
theorem SearchVerdict.Describes.unique {v v' : SearchVerdict} {matching live : Set Nat}
    (h : v.Describes matching live) (h' : v'.Describes matching live) : v = v' := by
  cases h with
  | ok least greatest oldest =>
    cases h' with
    | ok least' greatest' oldest' =>
      rw [least.unique least', greatest.unique greatest', oldest.unique oldest']
    | pending _ => exact absurd least.1 (Set.notMem_empty _)
  | pending oldest =>
    cases h' with
    | ok least' _ _ => exact absurd least'.1 (Set.notMem_empty _)
    | pending oldest' => rw [oldest.unique oldest']

/-- The lengths of the matches seen so far are the extremes of these. -/
inductive MatchLengths.Describes : Option MatchLengths → Set Nat → Prop where
  | none : Describes none ∅
  | some {m : MatchLengths} {lengths : Set Nat} (least : IsLeast lengths m.shortest)
      (greatest : IsGreatest lengths m.longest) : Describes (some m) lengths

theorem MatchLengths.Describes.add {seen : Option MatchLengths} {a : Age} {lengths : Set Nat}
    {lengths' : Set Nat} (h : Describes seen lengths) (least : IsLeast lengths' a.shortest)
    (greatest : IsGreatest lengths' a.longest) :
    Describes (Option.some (MatchLengths.add seen a)) (lengths ∪ lengths') := by
  cases h with
  | none =>
    rw [Set.empty_union]
    exact .some least greatest
  | some least' greatest' => exact .some (least'.union least) (greatest'.union greatest)

namespace SearchRun

open AgedStates (Records)

variable {s : Snapshot} {l : Letter} {live next : AgedStates} {reached : Nat → Set Nat}

theorem isGreatest_horizon {ages : AgedStates} {h : Nat} {lengths : Set Nat}
    (oldest : IsGreatest lengths h) (bounds : ∀ x ∈ ages, IsGreatest (reached x.1) x.2.longest) :
    IsGreatest (lengths ∪ {n | ∃ x ∈ ages, n ∈ reached x.1})
      (ages.foldl (fun h x => max h x.2.longest) h) := by
  induction ages generalizing h lengths with
  | nil => simpa using oldest
  | cons x ages ih =>
    have first := oldest.union (bounds x List.mem_cons_self)
    have rest := ih first fun y hy => bounds y (List.mem_cons_of_mem _ hy)
    have parts : lengths ∪ {n | ∃ y ∈ x :: ages, n ∈ reached y.1} =
        lengths ∪ reached x.1 ∪ {n | ∃ y ∈ ages, n ∈ reached y.1} := by
      ext n
      simp [or_assoc]
    rw [parts]
    exact rest

theorem describes_matches {ages : AgedStates} {seen : Option MatchLengths} {lengths : Set Nat}
    (before : MatchLengths.Describes seen lengths)
    (bounds : ∀ x ∈ ages,
      IsLeast (reached x.1) x.2.shortest ∧ IsGreatest (reached x.1) x.2.longest) :
    MatchLengths.Describes (ages.foldl (fun m x =>
        if s.finals.contains x.1 then some (MatchLengths.add m x.2) else m) seen)
      (lengths ∪ {n | ∃ x ∈ ages, x.1 ∈ s.finals ∧ n ∈ reached x.1}) := by
  induction ages generalizing seen lengths with
  | nil => simpa using before
  | cons x ages ih =>
    have others := fun y hy => bounds y (List.mem_cons_of_mem x hy)
    obtain ⟨least, greatest⟩ := bounds x List.mem_cons_self
    rw [List.foldl_cons]
    by_cases final : x.1 ∈ s.finals
    · have parts : lengths ∪ {n | ∃ y ∈ x :: ages, y.1 ∈ s.finals ∧ n ∈ reached y.1} =
          lengths ∪ reached x.1 ∪ {n | ∃ y ∈ ages, y.1 ∈ s.finals ∧ n ∈ reached y.1} := by
        ext n
        simp [final, or_assoc]
      rw [parts, if_pos (List.contains_iff_mem.mpr final)]
      exact ih (before.add least greatest) others
    · have parts : lengths ∪ {n | ∃ y ∈ x :: ages, y.1 ∈ s.finals ∧ n ∈ reached y.1} =
          lengths ∪ {n | ∃ y ∈ ages, y.1 ∈ s.finals ∧ n ∈ reached y.1} := by
        ext n
        simp [final]
      rw [parts, if_neg fun contained => final (List.contains_iff_mem.mp contained)]
      exact ih before others

theorem classify_describes (s : Snapshot) (h : live.Records reached) :
    (classify s live).Describes {n | ∃ q ∈ s.finals, n ∈ reached q} {n | ∃ q, n ∈ reached q} := by
  have oldest := isGreatest_horizon (isGreatest_singleton (a := 0)) fun x hx => (h.bounds hx).2
  have matched := describes_matches (s := s) .none fun x hx => h.bounds hx
  have alive : {0} ∪ {n | ∃ x ∈ live, n ∈ reached x.1} = insert 0 {n | ∃ q, n ∈ reached q} := by
    ext n
    simp only [Set.mem_union, Set.mem_singleton_iff, Set.mem_insert_iff, Set.mem_ofPred_eq]
    apply or_congr_right
    constructor
    · rintro ⟨x, -, hn⟩
      exact ⟨x.1, hn⟩
    · rintro ⟨q, hn⟩
      obtain ⟨x, hx, rfl⟩ := h.exists_mem hn
      exact ⟨x, hx, hn⟩
  have matching : ∅ ∪ {n | ∃ x ∈ live, x.1 ∈ s.finals ∧ n ∈ reached x.1} =
      {n | ∃ q ∈ s.finals, n ∈ reached q} := by
    ext n
    simp only [Set.empty_union, Set.mem_ofPred_eq]
    constructor
    · rintro ⟨x, -, final, hn⟩
      exact ⟨x.1, final, hn⟩
    · rintro ⟨q, final, hn⟩
      obtain ⟨x, hx, rfl⟩ := h.exists_mem hn
      exact ⟨x, hx, final, hn⟩
  rw [alive] at oldest
  rw [matching] at matched
  unfold classify
  dsimp only
  generalize {n | ∃ q ∈ s.finals, n ∈ reached q} = lengths at matched ⊢
  split
  next m found =>
    rw [found] at matched
    cases matched with
    | some least greatest => exact .ok least greatest oldest
  next found =>
    rw [found] at matched
    cases matched with
    | none => exact .pending oldest

/-! ## Reading a letter -/

theorem seed_records (runnable : s.Runnable) (h : live.Records reached) :
    ∃ live', seed s live = .ok live' ∧
      live'.Records fun q => {n | n ∈ reached q ∨ (q ∈ s.initials ∧ n = 0)} := by
  unfold seed
  have inside := runnable.initials_lt
  generalize s.initials = starts at inside ⊢
  induction starts generalizing live reached with
  | nil => exact ⟨live, rfl, h.congr (by simp)⟩
  | cons q starts ih =>
    obtain ⟨live', seeded, records⟩ :=
      ih (h.start q) fun p hp => inside p (List.mem_cons_of_mem _ hp)
    refine ⟨live', ?_, records.congr fun t n => ?_⟩
    · rw [List.foldlM_cons, if_pos (inside q List.mem_cons_self)]
      exact seeded
    · simp [or_assoc, or_and_right]

theorem moveState_records {a : Age} {lengths : Set Nat} (some : a.defined = true)
    (described : a.Describes lengths) (h : next.Records reached) {rules : List CodedRule}
    (inside : ∀ r ∈ rules, r.target < s.stateCount)
    (evaluates : ∀ r ∈ rules, ∃ b, r.guard.eval l = .ok b) :
    ∃ next', moveState s l a next rules = .ok next' ∧ next'.Records fun t =>
      {n | n ∈ reached t ∨ ((∃ r ∈ rules, r.guard.eval l = .ok true ∧ r.target = t) ∧
        n ∈ lengths)} := by
  induction rules generalizing next reached with
  | nil => exact ⟨next, rfl, h.congr (by simp)⟩
  | cons r rules ih =>
    have inside' := fun r' hr => inside r' (List.mem_cons_of_mem r hr)
    have evaluates' := fun r' hr => evaluates r' (List.mem_cons_of_mem r hr)
    obtain ⟨b, evaluated⟩ := evaluates r List.mem_cons_self
    unfold moveState
    rw [evaluated]
    cases b with
    | true =>
      obtain ⟨next', moved, records⟩ := ih (h.join some described r.target) inside' evaluates'
      refine ⟨next', ?_, records.congr fun t n => ?_⟩
      · show (if r.target < s.stateCount then _ else _) = _
        rw [if_pos (inside r List.mem_cons_self)]
        exact moved
      · simp only [Set.mem_ofPred_eq, List.mem_cons, exists_eq_or_imp, evaluated, true_and,
          or_assoc]
        rw [or_and_right, eq_comm (a := t)]
    | false =>
      obtain ⟨next', moved, records⟩ := ih h inside' evaluates'
      refine ⟨next', moved, records.congr fun t n => ?_⟩
      simp [evaluated]

/-- The runs of one state take each step that the letter enables, and get one letter older. -/
theorem moveFrom_records (runnable : s.Runnable) {q : Nat} (inside : q < s.stateCount) {a : Age}
    {lengths : Set Nat} (some : a.defined = true) (described : a.Describes lengths)
    (h : next.Records reached) :
    ∃ next', (do moveState s l a.step next (← s.rulesAt q)) = .ok next' ∧
      next'.Records fun t =>
        {n | n ∈ reached t ∨ ∃ m ∈ lengths, s.Step q l t ∧ m + 1 = n} := by
  have place : q < s.transitions.length := runnable.length_transitions ▸ inside
  have found := List.getElem?_eq_getElem place
  have listed : s.transitions[q] ∈ s.transitions := List.getElem_mem place
  obtain ⟨next', moved, records⟩ := moveState_records (Age.defined_step a) (described.step some) h
    (runnable.target_lt _ listed) fun r hr => runnable.exists_eval listed hr l
  refine ⟨next', ?_, records.congr fun t n => ?_⟩
  · rw [Snapshot.rulesAt, found]
    exact moved
  · have step : s.Step q l t ↔
        ∃ r ∈ s.transitions[q], r.guard.eval l = .ok true ∧ r.target = t := by
      simp [Snapshot.Step, found]
    simp only [Set.mem_ofPred_eq, ← step]
    apply or_congr_right
    constructor
    · rintro ⟨taken, m, hm, length⟩
      exact ⟨m, hm, taken, length⟩
    · rintro ⟨m, hm, taken, length⟩
      exact ⟨taken, m, hm, length⟩

theorem foldlM_records (runnable : s.Runnable) {ages : AgedStates}
    (inside : ∀ x ∈ ages, x.1 < s.stateCount) {before : Nat → Set Nat}
    (described : ∀ x ∈ ages, x.2.defined = true ∧ x.2.Describes (before x.1))
    (h : next.Records reached) :
    ∃ next', ages.foldlM (fun next x => do
        moveState s l x.2.step next (← s.rulesAt x.1)) next = .ok next' ∧
      next'.Records fun t =>
        {n | n ∈ reached t ∨ ∃ x ∈ ages, ∃ m ∈ before x.1, s.Step x.1 l t ∧ m + 1 = n} := by
  induction ages generalizing next reached with
  | nil => exact ⟨next, rfl, h.congr (by simp)⟩
  | cons x ages ih =>
    obtain ⟨some, first⟩ := described x List.mem_cons_self
    obtain ⟨next₁, moved, records⟩ :=
      moveFrom_records (l := l) runnable (inside x List.mem_cons_self) some first h
    obtain ⟨next₂, rest, records⟩ := ih (fun y hy => inside y (List.mem_cons_of_mem _ hy))
      (fun y hy => described y (List.mem_cons_of_mem _ hy)) records
    refine ⟨next₂, ?_, records.congr fun t n => ?_⟩
    · rw [List.foldlM_cons, moved]
      exact rest
    · simp only [Set.mem_ofPred_eq, List.mem_cons, exists_eq_or_imp, or_assoc]

theorem move_records (runnable : s.Runnable) (h : live.Records reached)
    (inside : ∀ x ∈ live, x.1 < s.stateCount) :
    ∃ next, move s l live = .ok next ∧
      next.Records fun t => {n | ∃ q m, m ∈ reached q ∧ s.Step q l t ∧ m + 1 = n} := by
  have described : ∀ x ∈ live, x.2.defined = true ∧ x.2.Describes (reached x.1) := by
    intro x hx
    exact ⟨h.defined x hx, h.ascending.age_of_mem hx ▸ h.describes x.1⟩
  obtain ⟨next, moved, records⟩ :=
    foldlM_records (l := l) runnable inside described AgedStates.records_nil
  refine ⟨next, moved, records.congr fun t n => ?_⟩
  simp only [Set.mem_ofPred_eq, Set.mem_empty_iff_false, false_or]
  constructor
  · rintro ⟨x, -, m, hm, step⟩
    exact ⟨x.1, m, hm, step⟩
  · rintro ⟨q, m, hm, step⟩
    obtain ⟨x, hx, rfl⟩ := h.exists_mem hm
    exact ⟨x, hx, m, hm, step⟩

/-- The run has read the word. -/
structure Tracks (s : Snapshot) (run : SearchRun) (w : Word) : Prop where
  live : run.live.Records (s.arrivals w)
  verdict : run.verdict.Describes (s.matchLengths w) (s.liveLengths w)

theorem tracks_start (hope : s.finals ≠ []) : Tracks s (start s) [] := by
  have started : start s = ⟨[], .pending 0⟩ := by simp [start, hope]
  have unmatched : s.matchLengths [] = ∅ := by simp [Snapshot.matchLengths, Snapshot.arrivals_nil]
  have dead : s.liveLengths [] = ∅ := by simp [Snapshot.liveLengths, Snapshot.arrivals_nil]
  rw [started]
  constructor
  · exact AgedStates.records_nil.congr fun q n => by rw [Snapshot.arrivals_nil]
  · rw [unmatched, dead]
    exact .pending (by simp)

/-- New runs can be started, and the states that then are live have places in the table of ages. -/
theorem Tracks.seed (runnable : s.Runnable) {run : SearchRun} {w : Word}
    (tracks : Tracks s run w) :
    ∃ live, seed s run.live = .ok live ∧ (∀ x ∈ live, x.1 < s.stateCount) ∧
      live.Records fun q => {n | n ∈ s.arrivals w q ∨ (q ∈ s.initials ∧ n = 0)} := by
  obtain ⟨live, seeded, records⟩ := seed_records runnable tracks.live
  refine ⟨live, seeded, fun x hx => ?_, records⟩
  cases (records.bounds hx).2.1 with
  | inl arrived =>
    obtain ⟨u, -, -, -, p, hp, path⟩ := arrived
    exact runnable.path_lt path (runnable.initials_lt p hp)
  | inr initial => exact runnable.initials_lt x.1 initial.1

theorem Tracks.advance (runnable : s.Runnable) {run : SearchRun} {w : Word}
    (tracks : Tracks s run w) (l : Letter) :
    ∃ run', run.advance s l = .ok run' ∧ Tracks s run' (w ++ [l]) := by
  have alive : ¬run.verdict = .failed := by
    intro failed
    have described := tracks.verdict
    rw [failed] at described
    cases described
  obtain ⟨live, seeded, inside, records⟩ := tracks.seed runnable
  obtain ⟨next, moved, records⟩ := move_records (l := l) runnable records inside
  replace records : next.Records (s.arrivals (w ++ [l])) :=
    records.congr fun t n => Snapshot.mem_arrivals_concat.symm
  refine ⟨⟨next, classify s next⟩, ?_, records, classify_describes s records⟩
  rw [SearchRun.advance, if_neg alive, seeded]
  show (move s l live >>= fun live => _) = _
  rw [moved]
  rfl

end SearchRun

/-! ## Executors -/

namespace SearchExecutor

variable {s : Snapshot}

theorem describes_suffixes (runnable : s.Runnable) (hope : s.finals ≠ []) (w : Word) :
    ∃ y, w.foldlM advance (ofSnapshot s) = .ok y ∧ y.reset = ofSnapshot s ∧
      y.verdict.Describes (s.matchLengths w) (s.liveLengths w) := by
  have step (x : SearchExecutor) (w : Word) (l : Letter)
      (tracked : x.snapshot = s ∧ SearchRun.Tracks s x.run w) :
      ∃ y, x.advance l = .ok y ∧ y.snapshot = s ∧ SearchRun.Tracks s y.run (w ++ [l]) := by
    obtain ⟨rfl, tracks⟩ := tracked
    obtain ⟨run, moved, tracks⟩ := tracks.advance runnable l
    refine ⟨⟨x.snapshot, run⟩, ?_, rfl, tracks⟩
    show (x.run.advance x.snapshot l >>= fun run => _) = _
    rw [moved]
    rfl
  obtain ⟨y, read, same, tracks⟩ :=
    exists_foldlM step (x := ofSnapshot s) ⟨rfl, SearchRun.tracks_start hope⟩ w
  exact ⟨y, read, by rw [reset, same], tracks.verdict⟩

/-- After a reset and any word, the search reports the least and the greatest length of the suffixes
    that match, if there are any, and how long the oldest run is that is still alive, so that no
    match to come goes further back. -/
theorem search_reports_suffixes (e : SearchExecutor) (wellFormed : e.snapshot.WellFormed)
    (hope : e.snapshot.finals ≠ []) (w : Word) :
    ∃ y horizon, w.foldlM advance e.reset = .ok y ∧
      ((∃ n, n ∈ e.snapshot.matchLengths w) → ∃ shortest longest,
        y.verdict = .ok shortest longest horizon ∧
        IsLeast (e.snapshot.matchLengths w) shortest ∧
        IsGreatest (e.snapshot.matchLengths w) longest) ∧
      ((¬∃ n, n ∈ e.snapshot.matchLengths w) → y.verdict = .pending horizon) ∧
      IsGreatest (insert 0 (e.snapshot.liveLengths w)) horizon ∧
      ∀ u v p q, u <:+ w → p ∈ e.snapshot.initials → q ∈ e.snapshot.finals →
        e.snapshot.Path p (u ++ v) q → u.length ≤ horizon := by
  obtain ⟨y, read, -, described⟩ := describes_suffixes wellFormed.runnable hope w
  have bounded : ∀ {horizon}, IsGreatest (insert 0 (e.snapshot.liveLengths w)) horizon →
      ∀ u v p q, u <:+ w → p ∈ e.snapshot.initials → q ∈ e.snapshot.finals →
        e.snapshot.Path p (u ++ v) q → u.length ≤ horizon := by
    intro horizon oldest u v p q suffix initial _ path
    obtain ⟨t, before, -⟩ := Snapshot.path_append_iff.mp path
    apply oldest.2
    by_cases empty : u = []
    · simp [empty]
    · exact Or.inr ⟨t, u, empty, suffix, rfl, p, initial, before⟩
  generalize verdict : y.verdict = v at described
  generalize e.snapshot.matchLengths w = matching at described ⊢
  cases described with
  | ok least greatest oldest =>
    refine ⟨y, _, read, fun _ => ⟨_, _, verdict, least, greatest⟩, fun none => ?_, oldest,
      bounded oldest⟩
    exact absurd ⟨_, least.1⟩ none
  | pending oldest =>
    refine ⟨y, _, read, fun some => ?_, fun _ => verdict, oldest, bounded oldest⟩
    obtain ⟨n, hn⟩ := some
    exact absurd hn (Set.notMem_empty n)

/-- Two initial states in a row: both the last letter and both letters together match. -/
theorem search_reports_suffixes_of_row :
    let s : Snapshot := ⟨.nondeterministic, 2, 3, [0, 1], [2],
      [[⟨[2, 0, 0], 1⟩], [⟨[2, 1, 0], 2⟩], []]⟩
    let w : Word := [.ofList [0], .ofList [1]]
    s.WellFormed ∧ s.finals ≠ [] ∧ (∃ y, w.foldlM advance (ofSnapshot s) = .ok y ∧
      y.verdict = .ok 1 2 2) ∧ IsLeast (s.matchLengths w) 1 ∧ IsGreatest (s.matchLengths w) 2 ∧
      IsGreatest (insert 0 (s.liveLengths w)) 2 := by
  intro s w
  have wellFormed : s.WellFormed := {
    kind_known := rfl
    atomCount_le := by decide
    stateCount_pos := by decide
    stateCount_le := by decide
    initials_ne_nil := by decide
    one_initial := by decide
    initials_ascending := by decide
    initials_lt := by decide
    finals_ascending := by decide
    finals_lt := by decide
    length_transitions := rfl
    length_rules_le := by decide
    length_guard_le := by decide
    guard_checked := by
      simp only [s, List.forall_mem_cons, List.not_mem_nil, false_imp_iff, implies_true, and_true]
      exact ⟨rfl, rfl⟩
    target_lt := by decide }
  have hope : s.finals ≠ [] := by decide
  have computed : w.foldlM advance (ofSnapshot s) = .ok ⟨s, [(2, ⟨2, 1, true⟩)], .ok 1 2 2⟩ := rfl
  obtain ⟨y, horizon, read, matched, unmatched, oldest, -⟩ :=
    search_reports_suffixes (ofSnapshot s) wellFormed hope w
  cases computed.symm.trans read
  by_cases some : ∃ n, n ∈ s.matchLengths w
  · obtain ⟨shortest, longest, verdict, least, greatest⟩ := matched some
    cases verdict
    exact ⟨wellFormed, hope, ⟨_, computed, rfl⟩, least, greatest, oldest⟩
  · cases unmatched some

end SearchExecutor

end TraceRegex
