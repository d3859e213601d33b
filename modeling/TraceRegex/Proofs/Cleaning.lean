import TraceRegex.Automaton.Clean
import TraceRegex.Proofs.Runs
import TraceRegex.Proofs.Steady

/-! # Cleaning keeps the language and makes verdicts exact

After cleaning, every state lies on some way from the initial state to a final one, or there is just
one state and nothing is accepted (`Trim`).  In such an automaton a live state can still lead to a
match, so the verdict on a word tells how it stands to the language (`Trim.judges`).

Following arcs for as many rounds as there are nodes finds all that can be reached: each round that
does not finish the search finds a node that was not visited before.
-/

namespace TraceRegex

/-! ## Reachability -/

/-- There is a way along arcs from a root to the node. -/
inductive Reached (arcs : Nat → List Nat) (roots : List Nat) : Nat → Prop where
  | root {q : Nat} (mem : q ∈ roots) : Reached arcs roots q
  | step {q t : Nat} (before : Reached arcs roots q) (arc : t ∈ arcs q) : Reached arcs roots t

/-- What holds between two rounds of the search: the visited nodes are reached ones, and those that
    are not on the frontier have all their arcs followed. -/
structure Searching (arcs : Nat → List Nat) (count : Nat) (roots : List Nat) (rounds : Nat)
    (visited frontier : List Nat) : Prop where
  reached : ∀ q ∈ visited, Reached arcs roots q
  roots_visited : ∀ q ∈ roots, q ∈ visited
  frontier_visited : ∀ q ∈ frontier, q ∈ visited
  followed : ∀ q ∈ visited, q ∈ frontier ∨ ∀ t ∈ arcs q, t ∈ visited
  nodup : visited.Nodup
  bounded : ∀ q ∈ visited, q < count
  /-- There are not enough nodes for the rounds to run out. -/
  room : frontier = [] ∨ count < visited.length + rounds

variable {arcs : Nat → List Nat} {count : Nat} {roots : List Nat}

theorem nodup_eraseDups {α : Type} [BEq α] [LawfulBEq α] (xs : List α) : xs.eraseDups.Nodup := by
  induction h : xs.length using Nat.strongRecOn generalizing xs with
  | _ n ih =>
    cases xs with
    | nil => simp
    | cons x xs =>
      rw [List.eraseDups_cons, List.nodup_cons]
      refine ⟨by simp [List.mem_eraseDups], ih _ ?_ _ rfl⟩
      have := List.length_filter_le (fun b => !b == x) xs
      simp only [List.length_cons] at h
      omega

/-- When every arc of a visited node was followed, the visited nodes are the reached ones. -/
theorem mem_iff_reached_of_closed {visited : List Nat}
    (reached : ∀ q ∈ visited, Reached arcs roots q) (roots_visited : ∀ q ∈ roots, q ∈ visited)
    (closed : ∀ q ∈ visited, ∀ t ∈ arcs q, t ∈ visited) {x : Nat} :
    x ∈ visited ↔ Reached arcs roots x := by
  refine ⟨reached x, fun h => ?_⟩
  induction h with
  | root mem => exact roots_visited _ mem
  | step before arc ih => exact closed _ ih _ arc

/-- The nodes that the next round starts from. -/
def freshNodes (arcs : Nat → List Nat) (visited frontier : List Nat) : List Nat :=
  (frontier.flatMap arcs).eraseDups.filter (!visited.contains ·)

theorem mem_freshNodes {visited frontier : List Nat} {t : Nat} :
    t ∈ freshNodes arcs visited frontier ↔ (∃ q ∈ frontier, t ∈ arcs q) ∧ ¬t ∈ visited := by
  simp [freshNodes, List.mem_eraseDups]

/-- The arcs of a node on the frontier lead to visited nodes or to the next frontier. -/
theorem followed_of_frontier {visited frontier : List Nat} {q t : Nat} (hq : q ∈ frontier)
    (ht : t ∈ arcs q) : t ∈ visited ∨ t ∈ freshNodes arcs visited frontier := by
  by_cases hv : t ∈ visited
  · exact Or.inl hv
  · exact Or.inr (mem_freshNodes.mpr ⟨⟨q, hq, ht⟩, hv⟩)

theorem Searching.step (inside : ∀ q, ∀ t ∈ arcs q, t < count) {rounds : Nat}
    {visited frontier : List Nat} (h : Searching arcs count roots (rounds + 1) visited frontier)
    (more : freshNodes arcs visited frontier ≠ []) :
    Searching arcs count roots rounds (visited ++ freshNodes arcs visited frontier)
      (freshNodes arcs visited frontier) where
  reached q hq := by
    rcases List.mem_append.mp hq with hq | hq
    · exact h.reached q hq
    · obtain ⟨⟨p, hp, arc⟩, -⟩ := mem_freshNodes.mp hq
      exact .step (h.reached p (h.frontier_visited p hp)) arc
  roots_visited q hq := List.mem_append.mpr (Or.inl (h.roots_visited q hq))
  frontier_visited q hq := List.mem_append.mpr (Or.inr hq)
  followed q hq := by
    rcases List.mem_append.mp hq with hq | hq
    · rcases h.followed q hq with hf | hf
      · exact Or.inr fun t ht => List.mem_append.mpr (followed_of_frontier hf ht)
      · exact Or.inr fun t ht => List.mem_append.mpr (Or.inl (hf t ht))
    · exact Or.inl hq
  nodup := by
    refine List.nodup_append.mpr ⟨h.nodup, (nodup_eraseDups _).filter _, fun p hp q hq => ?_⟩
    rintro rfl
    exact (mem_freshNodes.mp hq).2 hp
  bounded q hq := by
    rcases List.mem_append.mp hq with hq | hq
    · exact h.bounded q hq
    · obtain ⟨⟨p, -, arc⟩, -⟩ := mem_freshNodes.mp hq
      exact inside p q arc
  room := by
    have grown : 0 < (freshNodes arcs visited frontier).length := List.length_pos_iff.mpr more
    rcases h.room with finished | room
    · simp [finished, freshNodes] at more
    · right
      rw [List.length_append]
      omega

theorem mem_reachFrom_iff (inside : ∀ q, ∀ t ∈ arcs q, t < count) {rounds : Nat}
    {visited frontier : List Nat} (h : Searching arcs count roots rounds visited frontier)
    {x : Nat} : x ∈ reachFrom arcs rounds visited frontier ↔ Reached arcs roots x := by
  induction rounds generalizing visited frontier with
  | zero =>
    -- the visited nodes are distinct and below `count`, so only an empty frontier leaves room
    have full : visited.length ≤ count := by
      have subset : visited ⊆ List.range count := fun q hq => List.mem_range.mpr (h.bounded q hq)
      simpa using h.nodup.length_le_of_subset subset
    have finished : frontier = [] := h.room.elim id fun room => by omega
    refine mem_iff_reached_of_closed h.reached h.roots_visited fun q hq => ?_
    exact (h.followed q hq).elim (fun hf => by simp [finished] at hf) id
  | succ rounds ih =>
    show x ∈ (if (freshNodes arcs visited frontier).isEmpty then visited
      else reachFrom arcs rounds (visited ++ freshNodes arcs visited frontier)
        (freshNodes arcs visited frontier)) ↔ _
    split
    · next none =>
      -- nothing new was found, so the arcs of the frontier lead to visited nodes as well
      refine mem_iff_reached_of_closed h.reached h.roots_visited fun q hq t ht => ?_
      rcases h.followed q hq with hf | hf
      · refine (followed_of_frontier hf ht).elim id fun fresh => ?_
        rw [List.isEmpty_iff.mp none] at fresh
        cases fresh
      · exact hf t ht
    · next some => exact ih (h.step inside fun none => some (List.isEmpty_iff.mpr none))

/-- The search finds exactly the reached nodes. -/
theorem mem_reachable_iff (inside : ∀ q, ∀ t ∈ arcs q, t < count)
    (roots_lt : ∀ q ∈ roots, q < count) {x : Nat} :
    x ∈ reachable arcs count roots ↔ Reached arcs roots x := by
  refine mem_reachFrom_iff inside ?_
  refine ⟨fun q hq => .root (List.mem_eraseDups.mp hq), fun q hq => List.mem_eraseDups.mpr hq,
    fun q hq => hq, fun q hq => Or.inl hq, nodup_eraseDups roots,
    fun q hq => roots_lt q (List.mem_eraseDups.mp hq), ?_⟩
  cases h : roots.eraseDups with
  | nil => exact Or.inl rfl
  | cons q rest =>
    right
    simp only [List.length_cons]
    omega

namespace Automaton

variable {a : Automaton}

/-! ## Rules that no letter enables -/

theorem dropDeadRules_returns (a : Automaton) :
    Build.Returns a.dropDeadRules
      { a with transitions := a.transitions.map (·.filter (·.guard.satisfiable)) } :=
  (Build.Returns.mapM fun _ _ => Build.Returns.filterM fun _ _ => Build.sat_returns _).bind
    (Build.Returns.pure _)

/-- Every rule can be enabled. -/
def Feasible (a : Automaton) : Prop := ∀ q, ∀ r ∈ a.rulesFrom q, r.guard.Satisfiable

theorem mem_rulesFrom_dropDeadRules {q : Nat} {r : Rule} :
    r ∈ a.dropDeadRules.result.rulesFrom q ↔ r ∈ a.rulesFrom q ∧ r.guard.Satisfiable := by
  rw [(dropDeadRules_returns a).result_eq, ← Formula.satisfiable_iff]
  simp only [rulesFrom, List.getD_eq_getElem?_getD, List.getElem?_map]
  cases a.transitions[q]? <;> simp

theorem feasible_dropDeadRules : a.dropDeadRules.result.Feasible :=
  fun _ _ hr => (mem_rulesFrom_dropDeadRules.mp hr).2

theorem step_dropDeadRules {q t : Nat} {l : Letter} :
    a.dropDeadRules.result.Step q l t ↔ a.Step q l t := by
  constructor
  · rintro ⟨r, hr, enabled, target⟩
    exact ⟨r, (mem_rulesFrom_dropDeadRules.mp hr).1, enabled, target⟩
  · rintro ⟨r, hr, enabled, target⟩
    exact ⟨r, mem_rulesFrom_dropDeadRules.mpr ⟨hr, l, enabled⟩, enabled, target⟩

/-- Automata with the same steps have the same runs. -/
theorem path_congr {b : Automaton} (steps : ∀ q l t, a.Step q l t ↔ b.Step q l t) {q t : Nat}
    {w : Word} : a.Path q w t ↔ b.Path q w t := by
  induction w generalizing q with
  | nil => rw [path_nil_iff, path_nil_iff]
  | cons l w ih => simp only [path_cons_iff, steps, ih]

/-- Which states are final does not matter to runs. -/
theorem path_with_finals (finals : StateSet) {q t : Nat} {w : Word} :
    Path { a with finals } q w t ↔ a.Path q w t :=
  path_congr (a := { a with finals }) (b := a) fun _ _ _ => Iff.rfl

theorem accepts_dropDeadRules {w : Word} : a.dropDeadRules.result.Accepts w ↔ a.Accepts w := by
  have finals : a.dropDeadRules.result.finals = a.finals := by
    rw [(dropDeadRules_returns a).result_eq]
  have initial : a.dropDeadRules.result.initial = a.initial := by
    rw [(dropDeadRules_returns a).result_eq]
  simp only [Accepts, finals, initial, path_congr fun _ _ _ => step_dropDeadRules]

theorem Valid.dropDeadRules (h : a.Valid) : a.dropDeadRules.result.Valid := by
  rw [(dropDeadRules_returns a).result_eq]
  refine ⟨h.initial_lt, by simpa using h.length_transitions, h.finals_lt, ?_, ?_⟩
  · intro rules hrules r hr
    obtain ⟨rules', hrules', rfl⟩ := List.mem_map.mp hrules
    exact h.target_lt rules' hrules' r (List.mem_filter.mp hr).1
  · intro rules hrules r hr
    obtain ⟨rules', hrules', rfl⟩ := List.mem_map.mp hrules
    exact h.varCount_le rules' hrules' r (List.mem_filter.mp hr).1

/-! ## Useful states -/

/-- The state lies on some way from the initial state to a final one. -/
def Useful (a : Automaton) (q : Nat) : Prop :=
  (∃ w, a.Path a.initial w q) ∧ ∃ w, ∃ t ∈ a.finals, a.Path q w t

theorem mem_predecessors {p q : Nat} : p ∈ a.predecessors q ↔ q ∈ a.successors p := by
  have reads : ∀ rules, (rules, p) ∈ a.transitions.zipIdx → a.rulesFrom p = rules := by
    intro rules h
    have := List.mk_mem_zipIdx_iff_getElem?.mp h
    simp [rulesFrom, List.getD_eq_getElem?_getD, this]
  simp only [predecessors, successors, List.mem_map, List.mem_filter, Prod.exists]
  constructor
  · rintro ⟨rules, p', ⟨h, any⟩, rfl⟩
    rw [reads rules h]
    simpa using any
  · rintro ⟨r, hr, rfl⟩
    have hlt := lt_length_of_mem_rulesFrom hr
    have hget : a.rulesFrom p = a.transitions[p] := by simp [rulesFrom, hlt]
    refine ⟨a.transitions[p], p, ⟨List.mk_mem_zipIdx_iff_getElem?.mpr (by simp [hlt]), ?_⟩, rfl⟩
    rw [← hget]
    simpa using ⟨r, hr, rfl⟩

theorem Feasible.reached_successors_iff (h : a.Feasible) {q t : Nat} :
    Reached a.successors [q] t ↔ ∃ w, a.Path q w t := by
  constructor
  · intro reached
    induction reached with
    | root mem => exact ⟨[], path_nil_iff.mpr (List.mem_singleton.mp mem).symm⟩
    | step before arc ih =>
      obtain ⟨w, hw⟩ := ih
      obtain ⟨r, hr, rfl⟩ := List.mem_map.mp arc
      obtain ⟨l, hl⟩ := h _ r hr
      exact ⟨w ++ [l], path_append_iff.mpr ⟨_, hw, path_singleton_iff.mpr ⟨r, hr, hl, rfl⟩⟩⟩
  · rintro ⟨w, hw⟩
    -- what the run has left behind was reached before
    suffices carried : Reached a.successors [q] q → Reached a.successors [q] t from
      carried (.root (by simp))
    generalize [q] = roots
    induction hw with
    | nil => exact id
    | cons mem enabled rest ih =>
      exact fun before => ih (.step before (List.mem_map.mpr ⟨_, mem, rfl⟩))

theorem Feasible.reached_predecessors_iff (h : a.Feasible) {q : Nat} :
    Reached a.predecessors a.finals.toList q ↔ ∃ w, ∃ t ∈ a.finals, a.Path q w t := by
  constructor
  · intro reached
    induction reached with
    | root mem => exact ⟨[], _, mem, .nil⟩
    | step before arc ih =>
      obtain ⟨w, t, ht, hw⟩ := ih
      obtain ⟨r, hr, rfl⟩ := List.mem_map.mp (mem_predecessors.mp arc)
      obtain ⟨l, hl⟩ := h _ r hr
      exact ⟨l :: w, t, ht, .cons hr hl hw⟩
  · rintro ⟨w, t, ht, hw⟩
    induction hw with
    | nil => exact .root ht
    | cons mem enabled rest ih =>
      exact .step (ih ht) (mem_predecessors.mpr (List.mem_map.mpr ⟨_, mem, rfl⟩))

theorem mem_useful (hv : a.Valid) (hf : a.Feasible) {q : Nat} : q ∈ a.useful ↔ a.Useful q := by
  have forward : ∀ x, x ∈ reachable a.successors a.stateCount [a.initial] ↔
      ∃ w, a.Path a.initial w x := by
    intro x
    rw [mem_reachable_iff, hf.reached_successors_iff]
    · intro q t ht
      obtain ⟨r, hr, rfl⟩ := List.mem_map.mp ht
      exact hv.target_lt_of_mem hr
    · intro q hq
      exact List.mem_singleton.mp hq ▸ hv.initial_lt
  have backward : ∀ x, x ∈ reachable a.predecessors a.stateCount a.finals.toList ↔
      ∃ w, ∃ t ∈ a.finals, a.Path x w t := by
    intro x
    rw [mem_reachable_iff, hf.reached_predecessors_iff]
    · intro q t ht
      obtain ⟨r, hr, -⟩ := List.mem_map.mp (mem_predecessors.mp ht)
      exact hv.length_transitions ▸ lt_length_of_mem_rulesFrom hr
    · exact hv.finals_lt
  unfold useful Useful
  simp only [List.mem_filter, List.mem_range, Bool.and_eq_true, List.contains_iff_mem, forward,
    backward]
  exact ⟨fun h => h.2, fun h => ⟨h.1.elim fun w hw => hv.path_lt hw hv.initial_lt, h⟩⟩

/-! ## Keeping some of the states -/

/-- In a list without repetitions, the place of a member is where it stands. -/
theorem idxOf_eq_iff {α : Type} [BEq α] [LawfulBEq α] {keep : List α} (nodup : keep.Nodup) {x : α}
    {i : Nat} (hx : x ∈ keep) :
    keep.idxOf x = i ↔ keep[i]? = some x := by
  have hlt := List.idxOf_lt_length_of_mem hx
  have stands : keep[keep.idxOf x]? = some x :=
    List.getElem?_eq_some_iff.mpr ⟨hlt, List.getElem_idxOf hlt⟩
  constructor
  · rintro rfl
    exact stands
  · intro h
    exact (List.getElem?_inj hlt nodup).mp (stands.trans h.symm)

theorem rulesFrom_restrict {keep : List Nat} {i q : Nat} (h : keep[i]? = some q) :
    (a.restrict keep).rulesFrom i = ((a.rulesFrom q).filter fun r => keep.contains r.target).map
      fun r => { r with target := keep.idxOf r.target } := by
  simp [rulesFrom, restrict, List.getD_eq_getElem?_getD, h]

theorem step_restrict_iff {keep : List Nat} (nodup : keep.Nodup) {i j : Nat} {l : Letter} :
    (a.restrict keep).Step i l j ↔
      ∃ q t, keep[i]? = some q ∧ keep[j]? = some t ∧ a.Step q l t := by
  constructor
  · rintro ⟨r, hr, enabled, target⟩
    have hi : i < keep.length := by simpa [restrict] using lt_length_of_mem_rulesFrom hr
    have hq : keep[i]? = some keep[i] := List.getElem?_eq_getElem hi
    rw [rulesFrom_restrict hq] at hr
    obtain ⟨r', hr', rfl⟩ := List.mem_map.mp hr
    obtain ⟨mem, kept⟩ := List.mem_filter.mp hr'
    rw [List.contains_iff_mem] at kept
    exact ⟨_, _, hq, (idxOf_eq_iff nodup kept).mp target, r', mem, enabled, rfl⟩
  · rintro ⟨q, t, hq, ht, r, hr, enabled, rfl⟩
    have kept := List.mem_of_getElem? ht
    refine ⟨{ r with target := keep.idxOf r.target }, ?_, enabled, (idxOf_eq_iff nodup kept).mpr ht⟩
    rw [rulesFrom_restrict hq]
    exact List.mem_map.mpr ⟨r, List.mem_filter.mpr ⟨hr, List.contains_iff_mem.mpr kept⟩, rfl⟩

theorem path_of_path_restrict {keep : List Nat} (nodup : keep.Nodup) {i j q : Nat} {w : Word}
    (h : (a.restrict keep).Path i w j) (hq : keep[i]? = some q) :
    ∃ t, keep[j]? = some t ∧ a.Path q w t := by
  induction w generalizing i q with
  | nil =>
    rw [path_nil_iff] at h
    exact ⟨q, h ▸ hq, .nil⟩
  | cons l w ih =>
    obtain ⟨m, first, rest⟩ := path_cons_iff.mp h
    obtain ⟨q', s, hq', hs, step⟩ := (step_restrict_iff nodup).mp first
    obtain ⟨t, ht, path⟩ := ih rest hs
    have : q' = q := Option.some.inj (hq'.symm.trans hq)
    exact ⟨t, ht, path_cons_iff.mpr ⟨s, this ▸ step, path⟩⟩

/-- A run whose states are all kept is still there. -/
theorem path_restrict_of_path {keep : List Nat} (nodup : keep.Nodup) {final : Nat}
    (closed : ∀ q ∈ keep, ∀ l t w, a.Step q l t → a.Path t w final → t ∈ keep)
    {i q : Nat} {w : Word} (h : a.Path q w final) (hq : keep[i]? = some q) :
    ∃ j, keep[j]? = some final ∧ (a.restrict keep).Path i w j := by
  induction w generalizing i q with
  | nil =>
    rw [path_nil_iff] at h
    exact ⟨i, h ▸ hq, .nil⟩
  | cons l w ih =>
    obtain ⟨s, first, rest⟩ := path_cons_iff.mp h
    obtain ⟨m, hm⟩ := List.mem_iff_getElem?.mp
      (closed q (List.mem_of_getElem? hq) l s w first rest)
    obtain ⟨j, hj, path⟩ := ih rest hm
    exact ⟨j, hj, path_cons_iff.mpr ⟨m, (step_restrict_iff nodup).mpr ⟨q, s, hq, hm, first⟩, path⟩⟩

theorem mem_finals_restrict {keep : List Nat} (nodup : keep.Nodup) {i : Nat} :
    i ∈ (a.restrict keep).finals ↔ ∃ q ∈ a.finals, keep[i]? = some q := by
  simp only [restrict, SortedSet.mem_ofList, List.mem_map, List.mem_filter, List.contains_iff_mem,
    SortedSet.mem_toList]
  constructor
  · rintro ⟨q, ⟨hq, kept⟩, place⟩
    exact ⟨q, hq, (idxOf_eq_iff nodup kept).mp place⟩
  · rintro ⟨q, hq, hi⟩
    have kept := List.mem_of_getElem? hi
    exact ⟨q, ⟨hq, kept⟩, (idxOf_eq_iff nodup kept).mpr hi⟩

theorem getElem?_initial_restrict {keep : List Nat} (nodup : keep.Nodup) (h : a.initial ∈ keep) :
    keep[(a.restrict keep).initial]? = some a.initial :=
  (idxOf_eq_iff nodup h).mp rfl

theorem Valid.restrict (h : a.Valid) {keep : List Nat} (nodup : keep.Nodup)
    (initial : a.initial ∈ keep) : (a.restrict keep).Valid := by
  refine ⟨List.idxOf_lt_length_of_mem initial, by simp [Automaton.restrict], ?_, ?_, ?_⟩
  · intro i hi
    obtain ⟨q, -, hq⟩ := (mem_finals_restrict nodup).mp hi
    exact (List.getElem?_eq_some_iff.mp hq).1
  · intro rules hrules r hr
    obtain ⟨q, -, rfl⟩ := List.mem_map.mp hrules
    obtain ⟨r', hr', rfl⟩ := List.mem_map.mp hr
    exact List.idxOf_lt_length_of_mem (List.contains_iff_mem.mp (List.mem_filter.mp hr').2)
  · intro rules hrules r hr
    obtain ⟨q, -, rfl⟩ := List.mem_map.mp hrules
    obtain ⟨r', hr', rfl⟩ := List.mem_map.mp hr
    obtain ⟨rules', hrules', hr''⟩ := mem_transitions_of_mem_rulesFrom (List.mem_filter.mp hr').1
    exact h.varCount_le rules' hrules' r' hr''

/-- Keeping all states changes nothing. -/
theorem restrict_range (h : a.Valid) : a.restrict (List.range a.stateCount) = a := by
  have place : ∀ q < a.stateCount, (List.range a.stateCount).idxOf q = q := by
    intro q hq
    exact (idxOf_eq_iff List.nodup_range (List.mem_range.mpr hq)).mpr (by simp [hq])
  have finals : SortedSet.ofList ((a.finals.toList.filter (List.range a.stateCount).contains).map
      (List.range a.stateCount).idxOf) = a.finals := by
    refine SortedSet.ext_mem fun x => ?_
    simp only [SortedSet.mem_ofList, List.mem_map, List.mem_filter, SortedSet.mem_toList,
      List.contains_iff_mem, List.mem_range]
    constructor
    · rintro ⟨q, ⟨hq, hlt⟩, rfl⟩
      exact (place q hlt).symm ▸ hq
    · exact fun hx => ⟨x, ⟨hx, h.finals_lt x hx⟩, place x (h.finals_lt x hx)⟩
  have transitions : ((List.range a.stateCount).map fun q =>
      ((a.rulesFrom q).filter fun r => (List.range a.stateCount).contains r.target).map fun r =>
        { r with target := (List.range a.stateCount).idxOf r.target }) = a.transitions := by
    refine List.ext_getElem (by simp [h.length_transitions]) fun q hq hq' => ?_
    have all : ∀ r ∈ a.transitions[q], r.target < a.stateCount := fun r hr =>
      h.target_lt _ (List.getElem_mem hq') r hr
    have keepAll : (a.transitions[q].filter fun r => (List.range a.stateCount).contains r.target) =
        a.transitions[q] :=
      List.filter_eq_self.mpr fun r hr =>
        List.contains_iff_mem.mpr (List.mem_range.mpr (all r hr))
    have same : a.transitions[q].map (fun r : Rule =>
        { r with target := (List.range a.stateCount).idxOf r.target }) = a.transitions[q] := by
      refine (List.map_congr_left fun r hr => ?_).trans (List.map_id _)
      rw [place r.target (all r hr)]
      rfl
    simp only [List.getElem_map, List.getElem_range, rulesFrom, List.getD_eq_getElem?_getD,
      List.getElem?_eq_getElem hq', Option.getD_some]
    rw [keepAll, same]
  unfold Automaton.restrict
  rw [finals, transitions, place _ h.initial_lt, List.length_range]

/-! ## Trim automata -/

/-- What cleaning achieves: every rule can be enabled, and every state is useful, unless there is
    only one state and nothing is accepted. -/
structure Trim (a : Automaton) : Prop where
  valid : a.Valid
  feasible : a.Feasible
  useful : (∀ q < a.stateCount, a.Useful q) ∨ (a.stateCount = 1 ∧ ∀ q, ¬q ∈ a.finals)

/-- What lies on a run between useful states is useful. -/
theorem Useful.step {q t final : Nat} {l : Letter} {w : Word} (hq : a.Useful q)
    (hfinal : a.Useful final) (first : a.Step q l t) (rest : a.Path t w final) : a.Useful t := by
  obtain ⟨⟨u, hu⟩, -⟩ := hq
  obtain ⟨-, v, f, hf, hv⟩ := hfinal
  exact ⟨⟨u ++ [l], path_append_iff.mpr ⟨q, hu, path_singleton_iff.mpr first⟩⟩,
    w ++ v, f, hf, path_append_iff.mpr ⟨final, rest, hv⟩⟩

theorem useful_initial_of_accepts {w : Word} (h : a.Accepts w) : a.Useful a.initial := by
  obtain ⟨f, hf, hw⟩ := h
  exact ⟨⟨[], .nil⟩, w, f, hf, hw⟩

theorem useful_of_mem_finals {w : Word} {f : Nat} (hf : f ∈ a.finals) (h : a.Path a.initial w f) :
    a.Useful f := ⟨⟨w, h⟩, [], f, hf, .nil⟩

theorem Useful.initial {q : Nat} (h : a.Useful q) : a.Useful a.initial := by
  obtain ⟨⟨u, hu⟩, v, f, hf, hv⟩ := h
  exact useful_initial_of_accepts ⟨f, hf, path_append_iff.mpr ⟨q, hu, hv⟩⟩

/-- The states that trimming keeps. -/
def kept (a : Automaton) : List Nat := if a.useful.isEmpty then [a.initial] else a.useful

theorem trim_eq_restrict : a.trim = a.restrict a.kept := rfl

theorem kept_cases (hv : a.Valid) (hf : a.Feasible) :
    (a.kept = a.useful ∧ a.Useful a.initial) ∨ (a.kept = [a.initial] ∧ ∀ q, ¬a.Useful q) := by
  unfold kept
  cases h : a.useful with
  | nil => exact Or.inr ⟨rfl, fun q hq => by simpa [h] using (mem_useful hv hf).mpr hq⟩
  | cons q rest =>
    have : a.Useful q := (mem_useful hv hf).mp (by simp [h])
    exact Or.inl ⟨rfl, this.initial⟩

theorem initial_mem_kept (hv : a.Valid) (hf : a.Feasible) : a.initial ∈ a.kept := by
  rcases kept_cases hv hf with ⟨h, useful⟩ | ⟨h, -⟩
  · exact h ▸ (mem_useful hv hf).mpr useful
  · simp [h]

theorem nodup_kept : a.kept.Nodup := by
  unfold kept
  split
  · simp
  · exact List.nodup_range.filter _

theorem accepts_trim_iff (hv : a.Valid) (hf : a.Feasible) {w : Word} :
    a.trim.Accepts w ↔ a.Accepts w := by
  have initial := getElem?_initial_restrict nodup_kept (initial_mem_kept hv hf)
  constructor
  · rintro ⟨j, hj, path⟩
    obtain ⟨t, ht, path⟩ := path_of_path_restrict nodup_kept path initial
    obtain ⟨f, hf, hf'⟩ := (mem_finals_restrict nodup_kept).mp hj
    have : t = f := Option.some.inj (ht.symm.trans hf')
    exact ⟨f, hf, this ▸ path⟩
  · rintro ⟨f, hfinal, path⟩
    -- something is accepted, so trimming kept the useful states and not just the initial one
    have usefulInitial := useful_initial_of_accepts ⟨f, hfinal, path⟩
    have all : a.kept = a.useful :=
      (kept_cases hv hf).elim And.left fun none => absurd usefulInitial (none.2 _)
    obtain ⟨j, hj, path'⟩ := path_restrict_of_path nodup_kept (fun q hq l t w first rest => by
      rw [all, mem_useful hv hf] at hq ⊢
      exact hq.step (useful_of_mem_finals hfinal path) first rest) path initial
    exact ⟨j, (mem_finals_restrict nodup_kept).mpr ⟨f, hfinal, hj⟩, path'⟩

theorem trim_trim (hv : a.Valid) (hf : a.Feasible) : a.trim.Trim := by
  rw [trim_eq_restrict]
  have initial := getElem?_initial_restrict nodup_kept (initial_mem_kept hv hf)
  refine ⟨hv.restrict nodup_kept (initial_mem_kept hv hf), ?_, ?_⟩
  · intro i r hr
    have hi : i < a.kept.length := by simpa [restrict] using lt_length_of_mem_rulesFrom hr
    rw [rulesFrom_restrict (List.getElem?_eq_getElem hi)] at hr
    obtain ⟨r', hr', rfl⟩ := List.mem_map.mp hr
    exact hf _ r' (List.mem_filter.mp hr').1
  · rcases kept_cases hv hf with ⟨all, usefulInitial⟩ | ⟨one, none⟩
    · left
      intro i hi
      replace hi : i < a.kept.length := hi
      have hq : a.kept[i]? = some a.kept[i] := List.getElem?_eq_getElem hi
      have useful : a.Useful a.kept[i] := by
        rw [← mem_useful hv hf, ← all]
        exact List.getElem_mem hi
      have closed : ∀ final, a.Useful final →
          ∀ q ∈ a.kept, ∀ l t w, a.Step q l t → a.Path t w final → t ∈ a.kept := by
        intro final hfinal q hq l t w first rest
        rw [all, mem_useful hv hf] at hq ⊢
        exact hq.step hfinal first rest
      obtain ⟨⟨u, hu⟩, v, f, hfinal, hv'⟩ := useful
      -- both parts of the way through the state are kept
      obtain ⟨i', hi', before⟩ := path_restrict_of_path nodup_kept
        (closed _ ⟨⟨u, hu⟩, v, f, hfinal, hv'⟩) hu initial
      have same : i = i' := (List.getElem?_inj hi nodup_kept).mp (hq.trans hi'.symm)
      obtain ⟨j, hj, behind⟩ := path_restrict_of_path nodup_kept
        (closed f (useful_of_mem_finals hfinal (path_append_iff.mpr ⟨_, hu, hv'⟩))) hv' hq
      exact ⟨⟨u, same ▸ before⟩, v, j, (mem_finals_restrict nodup_kept).mpr ⟨f, hfinal, hj⟩, behind⟩
    · right
      refine ⟨by simp [restrict, one], fun i hi => ?_⟩
      obtain ⟨f, hfinal, hi⟩ := (mem_finals_restrict nodup_kept).mp hi
      rw [one] at hi
      have same : f = a.initial := by simpa using List.mem_of_getElem? hi
      exact none f (useful_of_mem_finals (w := []) hfinal (path_nil_iff.mpr same.symm))

/-- In a trim automaton the verdict tells how a word stands to the language. -/
theorem Trim.judges (h : a.Trim) (w : Word) : (a.eval w).Judges a.Accepts w := by
  refine Verdict.judges_of eval_eq_ok_iff (eval_eq_failed_iff.trans ⟨?_, fun none => ?_⟩)
  · -- neither an automaton without final states nor one without a run accepts an extension
    rintro (none | none) u accepted
    · obtain ⟨f, hf, -⟩ := accepted
      exact none f hf
    · obtain ⟨t, ht, -⟩ := accepts_append_iff.mp accepted
      exact none t ht
  · rcases h.useful with useful | ⟨-, none⟩
    · right
      intro t ht
      obtain ⟨-, u, f, hf, hu⟩ := useful t (h.valid.path_lt ht h.valid.initial_lt)
      exact none u (accepts_append_iff.mpr ⟨t, ht, f, hf, hu⟩)
    · exact Or.inl none

theorem dropDeadRules_eq_self (hf : a.Feasible) : a.dropDeadRules.result = a := by
  rw [(dropDeadRules_returns a).result_eq]
  have same : a.transitions.map (·.filter (·.guard.satisfiable)) = a.transitions := by
    refine (List.map_congr_left fun rules hrules => ?_).trans (List.map_id _)
    obtain ⟨q, hq, rfl⟩ := List.mem_iff_getElem.mp hrules
    refine List.filter_eq_self.mpr fun r hr => Formula.satisfiable_iff.mpr (hf q r ?_)
    simpa [rulesFrom, hq] using hr
  rw [same]

theorem Trim.trim_eq_self (h : a.Trim) : a.trim = a := by
  have all : a.kept = List.range a.stateCount := by
    rcases h.useful with useful | ⟨one, none⟩
    · have : a.useful = List.range a.stateCount := by
        refine List.filter_eq_self.mpr fun q hq => ?_
        have := (mem_useful h.valid h.feasible).mpr (useful q (List.mem_range.mp hq))
        exact (List.mem_filter.mp this).2
      have pos := h.valid.initial_lt
      rw [kept, this, if_neg (by simp; omega)]
    · have : a.useful = [] := List.eq_nil_iff_forall_not_mem.mpr fun q hq => by
        obtain ⟨-, w, f, hf, -⟩ := (mem_useful h.valid h.feasible).mp hq
        exact none f hf
      have zero : a.initial = 0 := by have := h.valid.initial_lt; omega
      rw [kept, this, one, zero]
      rfl
  rw [trim_eq_restrict, all]
  exact restrict_range h.valid

/-! ## Cleaning -/

theorem clean_returns (a : Automaton) : Build.Returns a.clean a.dropDeadRules.result.trim :=
  (dropDeadRules_returns a).steady.bind (Build.Returns.pure _)

theorem atomCount_clean (a : Automaton) : a.clean.result.atomCount = a.atomCount := rfl

theorem trim_clean (h : a.Valid) : a.clean.result.Trim := by
  rw [(clean_returns a).result_eq]
  exact trim_trim h.dropDeadRules feasible_dropDeadRules

theorem accepts_clean_iff (h : a.Valid) {w : Word} : a.clean.result.Accepts w ↔ a.Accepts w := by
  rw [(clean_returns a).result_eq, accepts_trim_iff h.dropDeadRules feasible_dropDeadRules]
  exact accepts_dropDeadRules

/-- Cleaning leaves a trim automaton as it is. -/
theorem Trim.clean_eq_self (h : a.Trim) : a.clean.result = a := by
  rw [(clean_returns a).result_eq, dropDeadRules_eq_self h.feasible]
  exact h.trim_eq_self

/-- Cleaning keeps the language and makes verdicts exact.  What it leaves is well formed, all of its
    guards can be satisfied and all of its states lie on some way to a match, unless nothing was
    accepted and one state without a match is left.  Cleaning it again changes nothing. -/
theorem clean_exact (a : Automaton) (valid : a.validate = .ok ()) (ctx ctx' : Context) :
    let c := (a.clean.run ctx).1
    (∀ w, (c.eval w).Judges (fun w => a.eval w = .ok) w) ∧
      c.validate = .ok () ∧
      (∀ rules ∈ c.transitions, ∀ r ∈ rules, r.guard.Satisfiable) ∧
      ((∀ q < c.stateCount, ∃ u v, ∃ t ∈ c.finals, c.Path c.initial u q ∧ c.Path q v t) ∨
        (c.stateCount = 1 ∧ (∀ q, ¬q ∈ c.finals) ∧ ∀ w, a.eval w ≠ .ok)) ∧
      (c.clean.run ctx').1 = c := by
  have ha := validate_iff.mp valid
  have trim := trim_clean ha
  intro c
  have c_eq : c = a.clean.result := (clean_returns a).steady ctx
  rw [c_eq]
  refine ⟨fun w => ?_, validate_iff.mpr trim.valid, fun rules hrules r hr => ?_, ?_, ?_⟩
  · refine (trim.judges w).congr fun w => ?_
    rw [accepts_clean_iff ha, eval_eq_ok_iff]
  · obtain ⟨q, hq, rfl⟩ := List.mem_iff_getElem.mp hrules
    exact trim.feasible q r (by simpa [rulesFrom, hq] using hr)
  · cases trim.useful with
    | inl useful =>
      refine Or.inl fun q hq => ?_
      obtain ⟨⟨u, before⟩, v, t, final, behind⟩ := useful q hq
      exact ⟨u, v, t, final, before, behind⟩
    | inr one =>
      refine Or.inr ⟨one.1, one.2, fun w accepted => ?_⟩
      -- what was accepted would still be, in a final state that is not there
      rw [eval_eq_ok_iff, ← accepts_clean_iff ha] at accepted
      obtain ⟨t, final, -⟩ := accepted
      exact one.2 t final
  · rw [(clean_returns _).steady ctx', trim.clean_eq_self]

/-- One state cannot be reached, one cannot reach a match, and one is only reached by a rule that no
    letter enables.  A word that leads to the second of these was a partial match before. -/
theorem clean_exact_of_dead_ends :
    let a : Automaton := ⟨1, 5, 0, .listing [1, 2, 4] (by decide),
      [[⟨.var 0, 1⟩, ⟨.const true, 3⟩, ⟨.const false, 4⟩], [], [⟨.const true, 1⟩], [], []]⟩
    let c := (a.clean.run .empty).1
    a.validate = .ok () ∧ a.eval [∅] = .pending ∧ c.eval [∅] = .failed ∧
      c.eval [.ofList [0]] = .ok ∧ c.validate = .ok () ∧ (c.clean.run .empty).1 = c := by
  intro a c
  have valid : a.validate = .ok () := rfl
  obtain ⟨judges, passes, -, -, again⟩ := clean_exact a valid .empty .empty
  have hopeless : ∀ u, a.eval ([∅] ++ u) ≠ .ok := by
    intro u
    cases u with
    | nil => exact fun accepted => Verdict.noConfusion accepted
    | cons l u =>
      -- no rule leaves the state that the first letter leads to
      cases u with
      | nil => exact fun accepted => Verdict.noConfusion accepted
      | cons l' u => exact fun accepted => Verdict.noConfusion accepted
  exact ⟨valid, rfl, (judges _).2.2.mpr hopeless, (judges _).1.mpr rfl, passes, again⟩

/-! ## Prefix closure -/

theorem prefixClosure_returns (a : Automaton) : Build.Returns a.prefixClosure
    (if a.clean.result.finals.isEmpty then a.clean.result
      else { a.clean.result with finals := .range a.clean.result.stateCount }) :=
  (clean_returns a).steady.bind (Build.Returns.pure _)

theorem atomCount_prefixClosure (a : Automaton) :
    a.prefixClosure.result.atomCount = a.atomCount := by
  rw [(prefixClosure_returns a).result_eq]
  split
  · exact atomCount_clean a
  · exact atomCount_clean a

theorem valid_prefixClosure (h : a.Valid) : a.prefixClosure.result.Valid := by
  have valid := (trim_clean h).valid
  rw [(prefixClosure_returns a).result_eq]
  split
  · exact valid
  · exact ⟨valid.initial_lt, valid.length_transitions, fun q hq => SortedSet.mem_range.mp hq,
      valid.target_lt, valid.varCount_le⟩

/-- The prefix closure accepts a word exactly when some extension of it was accepted. -/
theorem accepts_prefixClosure_iff (h : a.Valid) {w : Word} :
    a.prefixClosure.result.Accepts w ↔ ∃ u, a.Accepts (w ++ u) := by
  have trim := trim_clean h
  simp only [← accepts_clean_iff h]
  rw [(prefixClosure_returns a).result_eq]
  split
  · next none =>
    rw [SortedSet.isEmpty_iff] at none
    constructor
    · rintro ⟨f, hf, -⟩
      exact absurd hf (none f)
    · rintro ⟨u, f, hf, -⟩
      exact absurd hf (none f)
  · next some =>
    -- a final state rules out the case of one useless state
    have useful : ∀ q < a.clean.result.stateCount, a.clean.result.Useful q :=
      trim.useful.elim id fun none => absurd (SortedSet.isEmpty_iff.mpr none.2) some
    simp only [accepts_append_iff]
    constructor
    · rintro ⟨t, ht, path⟩
      obtain ⟨-, u, f, hf, hu⟩ := useful t (SortedSet.mem_range.mp ht)
      exact ⟨u, t, (path_with_finals _).mp path, f, hf, hu⟩
    · rintro ⟨u, t, path, -⟩
      exact ⟨t, SortedSet.mem_range.mpr (trim.valid.path_lt path trim.valid.initial_lt),
        (path_with_finals _).mpr path⟩

end Automaton

end TraceRegex
