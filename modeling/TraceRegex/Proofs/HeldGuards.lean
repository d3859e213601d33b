import TraceRegex.Compile.Basic
import TraceRegex.Proofs.Algebra
import TraceRegex.Proofs.HandleArena
import TraceRegex.Proofs.PartitionRefinement

/-! # The guards that a context holds

Guards of automata are formulas of a context.  Every construction on automata is followed here from
guards that the context holds to guards that the context holds: what it computes with are formulas
that have handles, so that in the end each guard of a compiled automaton is what its handle stands
for, as long as places have numbers of 32 bits (`Expression.compile_in_arena`).
-/

namespace TraceRegex

namespace Context

def HoldsRules (ctx : Context) (rules : List Rule) : Prop := ∀ r ∈ rules, ctx.Holds r.guard

/-- The context holds the guards of the automaton. -/
def HoldsGuards (ctx : Context) (a : Automaton) : Prop :=
  ∀ rules ∈ a.transitions, ctx.HoldsRules rules

/-- Each guard of the automaton is what the handle that the arena gave it stands for. -/
def NamesGuards (ctx : Context) (a : Automaton) : Prop :=
  ∀ rules ∈ a.transitions, ∀ r ∈ rules, ctx.Denotes (ctx.handleOf r.guard) r.guard

variable {ctx later : Context} {a b : Automaton} {rules rules' : List Rule}

theorem Extends.holdsRules (grows : ctx.Extends later) (h : ctx.HoldsRules rules) :
    later.HoldsRules rules :=
  fun r hr => grows.holds (h r hr)

theorem Extends.holdsGuards (grows : ctx.Extends later) (h : ctx.HoldsGuards a) :
    later.HoldsGuards a :=
  fun rules hrules => grows.holdsRules (h rules hrules)

theorem HoldsGuards.names (h : ctx.HoldsGuards a) (grounded : ctx.Grounded)
    (room : ∀ k, (ctx.ofKind k).length < UInt32.size) : ctx.NamesGuards a := by
  intro rules hrules r hr
  have held := h rules hrules r hr
  rw [grounded.handleOf_eq room held]
  exact denotes_handle room held

theorem HoldsRules.append (h : ctx.HoldsRules rules) (h' : ctx.HoldsRules rules') :
    ctx.HoldsRules (rules ++ rules') :=
  List.forall_mem_append.mpr ⟨h, h'⟩

theorem HoldsRules.flatten {rows : List (List Rule)} (h : ∀ rules ∈ rows, ctx.HoldsRules rules) :
    ctx.HoldsRules rows.flatten :=
  List.forall_mem_flatten.mpr h

/-- Renumbering targets leaves the guards as they are. -/
theorem HoldsRules.map (h : ctx.HoldsRules rules) {move : Rule → Rule}
    (same : ∀ r, (move r).guard = r.guard) : ctx.HoldsRules (rules.map move) :=
  List.forall_mem_map.mpr fun r hr => same r ▸ h r hr

theorem HoldsRules.guards (h : ctx.HoldsRules rules) : ∀ f ∈ rules.map Rule.guard, ctx.Holds f :=
  List.forall_mem_map.mpr h

theorem HoldsGuards.rulesFrom (h : ctx.HoldsGuards a) (q : Nat) :
    ctx.HoldsRules (a.rulesFrom q) := by
  intro r hr
  obtain ⟨rules, hrules, hr⟩ := Automaton.mem_transitions_of_mem_rulesFrom hr
  exact h rules hrules r hr

theorem HoldsGuards.shiftRules (h : ctx.HoldsGuards a) (offset : Nat) :
    ∀ rules ∈ Automaton.shiftRules a.transitions offset, ctx.HoldsRules rules :=
  List.forall_mem_map.mpr fun rules hrules => (h rules hrules).map fun _ => rfl

/-! ## Constructions that build no formulas -/

theorem HoldsGuards.union (ha : ctx.HoldsGuards a) (hb : ctx.HoldsGuards b) :
    ctx.HoldsGuards (a.union b) := by
  refine List.forall_mem_append.mpr ⟨List.forall_mem_append.mpr ⟨ha, hb.shiftRules _⟩, ?_⟩
  rw [List.forall_mem_singleton]
  exact (ha.rulesFrom _).append ((hb.rulesFrom _).map fun _ => rfl)

/-- Final states get further rules. -/
theorem HoldsGuards.extendFinals (ha : ctx.HoldsGuards a) (hrules : ctx.HoldsRules rules) :
    ∀ rules' ∈ a.transitions.zipIdx.map fun p => if a.isFinal p.2 then p.1 ++ rules else p.1,
      ctx.HoldsRules rules' := by
  rw [List.forall_mem_map]
  intro p hp
  have before := ha p.1 (List.fst_mem_of_mem_zipIdx hp)
  split
  · exact before.append hrules
  · exact before

theorem HoldsGuards.concat (ha : ctx.HoldsGuards a) (hb : ctx.HoldsGuards b) :
    ctx.HoldsGuards (a.concat b) :=
  List.forall_mem_append.mpr
    ⟨ha.extendFinals ((hb.rulesFrom _).map fun _ => rfl), hb.shiftRules _⟩

theorem HoldsGuards.plus (ha : ctx.HoldsGuards a) : ctx.HoldsGuards a.plus :=
  ha.extendFinals (ha.rulesFrom _)

theorem HoldsGuards.isolate (ha : ctx.HoldsGuards a) : ctx.HoldsGuards a.isolate := by
  unfold Automaton.isolate
  split
  · exact List.forall_mem_append.mpr ⟨ha, List.forall_mem_singleton.mpr (ha.rulesFrom _)⟩
  · exact ha

theorem HoldsGuards.star (ha : ctx.HoldsGuards a) : ctx.HoldsGuards a.star := ha.isolate.plus

theorem HoldsGuards.restrict (ha : ctx.HoldsGuards a) (keep : List Nat) :
    ctx.HoldsGuards (a.restrict keep) :=
  List.forall_mem_map.mpr fun q _ => List.forall_mem_map.mpr fun r hr =>
    ha.rulesFrom q r (List.mem_filter.mp hr).1

theorem holdsGuards_phi {guard : Formula} (h : ctx.Holds guard) :
    ctx.HoldsGuards (Automaton.phi guard) := by
  simp [HoldsGuards, HoldsRules, Automaton.phi, h]

theorem holdsGuards_eps : ctx.HoldsGuards Automaton.eps := by
  simp [HoldsGuards, HoldsRules, Automaton.eps]

end Context

open Context

namespace Build

/-! ## Loops -/

section

variable {α β : Type} {ctx : Context} {p : Context → β → Prop}

theorem Allocates.weaken {m : Build β} {q : Context → β → Prop} (h : Allocates ctx m p)
    (weaker : ∀ now y, ctx.Extends now → p now y → q now y) : Allocates ctx m q := by
  intro now later grounded
  obtain ⟨grounded', grows, answer⟩ := h now later grounded
  exact ⟨grounded', grows, weaker _ _ (later.trans grows) answer⟩

/-- What is known of an answer has to stay true when the context grows, since the later answers come
    from a context that has grown. -/
theorem Allocates.mapM {f : α → Build β} {xs : List α}
    (stays : ∀ now later y, now.Extends later → p now y → p later y)
    (h : ∀ x ∈ xs, ∀ now, ctx.Extends now → Allocates now (f x) p) :
    Allocates ctx (xs.mapM f) fun now ys => ∀ y ∈ ys, p now y := by
  induction xs generalizing ctx with
  | nil => exact Allocates.pure fun _ _ => nofun
  | cons x xs ih =>
    rw [List.mapM_cons]
    apply (h x List.mem_cons_self ctx (Extends.refl ctx)).bind
    intro now y later answer
    apply (ih fun z hz now' later' =>
      h z (List.mem_cons_of_mem _ hz) now' (later.trans later')).bind
    intro now' ys later' answers
    refine Allocates.pure fun last grows => List.forall_mem_cons.mpr ⟨?_, fun z hz => ?_⟩
    · exact stays _ _ y (later'.trans grows) answer
    · exact stays _ _ z grows (answers z hz)

/-- Two computations of which one is chosen, with what comes after them. -/
theorem Allocates.branch {γ : Type} {c : Prop} [Decidable c] {m n : Build β} {k : β → Build γ}
    {q : Context → γ → Prop} (h : Allocates ctx (if c then m else n) p)
    (hk : ∀ now y, ctx.Extends now → p now y → Allocates now (k y) q) :
    Allocates ctx (if c then m >>= k else n >>= k) q := by
  by_cases hc : c
  · rw [if_pos hc] at h ⊢
    exact h.bind hk
  · rw [if_neg hc] at h ⊢
    exact h.bind hk

theorem Allocates.findSomeM? {f : α → Build (Option β)} {xs : List α}
    (stays : ∀ now later y, now.Extends later → p now y → p later y)
    (h : ∀ x ∈ xs, ∀ now, ctx.Extends now → Allocates now (f x) fun now r => ∀ y ∈ r, p now y) :
    Allocates ctx (xs.findSomeM? f) fun now r => ∀ y ∈ r, p now y := by
  induction xs generalizing ctx with
  | nil => exact Allocates.pure fun _ _ => nofun
  | cons x xs ih =>
    rw [List.findSomeM?_cons]
    apply (h x List.mem_cons_self ctx (Extends.refl ctx)).bind
    intro now found later answer
    cases found with
    | some y =>
      exact Allocates.pure fun last grows z same =>
        Option.some.inj same ▸ stays _ _ y grows (answer y rfl)
    | none =>
      exact ih fun z hz now' later' => h z (List.mem_cons_of_mem _ hz) now' (later.trans later')

/-- A search whose answer does not matter. -/
theorem Allocates.search {f : α → Build (Option β)} {xs : List α}
    (h : ∀ x ∈ xs, ∀ now, ctx.Extends now → Allocates now (f x) fun _ _ => True) :
    Allocates ctx (xs.findSomeM? f) fun _ _ => True := by
  have found := Allocates.findSomeM? (p := fun _ _ => True) (fun _ _ _ _ _ => trivial)
    fun x hx now later => (h x hx now later).weaken fun _ _ _ _ _ _ => trivial
  exact found.weaken fun _ _ _ _ => trivial

theorem Allocates.foldlM {f : β → α → Build β} {xs : List α} {init : β}
    (stays : ∀ now later y, now.Extends later → p now y → p later y) (start : p ctx init)
    (h : ∀ y, ∀ x ∈ xs, ∀ now, ctx.Extends now → p now y → Allocates now (f y x) p) :
    Allocates ctx (xs.foldlM f init) p := by
  induction xs generalizing ctx init with
  | nil => exact Allocates.pure fun now grows => stays _ _ init grows start
  | cons x xs ih =>
    rw [List.foldlM_cons]
    apply (h init x List.mem_cons_self ctx (Extends.refl ctx) start).bind
    intro now y later answer
    exact ih answer fun y z hz now' later' =>
      h y z (List.mem_cons_of_mem _ hz) now' (later.trans later')

theorem Allocates.filterAuxM {f : α → Build Bool} {xs kept : List α}
    (h : ∀ x ∈ xs, ∀ now, Answers now (f x)) :
    Allocates ctx (List.filterAuxM f xs kept) fun _ ys => ∀ y ∈ ys, y ∈ xs ∨ y ∈ kept := by
  induction xs generalizing ctx kept with
  | nil => exact Allocates.pure fun _ _ y hy => .inr hy
  | cons x xs ih =>
    rw [List.filterAuxM]
    apply (h x List.mem_cons_self ctx).bind
    intro now b later _
    refine (ih fun y hy => h y (List.mem_cons_of_mem _ hy)).weaken fun last ys _ answers y hy => ?_
    cases b with
    | true => simpa [or_left_comm, or_assoc] using answers y hy
    | false => exact (answers y hy).imp_left (List.mem_cons_of_mem x)

theorem Allocates.filterM {f : α → Build Bool} {xs : List α}
    (h : ∀ x ∈ xs, ∀ now, Answers now (f x)) :
    Allocates ctx (xs.filterM f) fun _ ys => ∀ y ∈ ys, y ∈ xs := by
  apply (Allocates.filterAuxM h).bind
  intro now ys _ answers
  refine Allocates.pure fun _ _ y hy => ?_
  simpa using answers y (List.mem_reverse.mp hy)

end

/-! ## Constructions that build formulas -/

variable {ctx : Context} {a b : Automaton} {rules rules' : List Rule}

theorem stays_holds (now later : Context) (f : Formula) (grows : now.Extends later)
    (h : now.Holds f) : later.Holds f := grows.holds h

theorem stays_holdsRules (now later : Context) (rules : List Rule) (grows : now.Extends later)
    (h : now.HoldsRules rules) : later.HoldsRules rules := grows.holdsRules h

theorem allocates_product {f g : Formula} (hf : ctx.Holds f) (hg : ctx.Holds g) (target : Nat) :
    Allocates ctx (do return Rule.mk (← Build.and f g) target) fun now r => now.Holds r.guard :=
  (builds_and hf hg).bind fun _ _ _ built => Allocates.pure fun _ grows => grows.holds built

theorem allocates_products {f : Formula} (hf : ctx.Holds f) (hrules : ctx.HoldsRules rules)
    (target : Rule → Nat) :
    Allocates ctx (rules.mapM fun r => do return Rule.mk (← Build.and f r.guard) (target r))
      HoldsRules :=
  Allocates.mapM (fun _ _ _ grows held => grows.holds held) fun r hr _ later =>
    allocates_product (later.holds hf) (later.holds (hrules r hr)) _

theorem allocates_intersect (ha : ctx.HoldsGuards a) (hb : ctx.HoldsGuards b) :
    Allocates ctx (a.intersect b) HoldsGuards := by
  have rows : Allocates ctx (a.transitions.mapM fun rules => b.transitions.mapM fun rules' => do
      let products ← rules.mapM fun r => rules'.mapM fun r' => do
        return Rule.mk (← Build.and r.guard r'.guard) (r.target * b.stateCount + r'.target)
      return products.flatten)
      fun now rows => ∀ row ∈ rows, ∀ rules ∈ row, now.HoldsRules rules := by
    refine Allocates.mapM (fun _ _ row grows held rules hrules =>
      grows.holdsRules (held rules hrules)) fun rules hrules now later => ?_
    refine Allocates.mapM stays_holdsRules fun rules' hrules' now' later' => ?_
    have first := (later.trans later').holdsRules (ha rules hrules)
    have second := (later.trans later').holdsRules (hb rules' hrules')
    refine Allocates.bind (Allocates.mapM stays_holdsRules fun r hr now'' grows =>
      allocates_products (grows.holds (first r hr)) (grows.holdsRules second) _) ?_
    intro last products grows held
    exact Allocates.pure fun _ grows' => grows'.holdsRules (HoldsRules.flatten held)
  apply rows.bind
  intro now rows later held
  exact Allocates.pure fun last grows => List.forall_mem_flatten.mpr fun row hrow rules hrules =>
    grows.holdsRules (held row hrow rules hrules)

theorem allocates_fuseRule {r : Rule} (hr : ctx.Holds r.guard) (hb : ctx.HoldsGuards b) :
    Allocates ctx (a.fuseRule b r) HoldsRules := by
  unfold Automaton.fuseRule
  refine Allocates.ite ?_ ?_
  · apply (allocates_products hr (hb.rulesFrom b.initial) _).bind
    intro now fused later held
    exact Allocates.pure fun last grows =>
      List.forall_mem_cons.mpr ⟨(later.trans grows).holds hr, grows.holdsRules held⟩
  · exact Allocates.pure fun now later => List.forall_mem_singleton.mpr (later.holds hr)

theorem allocates_fuse (ha : ctx.HoldsGuards a) (hb : ctx.HoldsGuards b) :
    Allocates ctx (a.fuse b) HoldsGuards := by
  have rows : Allocates ctx (a.transitions.mapM fun rules => do
      return (← rules.mapM (a.fuseRule b)).flatten)
      fun now rows => ∀ rules ∈ rows, now.HoldsRules rules := by
    refine Allocates.mapM stays_holdsRules fun rules hrules now later => ?_
    refine Allocates.bind (Allocates.mapM stays_holdsRules fun r hr now' later' =>
      allocates_fuseRule ((later.trans later').holds (ha rules hrules r hr))
        ((later.trans later').holdsGuards hb)) ?_
    intro now' fused later' held
    exact Allocates.pure fun last grows => grows.holdsRules (HoldsRules.flatten held)
  apply rows.bind
  intro now rows later held
  exact Allocates.pure fun last grows => List.forall_mem_append.mpr
    ⟨fun rules hrules => grows.holdsRules (held rules hrules),
      ((later.trans grows).holdsGuards hb).shiftRules _⟩

theorem allocates_dropDeadRules (ha : ctx.HoldsGuards a) :
    Allocates ctx a.dropDeadRules HoldsGuards := by
  have rows : Allocates ctx
      (a.transitions.mapM fun rules => rules.filterM fun r => Build.sat r.guard)
      fun now rows => ∀ rules ∈ rows, now.HoldsRules rules := by
    refine Allocates.mapM stays_holdsRules fun rules hrules now later => ?_
    refine (Allocates.filterM fun r _ _ => answers_sat r.guard).weaken ?_
    intro now' kept grows part r hr
    exact (later.trans grows).holds (ha rules hrules r (part r hr))
  exact rows.bind fun _ _ _ held =>
    Allocates.pure fun _ grows rules hrules => grows.holdsRules (held rules hrules)

theorem allocates_clean (ha : ctx.HoldsGuards a) : Allocates ctx a.clean HoldsGuards :=
  (allocates_dropDeadRules ha).bind fun _ _ _ held =>
    Allocates.pure fun _ grows => (grows.holdsGuards held).restrict _

theorem allocates_prefixClosure (ha : ctx.HoldsGuards a) :
    Allocates ctx a.prefixClosure HoldsGuards := by
  apply (allocates_clean ha).bind
  intro now c later held
  refine Allocates.pure fun last grows => ?_
  split
  · exact grows.holdsGuards held
  · exact grows.holdsGuards held

/-! ## Determinization -/

theorem allocates_joinGuard {groups : List (Nat × Formula)} {r : Rule}
    (hgroups : ∀ g ∈ groups, ctx.Holds g.2) (hr : ctx.Holds r.guard) :
    Allocates ctx (Automaton.joinGuard groups r) fun now groups => ∀ g ∈ groups, now.Holds g.2 := by
  induction groups generalizing ctx with
  | nil => exact Allocates.pure fun now later => List.forall_mem_singleton.mpr (later.holds hr)
  | cons g rest ih =>
    obtain ⟨hg, hrest⟩ := List.forall_mem_cons.mp hgroups
    unfold Automaton.joinGuard
    refine Allocates.ite ?_ ?_
    · apply (builds_or hg hr).bind
      intro now joined later built
      exact Allocates.pure fun last grows => List.forall_mem_cons.mpr
        ⟨grows.holds built, fun g' hg' => (later.trans grows).holds (hrest g' hg')⟩
    · apply (ih hrest hr).bind
      intro now joined later held
      exact Allocates.pure fun last grows => List.forall_mem_cons.mpr
        ⟨(later.trans grows).holds hg, fun g' hg' => grows.holds (held g' hg')⟩

theorem allocates_regions {upper : Formula} {enabled : StateSet} {groups : List (Nat × Formula)}
    (hupper : ctx.Holds upper) (hgroups : ∀ g ∈ groups, ctx.Holds g.2) :
    Allocates ctx (Automaton.regions upper enabled groups)
      fun now rs => ∀ p ∈ rs, now.Holds p.1 := by
  induction groups generalizing ctx upper enabled with
  | nil =>
    unfold Automaton.regions
    refine Allocates.ite (Allocates.pure fun _ _ => List.forall_mem_nil _) ?_
    exact (builds_simplify upper).bind fun _ _ _ built =>
      Allocates.pure fun _ grows => List.forall_mem_singleton.mpr (grows.holds built)
  | cons g rest ih =>
    obtain ⟨hg, hrest⟩ := List.forall_mem_cons.mp hgroups
    unfold Automaton.regions
    -- both regions are built before either is searched, so the second has to be carried through
    -- all contexts that the search of the first goes through
    apply (builds_and hupper hg).bind
    intro ctx₁ within later₁ hwithin
    apply (builds_not (later₁.holds hg)).bind
    intro ctx₂ negated later₂ hnegated
    apply (builds_and ((later₁.trans later₂).holds hupper) hnegated).bind
    intro ctx₃ without later₃ hwithout
    have later := (later₁.trans later₂).trans later₃
    have side {now : Context} (grows : ctx.Extends now) {upper : Formula} {enabled : StateSet}
        (hupper : now.Holds upper) {b : Bool} :
        Allocates now (if b = true then Automaton.regions upper enabled rest else pure [])
          fun now rs => ∀ p ∈ rs, now.Holds p.1 :=
      Allocates.ite (ih hupper fun g' hg' => grows.holds (hrest g' hg'))
        (Allocates.pure fun _ _ => List.forall_mem_nil _)
    apply (answers_sat within).bind
    intro ctx₄ b later₄ _
    have keptWithin := (later₂.trans (later₃.trans later₄)).holds hwithin
    refine (side (later.trans later₄) keptWithin).branch ?_
    intro ctx₅ inside later₅ hinside
    apply (answers_sat without).bind
    intro ctx₆ b' later₆ _
    have grown := later₄.trans (later₅.trans later₆)
    refine (side (later.trans grown) (grown.holds hwithout)).branch ?_
    intro ctx₇ outside later₇ houtside
    exact Allocates.pure fun last grows => List.forall_mem_append.mpr
      ⟨fun p hp => (later₆.trans (later₇.trans grows)).holds (hinside p hp),
        fun p hp => grows.holds (houtside p hp)⟩

theorem allocates_regionsFrom (ha : ctx.HoldsGuards a) (states : StateSet) :
    Allocates ctx (a.regionsFrom states) fun now rs => ∀ p ∈ rs, now.Holds p.1 := by
  have groups : Allocates ctx ((states.toList.flatMap a.rulesFrom).foldlM Automaton.joinGuard [])
      fun now groups => ∀ g ∈ groups, now.Holds g.2 := by
    refine Allocates.foldlM (fun _ _ _ grows held g hg => grows.holds (held g hg))
      (List.forall_mem_nil _) fun groups r hr now later held => ?_
    obtain ⟨q, -, hr⟩ := List.mem_flatMap.mp hr
    exact allocates_joinGuard held (later.holds (ha.rulesFrom q r hr))
  exact groups.bind fun _ _ _ held => allocates_regions (holds_const true) held

end Build

theorem Automaton.Numbering.holdsRules_rules {ctx : Context} (n : Automaton.Numbering)
    {rs : List (Formula × StateSet)} (h : ∀ p ∈ rs, ctx.Holds p.1) :
    ctx.HoldsRules (n.rules rs).1 := by
  induction rs generalizing n with
  | nil => exact List.forall_mem_nil _
  | cons p rest ih =>
    obtain ⟨hp, hrest⟩ := List.forall_mem_cons.mp h
    exact List.forall_mem_cons.mpr ⟨hp, ih _ hrest⟩

namespace Build

variable {ctx : Context} {a b : Automaton} {rules rules' : List Rule}

theorem allocates_explore (ha : ctx.HoldsGuards a) (rounds : Nat) {s : Automaton.Subsets}
    (hs : ∀ rules ∈ s.transitions, ctx.HoldsRules rules) :
    Allocates ctx (Automaton.Subsets.explore a rounds s)
      fun now s => ∀ rules ∈ s.transitions, now.HoldsRules rules := by
  have kept {ctx : Context} {s : Automaton.Subsets}
      (hs : ∀ rules ∈ s.transitions, ctx.HoldsRules rules) : Allocates ctx (pure s)
        fun now (s : Automaton.Subsets) => ∀ rules ∈ s.transitions, now.HoldsRules rules :=
    Allocates.pure fun _ later rules hrules => later.holdsRules (hs rules hrules)
  induction rounds generalizing ctx s with
  | zero => exact kept hs
  | succ rounds ih =>
    unfold Automaton.Subsets.explore
    split
    · exact kept hs
    · next states _ =>
      apply (allocates_regionsFrom ha states).bind
      intro now rs later held
      have expanded : ∀ rules ∈ (s.expand rs).transitions, now.HoldsRules rules :=
        List.forall_mem_append.mpr ⟨fun rules hrules => later.holdsRules (hs rules hrules),
          List.forall_mem_singleton.mpr (s.toNumbering.holdsRules_rules held)⟩
      exact ih (later.holdsGuards ha) expanded

theorem allocates_determinize (ha : ctx.HoldsGuards a) :
    Allocates ctx a.determinize HoldsGuards :=
  (allocates_explore ha _ (List.forall_mem_nil _)).bind fun _ _ _ held =>
    Allocates.pure fun _ grows rules hrules => grows.holdsRules (held rules hrules)

theorem allocates_withSink (sink : Nat) (hrules : ctx.HoldsRules rules) :
    Allocates ctx (Automaton.withSink sink rules) HoldsRules := by
  apply (builds_disjunction_go _ _ (holds_const false) hrules.guards).bind
  intro ctx₁ either later₁ heither
  apply (builds_not heither).bind
  intro ctx₂ none later₂ hnone
  apply (builds_simplify none).bind
  intro ctx₃ rest later₃ hrest
  apply (answers_sat rest).bind
  intro ctx₄ b later₄ _
  have later := later₁.trans (later₂.trans (later₃.trans later₄))
  refine Allocates.pure fun last grows => ?_
  split
  · exact ((later.trans grows).holdsRules hrules).append
      (List.forall_mem_singleton.mpr ((later₄.trans grows).holds hrest))
  · exact (later.trans grows).holdsRules hrules

theorem allocates_totalize (ha : ctx.HoldsGuards a) : Allocates ctx a.totalize HoldsGuards := by
  refine Allocates.bind (Allocates.mapM stays_holdsRules fun rules hrules now later =>
    allocates_withSink a.stateCount (later.holdsRules (ha rules hrules))) ?_
  intro now rows later held
  exact Allocates.pure fun _ grows => List.forall_mem_append.mpr
    ⟨fun rules hrules => grows.holdsRules (held rules hrules),
      List.forall_mem_singleton.mpr (List.forall_mem_singleton.mpr (holds_const true))⟩

theorem allocates_complement (ha : ctx.HoldsGuards a) :
    Allocates ctx a.complement HoldsGuards :=
  (allocates_determinize ha).bind fun _ _ _ held =>
    (allocates_totalize held).bind fun _ _ _ held' => allocates_clean held'

/-! ## Minimization -/

theorem builds_delta (ha : ctx.HoldsGuards a) (q : Nat) (into : Block) :
    Builds ctx (Refinement.delta a q into) := by
  refine builds_disjunction_go _ _ (holds_const false) (List.forall_mem_map.mpr fun r hr => ?_)
  exact ha.rulesFrom q r (List.mem_filter.mp hr).1

theorem mayBuild_distinguish {pair : Formula × Formula} (first : ctx.Holds pair.1)
    (second : ctx.Holds pair.2) : MayBuild ctx (Refinement.distinguish pair) := by
  apply (builds_not second).bind
  intro ctx₁ negated later₁ hnegated
  apply (builds_and (later₁.holds first) hnegated).bind
  intro ctx₂ witness later₂ hwitness
  apply (answers_sat witness).bind
  intro ctx₃ b later₃ _
  cases b with
  | true => exact MayBuild.some (later₃.holds hwitness)
  | false => exact MayBuild.none

theorem allocates_split (ha : ctx.HoldsGuards a) (block splitter : Block) :
    Allocates ctx (Refinement.split a block splitter) fun _ _ => True := by
  have nothing {now : Context} {r : Option (Block × Block)} :
      Allocates now (pure r) fun _ _ => True := Allocates.pure fun _ _ => trivial
  unfold Refinement.split
  refine Allocates.ite nothing ?_
  apply (Allocates.mapM stays_holds fun q _ now later =>
    builds_delta (later.holdsGuards ha) q splitter).bind
  intro ctx₁ deltas later₁ hdeltas
  have pairs : ∀ pair ∈ Refinement.candidatePairs deltas, pair.1 ∈ deltas ∧ pair.2 ∈ deltas := by
    intro pair hpair
    obtain ⟨-, i, j, -, first, second⟩ := Refinement.mem_candidatePairs.mp hpair
    exact ⟨List.mem_of_getElem? first, List.mem_of_getElem? second⟩
  -- the witness is a formula of the context, and each delta is joined with it once more
  refine Allocates.bind (Allocates.findSomeM? stays_holds fun pair hpair now later =>
    mayBuild_distinguish (later.holds (hdeltas _ (pairs pair hpair).1))
      (later.holds (hdeltas _ (pairs pair hpair).2))) ?_
  intro ctx₂ found later₂ hfound
  cases found with
  | none => exact nothing
  | some witness =>
    refine Allocates.bind (Allocates.mapM (fun _ _ _ _ _ => trivial) fun d hd now later => ?_)
      fun _ _ _ _ => nothing
    have first := later.holds (later₂.holds (hdeltas d hd))
    exact (builds_and first (later.holds (hfound witness rfl))).bind fun _ f _ _ => answers_sat f

theorem allocates_refine (ha : ctx.HoldsGuards a) (p : Refinement) (splitters : List Block) :
    Allocates ctx (Refinement.refine a p splitters) fun _ _ => True := by
  refine Allocates.search fun block _ now later => Allocates.search fun splitter _ now' later' => ?_
  apply (allocates_split ((later.trans later').holdsGuards ha) block splitter).bind
  intro last parts _ _
  cases parts with
  | some parts => exact Allocates.pure fun _ _ => trivial
  | none => exact Allocates.pure fun _ _ => trivial

theorem allocates_refineBy (ha : ctx.HoldsGuards a) (splitters : Refinement → List Block)
    (rounds : Nat) (p : Refinement) :
    Allocates ctx (Refinement.refineBy a splitters rounds p) fun _ _ => True := by
  induction rounds generalizing ctx p with
  | zero => exact Allocates.pure fun _ _ => trivial
  | succ rounds ih =>
    apply (allocates_refine ha p (splitters p)).bind
    intro now refined later _
    cases refined with
    | some p' => exact ih (later.holdsGuards ha) p'
    | none => exact Allocates.pure fun _ _ => trivial

theorem allocates_drain (ha : ctx.HoldsGuards a) (rounds : Nat) (p : Refinement) :
    Allocates ctx (Refinement.drain a rounds p) fun _ _ => True := by
  induction rounds generalizing ctx p with
  | zero => exact Allocates.pure fun _ _ => trivial
  | succ rounds ih =>
    unfold Refinement.drain
    split
    · exact Allocates.pure fun _ _ => trivial
    · exact (allocates_refineBy ha _ _ _).bind fun _ p' later _ => ih (later.holdsGuards ha) p'

theorem allocates_stable (ha : ctx.HoldsGuards a) :
    Allocates ctx (Refinement.stable a) fun _ _ => True :=
  (allocates_drain ha _ _).bind fun _ _ later _ =>
    (allocates_refineBy (later.holdsGuards ha) _ _ _).bind fun _ _ _ _ =>
      Allocates.pure fun _ _ => trivial

end Build

theorem Automaton.holds_addGuard {ctx : Context} {groups : List (Nat × List Formula)} {target : Nat}
    {guard : Formula} (hgroups : ∀ g ∈ groups, ∀ f ∈ g.2, ctx.Holds f) (hguard : ctx.Holds guard) :
    ∀ g ∈ Automaton.addGuard groups target guard, ∀ f ∈ g.2, ctx.Holds f := by
  induction groups with
  | nil => exact List.forall_mem_singleton.mpr (List.forall_mem_singleton.mpr hguard)
  | cons g rest ih =>
    obtain ⟨hg, hrest⟩ := List.forall_mem_cons.mp hgroups
    unfold Automaton.addGuard
    split
    · refine List.forall_mem_cons.mpr ⟨?_, hrest⟩
      dsimp only
      split
      · exact hg
      · exact List.forall_mem_append.mpr ⟨hg, List.forall_mem_singleton.mpr hguard⟩
    · exact List.forall_mem_cons.mpr ⟨hg, ih hrest⟩

namespace Build

variable {ctx : Context} {a : Automaton}

theorem allocates_quotient (ha : ctx.HoldsGuards a) (partition : List Block) :
    Allocates ctx (a.quotient partition) HoldsGuards := by
  -- grouping builds nothing: what is grouped are the guards of the automaton
  have groups (block : Block) : ∀ g ∈ (block.flatMap a.rulesFrom).foldl
      (fun groups r => Automaton.addGuard groups (Automaton.blockOf partition r.target) r.guard) [],
      ∀ f ∈ g.2, ctx.Holds f := by
    refine List.foldlRecOn
      (motive := fun groups : List (Nat × List Formula) => ∀ g ∈ groups, ∀ f ∈ g.2, ctx.Holds f)
      _ _ (List.forall_mem_nil _) fun groups hgroups r hr => ?_
    obtain ⟨q, -, hr⟩ := List.mem_flatMap.mp hr
    exact Automaton.holds_addGuard hgroups (ha.rulesFrom q r hr)
  refine Allocates.bind (Allocates.mapM stays_holdsRules fun block _ now later => ?_)
    fun _ _ _ held =>
      Allocates.pure fun _ grows rules hrules => grows.holdsRules (held rules hrules)
  refine Allocates.mapM (fun _ _ _ grows held => grows.holds held) fun g hg now' later' => ?_
  have guards : ∀ f ∈ g.2, now'.Holds f :=
    fun f hf => (later.trans later').holds (groups block g hg f hf)
  exact (builds_disjunction_go _ g.2 (holds_const false) guards).bind fun _ _ _ built =>
    Allocates.pure fun _ grows => grows.holds built

theorem allocates_minimize (ha : ctx.HoldsGuards a) : Allocates ctx a.minimize HoldsGuards :=
  (allocates_clean ha).bind fun _ _ _ held =>
    (allocates_stable held).bind fun _ _ later _ => allocates_quotient (later.holdsGuards held) _

/-! ## Compilation -/

theorem allocates_lower (e : Expression) : Allocates ctx e.lower HoldsGuards := by
  induction e generalizing ctx with
  | condition c =>
    exact (builds_toFormula c).bind fun _ _ _ built =>
      Allocates.pure fun _ grows => holdsGuards_phi (grows.holds built)
  | empty => exact Allocates.pure fun _ _ => holdsGuards_eps
  | union e f ihe ihf =>
    exact ihe.bind fun _ _ _ ha => ihf.bind fun _ _ later hb =>
      Allocates.pure fun _ grows => grows.holdsGuards ((later.holdsGuards ha).union hb)
  | intersect e f ihe ihf =>
    exact ihe.bind fun _ _ _ ha => ihf.bind fun _ _ later hb =>
      allocates_intersect (later.holdsGuards ha) hb
  | concat e f ihe ihf =>
    exact ihe.bind fun _ _ _ ha => ihf.bind fun _ _ later hb =>
      Allocates.pure fun _ grows => grows.holdsGuards ((later.holdsGuards ha).concat hb)
  | fusion e f ihe ihf =>
    exact ihe.bind fun _ _ _ ha => ihf.bind fun _ _ later hb =>
      allocates_fuse (later.holdsGuards ha) hb
  | star e ih =>
    exact ih.bind fun _ _ _ ha => Allocates.pure fun _ grows => (grows.holdsGuards ha).star
  | plus e ih =>
    exact ih.bind fun _ _ _ ha => Allocates.pure fun _ grows => (grows.holdsGuards ha).plus
  | prefixes e ih => exact ih.bind fun _ _ _ ha => allocates_prefixClosure ha
  | complement e ih => exact ih.bind fun _ _ _ ha => allocates_complement ha

/-- The guards of the automaton that is asked for are held when it has been compiled. -/
theorem allocates_compile (settings : Settings) (e : Expression) (names : List String) :
    Allocates ctx (e.compile settings names) fun now c => now.HoldsGuards c.result := by
  apply (allocates_lower e).bind
  intro ctx₁ lowered later₁ held
  have cleaned : Allocates ctx₁ (if settings.minimize = true
      then ({ lowered with atomCount := max lowered.atomCount names.length } : Automaton).minimize
      else ({ lowered with atomCount := max lowered.atomCount names.length } : Automaton).clean)
      HoldsGuards := Allocates.ite (allocates_minimize held) (allocates_clean held)
  refine cleaned.branch fun ctx₂ automaton later₂ held' => ?_
  cases settings.target with
  | deterministic =>
    have built : Allocates ctx₂ (some <$> automaton.determinize)
        fun now d => now.HoldsGuards (d.getD automaton) :=
      (allocates_determinize held').map some fun _ _ heldD => heldD
    exact built.bind fun _ _ _ heldD => Allocates.pure fun _ grows => grows.holdsGuards heldD
  | nondeterministic => exact Allocates.pure fun _ grows => grows.holdsGuards held'

end Build

/-- Compiling leaves a context that has grown from the leaves up as such, and each guard of the
    automaton is what its handle stands for, as long as places have numbers of 32 bits. -/
theorem Expression.compile_in_arena (e : Expression) (settings : Settings) (names : List String)
    {ctx : Context} (grounded : ctx.Grounded) :
    ((e.compile settings names).run ctx).2.Grounded ∧
      ((∀ k, (((e.compile settings names).run ctx).2.ofKind k).length < UInt32.size) →
        ((e.compile settings names).run ctx).2.NamesGuards
          ((e.compile settings names).run ctx).1.result) := by
  obtain ⟨grounded', -, held⟩ :=
    Build.allocates_compile settings e names ctx (Extends.refl ctx) grounded
  exact ⟨grounded', held.names grounded'⟩

end TraceRegex
