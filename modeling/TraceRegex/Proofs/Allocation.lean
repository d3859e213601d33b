import TraceRegex.Expression.Basic
import TraceRegex.Formula.Document
import TraceRegex.Proofs.Simplification
import TraceRegex.Snapshot.Bytecode

/-! # What a context holds

A context only ever grows, and it grows from the leaves up: a compound formula is added after its
operands.  `Allocates` says so of a computation, started in any context that extends a given one,
and has one rule for each way to combine computations.  It holds of every operation that is given
formulas that the context holds, and the formula that such an operation returns is held as well.
-/

namespace TraceRegex

namespace Context

/-- The formula is held with all its parts. -/
def Holds (ctx : Context) : Formula → Prop
  | .const _ => True
  | .var _ => True
  | .not f => .not f ∈ ctx.nodes ∧ ctx.Holds f
  | .and f g => .and f g ∈ ctx.nodes ∧ ctx.Holds f ∧ ctx.Holds g
  | .or f g => .or f g ∈ ctx.nodes ∧ ctx.Holds f ∧ ctx.Holds g

/-- Every formula has kept its place. -/
def Extends (ctx later : Context) : Prop :=
  ∀ (i : Nat) (f : Formula), ctx.nodes[i]? = some f → later.nodes[i]? = some f

/-- Operands come first, and remembered normal forms are held. -/
structure Grounded (ctx : Context) : Prop where
  operands_before : ∀ (i : Nat) (f : Formula), ctx.nodes[i]? = some f → ∀ g ∈ f.operands,
    g.operands = [] ∨ ∃ j < i, ctx.nodes[j]? = some g
  holds_normal : ∀ f g : Formula, ctx.normal[f]? = some g → ctx.Holds g

variable {ctx later last : Context} {f g : Formula}

theorem Extends.refl (ctx : Context) : ctx.Extends ctx := fun _ _ found => found

theorem Extends.trans (h : ctx.Extends later) (h' : later.Extends last) : ctx.Extends last :=
  fun i f found => h' i f (h i f found)

theorem Extends.mem (h : ctx.Extends later) (hf : f ∈ ctx.nodes) : f ∈ later.nodes := by
  obtain ⟨i, found⟩ := Array.mem_iff_getElem?.mp hf
  exact Array.mem_iff_getElem?.mpr ⟨i, h i f found⟩

theorem Extends.holds (h : ctx.Extends later) (hf : ctx.Holds f) : later.Holds f := by
  induction f with
  | const b => trivial
  | var i => trivial
  | not f ih => exact ⟨h.mem hf.1, ih hf.2⟩
  | and f g ihf ihg => exact ⟨h.mem hf.1, ihf hf.2.1, ihg hf.2.2⟩
  | or f g ihf ihg => exact ⟨h.mem hf.1, ihf hf.2.1, ihg hf.2.2⟩

theorem holds_const (b : Bool) : ctx.Holds (.const b) := trivial

theorem Holds.mem (h : ctx.Holds f) : f.operands = [] ∨ f ∈ ctx.nodes := by
  cases f with
  | const b => exact .inl rfl
  | var i => exact .inl rfl
  | not f => exact .inr h.1
  | and f g => exact .inr h.1
  | or f g => exact .inr h.1

theorem Holds.operands (h : ctx.Holds f) : ∀ g ∈ f.operands, ctx.Holds g := by
  cases f with
  | const b => simp [Formula.operands]
  | var i => simp [Formula.operands]
  | not f => simp [Formula.operands, h.2]
  | and f g => simp [Formula.operands, h.2]
  | or f g => simp [Formula.operands, h.2]

theorem holds_of_mem (hf : f ∈ ctx.nodes) (operands : ∀ g ∈ f.operands, ctx.Holds g) :
    ctx.Holds f := by
  cases f with
  | const b => trivial
  | var i => trivial
  | not f => simpa [Holds, hf, Formula.operands] using operands
  | and f g => simpa [Holds, hf, Formula.operands] using operands
  | or f g => simpa [Holds, hf, Formula.operands] using operands

theorem grounded_empty : empty.Grounded where
  operands_before := by simp [empty]
  holds_normal := by simp [empty]

theorem extends_push (new : ctx.serial[f]? = none) : ctx.Extends (ctx.push f new) := by
  intro i g found
  obtain ⟨place, -⟩ := Array.getElem?_eq_some_iff.mp found
  show (ctx.nodes.push f)[i]? = _
  rw [Array.getElem?_push, if_neg (Nat.ne_of_lt place), found]

theorem Grounded.push (h : ctx.Grounded) (new : ctx.serial[f]? = none)
    (operands : ∀ g ∈ f.operands, ctx.Holds g) : (ctx.push f new).Grounded := by
  refine ⟨fun i g found k hk => ?_, fun g k found => ?_⟩
  · have added : (ctx.nodes.push f)[i]? = some g := found
    rw [Array.getElem?_push] at added
    by_cases last : i = ctx.nodes.size
    · rw [if_pos last] at added
      cases added
      -- the operands of the new formula are there already
      cases (operands k hk).mem with
      | inl leaf => exact .inl leaf
      | inr mem =>
        obtain ⟨j, found⟩ := Array.mem_iff_getElem?.mp mem
        obtain ⟨place, -⟩ := Array.getElem?_eq_some_iff.mp found
        exact .inr ⟨j, last ▸ place, extends_push new j k found⟩
    · rw [if_neg last] at added
      cases h.operands_before i g added k hk with
      | inl leaf => exact .inl leaf
      | inr earlier =>
        obtain ⟨j, before, found⟩ := earlier
        exact .inr ⟨j, before, extends_push new j k found⟩
  · exact (extends_push new).holds (h.holds_normal g k found)

theorem extends_recordNormal (ctx : Context) (normal : g = f.nnf) :
    ctx.Extends (ctx.recordNormal f g normal) :=
  Extends.refl ctx

theorem Grounded.recordNormal (h : ctx.Grounded) (normal : g = f.nnf) (hg : ctx.Holds g) :
    (ctx.recordNormal f g normal).Grounded := by
  refine ⟨h.operands_before, fun f' g' found => ?_⟩
  apply (extends_recordNormal ctx normal).holds
  have inserted : (ctx.normal.insert f g)[f']? = some g' := found
  rw [Std.HashMap.getElem?_insert] at inserted
  split at inserted
  · cases inserted
    exact hg
  · exact h.holds_normal f' g' inserted

theorem extends_recordSolved {b : Bool} (solved : b = f.satisfiable) :
    ctx.Extends (ctx.countCall.recordSolved f b solved) :=
  Extends.refl ctx

theorem Grounded.recordSolved (h : ctx.Grounded) {b : Bool} (solved : b = f.satisfiable) :
    (ctx.countCall.recordSolved f b solved).Grounded where
  operands_before := h.operands_before
  holds_normal f' g' found := (extends_recordSolved solved).holds (h.holds_normal f' g' found)

end Context

namespace Build

open Context

variable {α β : Type} {ctx : Context}

/-- In every grounded context that extends the given one, the computation only adds to the context,
    which stays grounded, and its answer is as described. -/
def Allocates (ctx : Context) (m : Build α) (answer : Context → α → Prop) : Prop :=
  ∀ now, ctx.Extends now → now.Grounded →
    (m.run now).2.Grounded ∧ now.Extends (m.run now).2 ∧ answer (m.run now).2 (m.run now).1

/-! ## Combining computations -/

section

variable {m : Build α} {k : α → Build β} {p : Context → α → Prop} {q : Context → β → Prop}

theorem Allocates.pure {x : α} (h : ∀ now, ctx.Extends now → p now x) :
    Allocates ctx (Pure.pure x) p :=
  fun now later grounded => ⟨grounded, Extends.refl now, h now later⟩

theorem Allocates.bind (hm : Allocates ctx m p)
    (hk : ∀ now x, ctx.Extends now → p now x → Allocates now (k x) q) :
    Allocates ctx (m >>= k) q := by
  intro now later grounded
  obtain ⟨grounded', grows, answer⟩ := hm now later grounded
  obtain ⟨grounded'', grows', answer'⟩ :=
    hk _ _ (later.trans grows) answer _ (Extends.refl _) grounded'
  exact ⟨grounded'', grows.trans grows', answer'⟩

theorem Allocates.map (hm : Allocates ctx m p) (f : α → β) (hq : ∀ now x, p now x → q now (f x)) :
    Allocates ctx (f <$> m) q := by
  intro now later grounded
  obtain ⟨grounded', grows, answer⟩ := hm now later grounded
  exact ⟨grounded', grows, hq _ _ answer⟩

theorem Allocates.ite {c : Prop} [Decidable c] {n : Build α} (hm : Allocates ctx m p)
    (hn : Allocates ctx n p) : Allocates ctx (if c then m else n) p := by
  by_cases h : c
  · rw [if_pos h]
    exact hm
  · rw [if_neg h]
    exact hn

end

/-- Builds a formula that the context holds afterwards. -/
def Builds (ctx : Context) (m : Build Formula) : Prop := Allocates ctx m fun now f => now.Holds f

/-- Builds a formula that the context holds afterwards, or none. -/
def MayBuild (ctx : Context) (m : Build (Option Formula)) : Prop :=
  Allocates ctx m fun now r => ∀ f ∈ r, now.Holds f

/-- Answers a question. -/
def Answers (ctx : Context) (m : Build Bool) : Prop := Allocates ctx m fun _ _ => True

theorem Builds.pure {f : Formula} (h : ctx.Holds f) : Builds ctx (Pure.pure f) :=
  Allocates.pure fun _ later => later.holds h

theorem MayBuild.some {f : Formula} (h : ctx.Holds f) : MayBuild ctx (Pure.pure (some f)) :=
  Allocates.pure fun _ later _ same => Option.some.inj same ▸ later.holds h

theorem MayBuild.none : MayBuild ctx (Pure.pure none) :=
  Allocates.pure fun _ _ _ impossible => nomatch impossible

/-- Two operands are built, then the formula that joins them. -/
theorem Builds.join {m n : Build Formula} {join : Formula → Formula → Build Formula}
    (hm : Builds ctx m) (hn : ∀ now, ctx.Extends now → Builds now n)
    (hjoin : ∀ now f g, now.Holds f → now.Holds g → Builds now (join f g)) :
    Builds ctx (do join (← m) (← n)) := by
  apply hm.bind
  intro now f later built
  apply (hn now later).bind
  intro last g later' built'
  exact hjoin last f g (later'.holds built) built'

/-- A second search is made if the first one finds nothing. -/
theorem MayBuild.orElse {m n : Build (Option Formula)} (hm : MayBuild ctx m)
    (hn : ∀ now, ctx.Extends now → MayBuild now n) :
    MayBuild ctx (do match ← m with | .some f => return .some f | .none => n) := by
  apply hm.bind
  intro now r later built
  cases r with
  | some f => exact MayBuild.some (built f rfl)
  | none => exact hn now later

/-! ## Construction -/

variable {f g : Formula}

/-- A compound formula that the context has is not built again. -/
theorem cons_of_mem (held : f ∈ ctx.nodes) : (cons f).run ctx = (f, ctx) := by
  have answer := cons_run_fst f ctx
  obtain ⟨i, place⟩ := Array.mem_iff_getElem?.mp held
  have found := (ctx.serial_iff f i).mpr place
  simp only [cons, StateT.run] at answer ⊢
  split at answer
  · exact congrArg (·, ctx) answer
  · next new => simp [found] at new

theorem cons_of_none (new : ctx.serial[f]? = none) : (cons f).run ctx = (f, ctx.push f new) := by
  simp only [cons, StateT.run]
  split
  · next found => simp [new] at found
  · rfl

theorem builds_cons (operands : ∀ g ∈ f.operands, ctx.Holds g) : Builds ctx (cons f) := by
  intro now later grounded
  have held : ∀ g ∈ f.operands, now.Holds g := fun g hg => later.holds (operands g hg)
  cases found : now.serial[f]? with
  | some i =>
    have mem : f ∈ now.nodes := Array.mem_iff_getElem?.mpr ⟨i, (now.serial_iff f i).mp found⟩
    rw [cons_of_mem mem]
    exact ⟨grounded, Extends.refl now, holds_of_mem mem held⟩
  | none =>
    have grows := extends_push found
    have mem : f ∈ (now.push f found).nodes := Array.mem_push_self
    rw [cons_of_none found]
    exact ⟨grounded.push found held, grows, holds_of_mem mem fun g hg => grows.holds (held g hg)⟩

theorem builds_not (hf : ctx.Holds f) : Builds ctx (not f) :=
  builds_cons (by simp [Formula.operands, hf])

theorem builds_and (hf : ctx.Holds f) (hg : ctx.Holds g) : Builds ctx (and f g) :=
  builds_cons (by simp [Formula.operands, hf, hg])

theorem builds_or (hf : ctx.Holds f) (hg : ctx.Holds g) : Builds ctx (or f g) :=
  builds_cons (by simp [Formula.operands, hf, hg])

theorem builds_implies (hf : ctx.Holds f) (hg : ctx.Holds g) : Builds ctx (implies f g) :=
  (builds_not hf).bind fun _ _ later built => builds_or built (later.holds hg)

theorem builds_toFormula (c : Condition) : Builds ctx c.toFormula := by
  induction c generalizing ctx with
  | true => exact Builds.pure trivial
  | false => exact Builds.pure trivial
  | atom i => exact Builds.pure trivial
  | not c ih => exact ih.bind fun _ _ _ built => builds_not built
  | and c d ihc ihd => exact ihc.join (fun _ _ => ihd) fun _ _ _ left right => builds_and left right
  | or c d ihc ihd => exact ihc.join (fun _ _ => ihd) fun _ _ _ left right => builds_or left right

theorem builds_conjunction_go (acc : Formula) (fs : List Formula) (hacc : ctx.Holds acc)
    (hfs : ∀ f ∈ fs, ctx.Holds f) : Builds ctx (conjunction.go acc fs) := by
  fun_induction conjunction.go acc fs generalizing ctx with
  | case1 acc => exact Builds.pure hacc
  | case2 acc fs => exact Builds.pure trivial
  | case3 acc fs ih => exact ih hacc fun f hf => hfs f (by simp [hf])
  | case4 f fs _ _ ih => exact ih (hfs f (by simp)) fun f hf => hfs f (by simp [hf])
  | case5 acc f fs _ _ _ ih =>
    apply (builds_and hacc (hfs f (by simp))).bind
    intro now joined later built
    exact ih joined built fun f hf => later.holds (hfs f (by simp [hf]))

theorem builds_disjunction_go (acc : Formula) (fs : List Formula) (hacc : ctx.Holds acc)
    (hfs : ∀ f ∈ fs, ctx.Holds f) : Builds ctx (disjunction.go acc fs) := by
  fun_induction disjunction.go acc fs generalizing ctx with
  | case1 acc => exact Builds.pure hacc
  | case2 acc fs => exact Builds.pure trivial
  | case3 acc fs ih => exact ih hacc fun f hf => hfs f (by simp [hf])
  | case4 f fs _ _ ih => exact ih (hfs f (by simp)) fun f hf => hfs f (by simp [hf])
  | case5 acc f fs _ _ _ ih =>
    apply (builds_or hacc (hfs f (by simp))).bind
    intro now joined later built
    exact ih joined built fun f hf => later.holds (hfs f (by simp [hf]))

/-! ## Normal forms -/

theorem builds_settle (operands : ∀ g ∈ f.operands, ctx.Holds g) : Builds ctx (settle f) := by
  cases f with
  | const b => exact Builds.pure trivial
  | var i => exact Builds.pure trivial
  | not f => exact builds_cons operands
  | and f g => exact builds_cons operands
  | or f g => exact builds_cons operands

theorem holds_operands_nnfAnd (hf : ctx.Holds f) (hg : ctx.Holds g) :
    ∀ k ∈ (Formula.nnfAnd f g).operands, ctx.Holds k := by
  unfold Formula.nnfAnd
  split
  · exact hf.operands
  · split
    · exact hg.operands
    · simp [Formula.operands]
    · exact hf.operands
    · simp [Formula.operands]
    · simp [Formula.operands, hf, hg]

theorem holds_operands_nnfOr (hf : ctx.Holds f) (hg : ctx.Holds g) :
    ∀ k ∈ (Formula.nnfOr f g).operands, ctx.Holds k := by
  unfold Formula.nnfOr
  split
  · exact hf.operands
  · split
    · exact hg.operands
    · simp [Formula.operands]
    · exact hf.operands
    · simp [Formula.operands]
    · simp [Formula.operands, hf, hg]

theorem builds_nnfAnd (ctx : Context) (f g : Formula) (hf : ctx.Holds f) (hg : ctx.Holds g) :
    Builds ctx (settle (Formula.nnfAnd f g)) :=
  builds_settle (holds_operands_nnfAnd hf hg)

theorem builds_nnfOr (ctx : Context) (f g : Formula) (hf : ctx.Holds f) (hg : ctx.Holds g) :
    Builds ctx (settle (Formula.nnfOr f g)) :=
  builds_settle (holds_operands_nnfOr hf hg)

theorem builds_nnfNot (hf : ctx.Holds f) : Builds ctx (nnfNot f) := by
  induction f generalizing ctx with
  | const b => exact Builds.pure trivial
  | var i => exact builds_not trivial
  | not f => exact Builds.pure hf.2
  | and f g ihf ihg =>
    exact (ihf hf.2.1).join (fun _ later => ihg (later.holds hf.2.2)) builds_nnfOr
  | or f g ihf ihg =>
    exact (ihf hf.2.1).join (fun _ later => ihg (later.holds hf.2.2)) builds_nnfAnd

theorem builds_remembered {compute : Context → NormalFormOf f}
    (h : Builds ctx fun now => (compute now).val) :
    Builds ctx fun now => (remembered f compute now).val := by
  intro now later grounded
  obtain ⟨grounded', grows, built⟩ := h now later grounded
  simp only [StateT.run, remembered] at grounded' grows built ⊢
  split
  · next g found => exact ⟨grounded, Extends.refl now, grounded.holds_normal f g found⟩
  · have normal := (compute now).property
    have own : (compute now).val.1 = (compute now).val.1.nnf := by rw [normal, Formula.nnf_nnf]
    have held := (extends_recordNormal _ normal).holds built
    exact ⟨(grounded'.recordNormal normal built).recordNormal own held,
      grows.trans (extends_recordNormal _ normal), (extends_recordNormal _ own).holds held⟩

theorem builds_nnf (f : Formula) : Builds ctx (nnf f) := by
  induction f generalizing ctx with
  | const b => exact Builds.pure trivial
  | var i => exact Builds.pure trivial
  | not f ih =>
    apply builds_remembered
    show Builds ctx (do nnfNot (← nnf f))
    exact ih.bind fun _ _ _ built => builds_nnfNot built
  | and f g ihf ihg =>
    apply builds_remembered
    show Builds ctx (do settle (Formula.nnfAnd (← nnf f) (← nnf g)))
    exact ihf.join (fun _ _ => ihg) builds_nnfAnd
  | or f g ihf ihg =>
    apply builds_remembered
    show Builds ctx (do settle (Formula.nnfOr (← nnf f) (← nnf g)))
    exact ihf.join (fun _ _ => ihg) builds_nnfOr

/-! ## Decisions -/

theorem answers_sat (f : Formula) : Answers ctx (sat f) := by
  intro now later grounded
  simp only [sat, StateT.run]
  split
  · exact ⟨grounded, Extends.refl now, trivial⟩
  · split
    · exact ⟨grounded, Extends.refl now, trivial⟩
    · exact ⟨grounded.recordSolved rfl, extends_recordSolved rfl, trivial⟩

theorem answers_prove (hf : ctx.Holds f) : Answers ctx (prove f) := by
  apply (builds_not hf).bind
  intro now negated later built
  exact (answers_sat negated).bind fun _ _ _ _ => Allocates.pure fun _ _ => trivial

theorem answers_prove_implies (hf : ctx.Holds f) (hg : ctx.Holds g) :
    Answers ctx (do prove (← implies f g)) :=
  (builds_implies hf hg).bind fun _ _ _ built => answers_prove built

theorem answers_equivalent (hf : ctx.Holds f) (hg : ctx.Holds g) :
    Answers ctx (equivalent f g) := by
  apply (builds_implies hf hg).bind
  intro now forward later built
  apply (answers_prove built).bind
  intro now' proved later' _
  cases proved with
  | true =>
    have grown := later.trans later'
    exact answers_prove_implies (grown.holds hg) (grown.holds hf)
  | false => exact Allocates.pure fun _ _ => trivial

end Build

/-! ## Simplification -/

/-- The operand that a frame has of its own. -/
def Frame.other : Frame → Formula
  | .andLeft rhs => rhs
  | .andRight lhs => lhs
  | .orLeft rhs => rhs
  | .orRight lhs => lhs

namespace Build

open Context

variable {ctx : Context} {f top : Formula} {path : Path}

theorem builds_fill {frame : Frame} (hf : ctx.Holds f) (other : ctx.Holds frame.other) :
    Builds ctx (cons (frame.fill f)) := by
  apply builds_cons
  cases frame with
  | andLeft rhs => simp [Frame.fill, Formula.operands, hf, show ctx.Holds rhs from other]
  | andRight lhs => simp [Frame.fill, Formula.operands, hf, show ctx.Holds lhs from other]
  | orLeft rhs => simp [Frame.fill, Formula.operands, hf, show ctx.Holds rhs from other]
  | orRight lhs => simp [Frame.fill, Formula.operands, hf, show ctx.Holds lhs from other]

theorem allocates_plug {pos neg : Formula} (hpos : ctx.Holds pos) (hneg : ctx.Holds neg)
    (others : ∀ frame ∈ path, ctx.Holds frame.other) :
    Allocates ctx (plug path pos neg) fun now r => now.Holds r.1 ∧ now.Holds r.2 := by
  induction path generalizing ctx pos neg with
  | nil => exact Allocates.pure fun _ later => ⟨later.holds hpos, later.holds hneg⟩
  | cons frame path ih =>
    obtain ⟨other, others⟩ := List.forall_mem_cons.mp others
    apply (builds_fill hpos other).bind
    intro ctx₁ weaker later₁ hweaker
    apply (builds_fill (later₁.holds hneg) (later₁.holds other)).bind
    intro ctx₂ stronger later₂ hstronger
    exact ih (later₂.holds hweaker) hstronger fun frame hframe =>
      (later₁.trans later₂).holds (others frame hframe)

theorem answers_question {c : Prop} [Decidable c] {g : Formula} (hf : ctx.Holds f)
    (hg : ctx.Holds g) :
    Answers ctx (if c then pure false else do prove (← implies f g)) :=
  Allocates.ite (Allocates.pure fun _ _ => trivial) (answers_prove_implies hf hg)

theorem mayBuild_reduceLeaf (htop : ctx.Holds top)
    (others : ∀ frame ∈ path, ctx.Holds frame.other) : MayBuild ctx (reduceLeaf top path) := by
  apply (allocates_plug (holds_const true) (holds_const false) others).bind
  intro ctx₁ plugged later₁ _
  apply (builds_nnf plugged.1).bind
  intro ctx₂ weaker later₂ hweaker
  apply (builds_nnf plugged.2).bind
  intro ctx₃ stronger later₃ hstronger
  have later := (later₁.trans later₂).trans later₃
  apply (answers_question (later₃.holds hweaker) (later.holds htop)).bind
  intro ctx₄ proved later₄ _
  cases proved with
  | true => exact MayBuild.some ((later₃.trans later₄).holds hweaker)
  | false =>
    apply (answers_question ((later.trans later₄).holds htop) (later₄.holds hstronger)).bind
    intro ctx₅ proved later₅ _
    cases proved with
    | true => exact MayBuild.some ((later₄.trans later₅).holds hstronger)
    | false => exact MayBuild.none

theorem mayBuild_reduceFirst (room : Nat) (path : Path) (f : Formula) (htop : ctx.Holds top)
    (hf : ctx.Holds f) (others : ∀ frame ∈ path, ctx.Holds frame.other) :
    MayBuild ctx (reduceFirst top room path f) := by
  fun_induction reduceFirst top room path f generalizing ctx with
  | case1 path room lhs rhs left right =>
    apply (left htop hf.2.1 (List.forall_mem_cons.mpr ⟨hf.2.2, others⟩)).orElse
    intro now later
    exact right (later.holds htop) (later.holds hf.2.2) (List.forall_mem_cons.mpr
      ⟨later.holds hf.2.1, fun frame hframe => later.holds (others frame hframe)⟩)
  | case2 path room lhs rhs left right =>
    apply (left htop hf.2.1 (List.forall_mem_cons.mpr ⟨hf.2.2, others⟩)).orElse
    intro now later
    exact right (later.holds htop) (later.holds hf.2.2) (List.forall_mem_cons.mpr
      ⟨later.holds hf.2.1, fun frame hframe => later.holds (others frame hframe)⟩)
  | case3 => exact MayBuild.none
  | case4 => exact mayBuild_reduceLeaf htop others

theorem builds_reduceAll (rounds : Nat) (htop : ctx.Holds top) :
    Builds ctx (reduceAll rounds top) := by
  induction rounds generalizing ctx top with
  | zero => exact Builds.pure htop
  | succ rounds ih =>
    apply (mayBuild_reduceFirst simplifyDepth [] top htop htop (by simp)).bind
    intro now r later built
    cases r with
    | some f => exact ih (built f rfl)
    | none => exact Builds.pure (later.holds htop)

theorem builds_simplify (f : Formula) : Builds ctx (simplify f) :=
  (builds_nnf f).bind fun _ _ _ built => builds_reduceAll _ built

/-! ## Reading -/

section

variable {α β ε : Type} {m : ExceptT ε Build α} {k : α → ExceptT ε Build β}
  {p : Context → α → Prop} {q : Context → β → Prop}

/-- Only adds to the context, and if it succeeds, its answer is as described. -/
def Attempts (ctx : Context) (m : ExceptT ε Build α) (answer : Context → α → Prop) : Prop :=
  Allocates ctx m.run fun now r => ∀ x, r = .ok x → answer now x

theorem Attempts.pure {x : α} (h : ∀ now, ctx.Extends now → p now x) :
    Attempts ctx (Pure.pure x : ExceptT ε Build α) p :=
  Allocates.pure fun now later _ same => Except.ok.inj same ▸ h now later

theorem Attempts.throw (e : ε) : Attempts ctx (throw e : ExceptT ε Build α) p :=
  Allocates.pure fun _ _ _ none => nomatch none

theorem Attempts.lift {n : Build α} (hn : Allocates ctx n p) :
    Attempts ctx (liftM n : ExceptT ε Build α) p :=
  hn.map Except.ok fun _ _ answer _ same => Except.ok.inj same ▸ answer

theorem Attempts.bind (hm : Attempts ctx m p)
    (hk : ∀ now x, ctx.Extends now → p now x → Attempts now (k x) q) :
    Attempts ctx (m >>= k) q := by
  show Allocates ctx (m.run >>= ExceptT.bindCont k) _
  apply Allocates.bind hm
  intro now r later answer
  cases r with
  | ok x => exact hk now x later (answer x rfl)
  | error e => exact Allocates.pure fun _ _ _ none => nomatch none

end

theorem attempts_build (doc : FormulaDoc) :
    Attempts ctx doc.build fun now f => now.Holds f := by
  fun_induction FormulaDoc.build doc generalizing ctx with
  | case1 => exact Attempts.throw _
  | case2 => exact Attempts.pure fun _ _ => trivial
  | case3 => exact Attempts.throw _
  | case4 => exact Attempts.pure fun _ _ => trivial
  | case5 => exact Attempts.throw _
  | case6 _ _ arg _ _ _ _ ih =>
    exact ih.bind fun _ _ _ built => Attempts.lift (builds_not built)
  | case7 _ _ _ lhs rhs _ _ _ ihl ihr =>
    apply ihl.bind
    intro now f later built
    exact ihr.bind fun _ _ later' built' => Attempts.lift (builds_and (later'.holds built) built')
  | case8 _ _ _ lhs rhs _ _ _ _ ihl ihr =>
    apply ihl.bind
    intro now f later built
    exact ihr.bind fun _ _ later' built' => Attempts.lift (builds_or (later'.holds built) built')
  | case9 => exact Attempts.throw _

theorem attempts_decompileFront (steps : Nat) (code : Bytecode) :
    Attempts ctx (Bytecode.decompileFront steps code) fun now r => now.Holds r.1 := by
  fun_induction Bytecode.decompileFront steps code generalizing ctx with
  | case1 => exact Attempts.throw _
  | case2 => exact Attempts.throw _
  | case3 => exact Attempts.pure fun _ _ => trivial
  | case4 => exact Attempts.pure fun _ _ => trivial
  | case5 => exact Attempts.pure fun _ _ => trivial
  | case6 => exact Attempts.throw _
  | case7 steps code _ _ _ ih =>
    apply ih.bind
    intro now r later built
    exact (Attempts.lift (builds_not built)).bind fun _ _ _ built =>
      Attempts.pure fun _ grows => grows.holds built
  | case8 steps code _ _ _ _ ih ih' =>
    apply ih.bind
    intro now r later built
    apply (ih' r.2).bind
    intro now r' later' built'
    exact (Attempts.lift (builds_and (later'.holds built) built')).bind fun _ _ _ built =>
      Attempts.pure fun _ grows => grows.holds built
  | case9 steps code _ _ _ _ _ ih ih' =>
    apply ih.bind
    intro now r later built
    apply (ih' r.2).bind
    intro now r' later' built'
    exact (Attempts.lift (builds_or (later'.holds built) built')).bind fun _ _ _ built =>
      Attempts.pure fun _ grows => grows.holds built
  | case10 => exact Attempts.throw _

theorem attempts_decompile (code : Bytecode) :
    Attempts ctx code.decompile fun now f => now.Holds f :=
  (attempts_decompileFront code.length code).bind fun _ _ _ built =>
    Attempts.pure fun _ grows => grows.holds built

end Build

end TraceRegex
