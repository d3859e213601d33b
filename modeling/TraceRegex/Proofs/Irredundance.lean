import TraceRegex.Proofs.HashConsing
import TraceRegex.Proofs.NormalForms

/-! # Simplified formulas have no redundant leaves

A round of simplification that finds nothing to replace has tried every leaf within the depth that
it descends to, and what lies at that depth as if it were a leaf.  The candidate that it tries is
never the formula itself, since it has fewer leaves; so each leaf was kept because the formula means
something else without it.  A formula that always has the same truth value does not withstand this,
however deep it is, unless it is a constant.
-/

namespace TraceRegex

namespace Formula

variable {f : Formula}

/-- Neither a conjunction nor a disjunction. -/
def isLeaf : Formula → Bool
  | .const _ | .var _ | .not _ => true
  | .and _ _ | .or _ _ => false

/-- A literal can have either truth value. -/
theorem Reduced.exists_eval_eq (h : Reduced f) (leaf : f.isLeaf = true) (b : Bool) :
    ∃ l, f.eval l = b := by
  cases h with
  | var i => exact ⟨Letter.empty.put i.toNat b, by simp [eval, Letter.holds_put]⟩
  | not i => exact ⟨Letter.empty.put i.toNat (!b), by simp [eval, Letter.holds_put]⟩
  | and _ _ _ => cases leaf
  | or _ _ _ => cases leaf

end Formula

/-! ## Positions -/

namespace Path

theorem whole_append (inner outer : Path) (f : Formula) :
    whole (inner ++ outer) f = outer.whole (inner.whole f) :=
  List.foldl_append

theorem whole_concat (inner : Path) (frame : Frame) (f : Formula) :
    whole (inner ++ [frame]) f = frame.fill (inner.whole f) :=
  whole_append inner [frame] f

/-- Nothing is below a leaf. -/
theorem eq_nil_of_isLeaf {path : Path} {part : Formula} (h : (path.whole part).isLeaf = true) :
    path = [] := by
  rcases List.eq_nil_or_concat path with rfl | ⟨inner, frame, rfl⟩
  · rfl
  rw [List.concat_eq_append, whole_concat] at h
  cases frame <;> cases h

end Path

namespace Formula

/-- The subformula that a search of the given depth takes for a leaf at the end of the path. -/
structure Ends (f : Formula) (depth : Nat) (path : Path) (part : Formula) : Prop where
  whole_eq : path.whole part = f
  within : path.length ≤ depth
  stops : part.isLeaf = true ∨ path.length = depth

variable {f part lhs rhs : Formula} {depth : Nat} {path : Path}

/-- Below a connective there is an outermost frame, and the rest of the path is below one side. -/
theorem Ends.exists_frame (h : f.Ends (depth + 1) path part) (fork : f.isLeaf = false) :
    ∃ (frame : Frame) (inner : Path) (side : Formula), path = inner ++ [frame] ∧
      frame.fill side = f ∧ side.Ends depth inner part := by
  obtain ⟨whole_eq, within, stops⟩ := h
  rcases List.eq_nil_or_concat path with rfl | ⟨inner, frame, rfl⟩
  · -- the connective itself is not taken for a leaf, since there is depth left
    have same : part = f := whole_eq
    simp [same, fork] at stops
  · simp only [List.concat_eq_append, List.length_append, List.length_singleton,
      Nat.add_le_add_iff_right, Nat.add_right_cancel_iff, Path.whole_concat] at *
    exact ⟨frame, inner, Path.whole inner part, rfl, whole_eq, rfl, within, stops⟩

theorem Ends.of_and (h : (Formula.and lhs rhs).Ends (depth + 1) path part) :
    ∃ inner : Path, (path = inner ++ [.andLeft rhs] ∧ lhs.Ends depth inner part) ∨
      (path = inner ++ [.andRight lhs] ∧ rhs.Ends depth inner part) := by
  obtain ⟨frame, inner, side, rfl, fill, ends⟩ := h.exists_frame rfl
  refine ⟨inner, ?_⟩
  cases frame <;> cases fill
  · exact .inl ⟨rfl, ends⟩
  · exact .inr ⟨rfl, ends⟩

theorem Ends.of_or (h : (Formula.or lhs rhs).Ends (depth + 1) path part) :
    ∃ inner : Path, (path = inner ++ [.orLeft rhs] ∧ lhs.Ends depth inner part) ∨
      (path = inner ++ [.orRight lhs] ∧ rhs.Ends depth inner part) := by
  obtain ⟨frame, inner, side, rfl, fill, ends⟩ := h.exists_frame rfl
  refine ⟨inner, ?_⟩
  cases frame <;> cases fill
  · exact .inl ⟨rfl, ends⟩
  · exact .inr ⟨rfl, ends⟩

theorem Ends.ne_nil (h : f.Ends (depth + 1) path part) (fork : f.isLeaf = false) : path ≠ [] := by
  obtain ⟨frame, inner, -, rfl, -⟩ := h.exists_frame fork
  simp

theorem Ends.extend {side : Formula} (h : side.Ends depth path part) (frame : Frame) :
    (frame.fill side).Ends (depth + 1) (path ++ [frame]) part where
  whole_eq := by rw [Path.whole_concat, h.whole_eq]
  within := by simpa using h.within
  stops := by simpa using h.stops

/-- Some subformula is always reached, by going to the left. -/
theorem exists_ends (f : Formula) (depth : Nat) : ∃ path part, f.Ends depth path part := by
  induction f generalizing depth with
  | const b => exact ⟨[], _, rfl, Nat.zero_le _, .inl rfl⟩
  | var i => exact ⟨[], _, rfl, Nat.zero_le _, .inl rfl⟩
  | not f _ => exact ⟨[], _, rfl, Nat.zero_le _, .inl rfl⟩
  | and f g ihf _ =>
    cases depth with
    | zero => exact ⟨[], _, rfl, Nat.le_refl _, .inr rfl⟩
    | succ depth =>
      obtain ⟨path, part, ends⟩ := ihf depth
      exact ⟨_, part, ends.extend (.andLeft g)⟩
  | or f g ihf _ =>
    cases depth with
    | zero => exact ⟨[], _, rfl, Nat.le_refl _, .inr rfl⟩
    | succ depth =>
      obtain ⟨path, part, ends⟩ := ihf depth
      exact ⟨_, part, ends.extend (.orLeft g)⟩

end Formula

/-! ## What a search without a result has tried -/

namespace Build

theorem Returns.none_of_orElse {m n : Build (Option Formula)} {r s : Option Formula}
    (hm : Returns m r) (hn : Returns n s)
    (h : Returns (do match ← m with | some f => return some f | none => n) none) :
    Returns m none ∧ Returns n none := by
  obtain ⟨rfl, rfl⟩ := Option.or_eq_none_iff.mp ((hm.orElse hn).unique h)
  exact ⟨hm, hn⟩

/-- Where the search does not go down, the path ends. -/
theorem eq_nil_of_not_fork {room : Nat} {inner : Path} {f part : Formula}
    (ends : f.Ends room inner part)
    (not_and : ∀ room' lhs rhs, room = room' + 1 → f = .and lhs rhs → False)
    (not_or : ∀ room' lhs rhs, room = room' + 1 → f = .or lhs rhs → False) : inner = [] := by
  cases room with
  | zero => exact List.eq_nil_of_length_eq_zero (Nat.le_zero.mp ends.within)
  | succ room =>
    have leaf : (inner.whole part).isLeaf = f.isLeaf := congrArg Formula.isLeaf ends.whole_eq
    refine Path.eq_nil_of_isLeaf (leaf.trans ?_)
    cases f with
    | const _ | var _ | not _ => rfl
    | and lhs rhs => exact (not_and room lhs rhs rfl rfl).elim
    | or lhs rhs => exact (not_or room lhs rhs rfl rfl).elim

/-- A search that finds nothing has tried every place at which it takes something for a leaf. -/
theorem reduceLeaf_returns_none {top : Formula} (room : Nat) (path : Path) (f : Formula)
    (whole : path.whole f = top) (exhausted : Returns (reduceFirst top room path f) none)
    {inner : Path} {part : Formula} (ends : f.Ends room inner part) (below : inner ++ path ≠ []) :
    Returns (reduceLeaf top (inner ++ path)) none := by
  fun_induction reduceFirst top room path f generalizing inner with
  | case1 room path lhs rhs left right =>
    obtain ⟨r, hr, -⟩ := reduceFirst_returns room (.andLeft rhs :: path) lhs whole
    obtain ⟨s, hs, -⟩ := reduceFirst_returns room (.andRight lhs :: path) rhs whole
    obtain ⟨onLeft, onRight⟩ := hr.none_of_orElse hs exhausted
    obtain ⟨inner', ⟨rfl, ends'⟩ | ⟨rfl, ends'⟩⟩ := ends.of_and
    · simpa using left whole onLeft ends' (by simp)
    · simpa using right whole onRight ends' (by simp)
  | case2 room path lhs rhs left right =>
    obtain ⟨r, hr, -⟩ := reduceFirst_returns room (.orLeft rhs :: path) lhs whole
    obtain ⟨s, hs, -⟩ := reduceFirst_returns room (.orRight lhs :: path) rhs whole
    obtain ⟨onLeft, onRight⟩ := hr.none_of_orElse hs exhausted
    obtain ⟨inner', ⟨rfl, ends'⟩ | ⟨rfl, ends'⟩⟩ := ends.of_or
    · simpa using left whole onLeft ends' (by simp)
    · simpa using right whole onRight ends' (by simp)
  | case3 f room not_and not_or =>
    rw [eq_nil_of_not_fork ends not_and not_or] at below
    exact absurd rfl below
  | case4 path f room _ not_and not_or =>
    rw [eq_nil_of_not_fork ends not_and not_or]
    exact exhausted

/-- A place at which `reduceLeaf` replaces nothing matters: the whole means something else with
    either constant there. -/
theorem exists_eval_ne {path : Path} {part : Formula} (below : path ≠ [])
    (kept : Returns (reduceLeaf (path.whole part) path) none) (b : Bool) :
    ∃ l, (path.whole (.const b)).eval l ≠ (path.whole part).eval l := by
  obtain ⟨weaken, strengthen, returned, weakened, strengthened⟩ :=
    reduceLeaf_returns_candidate (path.whole part) path
  -- a candidate has fewer leaves, so it is refused only for its meaning
  have other (b : Bool) : (path.whole (.const b)).nnf ≠ path.whole part := fun same =>
    Nat.ne_of_lt (Path.leafCount_whole_const_lt below b part) (congrArg Formula.leafCount same)
  apply Classical.byContradiction
  intro none
  have same : ∀ l, (path.whole (.const b)).eval l = (path.whole part).eval l := by
    simpa using none
  have found := returned.unique kept
  cases b with
  | true =>
    have chosen : weaken = true := weakened.mpr ⟨other true, fun l h => (same l).symm.trans h⟩
    simp [chosen] at found
  | false =>
    have chosen : strengthen = true :=
      strengthened.mpr ⟨other false, fun l h => (same l).trans h⟩
    cases weaken <;> simp [chosen] at found

end Build

/-! ## Irreducible formulas -/

namespace Formula

open Build

/-- The search for a leaf to replace finds none. -/
def Irreducible (f : Formula) : Prop := Returns (reduceFirst f simplifyDepth [] f) none

variable {f part : Formula} {path : Path}

theorem Irreducible.exists_eval_ne (h : f.Irreducible) (ends : f.Ends simplifyDepth path part)
    (below : path ≠ []) (b : Bool) : ∃ l, (path.whole (.const b)).eval l ≠ f.eval l := by
  have kept := reduceLeaf_returns_none simplifyDepth [] f rfl h ends (by simpa using below)
  rw [List.append_nil] at kept
  obtain ⟨rfl, -, -⟩ := ends
  exact Build.exists_eval_ne below kept b

/-- An irreducible formula that always has the same truth value is a constant, whatever its depth:
    the first place that is searched could be replaced. -/
theorem Irreducible.eq_const (h : f.Irreducible) (normal : Normal f) {b : Bool}
    (always : ∀ l, f.eval l = b) : f = .const b := by
  cases normal with
  | const c => rw [show c = b from always ∅]
  | reduced reduced =>
    exfalso
    cases leaf : f.isLeaf with
    | true =>
      obtain ⟨l, hl⟩ := reduced.exists_eval_eq leaf (!b)
      simp [always l] at hl
    | false =>
      obtain ⟨path, part, ends⟩ := f.exists_ends simplifyDepth
      obtain ⟨l, changed⟩ := h.exists_eval_ne ends (Ends.ne_nil ends leaf) b
      apply changed
      rw [always l]
      have valued := always l
      rw [← ends.whole_eq] at valued
      -- putting the value of the whole in one place moves the whole towards that value
      cases b with
      | true => exact path.eval_whole_mono (fun _ => rfl) valued
      | false =>
        apply Bool.eq_false_iff.mpr
        intro holds
        have := path.eval_whole_mono (g := part) (fun impossible => by cases impossible) holds
        rw [valued] at this
        cases this

/-- A leaf that is not too deep in an irreducible formula cannot be replaced by a constant. -/
theorem Irreducible.leaf_matters (h : f.Irreducible) (normal : Normal f) (other : f.isConst = false)
    (leaf : part.isLeaf = true) (here : f = path.whole part) (within : path.length ≤ simplifyDepth)
    (b : Bool) : ∃ l, (path.whole (.const b)).eval l ≠ f.eval l := by
  by_cases root : path = []
  · subst root
    have same : f = part := here
    subst same
    obtain ⟨l, hl⟩ := (normal.reduced_of_not_const other).exists_eval_eq leaf (!b)
    exact ⟨l, by simp [Path.whole, eval, hl]⟩
  · exact h.exists_eval_ne ⟨here.symm, within, .inl leaf⟩ root b

end Formula

namespace Build

open Formula

/-- As many rounds as there are leaves lead to an irreducible formula. -/
theorem exists_reduceAll_irreducible {rounds : Nat} {top : Formula}
    (enough : top.leafCount ≤ rounds) :
    ∃ g, Returns (reduceAll rounds top) g ∧ g.Irreducible := by
  induction rounds generalizing top with
  | zero => exact absurd top.leafCount_pos (Nat.not_lt.mpr enough)
  | succ rounds ih =>
    obtain ⟨r, searched, reduction⟩ := reduceFirst_returns simplifyDepth [] top rfl
    cases r with
    | none => exact ⟨top, searched.bind (Returns.pure top), searched⟩
    | some g =>
      have fewer := (reduction g rfl).leafCount_lt
      obtain ⟨f, returned, irreducible⟩ := ih (Nat.le_of_lt_succ (Nat.lt_of_lt_of_le fewer enough))
      exact ⟨f, searched.bind returned, irreducible⟩

theorem simplify_returns_irreducible (f : Formula) :
    ∃ g, Returns (simplify f) g ∧ g.Irreducible ∧ Normal g := by
  obtain ⟨g, returned, irreducible⟩ := exists_reduceAll_irreducible (Nat.le_refl f.nnf.leafCount)
  obtain ⟨g', returned', normal⟩ := exists_reduceAll_returns (P := Normal)
    (fun reduction _ => reduction.normal) f.nnf.leafCount (normal_nnf f)
  cases returned.unique returned'
  exact ⟨g, (nnf_returns f).bind returned, irreducible, normal⟩

/-- Simplification leaves an irreducible normal form as it is. -/
theorem simplify_returns_self {f : Formula} (h : f.Irreducible) (normal : Normal f) :
    Returns (simplify f) f := by
  have start := nnf_returns f
  rw [normal.nnf_eq] at start
  apply start.bind
  obtain ⟨rounds, same⟩ := Nat.exists_eq_succ_of_ne_zero (Nat.ne_of_gt f.leafCount_pos)
  rw [same]
  exact Returns.bind h (Returns.pure f)

end Build

namespace Session

theorem simplify_answers {f g : Formula} (h : Build.Returns (Build.simplify f) g) :
    Build.Returns (Operation.simplify f).run (some g) :=
  h.map some

/-- After any operations on a context, simplification of a formula gives a handle `h` and a tree `g`
    such that simplification of `g` gives the same handle.  The tree is a constant exactly if the
    formula always has the truth value of that constant.  If it is no constant, then putting a
    constant for any single leaf, below as many connectives as simplification descends through,
    changes the meaning. -/
theorem simplified_irredundant (s : Session) (reached : start.Leads s) (f : Formula)
    (known : f ∈ s.obtained.map Prod.snd) :
    let t := s.step (.simplify f)
    ∃ h g, t.obtained = s.obtained ++ [(h, g)] ∧
      (t.step (.simplify g)).obtained = t.obtained ++ [(h, g)] ∧
      (g = .const true ↔ ∀ l, f.eval l = true) ∧ (g = .const false ↔ ∀ l, f.eval l = false) ∧
      (g.isConst = false → ∀ (path : Path) (leaf : Formula), leaf.isLeaf = true →
        g = path.whole leaf → path.length ≤ simplifyDepth →
        ∀ b, ∃ l, (path.whole (.const b)).eval l ≠ g.eval l) := by
  intro t
  obtain ⟨g, returned, irreducible, normal⟩ := Build.simplify_returns_irreducible f
  obtain ⟨g', returned', restates⟩ := Build.simplify_returns f
  cases returned.unique returned'
  have operands : ∀ k ∈ (Operation.simplify f).operands, k ∈ s.obtained.map Prod.snd := by
    simpa [Operation.operands] using known
  obtain ⟨sound, -⟩ := reached.sound.step (.simplify f) operands
  have obtained : t.obtained = s.obtained ++ [(t.context.handle g, g)] :=
    obtained_step (simplify_answers returned) s
  have last : (t.context.handle g, g) ∈ t.obtained := by simp [obtained]
  have constant (b : Bool) : g = .const b ↔ ∀ l, f.eval l = b := by
    constructor
    · rintro rfl l
      exact (restates.eval_eq l).symm
    · intro always
      exact irreducible.eq_const normal fun l => (restates.eval_eq l).trans (always l)
  refine ⟨_, g, obtained, ?_, constant true, constant false, ?_⟩
  · exact sound.obtained_step_of_mem (by simpa [Operation.operands] using ⟨_, last⟩)
      (simplify_answers (Build.simplify_returns_self irreducible normal)) last
  · intro other path leaf isLeaf here within
    exact irreducible.leaf_matters normal other isLeaf here within

/-- An atom or else its conjunction with another one: the other atom is redundant, so the formula is
    not left as it is, and it does not become a constant. -/
theorem simplified_irredundant_of_absorption :
    ∃ (s : Session) (f : Formula), f = .or (.atom 0) (.and (.atom 0) (.atom 1)) ∧
      start.Leads s ∧ f ∈ s.obtained.map Prod.snd ∧
      ∃ h g, (s.step (.simplify f)).obtained = s.obtained ++ [(h, g)] ∧
        ((s.step (.simplify f)).step (.simplify g)).obtained = s.obtained ++ [(h, g), (h, g)] ∧
        g ≠ f ∧ g.isConst = false := by
  let f : Formula := .or (.atom 0) (.and (.atom 0) (.atom 1))
  have meaning (l : Letter) : f.eval l = l.holds 0 := by
    show (l.holds 0 || (l.holds 0 && l.holds 1)) = l.holds 0
    cases l.holds 0 <;> rfl
  obtain ⟨s, reached, known⟩ := exists_leads start f
  obtain ⟨h, g, first, again, valid, unsatisfiable, matters⟩ :=
    simplified_irredundant s reached f known
  have other : g.isConst = false := by
    cases g with
    | const b =>
      cases b with
      | true => exact absurd (valid.mp rfl ∅) (by simp [meaning, EmptyCollection.emptyCollection])
      | false =>
        have never := unsatisfiable.mp rfl (Letter.empty.put 0 true)
        simp [meaning, Letter.holds_put] at never
    | var _ | not _ | and _ _ | or _ _ => rfl
  refine ⟨s, f, rfl, reached, known, h, g, first, by simpa [first] using again, ?_, other⟩
  rintro rfl
  obtain ⟨l, changed⟩ :=
    matters other [.andRight (.atom 0), .orRight (.atom 0)] (.atom 1) rfl rfl (by decide) false
  apply changed
  rw [meaning]
  simp [Path.whole, Frame.fill, Formula.eval, Formula.atom]

end Session

end TraceRegex
