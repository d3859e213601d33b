import TraceRegex.Proofs.Allocation

/-! # Handles

Outside a context, a formula is known by a handle: its connective, and the value of a constant, the
number of an atom, or the place of a compound formula among those with the same connective.  What a
handle stands for is found by following the handles of the operands (`Context.Denotes`).

The main result is about any sequence of operations on one context.  The handles that they give out
are equal exactly if they stand for the same tree, and go on standing for it whatever is done later;
and following the operands of a handle always comes to an end.
-/

namespace TraceRegex

namespace Context

/-- The compound formulas with a connective, in order of construction. -/
def ofKind (ctx : Context) (k : Formula.Kind) : List Formula :=
  ctx.nodes.toList.filter (·.kind = k)

/-- How many formulas with its connective were built before a formula. -/
def placeInKind (ctx : Context) (f : Formula) : Nat :=
  (ctx.nodes.toList.take (ctx.serial.getD f ctx.nodes.size)).countP (·.kind = f.kind)

/-- The handle of a formula. -/
def handle (ctx : Context) : Formula → Handle
  | .const b => ⟨.const, if b then 1 else 0⟩
  | .var i => ⟨.var, i⟩
  | f => ⟨f.kind, (ctx.placeInKind f).toUInt32⟩

/-- The formula that the handle of a compound formula refers to. -/
def node? (ctx : Context) (h : Handle) : Option Formula :=
  match h.kind with
  | .const | .var => none
  | k => (ctx.ofKind k)[h.ref.toNat]?

/-- The handles that the context keeps for the operands of a compound formula. -/
def operandHandles (ctx : Context) (h : Handle) : List Handle :=
  ((ctx.node? h).elim [] Formula.operands).map ctx.handle

/-- The handle stands for the tree, whose operands are found by following handles. -/
def Denotes (ctx : Context) (h : Handle) : Formula → Prop
  | .const b => h = ⟨.const, if b then 1 else 0⟩
  | .var i => h = ⟨.var, i⟩
  | .not f => h.kind = .not ∧ ∃ k, ctx.operandHandles h = [k] ∧ ctx.Denotes k f
  | .and f g => h.kind = .and ∧
    ∃ k l, ctx.operandHandles h = [k, l] ∧ ctx.Denotes k f ∧ ctx.Denotes l g
  | .or f g => h.kind = .or ∧
    ∃ k l, ctx.operandHandles h = [k, l] ∧ ctx.Denotes k f ∧ ctx.Denotes l g

variable {ctx later : Context} {f g : Formula} {h : Handle}

/-! ## Places -/

theorem serial_eq_of_getElem? {i : Nat} (found : ctx.nodes[i]? = some f) :
    ctx.serial.getD f ctx.nodes.size = i := by
  rw [Std.HashMap.getD_eq_getD_getElem?, (ctx.serial_iff f i).mpr found, Option.getD_some]

theorem serial_eq_idxOf (ctx : Context) (f : Formula) :
    ctx.serial.getD f ctx.nodes.size = ctx.nodes.toList.idxOf f := by
  by_cases held : f ∈ ctx.nodes.toList
  · apply serial_eq_of_getElem?
    have inside := List.idxOf_lt_length_iff.mpr held
    rw [← Array.getElem?_toList, List.getElem?_eq_getElem inside, List.getElem_idxOf]
  · have absent : ctx.serial[f]? = none := by
      cases found : ctx.serial[f]? with
      | none => rfl
      | some i =>
        rw [ctx.serial_iff, ← Array.getElem?_toList] at found
        exact absurd (List.mem_of_getElem? found) held
    rw [Std.HashMap.getD_eq_getD_getElem?, absent, Option.getD_none,
      List.idxOf_eq_length held, Array.length_toList]

theorem placeInKind_eq (ctx : Context) (f : Formula) :
    ctx.placeInKind f = Handle.placeOf ctx.nodes.toList f := by
  rw [placeInKind, serial_eq_idxOf, Handle.placeOf]

/-- The handle of a formula depends on the order of construction only. -/
theorem handle_eq_ofTree (ctx : Context) (f : Formula) :
    ctx.handle f = Handle.ofTree ctx.nodes.toList f := by
  cases f with
  | const b => rfl
  | var i => rfl
  | not f => simp only [handle, Handle.ofTree, placeInKind_eq]
  | and f g => simp only [handle, Handle.ofTree, placeInKind_eq]
  | or f g => simp only [handle, Handle.ofTree, placeInKind_eq]

theorem Holds.known (h : ctx.Holds f) : Handle.Known ctx.nodes.toList f :=
  h.mem.imp_right Array.mem_toList_iff.mpr

theorem Extends.exists_append (h : ctx.Extends later) :
    ∃ more, later.nodes.toList = ctx.nodes.toList ++ more := by
  have initial : ctx.nodes.toList <+: later.nodes.toList := by
    rw [List.prefix_iff_getElem?]
    intro i inside
    rw [Array.getElem?_toList, h i]
    rw [← Array.getElem?_toList, List.getElem?_eq_getElem inside]
  exact ⟨_, (List.prefix_iff_eq_append.mp initial).symm⟩

theorem Extends.handle_eq (h : ctx.Extends later) (hf : ctx.Holds f) :
    later.handle f = ctx.handle f := by
  obtain ⟨more, grown⟩ := h.exists_append
  rw [handle_eq_ofTree, handle_eq_ofTree, grown, Handle.ofTree_append hf.known]

/-! ## What handles stand for -/

theorem Denotes.kind_eq (d : ctx.Denotes h f) : h.kind = f.kind := by
  cases f with
  | const b => exact congrArg Handle.kind d
  | var i => exact congrArg Handle.kind d
  | not f => exact d.1
  | and f g => exact d.1
  | or f g => exact d.1

/-- A handle stands for one tree at most. -/
theorem Denotes.unique (d : ctx.Denotes h f) (d' : ctx.Denotes h g) : f = g := by
  have kinds := d.kind_eq.symm.trans d'.kind_eq
  induction f generalizing h g with
  | const b =>
    match g, kinds with
    | .const c, _ =>
      have same := congrArg Handle.ref (d.symm.trans d')
      cases b <;> cases c <;> simp_all
  | var i =>
    match g, kinds with
    | .var j, _ => exact congrArg (fun h => Formula.var h.ref) (d.symm.trans d')
  | not f ih =>
    match g, kinds with
    | .not g, _ =>
      obtain ⟨-, k, stored, inner⟩ := d
      obtain ⟨-, k', stored', inner'⟩ := d'
      cases stored.symm.trans stored'
      rw [ih inner inner' (inner.kind_eq.symm.trans inner'.kind_eq)]
  | and f f' ih ih' =>
    match g, kinds with
    | .and g g', _ =>
      obtain ⟨-, k, l, stored, left, right⟩ := d
      obtain ⟨-, k', l', stored', left', right'⟩ := d'
      cases stored.symm.trans stored'
      rw [ih left left' (left.kind_eq.symm.trans left'.kind_eq),
        ih' right right' (right.kind_eq.symm.trans right'.kind_eq)]
  | or f f' ih ih' =>
    match g, kinds with
    | .or g g', _ =>
      obtain ⟨-, k, l, stored, left, right⟩ := d
      obtain ⟨-, k', l', stored', left', right'⟩ := d'
      cases stored.symm.trans stored'
      rw [ih left left' (left.kind_eq.symm.trans left'.kind_eq),
        ih' right right' (right.kind_eq.symm.trans right'.kind_eq)]

theorem node?_handle (room : ∀ k, (ctx.ofKind k).length < UInt32.size) (hf : f ∈ ctx.nodes)
    (compound : f.operands ≠ []) : ctx.node? (ctx.handle f) = some f := by
  have listed := Array.mem_toList_iff.mpr hf
  have place : (ctx.placeInKind f).toUInt32.toNat = ctx.placeInKind f := by
    rw [placeInKind_eq]
    exact Nat.mod_eq_of_lt (Handle.placeOf_lt room listed)
  have found : (ctx.ofKind f.kind)[(ctx.placeInKind f).toUInt32.toNat]? = some f := by
    rw [place, placeInKind_eq]
    exact Handle.getElem?_placeOf listed
  cases f with
  | const b => exact absurd rfl compound
  | var i => exact absurd rfl compound
  | not f => exact found
  | and f g => exact found
  | or f g => exact found

theorem node?_handle_of_leaf (leaf : f.operands = []) : ctx.node? (ctx.handle f) = none := by
  cases f with
  | const b => rfl
  | var i => rfl
  | not f => cases leaf
  | and f g => cases leaf
  | or f g => cases leaf

theorem denotes_handle (room : ∀ k, (ctx.ofKind k).length < UInt32.size) (hf : ctx.Holds f) :
    ctx.Denotes (ctx.handle f) f := by
  have stored {f : Formula} (hf : f ∈ ctx.nodes) (compound : f.operands ≠ []) :
      ctx.operandHandles (ctx.handle f) = f.operands.map ctx.handle := by
    rw [operandHandles, node?_handle room hf compound]
    rfl
  induction f with
  | const b => rfl
  | var i => rfl
  | not f ih => exact ⟨rfl, _, stored hf.1 (by simp [Formula.operands]), ih hf.2⟩
  | and f g ihf ihg =>
    exact ⟨rfl, _, _, stored hf.1 (by simp [Formula.operands]), ihf hf.2.1, ihg hf.2.2⟩
  | or f g ihf ihg =>
    exact ⟨rfl, _, _, stored hf.1 (by simp [Formula.operands]), ihf hf.2.1, ihg hf.2.2⟩

/-! ## Following operands -/

/-- When the compound formula of a handle was built, counted from one. -/
def builtAt (ctx : Context) (h : Handle) : Nat :=
  (ctx.node? h).elim 0 fun f => ctx.serial.getD f ctx.nodes.size + 1

theorem mem_nodes_of_node? (found : ctx.node? h = some f) : f ∈ ctx.nodes := by
  have listed (k : Formula.Kind) (found : (ctx.ofKind k)[h.ref.toNat]? = some f) :
      f ∈ ctx.nodes := by
    have mem := List.mem_of_getElem? found
    exact Array.mem_toList_iff.mp (List.mem_filter.mp mem).1
  unfold node? at found
  split at found
  · cases found
  · cases found
  · exact listed _ found

theorem Grounded.builtAt_lt (grounded : ctx.Grounded)
    (room : ∀ k, (ctx.ofKind k).length < UInt32.size) {k : Handle}
    (operand : k ∈ ctx.operandHandles h) : ctx.builtAt k < ctx.builtAt h := by
  unfold operandHandles at operand
  cases found : ctx.node? h with
  | none => simp [found] at operand
  | some f =>
    rw [found] at operand
    obtain ⟨g, hg, rfl⟩ := List.mem_map.mp operand
    obtain ⟨i, place⟩ := Array.mem_iff_getElem?.mp (mem_nodes_of_node? found)
    simp only [builtAt, found, Option.elim_some, serial_eq_of_getElem? place]
    by_cases leaf : g.operands = []
    · simp [node?_handle_of_leaf leaf]
    · cases grounded.operands_before i f place g hg with
      | inl none => exact absurd none leaf
      | inr earlier =>
        obtain ⟨j, before, place'⟩ := earlier
        have held := Array.mem_iff_getElem?.mpr ⟨j, place'⟩
        simp only [node?_handle room held leaf, Option.elim_some, serial_eq_of_getElem? place']
        omega

theorem Grounded.wellFounded_operands (grounded : ctx.Grounded)
    (room : ∀ k, (ctx.ofKind k).length < UInt32.size) :
    WellFounded fun k h => k ∈ ctx.operandHandles h :=
  Subrelation.wf (grounded.builtAt_lt room) (InvImage.wf ctx.builtAt Nat.lt_wfRel.wf)

end Context

/-! ## Sessions -/

/-- An operation on a context, with the formulas that it is given. -/
inductive Operation where
  | value (b : Bool)
  | var (index : Nat)
  | not (f : Formula)
  | and (f g : Formula)
  | or (f g : Formula)
  | implies (f g : Formula)
  | conjunction (fs : List Formula)
  | disjunction (fs : List Formula)
  | nnf (f : Formula)
  | sat (f : Formula)
  | prove (f : Formula)
  | equivalent (f g : Formula)
  | simplify (f : Formula)
  | read (doc : FormulaDoc)
  | decompile (code : Bytecode)

namespace Operation

def operands : Operation → List Formula
  | .value _ | .var _ | .read _ | .decompile _ => []
  | .not f | .nnf f | .sat f | .prove f | .simplify f => [f]
  | .and f g | .or f g | .implies f g | .equivalent f g => [f, g]
  | .conjunction fs | .disjunction fs => fs

/-- Runs the operation, which may give a formula. -/
def run : Operation → Build (Option Formula)
  | .value b => return some (.const b)
  | .var i => return some (.atom i)
  | .not f => some <$> Build.not f
  | .and f g => some <$> Build.and f g
  | .or f g => some <$> Build.or f g
  | .implies f g => some <$> Build.implies f g
  | .conjunction fs => some <$> Build.conjunction fs
  | .disjunction fs => some <$> Build.disjunction fs
  | .nnf f => some <$> Build.nnf f
  | .sat f => (fun _ => none) <$> Build.sat f
  | .prove f => (fun _ => none) <$> Build.prove f
  | .equivalent f g => (fun _ => none) <$> Build.equivalent f g
  | .simplify f => some <$> Build.simplify f
  | .read doc => Except.toOption <$> doc.build.run
  | .decompile code => Except.toOption <$> code.decompile.run

theorem mayBuild_run {ctx : Context} (op : Operation) (h : ∀ f ∈ op.operands, ctx.Holds f) :
    Build.MayBuild ctx op.run := by
  have built {m : Build Formula} (hm : Build.Builds ctx m) : Build.MayBuild ctx (some <$> m) :=
    hm.map some fun _ _ held _ same => Option.some.inj same ▸ held
  have asked {m : Build Bool} (hm : Build.Answers ctx m) :
      Build.MayBuild ctx ((fun _ => none) <$> m) :=
    hm.map _ fun _ _ _ _ impossible => nomatch impossible
  have attempted {ε : Type} {m : ExceptT ε Build Formula}
      (hm : Build.Attempts ctx m fun now f => now.Holds f) :
      Build.MayBuild ctx (Except.toOption <$> m.run) := by
    apply hm.map
    intro now r held f same
    cases r with
    | ok g => exact held f (congrArg Except.ok (Option.some.inj same))
    | error e => cases same
  cases op with
  | value b => exact Build.MayBuild.some trivial
  | var i => exact Build.MayBuild.some trivial
  | not f => exact built (Build.builds_not (h f (by simp [operands])))
  | and f g =>
    exact built (Build.builds_and (h f (by simp [operands])) (h g (by simp [operands])))
  | or f g => exact built (Build.builds_or (h f (by simp [operands])) (h g (by simp [operands])))
  | implies f g =>
    exact built (Build.builds_implies (h f (by simp [operands])) (h g (by simp [operands])))
  | conjunction fs => exact built (Build.builds_conjunction_go _ fs trivial h)
  | disjunction fs => exact built (Build.builds_disjunction_go _ fs trivial h)
  | nnf f => exact built (Build.builds_nnf f)
  | sat f => exact asked (Build.answers_sat f)
  | prove f => exact asked (Build.answers_prove (h f (by simp [operands])))
  | equivalent f g =>
    exact asked (Build.answers_equivalent (h f (by simp [operands])) (h g (by simp [operands])))
  | simplify f => exact built (Build.builds_simplify f)
  | read doc => exact attempted (Build.attempts_build doc)
  | decompile code => exact attempted (Build.attempts_decompile code)

end Operation

/-- A context in use, with the handles that it has given out and the trees that they were given out
    for. -/
structure Session where
  context : Context
  obtained : List (Handle × Formula)

namespace Session

def start : Session := ⟨.empty, []⟩

/-- The session after one more operation. -/
def step (s : Session) (op : Operation) : Session :=
  let answer := op.run.run s.context
  ⟨answer.2, s.obtained ++ (answer.1.map fun f => (answer.2.handle f, f)).toList⟩

/-- The second session comes after the first one: each operation in between was given formulas whose
    handles had been given out before. -/
inductive Leads (s : Session) : Session → Prop
  | refl : s.Leads s
  | step {t : Session} (before : s.Leads t) (op : Operation)
    (known : ∀ f ∈ op.operands, f ∈ t.obtained.map Prod.snd) : s.Leads (t.step op)

/-- The context has grown from the leaves up, and every handle is the one that its tree has now. -/
structure Sound (s : Session) : Prop where
  grounded : s.context.Grounded
  held : ∀ p ∈ s.obtained, s.context.Holds p.2 ∧ p.1 = s.context.handle p.2

variable {s t u : Session}

theorem sound_start : start.Sound := ⟨Context.grounded_empty, by simp [start]⟩

theorem Sound.step (h : s.Sound) (op : Operation)
    (known : ∀ f ∈ op.operands, f ∈ s.obtained.map Prod.snd) :
    (s.step op).Sound ∧ s.context.Extends (s.step op).context := by
  have operands : ∀ f ∈ op.operands, s.context.Holds f := by
    intro f hf
    obtain ⟨p, given, rfl⟩ := List.mem_map.mp (known f hf)
    exact (h.held p given).1
  obtain ⟨grounded, grows, built⟩ :=
    op.mayBuild_run operands s.context (Context.Extends.refl _) h.grounded
  refine ⟨⟨grounded, fun p hp => ?_⟩, grows⟩
  cases List.mem_append.mp hp with
  | inl before =>
    obtain ⟨held, same⟩ := h.held p before
    exact ⟨grows.holds held, same.trans (grows.handle_eq held).symm⟩
  | inr new =>
    obtain ⟨f, answered, rfl⟩ := Option.map_eq_some_iff.mp (Option.mem_toList.mp new)
    exact ⟨built f answered, rfl⟩

/-- What one operation keeps, any number of them keeps. -/
theorem Sound.leads (h : s.Sound) (run : s.Leads t) :
    t.Sound ∧ s.context.Extends t.context ∧ ∀ p ∈ s.obtained, p ∈ t.obtained := by
  induction run with
  | refl => exact ⟨h, Context.Extends.refl _, fun p hp => hp⟩
  | step before op known ih =>
    obtain ⟨sound, grows, kept⟩ := ih
    obtain ⟨sound', grows'⟩ := sound.step op known
    exact ⟨sound', grows.trans grows', fun p hp => List.mem_append_left _ (kept p hp)⟩

theorem room_of_extends {ctx later : Context} (grows : ctx.Extends later)
    (room : ∀ k, (later.ofKind k).length < UInt32.size) :
    ∀ k, (ctx.ofKind k).length < UInt32.size := by
  obtain ⟨more, grown⟩ := grows.exists_append
  have whole : Handle.HasRoom (ctx.nodes.toList ++ more) := grown ▸ room
  exact whole.of_append

/-- In the course of any operations on one context, as long as the places of its formulas have
    numbers of 32 bits: a handle that was given out stands for its tree, from then on and whatever
    is done later; it stands for no other tree; two handles are equal exactly if their trees are; every
    formula was built after its operands, so that following the operands of a handle comes to an
    end; and the handle of a variable has its number. -/
theorem handles_name_trees (s t : Session) (before : start.Leads s) (after : s.Leads t)
    (room : ∀ k, (t.context.ofKind k).length < UInt32.size) :
    (∀ p ∈ s.obtained, s.context.Denotes p.1 p.2 ∧ p ∈ t.obtained ∧ t.context.Denotes p.1 p.2) ∧
      (∀ h f g, t.context.Denotes h f → t.context.Denotes h g → f = g) ∧
      (∀ p ∈ t.obtained, ∀ q ∈ t.obtained, p.1 = q.1 ↔ p.2 = q.2) ∧
      (∀ (i : Nat) (f : Formula), t.context.nodes[i]? = some f → ∀ g ∈ f.operands,
        g.operands = [] ∨ ∃ j < i, t.context.nodes[j]? = some g) ∧
      (WellFounded fun k h => k ∈ t.context.operandHandles h) ∧
      ∀ i < UInt32.size, ∃ v : UInt32, v.toNat = i ∧
        ((Operation.var i).run.run t.context).1 = some (.var v) := by
  obtain ⟨soundS, -, -⟩ := sound_start.leads before
  obtain ⟨soundT, grows, kept⟩ := soundS.leads after
  have denotes {p : Handle × Formula} (hp : p ∈ t.obtained) : t.context.Denotes p.1 p.2 := by
    obtain ⟨held, same⟩ := soundT.held p hp
    rw [same]
    exact Context.denotes_handle room held
  refine ⟨fun p hp => ⟨?_, kept p hp, denotes (kept p hp)⟩, fun h f g => Context.Denotes.unique,
    fun p hp q hq => ⟨fun same => ?_, fun same => ?_⟩, soundT.grounded.operands_before,
    soundT.grounded.wellFounded_operands room, fun i hi => ⟨i.toUInt32, ?_, rfl⟩⟩
  · obtain ⟨held, same⟩ := soundS.held p hp
    rw [same]
    exact Context.denotes_handle (room_of_extends grows room) held
  · have denoted := denotes hp
    rw [same] at denoted
    exact denoted.unique (denotes hq)
  · rw [(soundT.held p hp).2, (soundT.held q hq).2, same]
  · exact Nat.mod_eq_of_lt hi

theorem Leads.exists_step {op : Operation} {f : Formula} (run : s.Leads t)
    (known : ∀ f ∈ op.operands, f ∈ t.obtained.map Prod.snd)
    (answers : Build.Returns op.run (some f)) :
    ∃ u h, s.Leads u ∧ u.obtained = t.obtained ++ [(h, f)] ∧
      u.context = (op.run.run t.context).2 := by
  refine ⟨t.step op, (t.step op).context.handle f, run.step op known, ?_, rfl⟩
  simp [Session.step, answers t.context]

theorem Leads.sound (run : start.Leads s) : s.Sound := (sound_start.leads run).1

theorem obtained_step {op : Operation} {f : Formula} (answers : Build.Returns op.run (some f))
    (s : Session) :
    (s.step op).obtained = s.obtained ++ [((s.step op).context.handle f, f)] := by
  simp [step, answers s.context]

/-- An operation that gives a tree for which a handle was given out before gives that handle. -/
theorem Sound.obtained_step_of_mem (h : s.Sound) {op : Operation} {f : Formula} {k : Handle}
    (known : ∀ f ∈ op.operands, f ∈ s.obtained.map Prod.snd)
    (answers : Build.Returns op.run (some f)) (before : (k, f) ∈ s.obtained) :
    (s.step op).obtained = s.obtained ++ [(k, f)] := by
  obtain ⟨held, same⟩ := h.held _ before
  obtain ⟨-, grows⟩ := h.step op known
  rw [obtained_step answers, grows.handle_eq held, ← same]

theorem Leads.trans (run : s.Leads t) (run' : t.Leads u) : s.Leads u := by
  induction run' with
  | refl => exact run
  | step _ op known ih => exact ih.step op known

theorem Leads.known {f : Formula} (run : s.Leads t) (h : f ∈ s.obtained.map Prod.snd) :
    f ∈ t.obtained.map Prod.snd := by
  induction run with
  | refl => exact h
  | step _ op _ ih =>
    rw [Session.step, List.map_append]
    exact List.mem_append_left _ ih

theorem Leads.exists_known (run : s.Leads t) (op : Operation) {f : Formula}
    (known : ∀ f ∈ op.operands, f ∈ t.obtained.map Prod.snd)
    (answers : Build.Returns op.run (some f)) : ∃ u, s.Leads u ∧ f ∈ u.obtained.map Prod.snd :=
  ⟨_, run.step op known, by simp [obtained_step answers]⟩

/-- Every formula can be built in the course of a session. -/
theorem exists_leads (s : Session) (f : Formula) :
    ∃ t, s.Leads t ∧ f ∈ t.obtained.map Prod.snd := by
  induction f generalizing s with
  | const b =>
    exact Leads.refl.exists_known (.value b) (by simp [Operation.operands]) (Build.Returns.pure _)
  | var i =>
    have answers : Build.Returns (Operation.var i.toNat).run (some (.var i)) := by
      intro ctx
      show some (Formula.atom i.toNat) = _
      simp [Formula.atom]
    exact Leads.refl.exists_known _ (by simp [Operation.operands]) answers
  | not f ih =>
    obtain ⟨t, run, known⟩ := ih s
    exact run.exists_known (.not f) (by simpa [Operation.operands] using known)
      ((Build.not_returns f).map some)
  | and f g ihf ihg =>
    obtain ⟨t, run, knownF⟩ := ihf s
    obtain ⟨u, run', knownG⟩ := ihg t
    exact (run.trans run').exists_known (.and f g)
      (List.forall_mem_cons.mpr ⟨run'.known knownF, List.forall_mem_singleton.mpr knownG⟩)
      ((Build.and_returns f g).map some)
  | or f g ihf ihg =>
    obtain ⟨t, run, knownF⟩ := ihf s
    obtain ⟨u, run', knownG⟩ := ihg t
    exact (run.trans run').exists_known (.or f g)
      (List.forall_mem_cons.mpr ⟨run'.known knownF, List.forall_mem_singleton.mpr knownG⟩)
      ((Build.or_returns f g).map some)

theorem size_cons_le (f : Formula) (ctx : Context) :
    ((Build.cons f).run ctx).2.nodes.size ≤ ctx.nodes.size + 1 := by
  simp only [Build.cons, StateT.run]
  split
  · exact Nat.le_succ _
  · exact Nat.le_of_eq (Array.size_push _)

/-- The negation of an atom is built twice, and a conjunction with it in between: both times it has
    the same handle. -/
theorem handles_name_trees_of_twice :
    ∃ s t : Session, start.Leads s ∧ s.Leads t ∧
      (∀ k, (t.context.ofKind k).length < UInt32.size) ∧
      ∃ x y h k l, s.obtained = [(x, .atom 0), (y, .atom 1), (h, .not (.atom 0))] ∧
        t.obtained = s.obtained ++
          [(k, .and (.not (.atom 0)) (.atom 1)), (l, .not (.atom 0))] ∧
        h = l ∧ h ≠ k ∧ t.context.Denotes h (.not (.atom 0)) := by
  let negation : Formula := .not (.atom 0)
  have var (i : Nat) : Build.Returns (Operation.var i).run (some (.atom i)) :=
    Build.Returns.pure _
  have negated : Build.Returns (Operation.not (.atom 0)).run (some negation) :=
    (Build.not_returns _).map some
  have joined : Build.Returns (Operation.and negation (.atom 1)).run
      (some (.and negation (.atom 1))) := (Build.and_returns _ _).map some
  obtain ⟨s₁, x, run₁, got₁, ctx₁⟩ :=
    (Leads.refl : start.Leads start).exists_step (by simp [Operation.operands]) (var 0)
  obtain ⟨s₂, y, run₂, got₂, ctx₂⟩ := run₁.exists_step (by simp [Operation.operands]) (var 1)
  obtain ⟨s, h, before, got₃, ctx₃⟩ :=
    run₂.exists_step (by simp [Operation.operands, got₂, got₁]) negated
  obtain ⟨t₁, k, run₄, got₄, ctx₄⟩ := (Leads.refl : s.Leads s).exists_step
    (by simp [Operation.operands, got₃, got₂]) joined
  obtain ⟨t, l, after, got₅, ctx₅⟩ :=
    run₄.exists_step (by simp [Operation.operands, got₄, got₃, got₂, got₁]) negated
  have obtainedS : s.obtained = [(x, .atom 0), (y, .atom 1), (h, negation)] := by
    simp [got₃, got₂, got₁, start]
  have obtainedT : t.obtained = s.obtained ++ [(k, .and negation (.atom 1)), (l, negation)] := by
    simp [got₅, got₄]
  have size : t.context.nodes.size ≤ 3 := by
    have none : s₂.context.nodes.size = 0 := by
      rw [ctx₂, ctx₁]
      rfl
    have first : s.context.nodes.size ≤ _ := ctx₃ ▸ size_cons_le negation s₂.context
    have second : t₁.context.nodes.size ≤ _ :=
      ctx₄ ▸ size_cons_le (.and negation (.atom 1)) s.context
    have third : t.context.nodes.size ≤ _ := ctx₅ ▸ size_cons_le negation t₁.context
    omega
  have room : ∀ k, (t.context.ofKind k).length < UInt32.size := by
    intro k
    have part : (t.context.ofKind k).length ≤ t.context.nodes.size :=
      List.length_filter_le _ _
    have bound : 3 < UInt32.size := by decide
    omega
  obtain ⟨denoted, -, equal, -⟩ := handles_name_trees s t before after room
  have same : h = l := (equal (h, negation) (by simp [obtainedT, obtainedS]) (l, negation)
    (by simp [obtainedT])).mpr rfl
  have other : h ≠ k := by
    intro same
    have trees := (equal (h, negation) (by simp [obtainedT, obtainedS])
      (k, .and negation (.atom 1)) (by simp [obtainedT])).mp same
    cases trees
  exact ⟨s, t, before, after, room, x, y, h, k, l, obtainedS, obtainedT, same, other,
    (denoted (h, negation) (by simp [obtainedS])).2.2⟩

end Session

end TraceRegex
