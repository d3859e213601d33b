import TraceRegex.Proofs.HashConsing

/-! # The arena follows the trees

A compound formula is built twice in a context: as a tree, and in the arena from the handles of its
operands.  The arena knows operands only by their handles, so it can take two formulas for one as
soon as two trees share a handle.  Here it is shown that this does not happen while the places among
the formulas with one connective have numbers of 32 bits: looking operands up, finding a formula
that was built before and adding a new one have the same outcome on both sides
(`Session.arena_follows_trees`).

The bound is sharp: a table that is full gives the next operands the first place again
(`ConsTable.intern_of_full`).
-/

namespace TraceRegex

/-- When all places are taken, new operands are given the first place, where the operands that were
    there first go on standing. -/
theorem ConsTable.intern_of_full {κ : Type} [BEq κ] [Hashable κ] {t : ConsTable κ} {key : κ}
    (new : t.index[key]? = none) (full : t.keys.size = UInt32.size) :
    (t.intern key).1 = 0 ∧ (t.intern key).2.keys[0]? = t.keys[0]? := by
  have inside : 0 < t.keys.size := full ▸ by decide
  simp only [intern, new, full]
  refine ⟨by decide, ?_⟩
  rw [Array.getElem?_push, if_neg (Nat.ne_of_lt inside)]

namespace Arena

open Handle

variable {κ : Type} {k : Formula.Kind} {key? : (Formula → Handle) → Formula → Option κ}
  {u v : Formula → Handle} {nodes : List Formula} {handles : List Handle} {a : Arena} {f : Formula}

/-- The keys stand in the order of the formulas with the connective. -/
theorem IsKey.getElem?_filterMap (h : IsKey k key?) (u : Formula → Handle) (nodes : List Formula)
    (i : Nat) :
    (nodes.filterMap (key? u))[i]? = (nodes.filter (·.kind = k))[i]?.bind (key? u) := by
  induction nodes generalizing i with
  | nil => rfl
  | cons f nodes ih =>
    have some_iff := h.isSome_iff u f
    cases keyed : key? u f with
    | none =>
      have other : f.kind ≠ k := fun kind => by simp [keyed, kind] at some_iff
      rw [List.filterMap_cons_none keyed, List.filter_cons_of_neg (by simpa using other), ih]
    | some key =>
      have kind : f.kind = k := some_iff.mp (by simp [keyed])
      rw [List.filterMap_cons_some keyed, List.filter_cons_of_pos (by simpa using kind)]
      cases i with
      | zero => simp [keyed]
      | succ i => exact ih i

/-- Operands are found at the place of the formula that has them. -/
theorem IsKey.intern_of_mem [BEq κ] [Hashable κ] {t : ConsTable κ} {key : κ} (h : IsKey k key?)
    (room : HasRoom nodes) (lists : t.Lists (nodes.filterMap (key? u))) (hf : f ∈ nodes)
    (keyed : key? u f = some key) :
    t.intern key = ((placeOf nodes f).toUInt32, t) := by
  apply lists.intern_of_getElem? (placeOf_lt room hf)
  have kind : f.kind = k := (h.isSome_iff u f).mp (by simp [keyed])
  rw [h.getElem?_filterMap, ← kind, getElem?_placeOf hf, Option.bind_some, keyed]

/-- A formula that was built before is found again. -/
theorem Represents.build_of_mem (h : a.Represents handles nodes) (room : HasRoom nodes)
    (hf : f ∈ nodes) : a.build (ofTree nodes) f = (ofTree nodes f, a) := by
  cases f with
  | const b => rfl
  | var i => rfl
  | not f =>
    have found := isKey_not.intern_of_mem room h.nots hf rfl
    simp only [Arena.build, Arena.not, found]
    rfl
  | and f g =>
    have found := isKey_and.intern_of_mem room h.ands hf rfl
    simp only [Arena.build, Arena.and, found]
    rfl
  | or f g =>
    have found := isKey_or.intern_of_mem room h.ors hf rfl
    simp only [Arena.build, Arena.or, found]
    rfl

theorem notKey?_operands (kind : f.kind = .not) :
    (notKey? u f).toList = f.operands.map u := by
  cases f with
  | not f => rfl
  | _ => cases kind

theorem andKey?_operands (kind : f.kind = .and) :
    ((andKey? u f).map fun (l, r) => [l, r]).getD [] = f.operands.map u := by
  cases f with
  | and f g => rfl
  | _ => cases kind

theorem orKey?_operands (kind : f.kind = .or) :
    ((orKey? u f).map fun (l, r) => [l, r]).getD [] = f.operands.map u := by
  cases f with
  | or f g => rfl
  | _ => cases kind

theorem build_congr (a : Arena) (same : ∀ g ∈ f.operands, u g = v g) :
    a.build u f = a.build v f := by
  cases f with
  | const b => rfl
  | var i => rfl
  | not f => simp only [build, same f (by simp [Formula.operands])]
  | and f g =>
    simp only [build, same f (by simp [Formula.operands]), same g (by simp [Formula.operands])]
  | or f g =>
    simp only [build, same f (by simp [Formula.operands]), same g (by simp [Formula.operands])]

end Arena

/-! ## Contexts -/

namespace Context

open Arena

variable {ctx : Context} {f : Formula}

theorem Grounded.arena_represents (grounded : ctx.Grounded)
    (room : ∀ k, (ctx.ofKind k).length < UInt32.size) :
    ctx.arena.Represents ctx.handles.toList ctx.nodes.toList := by
  refine ctx.represents (fun i f found g hg => ?_) room
  rw [Array.getElem?_toList] at found
  simpa only [Array.getElem?_toList] using grounded.operands_before i f found g hg

theorem Grounded.handleOf_eq (grounded : ctx.Grounded)
    (room : ∀ k, (ctx.ofKind k).length < UInt32.size) (hf : ctx.Holds f) :
    ctx.handleOf f = ctx.handle f := by
  rw [Context.handleOf_eq (grounded.arena_represents room) hf.known, handle_eq_ofTree]

theorem Grounded.size_eq (grounded : ctx.Grounded)
    (room : ∀ k, (ctx.ofKind k).length < UInt32.size) :
    ctx.size = (ctx.ofKind .not).length + (ctx.ofKind .and).length + (ctx.ofKind .or).length := by
  have h := grounded.arena_represents room
  simp only [size, Arena.size, ← Array.length_toList, h.nots.keys_eq, h.ands.keys_eq, h.ors.keys_eq,
    isKey_not.length_filterMap, isKey_and.length_filterMap, isKey_or.length_filterMap,
    List.countP_eq_length_filter, ofKind]

/-- What the arena keeps for a handle are the handles of the operands. -/
theorem Grounded.operands_eq (grounded : ctx.Grounded)
    (room : ∀ k, (ctx.ofKind k).length < UInt32.size) (h : Handle) :
    ctx.arena.operands h = ctx.operandHandles h := by
  have represents := grounded.arena_represents room
  have trees : Handle.ofTree ctx.nodes.toList = ctx.handle :=
    funext fun f => (handle_eq_ofTree ctx f).symm
  have kind {k : Formula.Kind} {f : Formula} (found : (ctx.ofKind k)[h.ref.toNat]? = some f) :
      f.kind = k := by
    have listed := List.mem_of_getElem? found
    simpa using (List.mem_filter.mp listed).2
  obtain ⟨k, ref⟩ := h
  cases k with
  | const => rfl
  | var => rfl
  | not =>
    simp only [Arena.operands, operandHandles, node?, ← Array.getElem?_toList,
      represents.nots.keys_eq, isKey_not.getElem?_filterMap, trees]
    show (((ctx.ofKind .not)[ref.toNat]?).bind (notKey? ctx.handle)).toList = _
    cases found : (ctx.ofKind .not)[ref.toNat]? with
    | none => rfl
    | some f => exact notKey?_operands (kind found)
  | and =>
    simp only [Arena.operands, operandHandles, node?, ← Array.getElem?_toList,
      represents.ands.keys_eq, isKey_and.getElem?_filterMap, trees]
    show ((((ctx.ofKind .and)[ref.toNat]?).bind (andKey? ctx.handle)).map _).getD [] = _
    cases found : (ctx.ofKind .and)[ref.toNat]? with
    | none => rfl
    | some f => exact andKey?_operands (kind found)
  | or =>
    simp only [Arena.operands, operandHandles, node?, ← Array.getElem?_toList,
      represents.ors.keys_eq, isKey_or.getElem?_filterMap, trees]
    show ((((ctx.ofKind .or)[ref.toNat]?).bind (orKey? ctx.handle)).map _).getD [] = _
    cases found : (ctx.ofKind .or)[ref.toNat]? with
    | none => rfl
    | some f => exact orKey?_operands (kind found)

/-- One step: the arena does with the handles of the operands what the context does with the
    operands. -/
theorem Grounded.arena_build (grounded : ctx.Grounded) (operands : ∀ g ∈ f.operands, ctx.Holds g)
    (room : ∀ k, (((Build.cons f).run ctx).2.ofKind k).length < UInt32.size) :
    ctx.arena.build ctx.handle f =
      (((Build.cons f).run ctx).2.handle f, ((Build.cons f).run ctx).2.arena) := by
  obtain ⟨grounded', grows, -⟩ := Build.builds_cons operands ctx (Extends.refl ctx) grounded
  have roomBefore := Session.room_of_extends grows room
  cases found : ctx.serial[f]? with
  | some i =>
    have held : f ∈ ctx.nodes := Array.mem_iff_getElem?.mpr ⟨i, (ctx.serial_iff f i).mp found⟩
    have again := (grounded.arena_represents roomBefore).build_of_mem roomBefore
      (Array.mem_toList_iff.mpr held)
    rw [Build.cons_of_mem held, handle_eq_ofTree, ← again]
    exact build_congr _ fun g _ => handle_eq_ofTree ctx g
  | none =>
    -- the context has looked the operands up in its own list of handles
    have same : ctx.arena.build ctx.handle f = ctx.arena.build ctx.handleOf f :=
      build_congr _ fun g hg => (grounded.handleOf_eq roomBefore (operands g hg)).symm
    rw [Build.cons_of_none found] at grounded' room ⊢
    have listed : ctx.handles.toList ++ [(ctx.arena.build ctx.handleOf f).1] =
        (ctx.nodes.toList ++ [f]).map (ctx.push f found).handle := by
      rw [← Array.toList_push, ← Array.toList_push, funext (handle_eq_ofTree (ctx.push f found))]
      exact (grounded'.arena_represents room).handles_eq
    rw [List.map_append] at listed
    have last := List.singleton_inj.mp (List.append_inj' listed rfl).2
    rw [same, ← last]
    rfl

end Context

/-! ## Sessions -/

namespace Session

/-- What the arena gives for an operation is the handle of its tree, and the arena of the context
    after the operation, if its places have numbers of 32 bits. -/
def Follows (s : Session) (op : Operation) (f : Formula) (given : Handle × Arena) : Prop :=
  (∀ k, ((s.step op).context.ofKind k).length < UInt32.size) →
    given = ((s.step op).context.handle f, (s.step op).context.arena)

/-- In the course of any operations on one context, as long as the places of its formulas have
    numbers of 32 bits, the arena follows the trees: it knows the handles that were given out as
    those of their trees; what it keeps for a handle are the handles of the operands; it counts the
    compound formulas; and a connective applied to handles that were given out gives the handle of
    the tree that is built from their trees. -/
theorem arena_follows_trees (s : Session) (reached : start.Leads s)
    (room : ∀ k, (s.context.ofKind k).length < UInt32.size) :
    (∀ p ∈ s.obtained, s.context.handleOf p.2 = p.1) ∧
      (∀ h, s.context.arena.operands h = s.context.operandHandles h) ∧
      s.context.size = (s.context.ofKind .not).length + (s.context.ofKind .and).length +
        (s.context.ofKind .or).length ∧
      ∀ p ∈ s.obtained, s.Follows (.not p.2) (.not p.2) (s.context.arena.not p.1) ∧
        ∀ q ∈ s.obtained,
          s.Follows (.and p.2 q.2) (.and p.2 q.2) (s.context.arena.and p.1 q.1) ∧
          s.Follows (.or p.2 q.2) (.or p.2 q.2) (s.context.arena.or p.1 q.1) := by
  have sound := reached.sound
  refine ⟨fun p hp => ?_, sound.grounded.operands_eq room, sound.grounded.size_eq room,
    fun p hp => ⟨fun roomAfter => ?_, fun q hq => ⟨fun roomAfter => ?_, fun roomAfter => ?_⟩⟩⟩
  · obtain ⟨held, same⟩ := sound.held p hp
    rw [same, sound.grounded.handleOf_eq room held]
  · obtain ⟨held, same⟩ := sound.held p hp
    rw [same]
    exact sound.grounded.arena_build (f := .not p.2) (by simp [Formula.operands, held]) roomAfter
  · obtain ⟨heldP, sameP⟩ := sound.held p hp
    obtain ⟨heldQ, sameQ⟩ := sound.held q hq
    rw [sameP, sameQ]
    exact sound.grounded.arena_build (f := .and p.2 q.2) (by simp [Formula.operands, heldP, heldQ])
      roomAfter
  · obtain ⟨heldP, sameP⟩ := sound.held p hp
    obtain ⟨heldQ, sameQ⟩ := sound.held q hq
    rw [sameP, sameQ]
    exact sound.grounded.arena_build (f := .or p.2 q.2) (by simp [Formula.operands, heldP, heldQ])
      roomAfter

end Session

end TraceRegex
