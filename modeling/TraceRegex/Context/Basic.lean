import Std.Data.HashMap
import TraceRegex.Context.Arena
import TraceRegex.Formula.Circuit
import TraceRegex.Formula.NormalForm

/-! # Contexts

A context is the workspace in which formulas are built.  It keeps every compound formula that was
built in it once, numbered in order of construction, so that equal formulas share one copy; it
remembers normal forms and satisfiability results; and it counts the calls of the solver.

The tables carry their meaning in the type: the numbering is one to one, the arena of handles
represents the formulas as far as 32 bits can, a remembered normal form is the normal form, a
remembered answer of the solver is the answer.  So the formula that an
operation returns never depends on what happened in the context before (`cons_run_fst` and its
successors in the modules that follow); only the two counters do.
-/

namespace TraceRegex

structure Context where
  /-- The compound formulas, in order of construction. -/
  nodes : Array Formula
  /-- The place of each formula in `nodes`. -/
  serial : Std.HashMap Formula Nat
  arena : Arena
  /-- The handle that each formula of `nodes` was given by the arena. -/
  handles : Array Handle
  normal : Std.HashMap Formula Formula
  solved : Std.HashMap Formula Bool
  solverCalls : Nat
  serial_iff : ∀ (f : Formula) (i : Nat), serial[f]? = some i ↔ nodes[i]? = some f
  represents : Handle.OperandsFirst nodes.toList → Handle.HasRoom nodes.toList →
    arena.Represents handles.toList nodes.toList
  normal_eq : ∀ f g : Formula, normal[f]? = some g → g = f.nnf
  solved_eq : ∀ (f : Formula) (b : Bool), solved[f]? = some b → b = f.satisfiable

abbrev Build := StateM Context

namespace Context

def empty : Context where
  nodes := #[]
  serial := ∅
  arena := .empty
  handles := #[]
  normal := ∅
  solved := ∅
  solverCalls := 0
  serial_iff := by simp
  represents := fun _ _ => Arena.represents_empty
  normal_eq := by simp
  solved_eq := by simp

instance : Inhabited Context := ⟨empty⟩

instance : EmptyCollection Context := ⟨empty⟩

/-- The number of compound formulas built. -/
def size (ctx : Context) : Nat := ctx.arena.size

def handleOf (ctx : Context) : Formula → Handle
  | .const b => ⟨.const, if b then 1 else 0⟩
  | .var i => ⟨.var, i⟩
  | f => (ctx.serial[f]?.bind fun i => ctx.handles[i]?).getD ⟨f.kind, 0⟩

theorem handleOf_eq {ctx : Context}
    (represents : ctx.arena.Represents ctx.handles.toList ctx.nodes.toList) {f : Formula}
    (known : Handle.Known ctx.nodes.toList f) :
    ctx.handleOf f = Handle.ofTree ctx.nodes.toList f := by
  have found (compound : f.operands ≠ []) :
      (ctx.serial[f]?.bind fun i => ctx.handles[i]?).getD ⟨f.kind, 0⟩ =
        Handle.ofTree ctx.nodes.toList f := by
    obtain ⟨i, place⟩ := List.mem_iff_getElem?.mp (known.resolve_left compound)
    have listed := congrArg (·[i]?) represents.handles_eq
    rw [Array.getElem?_toList] at place
    simp only [List.getElem?_map, Array.getElem?_toList, place, Option.map_some] at listed
    rw [(ctx.serial_iff f i).mpr place, Option.bind_some, listed, Option.getD_some]
  cases f with
  | const b => rfl
  | var i => rfl
  | not f => exact found nofun
  | and f g => exact found nofun
  | or f g => exact found nofun

def push (ctx : Context) (f : Formula) (h : ctx.serial[f]? = none) : Context :=
  let built := ctx.arena.build ctx.handleOf f
  { ctx with
    nodes := ctx.nodes.push f
    serial := ctx.serial.insert f ctx.nodes.size
    arena := built.2
    handles := ctx.handles.push built.1
    represents := by
      rw [Array.toList_push, Array.toList_push]
      intro first room
      have before := ctx.represents first.of_concat.1 room.of_append
      -- the arena numbers a formula by its first place in the list, so it must not be there yet
      have new : f ∉ ctx.nodes.toList := by
        intro held
        obtain ⟨i, place⟩ := List.mem_iff_getElem?.mp held
        rw [Array.getElem?_toList, ← ctx.serial_iff, h] at place
        cases place
      exact (before.build first room new fun g => handleOf_eq before).2
    serial_iff := by
      intro g i
      have hf : ∀ j : Nat, ctx.nodes[j]? ≠ some f := fun j hj => by
        rw [(ctx.serial_iff f j).mpr hj] at h
        cases h
      rw [Std.HashMap.getElem?_insert, Array.getElem?_push]
      by_cases hfg : f = g
      · subst hfg
        by_cases hi : i = ctx.nodes.size
        · simp [hi]
        · simp [hi, hf i, Ne.symm hi]
      · by_cases hi : i = ctx.nodes.size
        · simp [hfg, hi, ctx.serial_iff]
        · simp [hfg, hi, ctx.serial_iff] }

def recordNormal (ctx : Context) (f g : Formula) (h : g = f.nnf) : Context :=
  { ctx with
    normal := ctx.normal.insert f g
    normal_eq := by
      intro f' g' hg
      rw [Std.HashMap.getElem?_insert] at hg
      split at hg
      · next hf => rw [← eq_of_beq hf, ← h]; exact (Option.some.inj hg).symm
      · exact ctx.normal_eq f' g' hg }

def recordSolved (ctx : Context) (f : Formula) (b : Bool) (h : b = f.satisfiable) : Context :=
  { ctx with
    solved := ctx.solved.insert f b
    solved_eq := by
      intro f' b' hb
      rw [Std.HashMap.getElem?_insert] at hb
      split at hb
      · next hf => rw [← eq_of_beq hf, ← h]; exact (Option.some.inj hb).symm
      · exact ctx.solved_eq f' b' hb }

def countCall (ctx : Context) : Context := { ctx with solverCalls := ctx.solverCalls + 1 }

end Context

namespace Build

/-! ## Construction -/

/-- Looks a compound formula up and returns the copy that the context holds, after adding it if it
    is new. -/
def cons (f : Formula) : Build Formula := fun ctx =>
  match h : ctx.serial[f]? with
  | some i => (ctx.nodes.getD i f, ctx)
  | none => (f, ctx.push f h)

/-- What `cons` returns is the formula that it was given. -/
@[simp]
theorem cons_run_fst (f : Formula) (ctx : Context) : ((cons f).run ctx).1 = f := by
  simp only [cons, StateT.run]
  split
  · next i h => simp [Array.getD_eq_getD_getElem?, (ctx.serial_iff f i).mp h]
  · rfl

def not (f : Formula) : Build Formula := cons (.not f)

def and (f g : Formula) : Build Formula := cons (.and f g)

def or (f g : Formula) : Build Formula := cons (.or f g)

/-- Implication, as the disjunction of the negated premise with the conclusion. -/
def implies (f g : Formula) : Build Formula := do or (← not f) g

/-- The conjunction of a list, nested to the left.  True members are skipped, and a false one is the
    result. -/
def conjunction (fs : List Formula) : Build Formula := go (.const true) fs
where
  /-- Goes on from the conjunction `acc` of the members seen so far. -/
  go (acc : Formula) : List Formula → Build Formula
    | [] => pure acc
    | .const false :: _ => pure (.const false)
    | .const true :: fs => go acc fs
    | f :: fs => do
      if acc = .const true then go f fs else go (← and acc f) fs

/-- The disjunction of a list, nested to the left.  False members are skipped, and a true one is the
    result. -/
def disjunction (fs : List Formula) : Build Formula := go (.const false) fs
where
  /-- Goes on from the disjunction `acc` of the members seen so far. -/
  go (acc : Formula) : List Formula → Build Formula
    | [] => pure acc
    | .const true :: _ => pure (.const true)
    | .const false :: fs => go acc fs
    | f :: fs => do
      if acc = .const false then go f fs else go (← or acc f) fs

end Build

end TraceRegex
