import TraceRegex.Automaton.Clean

/-! # Minimisation

States that no letter can tell apart are merged.  The states of the clean automaton start in two
blocks, the final ones and the others.  A block is split as long as some letter leads one of its
states into a given set of states and another one not; a list of splitters that may still split
something drives the refinement, and a last round over all blocks confirms that none does.
-/

namespace TraceRegex

/-- A set of states, in ascending order. -/
abbrev Block := List Nat

/-- A partition of the states on its way to the coarsest stable one. -/
structure Refinement where
  blocks : List Block
  /-- The blocks that may still split others, each with a set that contained it when it last was
      known not to. -/
  splitters : List (Block × Block)
deriving DecidableEq, Inhabited

namespace Refinement

/-- Final states in one block, the others in another; the smaller of the two is the first
    splitter. -/
def start (a : Automaton) : Refinement :=
  let states := List.range a.stateCount
  let finals := a.finals.toList
  let others := SortedSet.subtractLists states finals
  let blocks := [finals, others].filter (!·.isEmpty)
  let first := if blocks.length = 2 ∧ others.length < finals.length then others
    else blocks.headD []
  { blocks, splitters := [(first, states)] }

/-- The blocks in the order of their least states. -/
def sorted (p : Refinement) : List Block :=
  p.blocks.mergeSort fun b c => b.headD 0 ≤ c.headD 0

/-- Puts the parts of a block in its place: the first part where the block was, the second at the
    end.  If the block was to be used as a splitter, both parts are; otherwise the smaller one is
    enough. -/
def replace (p : Refinement) (block part rest : Block) : Refinement :=
  let blocks := (p.blocks.map fun b => if b = block then part else b) ++ [rest]
  match p.splitters.lookup block with
  | some parent =>
    -- the block was still to be used, and so is each of its parts
    { blocks
      splitters :=
        (p.splitters.map fun s => if s.1 = block then (part, parent) else s) ++ [(rest, parent)] }
  | none =>
    -- the block has been used: one part tells what the other would
    { blocks
      splitters := p.splitters ++ [(if part.length ≤ rest.length then part else rest, block)] }

/-! ## Splitting -/

/-- The letters that lead from the state `q` into the given states. -/
def delta (a : Automaton) (q : Nat) (into : Block) : Build Formula :=
  Build.disjunction (((a.rulesFrom q).filter fun r => into.contains r.target).map Rule.guard)

/-- The ordered pairs of entries at different places whose first member is not plainly false. -/
def candidatePairs (deltas : List Formula) : List (Formula × Formula) :=
  deltas.zipIdx.flatMap fun (d, i) =>
    if d = .const false then []
    else deltas.zipIdx.filterMap fun (e, j) => if i = j then none else some (d, e)

/-- A formula for the letters that satisfy the first but not the second, if there are any. -/
def distinguish (pair : Formula × Formula) : Build (Option Formula) := do
  let witness ← Build.and pair.1 (← Build.not pair.2)
  return if ← Build.sat witness then some witness else none

def overlaps (f g : Formula) : Build Bool := do Build.sat (← Build.and f g)

/-- Splits a block by the letters that lead from one of its states into the splitter and from
    another one not: the states that some such letter leads into the splitter, and the others. -/
def split (a : Automaton) (block splitter : Block) : Build (Option (Block × Block)) := do
  if block.length < 2 then return none
  let deltas ← block.mapM fun q => delta a q splitter
  match ← (candidatePairs deltas).findSomeM? distinguish with
  | none => return none
  | some witness =>
    -- the states whose letters meet the witness go to one side, the rest to the other
    let flags ← deltas.mapM fun d => overlaps d witness
    let marked := block.zip flags
    return some ((marked.filter (·.2)).map Prod.fst, (marked.filter (!·.2)).map Prod.fst)

/-- The refinement after the first split of a block by one of the splitters, if there is one. -/
def refine (a : Automaton) (p : Refinement) (splitters : List Block) :
    Build (Option Refinement) :=
  p.blocks.findSomeM? fun block =>
    (splitters.filter (!·.isEmpty)).findSomeM? fun splitter => do
      match ← split a block splitter with
      | some (part, rest) => return some (p.replace block part rest)
      | none => return none

/-- Splits by the same splitters until nothing changes.  Each split makes a block more, so the
    number of states bounds the number of rounds. -/
def refineBy (a : Automaton) (splitters : Refinement → List Block) :
    Nat → Refinement → Build Refinement
  | 0, p => return p
  | rounds + 1, p => do
    match ← refine a p (splitters p) with
    | some p => refineBy a splitters rounds p
    | none => return p

/-- Uses up the listed splitters: each one together with what is left of the set that contained it.
    There is one splitter at the start and one more for each split, so the number of states bounds
    the number of rounds. -/
def drain (a : Automaton) : Nat → Refinement → Build Refinement
  | 0, p => return p
  | rounds + 1, p =>
    match p.splitters with
    | [] => return p
    | (splitter, parent) :: later => do
      let complement := SortedSet.subtractLists parent splitter
      let p ← refineBy a (fun _ => [splitter, complement]) a.stateCount { p with splitters := later }
      drain a rounds p

/-- The coarsest partition in which no block splits another. -/
def stable (a : Automaton) : Build (List Block) := do
  let p ← drain a a.stateCount (start a)
  -- the blocks themselves are the last splitters
  return (← refineBy a sorted a.stateCount p).sorted

end Refinement

namespace Automaton

/-- Adds a guard under a target, unless it is there already; targets keep the order in which they
    first came. -/
def addGuard (groups : List (Nat × List Formula)) (target : Nat) (guard : Formula) :
    List (Nat × List Formula) :=
  match groups with
  | [] => [(target, [guard])]
  | (t, guards) :: rest =>
    if t = target then (t, if guards.contains guard then guards else guards ++ [guard]) :: rest
    else (t, guards) :: addGuard rest target guard

def blockOf (partition : List Block) (q : Nat) : Nat := partition.findIdx (·.contains q)

def quotient (a : Automaton) (partition : List Block) : Build Automaton := do
  let transitions ← partition.mapM fun block => do
    let groups := (block.flatMap a.rulesFrom).foldl
      (fun groups r => addGuard groups (blockOf partition r.target) r.guard) []
    groups.mapM fun (target, guards) => do return Rule.mk (← Build.disjunction guards) target
  return {
    atomCount := a.atomCount
    stateCount := partition.length
    initial := blockOf partition a.initial
    finals := .ofList (a.finals.toList.map (blockOf partition))
    transitions }

def merge (a : Automaton) : Build Automaton := do a.quotient (← Refinement.stable a)

def minimize (a : Automaton) : Build Automaton := do (← a.clean).merge

end Automaton

end TraceRegex
