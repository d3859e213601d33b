import TraceRegex.Automaton.Algebra
import TraceRegex.Table.Basic

/-! # The algebra of tables

The constructions that combine automata, on tables of which nothing has been checked.  A result starts
as a table without rules and gets them one at a time, each at the list of its state.  There may be no
room for the result; and where sums or products of numbers wrap around, there may be no such list.
-/

namespace TraceRegex

/-- The rule with its target moved up by `offset`, in 64 bits. -/
def Rule.move (r : Rule) (offset : Nat) : Rule := { r with target := Table.wrap (r.target + offset) }

namespace Table

/-- Adds the rules of another table, whose states are moved up by `offset`. -/
def embed (t u : Table) (offset : Nat) : Except Fault Table :=
  u.transitions.toList.zipIdx.foldlM
    (fun t (rules, q) => t.addRules (wrap (q + offset)) (rules.map (·.move offset))) t

def movedFinals (t : Table) (offset : Nat) : Array Nat := t.finals.map fun q => wrap (q + offset)

def mergeFinals (finals finals' : Array Nat) : Array Nat :=
  (SortedSet.mergeLists finals.toList finals'.toList).toArray

def insertFinal (finals : Array Nat) (q : Nat) : Array Nat :=
  let place := placeOf finals q
  if finals[place]? == some q then finals
  else finals.extract 0 place ++ #[q] ++ finals.extract place finals.size

def initialRules (t : Table) : Except Fault (List Rule) := t.rulesAt t.initial

def acceptsEmpty (t : Table) : Bool := t.isFinal t.initial

/-! ## Union -/

/-- Accepts what either table accepts. -/
def union (t u : Table) : Except Fault Table := do
  let offset := t.stateCount
  let initial := wrap (t.stateCount + u.stateCount)
  let merged := mergeFinals t.finals (u.movedFinals offset)
  let finals := if t.acceptsEmpty || u.acceptsEmpty then insertFinal merged initial else merged
  let result ← blank (max t.atomCount u.atomCount) (wrap (initial + 1)) initial finals
  let result ← result.embed t 0
  let result ← result.embed u offset
  let result ← result.addRules initial (← t.initialRules)
  result.addRules initial ((← u.initialRules).map (·.move offset))

/-! ## Intersection -/

/-- Adds to the list of the state `q` the conjunctions of a rule with others, each of which leads to
    where `target` says. -/
def addConjunctions (t : Table) (q : Nat) (target : Nat → Nat) (r : Rule) (others : List Rule) :
    Lookup Table :=
  others.foldlM (fun (t : Table) r' => do
    let guard ← Build.and r.guard r'.guard
    t.addRule q ⟨guard, target r'.target⟩) t

def intersect (t u : Table) : Lookup Table := do
  let width := u.stateCount
  let pair (p q : Nat) : Nat := wrap (p * width + q)
  let finals := t.finals.toList.flatMap fun p => u.finals.toList.map (pair p)
  let result ← blank (max t.atomCount u.atomCount) (wrap (t.stateCount * width))
    (pair t.initial u.initial) (SortedSet.ofList finals).items
  (List.range t.stateCount).foldlM (fun result p =>
    (List.range width).foldlM (fun result q => do
      -- the second list is looked up for each rule of the first, so never if there is none
      (← t.rulesAt p).foldlM (fun (result : Table) r => do
        result.addConjunctions (pair p q) (pair r.target) r (← u.rulesAt q)) result) result) result

/-! ## Concatenation and fusion -/

def concat (t u : Table) : Except Fault Table := do
  let offset := t.stateCount
  let finals := mergeFinals (if u.acceptsEmpty then t.finals else #[]) (u.movedFinals offset)
  let result ← blank (max t.atomCount u.atomCount) (wrap (t.stateCount + u.stateCount)) t.initial finals
  let result ← (List.range t.stateCount).foldlM (fun result q => do
    let result ← result.addRules q (← t.rulesAt q)
    if t.isFinal q then result.addRules q ((← u.initialRules).map (·.move offset))
    else return result) result
  result.embed u offset

/-- Accepts a word of the first table and a word of the second that share one letter. -/
def fuse (t u : Table) : Lookup Table := do
  let offset := t.stateCount
  let result ← blank (max t.atomCount u.atomCount) (wrap (t.stateCount + u.stateCount)) t.initial
    (u.movedFinals offset)
  let result ← (List.range t.stateCount).foldlM (fun result q => do
    (← t.rulesAt q).foldlM (fun (result : Table) r => do
      let result ← result.addRule q r
      if t.isFinal r.target then
        result.addConjunctions q (fun p => wrap (p + offset)) r (← u.initialRules)
      else return result) result) result
  result.embed u offset

/-! ## Repetition -/

/-- Accepts one or more words of the table in a row.  A final state without a list of rules gets
    none. -/
def plus (t : Table) : Except Fault Table := do
  checkTable t.stateCount ruleListBytes
  let initials ← t.initialRules
  let transitions := t.transitions.mapIdx fun q rules =>
    if t.isFinal q then rules ++ initials else rules
  { t with transitions }.fitted

/-- The same language with an initial state that no rule leads to. -/
def isolate (t : Table) : Except Fault Table := do
  if t.rules.any fun (_, r) => r.target == t.initial then
    let finals := if t.acceptsEmpty then insertFinal t.finals t.stateCount else t.finals
    let result ← blank t.atomCount (wrap (t.stateCount + 1)) t.stateCount finals
    let result ← result.embed t 0
    result.addRules t.stateCount (← t.initialRules)
  else return t

def star (t : Table) : Except Fault Table := do
  let result ← (← t.isolate).plus
  return { result with finals := insertFinal result.finals result.initial }

end Table

end TraceRegex
