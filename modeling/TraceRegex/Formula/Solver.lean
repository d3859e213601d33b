import Std.Data.HashMap
import Std.Data.HashSet
import TraceRegex.Formula.Basic

/-! # Satisfiability

A formula is satisfiable when some letter makes it true.  The procedure splits on an atom of the
formula: `assign` fixes it to either truth value and folds what becomes constant, and the search goes
on with what is left.  An atom that alone decides a part that has to hold is taken first, because one
of its two values then ends at once.

Formulas share their parts, and a tree can be far larger than the parts that it is made of.  So the
search works part by part: what is left is kept in a pool with one copy of each part, an atom is fixed
once in each part, and a formula that was refuted is remembered.  Everything that is kept carries its
meaning in its type, and so does the answer: `Answer f` is a letter that satisfies `f`, or a proof that
there is none.
-/

namespace TraceRegex

namespace Formula

def Satisfiable (f : Formula) : Prop := ∃ l : Letter, f.eval l = true

/-! ## Connectives that fold constants -/

/-- Negation, folding constants and negations. -/
def foldNot : Formula → Formula
  | .const b => .const !b
  | .not f => f
  | f => .not f

/-- Conjunction, folding constants and equal operands. -/
def foldAnd (f g : Formula) : Formula :=
  match f, g with
  | .const true, g => g
  | .const false, _ => .const false
  | f, .const true => f
  | _, .const false => .const false
  | f, g => if f = g then f else .and f g

def foldOr (f g : Formula) : Formula :=
  match f, g with
  | .const false, g => g
  | .const true, _ => .const true
  | f, .const false => f
  | _, .const true => .const true
  | f, g => if f = g then f else .or f g

@[simp]
theorem eval_foldNot (l : Letter) (f : Formula) : f.foldNot.eval l = !f.eval l := by
  cases f <;> simp [foldNot, eval]

@[simp]
theorem eval_foldAnd (l : Letter) (f g : Formula) :
    (foldAnd f g).eval l = (f.eval l && g.eval l) := by
  unfold foldAnd
  split <;> grind [eval]

@[simp]
theorem eval_foldOr (l : Letter) (f g : Formula) :
    (foldOr f g).eval l = (f.eval l || g.eval l) := by
  unfold foldOr
  split <;> grind [eval]

/-! ## Fixing an atom -/

/-- The formula with the atom `i` fixed to `b`. -/
def assign (i : UInt32) (b : Bool) : Formula → Formula
  | .const c => .const c
  | .var j => if i = j then .const b else .var j
  | .not f => foldNot (f.assign i b)
  | .and f g => foldAnd (f.assign i b) (g.assign i b)
  | .or f g => foldOr (f.assign i b) (g.assign i b)

/-- Fixing an atom in the formula is giving it that value in the letter. -/
theorem eval_assign (l : Letter) (i : UInt32) (b : Bool) (f : Formula) :
    (f.assign i b).eval l = f.eval (l.put i.toNat b) := by
  induction f with
  | const c => rfl
  | var j =>
    simp only [assign, eval, Letter.holds_put]
    by_cases h : i = j
    · simp [h, eval]
    · have : j.toNat ≠ i.toNat := fun e => h (UInt32.toNat_inj.mp e.symm)
      simp [h, this, eval]
  | not f hf => simp [assign, eval, hf]
  | and f g hf hg => simp [assign, eval, hf, hg]
  | or f g hf hg => simp [assign, eval, hf, hg]

/-- A letter that satisfies the formula satisfies it with an atom fixed as the letter has it. -/
theorem eval_assign_holds (l : Letter) (i : UInt32) (f : Formula) :
    (f.assign i (l.holds i.toNat)).eval l = f.eval l := by
  rw [eval_assign, Letter.put_holds]

/-! ## Choosing an atom -/

def mentions (i : UInt32) : Formula → Bool
  | .const _ => false
  | .var j => i == j
  | .not f => f.mentions i
  | .and f g | .or f g => f.mentions i || g.mentions i

/-- The number of places at which atoms stand. -/
def occurrences : Formula → Nat
  | .const _ => 0
  | .var _ => 1
  | .not f => f.occurrences
  | .and f g | .or f g => f.occurrences + g.occurrences

theorem occurrences_foldNot (f : Formula) : f.foldNot.occurrences = f.occurrences := by
  cases f <;> rfl

theorem occurrences_foldAnd_le (f g : Formula) :
    (foldAnd f g).occurrences ≤ f.occurrences + g.occurrences := by
  unfold foldAnd
  split <;> grind [occurrences]

theorem occurrences_foldOr_le (f g : Formula) :
    (foldOr f g).occurrences ≤ f.occurrences + g.occurrences := by
  unfold foldOr
  split <;> grind [occurrences]

theorem occurrences_assign_le (i : UInt32) (b : Bool) (f : Formula) :
    (f.assign i b).occurrences ≤ f.occurrences := by
  induction f with
  | const c => exact Nat.le_refl _
  | var j => simp only [assign]; split <;> simp [occurrences]
  | not f hf => simpa [assign, occurrences, occurrences_foldNot] using hf
  | and f g hf hg =>
    exact Nat.le_trans (occurrences_foldAnd_le _ _) (Nat.add_le_add hf hg)
  | or f g hf hg =>
    exact Nat.le_trans (occurrences_foldOr_le _ _) (Nat.add_le_add hf hg)

/-- Fixing an atom that occurs leaves fewer places. -/
theorem occurrences_assign_lt {i : UInt32} {f : Formula} (h : f.mentions i = true) (b : Bool) :
    (f.assign i b).occurrences < f.occurrences := by
  induction f with
  | const c => cases h
  | var j => simp [mentions] at h; simp [assign, h, occurrences]
  | not f hf => simpa [assign, occurrences, occurrences_foldNot] using hf h
  | and f g hf hg =>
    refine Nat.lt_of_le_of_lt (occurrences_foldAnd_le _ _) ?_
    have := occurrences_assign_le i b f
    have := occurrences_assign_le i b g
    simp only [mentions, Bool.or_eq_true] at h
    simp only [occurrences]
    rcases h with h | h
    · have := hf h; omega
    · have := hg h; omega
  | or f g hf hg =>
    refine Nat.lt_of_le_of_lt (occurrences_foldOr_le _ _) ?_
    have := occurrences_assign_le i b f
    have := occurrences_assign_le i b g
    simp only [mentions, Bool.or_eq_true] at h
    simp only [occurrences]
    rcases h with h | h
    · have := hf h; omega
    · have := hg h; omega

abbrev Pivot (f : Formula) := { i : UInt32 // f.mentions i = true }

namespace Pivot

def inNot {f : Formula} (p : Pivot f) : Pivot (.not f) := ⟨p.1, p.2⟩

def andLeft {f g : Formula} (p : Pivot f) : Pivot (.and f g) := ⟨p.1, by simp [mentions, p.2]⟩

def andRight {f g : Formula} (p : Pivot g) : Pivot (.and f g) := ⟨p.1, by simp [mentions, p.2]⟩

def orLeft {f g : Formula} (p : Pivot f) : Pivot (.or f g) := ⟨p.1, by simp [mentions, p.2]⟩

def orRight {f g : Formula} (p : Pivot g) : Pivot (.or f g) := ⟨p.1, by simp [mentions, p.2]⟩

/-- An atom at the end of a long way down: it tends to stand in many places.  Each time the left
    operand is followed, unless it has no atoms or the right one is more than twice as high. -/
def deepest : (f : Formula) → f.varCount ≠ 0 → Pivot f
  | .const _, h => absurd rfl h
  | .var i, _ => ⟨i, by simp [mentions]⟩
  | .not f, h => (deepest f h).inNot
  | .and f g, h =>
    if hf : f.varCount = 0 then
      (deepest g fun hg => h (by simp [varCount, hf, hg])).andRight
    else if hg : g.varCount ≠ 0 ∧ 2 * f.height < g.height then (deepest g hg.1).andRight
    else (deepest f hf).andLeft
  | .or f g, h =>
    if hf : f.varCount = 0 then
      (deepest g fun hg => h (by simp [varCount, hf, hg])).orRight
    else if hg : g.varCount ≠ 0 ∧ 2 * f.height < g.height then (deepest g hg.1).orRight
    else (deepest f hf).orLeft

def ofLiteral? : (f : Formula) → Option (Pivot f)
  | .var i => some ⟨i, by simp [mentions]⟩
  | .not (.var i) => some ⟨i, by simp [mentions]⟩
  | _ => none

end Pivot

/-- What the parts that have to hold suggest: an atom that is one of them, or else one of the two
    atoms of a part; and how many parts may still be looked at. -/
structure Scan (f : Formula) where
  alone : Option (Pivot f)
  inPair : Option (Pivot f)
  budget : Nat

namespace Scan

def map {f g : Formula} (s : Scan f) (within : Pivot f → Pivot g) : Scan g :=
  ⟨s.alone.map within, s.inPair.map within, s.budget⟩

/-- Looks at a second formula unless the first one has settled the choice. -/
def andThen {f g h : Formula} (s : Scan f) (left : Pivot f → Pivot h) (next : Nat → Scan g)
    (right : Pivot g → Pivot h) : Scan h :=
  match s.alone with
  | some p => ⟨some (left p), none, s.budget⟩
  | none =>
    let t := next s.budget
    ⟨t.alone.map right, (s.inPair.map left).or (t.inPair.map right), t.budget⟩

/-- Looks at the parts of a formula that should have the truth value `wanted`. -/
def run (wanted : Bool) (budget : Nat) : (f : Formula) → Scan f
  | .const _ => ⟨none, none, budget⟩
  | .var i => ⟨some ⟨i, by simp [mentions]⟩, none, budget⟩
  | .not f => (run (!wanted) budget f).map Pivot.inNot
  | .and f g =>
    if budget = 0 then ⟨none, none, 0⟩
    else if wanted then
      (run true (budget - 1) f).andThen .andLeft (fun rest => run true rest g) .andRight
    -- a conjunction that should fail settles nothing by itself, but if it has two literals, fixing
    -- one of them may settle the other
    else ⟨none, do let p ← Pivot.ofLiteral? f; let _ ← Pivot.ofLiteral? g; return p.andLeft, budget⟩
  | .or f g =>
    if budget = 0 then ⟨none, none, 0⟩
    else if wanted then
      ⟨none, do let p ← Pivot.ofLiteral? f; let _ ← Pivot.ofLiteral? g; return p.orLeft, budget⟩
    else (run false (budget - 1) f).andThen .orLeft (fun rest => run false rest g) .orRight

end Scan

/-- How many parts are looked at to choose an atom. -/
def scanBudget : Nat := 4096

def pivot (f : Formula) (h : f.varCount ≠ 0) : Pivot f :=
  let s := Scan.run true scanBudget f
  (s.alone.or s.inPair).getD (Pivot.deepest f h)

/-- Without atoms a formula has the same truth value under all letters. -/
theorem eval_eq_of_varCount_eq_zero {f : Formula} (h : f.varCount = 0) (l m : Letter) :
    f.eval l = f.eval m := by
  induction f with
  | const c => rfl
  | var j => simp [varCount] at h
  | not f hf => simp [eval, hf h]
  | and f g hf hg =>
    simp only [varCount, Nat.max_eq_zero_iff] at h
    simp [eval, hf h.1, hg h.2]
  | or f g hf hg =>
    simp only [varCount, Nat.max_eq_zero_iff] at h
    simp [eval, hf h.1, hg h.2]

theorem assign_eq_const {f : Formula} (h : f.varCount = 0) (i : UInt32) (b : Bool) :
    ∃ c, f.assign i b = .const c := by
  induction f with
  | const c => exact ⟨c, rfl⟩
  | var j => simp [varCount] at h
  | not f hf =>
    obtain ⟨c, hc⟩ := hf h
    exact ⟨!c, by simp [assign, hc, foldNot]⟩
  | and f g hf hg =>
    simp only [varCount, Nat.max_eq_zero_iff] at h
    obtain ⟨c, hc⟩ := hf h.1
    obtain ⟨d, hd⟩ := hg h.2
    cases c <;> cases d <;> simp [assign, hc, hd, foldAnd]
  | or f g hf hg =>
    simp only [varCount, Nat.max_eq_zero_iff] at h
    obtain ⟨c, hc⟩ := hf h.1
    obtain ⟨d, hd⟩ := hg h.2
    cases c <;> cases d <;> simp [assign, hc, hd, foldOr]

end Formula

namespace Solver

open Formula

/-! ## Shared parts -/

/-- One copy of each part. -/
structure Pool where
  copies : Std.HashMap Formula Formula
  copies_eq : ∀ f g : Formula, copies[f]? = some g → g = f

namespace Pool

def empty : Pool := ⟨∅, by simp⟩

def share (pool : Pool) (f : Formula) : { r : Formula × Pool // r.1 = f } :=
  match h : pool.copies[f]? with
  | some g => ⟨(g, pool), pool.copies_eq f g h⟩
  | none =>
    ⟨(f, {
      copies := pool.copies.insert f f
      copies_eq := by
        intro f' g' hg
        rw [Std.HashMap.getElem?_insert] at hg
        split at hg
        · next hf => rw [← eq_of_beq hf]; exact (Option.some.inj hg).symm
        · exact pool.copies_eq f' g' hg }), rfl⟩

end Pool

/-- The parts in which the atom `i` was fixed to `b`. -/
structure Fixed (i : UInt32) (b : Bool) where
  pool : Pool
  results : Std.HashMap Formula Formula
  results_eq : ∀ f g : Formula, results[f]? = some g → g = f.assign i b

namespace Fixed

variable {i : UInt32} {b : Bool}

def start (pool : Pool) : Fixed i b := ⟨pool, ∅, by simp⟩

abbrev Result (i : UInt32) (b : Bool) (f : Formula) :=
  { r : Formula × Fixed i b // r.1 = f.assign i b }

def record (fixed : Fixed i b) (f g : Formula) (h : g = f.assign i b) : Result i b f :=
  let ⟨(g', pool), hg⟩ := fixed.pool.share g
  ⟨(g', {
    pool
    results := fixed.results.insert f g'
    results_eq := by
      intro f' k hk
      rw [Std.HashMap.getElem?_insert] at hk
      split at hk
      · next hf =>
        rw [← eq_of_beq hf, ← h, ← hg]
        exact (Option.some.inj hk).symm
      · exact fixed.results_eq f' k hk }), hg.trans h⟩

def remembered (fixed : Fixed i b) (f : Formula) (compute : Fixed i b → Result i b f) :
    Result i b f :=
  match h : fixed.results[f]? with
  | some g => ⟨(g, fixed), fixed.results_eq f g h⟩
  | none => compute fixed

/-- Fixes the atom in a formula, once in each part. -/
def fix : (f : Formula) → Fixed i b → Result i b f
  | .const c, fixed => ⟨(.const c, fixed), rfl⟩
  | .var j, fixed => ⟨(if i = j then .const b else .var j, fixed), rfl⟩
  | .not f, fixed =>
    fixed.remembered (.not f) fun fixed =>
      let ⟨(f', fixed), hf⟩ := fix f fixed
      fixed.record (.not f) (foldNot f') (by rw [assign, ← hf])
  | .and f g, fixed =>
    fixed.remembered (.and f g) fun fixed =>
      let ⟨(f', fixed), hf⟩ := fix f fixed
      let ⟨(g', fixed), hg⟩ := fix g fixed
      fixed.record (.and f g) (foldAnd f' g') (by rw [assign, ← hf, ← hg])
  | .or f g, fixed =>
    fixed.remembered (.or f g) fun fixed =>
      let ⟨(f', fixed), hf⟩ := fix f fixed
      let ⟨(g', fixed), hg⟩ := fix g fixed
      fixed.record (.or f g) (foldOr f' g') (by rw [assign, ← hf, ← hg])

end Fixed

/-! ## The search -/

/-- What the search keeps: the shared parts, and the formulas that no letter satisfies. -/
structure Workspace where
  pool : Pool
  refuted : Std.HashSet Formula
  not_satisfiable : ∀ f, refuted.contains f = true → ¬f.Satisfiable

namespace Workspace

def empty : Workspace := ⟨.empty, ∅, by simp⟩

def refute (w : Workspace) (f : Formula) (h : ¬f.Satisfiable) : Workspace :=
  { w with
    refuted := w.refuted.insert f
    not_satisfiable := by
      intro g hg
      rw [Std.HashSet.contains_insert, Bool.or_eq_true] at hg
      rcases hg with hg | hg
      · rw [← eq_of_beq hg]; exact h
      · exact w.not_satisfiable g hg }

def fix (w : Workspace) (i : UInt32) (b : Bool) (f : Formula) :
    { r : Formula × Workspace // r.1 = f.assign i b } :=
  let ⟨(g, fixed), h⟩ := Fixed.fix f (Fixed.start w.pool)
  ⟨(g, { w with pool := fixed.pool }), h⟩

end Workspace

/-- The answer to the question whether some letter satisfies the formula. -/
inductive Answer (f : Formula) where
  | model (letter : Letter) (holds : f.eval letter = true)
  | none (unsatisfiable : ¬f.Satisfiable)

namespace Answer

/-- A letter that satisfies the formula with an atom fixed gives one that satisfies the formula. -/
def release {f g : Formula} {i : UInt32} {b : Bool} (h : g = f.assign i b) (l : Letter)
    (holds : g.eval l = true) : Answer f :=
  .model (l.put i.toNat b) (by rw [← eval_assign, ← h]; exact holds)

/-- If neither truth value of an atom can be extended, the formula is refuted. -/
theorem not_satisfiable_of_assign {f g g' : Formula} {i : UInt32} (hg : g = f.assign i true)
    (hg' : g' = f.assign i false) (hTrue : ¬g.Satisfiable) (hFalse : ¬g'.Satisfiable) :
    ¬f.Satisfiable := by
  subst hg hg'
  rintro ⟨l, hl⟩
  rw [← eval_assign_holds l i] at hl
  cases hv : l.holds i.toNat <;> rw [hv] at hl
  · exact hFalse ⟨l, hl⟩
  · exact hTrue ⟨l, hl⟩

/-- Without atoms the constant to which a formula folds decides it. -/
def ofFolded {f g : Formula} {i : UInt32} {b : Bool} (h : f.varCount = 0)
    (hg : g = f.assign i b) : Answer f :=
  match g, hg with
  | .const true, hg =>
    .model (Letter.empty.put i.toNat b) (by rw [← eval_assign, ← hg]; rfl)
  | .const false, hg => .none (by
      rintro ⟨l, hl⟩
      rw [eval_eq_of_varCount_eq_zero h l (Letter.empty.put i.toNat b), ← eval_assign, ← hg] at hl
      cases hl)
  | .var _, hg | .not _, hg | .and _ _, hg | .or _ _, hg =>
    absurd (assign_eq_const h i b) (by rw [← hg]; simp)

def isModel {f : Formula} : Answer f → Bool
  | .model _ _ => true
  | .none _ => false

theorem isModel_iff {f : Formula} (a : Answer f) : a.isModel = true ↔ f.Satisfiable := by
  cases a with
  | model l h => exact ⟨fun _ => ⟨l, h⟩, fun _ => rfl⟩
  | none h => exact ⟨fun e => (nomatch e), fun hs => absurd hs h⟩

end Answer

/-- Decides whether some letter satisfies the formula. -/
def solve (f : Formula) (w : Workspace) : Answer f × Workspace :=
  if hr : w.refuted.contains f = true then (.none (w.not_satisfiable f hr), w)
  else if h : f.varCount = 0 then
    -- no atom is left, so fixing any of them folds the formula to a constant
    let ⟨(_, w), hg⟩ := w.fix 0 true f
    (.ofFolded h hg, w)
  else
    let ⟨i, hi⟩ := f.pivot h
    let ⟨(g, w), hg⟩ := w.fix i true f
    match solve g w with
    | (.model l holds, w) => (.release hg l holds, w)
    | (.none hTrue, w) =>
      let ⟨(g', w), hg'⟩ := w.fix i false f
      match solve g' w with
      | (.model l holds, w) => (.release hg' l holds, w)
      | (.none hFalse, w) =>
        have hf := Answer.not_satisfiable_of_assign hg hg' hTrue hFalse
        -- equal parts come up again on other branches, and are not searched a second time
        (.none hf, w.refute f hf)
termination_by f.occurrences
decreasing_by
  · have : g = f.assign i true := hg
    rw [this]; exact occurrences_assign_lt hi true
  · have : g' = f.assign i false := hg'
    rw [this]; exact occurrences_assign_lt hi false

end Solver

end TraceRegex
