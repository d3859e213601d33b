import Std.Data.HashMap
import TraceRegex.Formula.Solver

/-! # Circuits

The solver does not look at a formula itself but at its circuit.  A circuit is a list of gates, and
a literal is a gate or its negation.  The encoder goes through the formula once and gives the same
literal to parts that are equal; it knows by which literal each atom enters the circuit, and the
letter that satisfies the formula is read off the values of these literals.

Again the tables carry their meaning in the type: a literal that is listed for a formula has, under
every letter, the truth value of the formula.
-/

namespace TraceRegex

/-- A gate of a circuit or its negation. -/
structure Lit where
  gate : Nat
  negated : Bool
deriving DecidableEq, Repr

namespace Lit

def not (x : Lit) : Lit := ⟨x.gate, !x.negated⟩

/-- The constants, which are made of the first gate. -/
def verum : Lit := ⟨0, false⟩

def falsum : Lit := ⟨0, true⟩

def value (values : Array Bool) (x : Lit) : Bool := values.getD x.gate false ^^ x.negated

def tree (trees : Array Formula) (x : Lit) : Formula :=
  let f := trees.getD x.gate (.const false)
  if x.negated then f.foldNot else f

@[simp]
theorem value_not (values : Array Bool) (x : Lit) : x.not.value values = !x.value values := by
  simp [value, not]

theorem value_map_eval (l : Letter) (trees : Array Formula) (x : Lit) :
    x.value (trees.map (Formula.eval l)) = (x.tree trees).eval l := by
  have gate : (trees.map (Formula.eval l)).getD x.gate false =
      (trees.getD x.gate (.const false)).eval l := by
    simp only [Array.getD_eq_getD_getElem?, Array.getElem?_map]
    cases trees[x.gate]? <;> rfl
  simp only [value, tree, gate]
  cases x.negated <;> simp

end Lit

/-- What a gate computes from the gates before it. -/
inductive Gate where
  | one
  | input (atom : UInt32)
  | and (lhs rhs : Lit)
deriving DecidableEq, Repr

namespace Gate

def value (l : Letter) (values : Array Bool) : Gate → Bool
  | .one => true
  | .input i => l.holds i.toNat
  | .and x y => x.value values && y.value values

def tree (trees : Array Formula) : Gate → Formula
  | .one => .const true
  | .input i => .var i
  | .and x y => (x.tree trees).foldAnd (y.tree trees)

theorem value_map_eval (l : Letter) (trees : Array Formula) (g : Gate) :
    g.value l (trees.map (Formula.eval l)) = (g.tree trees).eval l := by
  cases g with
  | one => rfl
  | input i => rfl
  | and x y => simp [value, tree, Lit.value_map_eval]

end Gate

structure Circuit where
  gates : Array Gate

namespace Circuit

/-- The circuit with the constants only. -/
def start : Circuit := ⟨#[.one]⟩

def add : Circuit → Gate → Lit × Circuit
  | ⟨gates⟩, g => (⟨gates.size, false⟩, ⟨gates.push g⟩)

/-- The conjunction of two literals.  A gate is only added for it if the two are different and
    neither decides. -/
def and (c : Circuit) (x y : Lit) : Lit × Circuit :=
  if x = y then (x, c)
  else if x = y.not ∨ x = .falsum ∨ y = .falsum then (.falsum, c)
  else if x = .verum then (y, c)
  else if y = .verum then (x, c)
  else c.add (.and x y)

def or (c : Circuit) (x y : Lit) : Lit × Circuit :=
  let (z, c) := c.and x.not y.not
  (z.not, c)

def values (c : Circuit) (l : Letter) : Array Bool :=
  c.gates.foldl (fun values g => values.push (g.value l values)) #[]

def trees (c : Circuit) : Array Formula :=
  c.gates.foldl (fun trees g => trees.push (g.tree trees)) #[]

/-- The literal has the truth value of the formula. -/
structure Means (c : Circuit) (x : Lit) (f : Formula) : Prop where
  inside : x.gate < c.gates.size
  value_eq : ∀ l, x.value (c.values l) = f.eval l

variable {c c' : Circuit} {x y : Lit} {f g : Formula}

theorem size_values (c : Circuit) (l : Letter) : (c.values l).size = c.gates.size :=
  Array.foldl_induction (fun i (values : Array Bool) => values.size = i) rfl
    fun i values size => by rw [Array.size_push, size]

theorem values_eq_map (c : Circuit) (l : Letter) : c.values l = c.trees.map (Formula.eval l) := by
  have run (gates : List Gate) (trees : Array Formula) :
      gates.foldl (fun values g => values.push (g.value l values)) (trees.map (Formula.eval l)) =
        (gates.foldl (fun trees g => trees.push (g.tree trees)) trees).map (Formula.eval l) := by
    induction gates generalizing trees with
    | nil => rfl
    | cons g gates ih =>
      rw [List.foldl_cons, List.foldl_cons, Gate.value_map_eval, ← Array.map_push, ih]
  unfold values trees
  rw [← Array.foldl_toList, ← Array.foldl_toList, ← run, Array.map_empty]

theorem eval_tree (c : Circuit) (l : Letter) (x : Lit) :
    (x.tree c.trees).eval l = x.value (c.values l) := by
  rw [values_eq_map, Lit.value_map_eval]

theorem means_verum_start : start.Means .verum (.const true) := ⟨by decide, fun _ => rfl⟩

theorem Means.congr (h : c.Means x f) (same : ∀ l, f.eval l = g.eval l) : c.Means x g :=
  ⟨h.inside, fun l => (h.value_eq l).trans (same l)⟩

theorem Means.not (h : c.Means x f) : c.Means x.not (.not f) :=
  ⟨h.inside, fun l => by rw [Lit.value_not, h.value_eq, Formula.eval]⟩

theorem values_add (c : Circuit) (g : Gate) (l : Letter) :
    (c.add g).2.values l = (c.values l).push (g.value l (c.values l)) := by
  unfold values add
  exact Array.foldl_push

/-- A new gate leaves the literals as they are. -/
theorem Means.add (h : c.Means x f) (g : Gate) : (c.add g).2.Means x f where
  inside := by
    have : (c.add g).2.gates.size = c.gates.size + 1 := Array.size_push _
    exact this ▸ Nat.lt_succ_of_lt h.inside
  value_eq l := by
    have old : x.gate < (c.values l).size := (c.size_values l).symm ▸ h.inside
    rw [values_add, ← h.value_eq, Lit.value, Lit.value, Array.getD_eq_getD_getElem?,
      Array.getD_eq_getD_getElem?, Array.getElem?_push, if_neg (Nat.ne_of_lt old)]

theorem means_add (c : Circuit) (g : Gate) (same : ∀ l, g.value l (c.values l) = f.eval l) :
    (c.add g).2.Means (c.add g).1 f where
  inside := by
    have : (c.add g).2.gates.size = c.gates.size + 1 := Array.size_push _
    exact this ▸ Nat.lt_succ_self _
  value_eq l := by
    rw [values_add, ← same l]
    have last : (c.add g).1 = ⟨(c.values l).size, false⟩ := by rw [size_values]; rfl
    simp [last, Lit.value, Array.getD_eq_getD_getElem?]

/-- Every literal means in the second circuit what it means in the first. -/
def Extends (c c' : Circuit) : Prop := ∀ x f, c.Means x f → c'.Means x f

theorem Extends.refl (c : Circuit) : c.Extends c := fun _ _ h => h

theorem and_spec (verum : c.Means .verum (.const true)) (hx : c.Means x f) (hy : c.Means y g) :
    c.Extends (c.and x y).2 ∧ (c.and x y).2.Means (c.and x y).1 (.and f g) := by
  have falsum : c.Means .falsum (.const false) := verum.not.congr fun _ => rfl
  -- the values of equal literals are equal, so the formulas are
  have value {z : Lit} {h h' : Formula} (hz : c.Means z h) (hz' : c.Means z h') (l : Letter) :
      h.eval l = h'.eval l := (hz.value_eq l).symm.trans (hz'.value_eq l)
  unfold and
  split
  · next same =>
    subst same
    exact ⟨.refl c, hx.congr fun l => by simp [Formula.eval, value hx hy l]⟩
  · split
    · next decided =>
      refine ⟨.refl c, falsum.congr fun l => ?_⟩
      rcases decided with same | same | same <;> subst same
      · simp [Formula.eval, value hx hy.not l]
      · simp [Formula.eval, value hx falsum l]
      · simp [Formula.eval, value hy falsum l]
    · split
      · next same =>
        subst same
        exact ⟨.refl c, hy.congr fun l => by simp [Formula.eval, value hx verum l]⟩
      · split
        · next same =>
          subst same
          exact ⟨.refl c, hx.congr fun l => by simp [Formula.eval, value hy verum l]⟩
        · refine ⟨fun z h hz => hz.add _, c.means_add _ fun l => ?_⟩
          simp only [Gate.value, hx.value_eq, hy.value_eq, Formula.eval]

theorem or_spec (verum : c.Means .verum (.const true)) (hx : c.Means x f) (hy : c.Means y g) :
    c.Extends (c.or x y).2 ∧ (c.or x y).2.Means (c.or x y).1 (.or f g) := by
  obtain ⟨grows, means⟩ := and_spec verum hx.not hy.not
  exact ⟨grows, means.not.congr fun l => by simp [Formula.eval]⟩

end Circuit

/-! ## The encoder -/

/-- The literals by which atoms enter the circuit. -/
abbrev Inputs := Std.HashMap UInt32 Lit

/-- The literal means the formula, and all atoms of the formula have entered the circuit. -/
structure Encodes (c : Circuit) (inputs : Inputs) (x : Lit) (f : Formula) : Prop where
  means : c.Means x f
  entered : ∀ i, f.mentions i = true → i ∈ inputs

theorem Encodes.join {c c' : Circuit} {inputs : Inputs} {x y z : Lit} {f g h : Formula}
    (hx : Encodes c inputs x f) (hy : Encodes c inputs y g) (means : c'.Means z h)
    (parts : ∀ i, h.mentions i = (f.mentions i || g.mentions i)) : Encodes c' inputs z h where
  means
  entered i mentioned := by
    rw [parts, Bool.or_eq_true] at mentioned
    exact mentioned.elim (hx.entered i) (hy.entered i)

structure Encoder where
  circuit : Circuit
  inputs : Inputs
  /-- The literals of the compound formulas that were encoded. -/
  nodes : Std.HashMap Formula Lit
  verum : circuit.Means .verum (.const true)
  input_means : ∀ i x, inputs[i]? = some x → circuit.Means x (.var i)
  encodes : ∀ f x, nodes[f]? = some x → Encodes circuit inputs x f

namespace Encoder

def start : Encoder where
  circuit := .start
  inputs := ∅
  nodes := ∅
  verum := Circuit.means_verum_start
  input_means := by simp
  encodes := by simp

/-- What encoding a formula does: the literal encodes it, nothing else has changed its meaning, and
    no atoms but those of the formula have entered the circuit. -/
structure Step (e : Encoder) (f : Formula) (x : Lit) (e' : Encoder) : Prop where
  encodes : Encodes e'.circuit e'.inputs x f
  grows : ∀ y g, Encodes e.circuit e.inputs y g → Encodes e'.circuit e'.inputs y g
  inputs_from : ∀ i ∈ e'.inputs, i ∈ e.inputs ∨ f.mentions i = true

abbrev Result (e : Encoder) (f : Formula) := { r : Lit × Encoder // e.Step f r.1 r.2 }

theorem mem_insert_iff {inputs : Inputs} {i j : UInt32} {x : Lit} :
    j ∈ inputs.insert i x ↔ j = i ∨ j ∈ inputs := by
  rw [Std.HashMap.mem_insert, beq_iff_eq, eq_comm]

theorem mentions_var_iff {i j : UInt32} : (Formula.var i).mentions j = true ↔ j = i := by
  rw [Formula.mentions, beq_iff_eq]

theorem Step.of_input {e : Encoder} {i : UInt32} {x : Lit} (found : e.inputs[i]? = some x) :
    e.Step (.var i) x e where
  encodes := ⟨e.input_means i x found, fun j mentioned => by
    rw [mentions_var_iff.mp mentioned, Std.HashMap.mem_iff_isSome_getElem?, found]
    rfl⟩
  grows _ _ known := known
  inputs_from _ entered := .inl entered

/-- The literal of an atom, which enters the circuit if it is new. -/
def input (i : UInt32) (e : Encoder) : e.Result (.var i) :=
  match h : e.inputs[i]? with
  | some x => ⟨(x, e), .of_input h⟩
  | none =>
    -- the encoder is taken apart so that its tables have no second owner when they change
    match e with
    | ⟨circuit, inputs, nodes, verum, input_means, encodes⟩ =>
      let added := circuit.add (.input i)
      have means : added.2.Means added.1 (.var i) := circuit.means_add _ fun _ => rfl
      have grows (y : Lit) (g : Formula) (known : Encodes circuit inputs y g) :
          Encodes added.2 (inputs.insert i added.1) y g :=
        ⟨known.means.add _, fun j mentioned =>
          mem_insert_iff.mpr (.inr (known.entered j mentioned))⟩
      ⟨(added.1, {
        circuit := added.2
        inputs := inputs.insert i added.1
        nodes
        verum := verum.add _
        input_means := fun j x found => by
          rw [Std.HashMap.getElem?_insert] at found
          split at found
          · next same =>
            cases found
            exact eq_of_beq same ▸ means
          · exact (input_means j x found).add _
        encodes := fun f x found => grows x f (encodes f x found) }), {
        encodes := ⟨means, fun j mentioned =>
          mem_insert_iff.mpr (.inl (mentions_var_iff.mp mentioned))⟩
        grows
        inputs_from := fun j entered =>
          (mem_insert_iff.mp entered).elim (fun same => .inr (mentions_var_iff.mpr same)) .inl }⟩

/-- Makes the literal of a compound formula from those of its operands, and lists it. -/
def connect : (e : Encoder) → (f : Formula) → (make : Circuit → Lit × Circuit) →
    e.circuit.Extends (make e.circuit).2 →
    Encodes (make e.circuit).2 e.inputs (make e.circuit).1 f → e.Result f
  | ⟨circuit, inputs, nodes, verum, input_means, encodes⟩, f, make, keeps, encoded =>
    let made := make circuit
    have grows (y : Lit) (g : Formula) (known : Encodes circuit inputs y g) :
        Encodes made.2 inputs y g := ⟨keeps y g known.means, known.entered⟩
    ⟨(made.1, {
      circuit := made.2
      inputs
      nodes := nodes.insert f made.1
      verum := keeps _ _ verum
      input_means := fun i x found => keeps _ _ (input_means i x found)
      encodes := fun g x found => by
        rw [Std.HashMap.getElem?_insert] at found
        split at found
        · next same =>
          cases found
          exact eq_of_beq same ▸ encoded
        · exact grows x g (encodes g x found) }),
      ⟨encoded, grows, fun _ entered => .inl entered⟩⟩

def remembered (e : Encoder) (f : Formula) (make : (e : Encoder) → e.Result f) : e.Result f :=
  match h : e.nodes[f]? with
  | some x => ⟨(x, e), ⟨e.encodes f x h, fun _ _ known => known, fun _ entered => .inl entered⟩⟩
  | none => make e

variable {e e₁ e₂ e₃ : Encoder} {f g h : Formula} {x y z : Lit}

theorem Step.const (e : Encoder) (b : Bool) :
    e.Step (.const b) (if b then .verum else .falsum) e where
  encodes := by
    refine ⟨?_, fun i mentioned => by cases mentioned⟩
    cases b with
    | true => exact e.verum
    | false => exact e.verum.not.congr fun _ => rfl
  grows _ _ known := known
  inputs_from _ entered := .inl entered

/-- A formula is encoded after its first operand. -/
theorem Step.after (first : e.Step f x e₁) (last : e₁.Step h z e₂)
    (part : ∀ i, f.mentions i = true → h.mentions i = true) : e.Step h z e₂ where
  encodes := last.encodes
  grows y g known := last.grows y g (first.grows y g known)
  inputs_from i entered := by
    cases last.inputs_from i entered with
    | inl before => exact (first.inputs_from i before).imp_right (part i)
    | inr mentioned => exact .inr mentioned

theorem Step.after_both (first : e.Step f x e₁) (second : e₁.Step g y e₂) (last : e₂.Step h z e₃)
    (parts : ∀ i, h.mentions i = (f.mentions i || g.mentions i)) : e.Step h z e₃ :=
  first.after (second.after last fun i m => by rw [parts, m, Bool.or_true])
    fun i m => by rw [parts, m, Bool.true_or]

/-- Gives a formula its literal, parts that are equal the same one. -/
def encode : (f : Formula) → (e : Encoder) → e.Result f
  | .const b, e => ⟨(if b then .verum else .falsum, e), .const e b⟩
  | .var i, e => e.input i
  | .not f, e => e.remembered (.not f) fun e =>
    let ⟨(x, e₁), hx⟩ := encode f e
    let ⟨(z, e₂), hz⟩ := e₁.connect (.not f) (fun c => (x.not, c)) (.refl _)
      ⟨hx.encodes.means.not, hx.encodes.entered⟩
    ⟨(z, e₂), hx.after hz fun _ mentioned => mentioned⟩
  | .and f g, e => e.remembered (.and f g) fun e =>
    let ⟨(x, e₁), hx⟩ := encode f e
    let ⟨(y, e₂), hy⟩ := encode g e₁
    -- the literal of the left operand keeps its meaning while the right one is encoded
    have hx' := hy.grows x f hx.encodes
    have made := Circuit.and_spec e₂.verum hx'.means hy.encodes.means
    let ⟨(z, e₃), hz⟩ := e₂.connect (.and f g) (·.and x y) made.1
      (hx'.join hy.encodes made.2 fun _ => rfl)
    ⟨(z, e₃), hx.after_both hy hz fun _ => rfl⟩
  | .or f g, e => e.remembered (.or f g) fun e =>
    let ⟨(x, e₁), hx⟩ := encode f e
    let ⟨(y, e₂), hy⟩ := encode g e₁
    have hx' := hy.grows x f hx.encodes
    have made := Circuit.or_spec e₂.verum hx'.means hy.encodes.means
    let ⟨(z, e₃), hz⟩ := e₂.connect (.or f g) (·.or x y) made.1
      (hx'.join hy.encodes made.2 fun _ => rfl)
    ⟨(z, e₃), hx.after_both hy hz fun _ => rfl⟩

/-! ## Reading a letter back -/

/-- The letter in which those atoms hold whose literals are true when the gates have the values that
    the given letter gives them.  Atoms that have not entered the circuit do not hold. -/
def readBack (e : Encoder) (l : Letter) : Letter :=
  let values := e.circuit.values l
  .ofList (e.inputs.toList.filterMap fun (i, x) => if x.value values then some i.toNat else none)

theorem holds_readBack_iff {l : Letter} {n : Nat} :
    (e.readBack l).holds n = true ↔ ∃ i ∈ e.inputs, i.toNat = n ∧ l.holds n = true := by
  simp only [readBack, Letter.holds_ofList, List.contains_iff_mem, List.mem_filterMap, Prod.exists,
    Std.HashMap.mem_toList_iff_getElem?_eq_some]
  constructor
  · rintro ⟨i, x, found, chosen⟩
    split at chosen
    · next true_ =>
      cases chosen
      refine ⟨i, ?_, rfl, ?_⟩
      · rw [Std.HashMap.mem_iff_isSome_getElem?, found]
        rfl
      · rw [← true_]
        exact ((e.input_means i x found).value_eq l).symm
    · cases chosen
  · rintro ⟨i, entered, rfl, holds⟩
    rw [Std.HashMap.mem_iff_isSome_getElem?, Option.isSome_iff_exists] at entered
    obtain ⟨x, found⟩ := entered
    refine ⟨i, x, found, if_pos ?_⟩
    rw [(e.input_means i x found).value_eq l]
    exact holds

end Encoder

namespace Formula

/-- Letters that agree on the atoms of a formula give it the same truth value. -/
theorem eval_eq_of_mentions {f : Formula} {l m : Letter}
    (agree : ∀ i, f.mentions i = true → l.holds i.toNat = m.holds i.toNat) :
    f.eval l = f.eval m := by
  induction f with
  | const b => rfl
  | var i => exact agree i (by simp [mentions])
  | not f ih => rw [eval, eval, ih agree]
  | and f g ihf ihg =>
    rw [eval, eval, ihf fun i m => agree i (by simp [mentions, m]),
      ihg fun i m => agree i (by simp [mentions, m])]
  | or f g ihf ihg =>
    rw [eval, eval, ihf fun i m => agree i (by simp [mentions, m]),
      ihg fun i m => agree i (by simp [mentions, m])]

end Formula

section

variable {e : Encoder} {x : Lit} {f : Formula}

theorem Encodes.eval_tree (h : Encodes e.circuit e.inputs x f) (l : Letter) :
    (x.tree e.circuit.trees).eval l = f.eval l := by
  rw [Circuit.eval_tree, h.means.value_eq]

theorem Encodes.eval_readBack (h : Encodes e.circuit e.inputs x f) (l : Letter) :
    f.eval (e.readBack l) = f.eval l := by
  apply Formula.eval_eq_of_mentions
  intro i mentioned
  rw [Bool.eq_iff_iff, Encoder.holds_readBack_iff]
  exact ⟨fun ⟨_, _, _, holds⟩ => holds, fun holds => ⟨i, h.entered i mentioned, rfl, holds⟩⟩

end

namespace Formula

def satisfiable (f : Formula) : Bool :=
  let ⟨(x, e), _⟩ := Encoder.encode f .start
  (Solver.solve (x.tree e.circuit.trees) .empty).1.isModel

def model? (f : Formula) : Option { l : Letter // f.eval l = true } :=
  let ⟨(x, e), h⟩ := Encoder.encode f .start
  match (Solver.solve (x.tree e.circuit.trees) .empty).1 with
  | .model l holds =>
    some ⟨e.readBack l, by rw [h.encodes.eval_readBack, ← h.encodes.eval_tree, holds]⟩
  | .none _ => none

/-- The solver is right. -/
theorem satisfiable_iff {f : Formula} : f.satisfiable = true ↔ f.Satisfiable := by
  have h := (Encoder.encode f .start).2
  show (Solver.solve _ .empty).1.isModel = true ↔ _
  rw [Solver.Answer.isModel_iff]
  exact exists_congr fun l => by rw [h.encodes.eval_tree]

theorem isSome_model? (f : Formula) : f.model?.isSome = f.satisfiable := by
  unfold model? satisfiable
  dsimp only
  split
  · next found => rw [found]; rfl
  · next found => rw [found]; rfl

/-- Atoms that do not occur in the formula do not hold in the letter that is found for it. -/
theorem mentions_of_model? {f : Formula} {l : { l : Letter // f.eval l = true }}
    (found : f.model? = some l) {n : Nat} (holds : l.1.holds n = true) :
    ∃ i : UInt32, i.toNat = n ∧ f.mentions i = true := by
  have h := (Encoder.encode f .start).2
  unfold model? at found
  dsimp only at found
  split at found
  · cases found
    obtain ⟨i, entered, same, -⟩ := Encoder.holds_readBack_iff.mp holds
    refine ⟨i, same, (h.inputs_from i entered).resolve_left ?_⟩
    simp [Encoder.start]
  · cases found

end Formula

end TraceRegex
