import Std.Data.HashMap
import TraceRegex.Formula.Basic

/-! # Handles

Outside its context a formula is known by a handle: its connective, and the value of a constant, the
number of an atom, or the place of a compound formula among those with the same connective.  The
arena keeps the handles of the operands of every compound formula, in the order of construction, and
an index by which formulas that were built before are found again.

Places have 32 bits and wrap around.  As long as they do not, and every formula is built after its
operands, handles stand for trees one to one (`Arena.Represents`).
-/

namespace TraceRegex

/-- What a formula is known by outside its context. -/
structure Handle where
  kind : Formula.Kind
  ref : UInt32
deriving DecidableEq, Hashable, Repr

/-! ## Operands and their places -/

/-- Operands in the order in which they were first seen, with an index of their places. -/
structure ConsTable (κ : Type) [BEq κ] [Hashable κ] where
  keys : Array κ
  index : Std.HashMap κ UInt32

namespace ConsTable

variable {κ : Type} [BEq κ] [Hashable κ]

def empty : ConsTable κ := ⟨#[], ∅⟩

/-- The place of operands, which are added if they are new. -/
def intern (t : ConsTable κ) (key : κ) : UInt32 × ConsTable κ :=
  match t.index[key]? with
  | some ref => (ref, t)
  | none =>
    let ref := t.keys.size.toUInt32
    (ref, ⟨t.keys.push key, t.index.insert key ref⟩)

/-- The table holds these operands, and its index says where each of them stands. -/
structure Lists (t : ConsTable κ) (keys : List κ) : Prop where
  keys_eq : t.keys.toList = keys
  index_iff : ∀ (key : κ) (ref : UInt32), t.index[key]? = some ref ↔ keys[ref.toNat]? = some key

variable {t : ConsTable κ} {key : κ} {keys : List κ}

theorem lists_empty : (empty : ConsTable κ).Lists [] := ⟨rfl, by simp [empty]⟩

theorem Lists.intern_of_getElem? (h : t.Lists keys) {i : Nat} (room : i < UInt32.size)
    (stands : keys[i]? = some key) : t.intern key = (i.toUInt32, t) := by
  have place : i.toUInt32.toNat = i := Nat.mod_eq_of_lt room
  have found := (h.index_iff key i.toUInt32).mpr (by rw [place]; exact stands)
  simp only [intern, found]

theorem Lists.intern_of_notMem [LawfulBEq κ] (h : t.Lists keys) (room : keys.length < UInt32.size)
    (new : key ∉ keys) :
    (t.intern key).1 = keys.length.toUInt32 ∧ (t.intern key).2.Lists (keys ++ [key]) := by
  have absent : t.index[key]? = none := by
    cases found : t.index[key]? with
    | none => rfl
    | some ref => exact absurd (List.mem_of_getElem? ((h.index_iff key ref).mp found)) new
  have size : t.keys.size = keys.length := by rw [← h.keys_eq, Array.length_toList]
  have place : keys.length.toUInt32.toNat = keys.length := Nat.mod_eq_of_lt room
  simp only [intern, absent, size]
  refine ⟨trivial, ?_, fun key' ref => ?_⟩
  · rw [Array.toList_push, h.keys_eq]
  · rw [Std.HashMap.getElem?_insert]
    by_cases same : key = key'
    · subst same
      -- the new operands stand at the end and nowhere else
      have last : (keys ++ [key])[ref.toNat]? = some key ↔ ref.toNat = keys.length := by
        constructor
        · intro stands
          by_cases inside : ref.toNat < keys.length
          · rw [List.getElem?_append_left inside] at stands
            exact absurd (List.mem_of_getElem? stands) new
          · obtain ⟨bound, -⟩ := List.getElem?_eq_some_iff.mp stands
            simp only [List.length_append, List.length_singleton] at bound
            omega
        · intro here
          simp [here]
      rw [if_pos BEq.rfl, last, Option.some.injEq, ← UInt32.toNat_inj, place, eq_comm]
    · rw [if_neg (by simpa using same), h.index_iff, List.getElem?_append]
      split
      · exact Iff.rfl
      · next outside =>
        simp [List.getElem?_eq_none (Nat.le_of_not_lt outside), List.getElem?_singleton, same]

end ConsTable

/-! ## The arena -/

/-- The operands of all compound formulas, by connective. -/
structure Arena where
  nots : ConsTable Handle
  ands : ConsTable (Handle × Handle)
  ors : ConsTable (Handle × Handle)

namespace Arena

def empty : Arena := ⟨.empty, .empty, .empty⟩

def size (a : Arena) : Nat := a.nots.keys.size + a.ands.keys.size + a.ors.keys.size

def not : Arena → Handle → Handle × Arena
  | ⟨nots, ands, ors⟩, h =>
    let (ref, nots) := nots.intern h
    (⟨.not, ref⟩, ⟨nots, ands, ors⟩)

def and : Arena → Handle → Handle → Handle × Arena
  | ⟨nots, ands, ors⟩, h, k =>
    let (ref, ands) := ands.intern (h, k)
    (⟨.and, ref⟩, ⟨nots, ands, ors⟩)

def or : Arena → Handle → Handle → Handle × Arena
  | ⟨nots, ands, ors⟩, h, k =>
    let (ref, ors) := ors.intern (h, k)
    (⟨.or, ref⟩, ⟨nots, ands, ors⟩)

/-- The operands that the arena keeps for a handle. -/
def operands (a : Arena) (h : Handle) : List Handle :=
  match h.kind with
  | .const | .var => []
  | .not => a.nots.keys[h.ref.toNat]?.toList
  | .and => (a.ands.keys[h.ref.toNat]?.map fun (l, r) => [l, r]).getD []
  | .or => (a.ors.keys[h.ref.toNat]?.map fun (l, r) => [l, r]).getD []

/-- Builds a formula whose operands have the handles that `handleOf` says. -/
def build (a : Arena) (handleOf : Formula → Handle) : Formula → Handle × Arena
  | .const b => (⟨.const, if b then 1 else 0⟩, a)
  | .var i => (⟨.var, i⟩, a)
  | .not f => a.not (handleOf f)
  | .and f g => a.and (handleOf f) (handleOf g)
  | .or f g => a.or (handleOf f) (handleOf g)

end Arena

/-! ## Handles of trees -/

namespace Handle

/-- How many formulas with its connective were built before a formula. -/
def placeOf (nodes : List Formula) (f : Formula) : Nat :=
  (nodes.take (nodes.idxOf f)).countP (·.kind = f.kind)

def ofTree (nodes : List Formula) : Formula → Handle
  | .const b => ⟨.const, if b then 1 else 0⟩
  | .var i => ⟨.var, i⟩
  | f => ⟨f.kind, (placeOf nodes f).toUInt32⟩

/-- Places among the formulas with one connective have numbers of 32 bits. -/
def HasRoom (nodes : List Formula) : Prop :=
  ∀ k : Formula.Kind, (nodes.filter (·.kind = k)).length < UInt32.size

def OperandsFirst (nodes : List Formula) : Prop :=
  ∀ (i : Nat) (f : Formula), nodes[i]? = some f → ∀ g ∈ f.operands,
    g.operands = [] ∨ ∃ j < i, nodes[j]? = some g

/-- The formula has a handle: it is a leaf, or it was built. -/
def Known (nodes : List Formula) (f : Formula) : Prop := f.operands = [] ∨ f ∈ nodes

variable {nodes : List Formula} {f g : Formula}

theorem getElem?_filter_of_getElem? {α : Type} {p : α → Bool} {xs : List α} {i : Nat} {x : α}
    (found : xs[i]? = some x) (hx : p x = true) :
    (xs.filter p)[(xs.take i).countP p]? = some x := by
  induction xs generalizing i with
  | nil => cases found
  | cons y xs ih =>
    cases i with
    | zero =>
      cases found
      simp [hx]
    | succ i =>
      have later := ih found
      by_cases hy : p y = true
      · simp [hy, later]
      · simp [hy, later]

theorem getElem?_placeOf (hf : f ∈ nodes) :
    (nodes.filter (·.kind = f.kind))[placeOf nodes f]? = some f := by
  have inside := List.idxOf_lt_length_iff.mpr hf
  apply getElem?_filter_of_getElem?
  · rw [List.getElem?_eq_getElem inside, List.getElem_idxOf]
  · simp

theorem placeOf_lt (room : HasRoom nodes) (hf : f ∈ nodes) : placeOf nodes f < UInt32.size := by
  obtain ⟨inside, -⟩ := List.getElem?_eq_some_iff.mp (getElem?_placeOf hf)
  exact Nat.lt_trans inside (room f.kind)

theorem kind_ofTree (nodes : List Formula) (f : Formula) : (ofTree nodes f).kind = f.kind := by
  cases f <;> rfl

theorem ref_ofTree (compound : f.operands ≠ []) :
    (ofTree nodes f).ref = (placeOf nodes f).toUInt32 := by
  cases f with
  | const b => exact absurd rfl compound
  | var i => exact absurd rfl compound
  | not f => rfl
  | and f g => rfl
  | or f g => rfl

/-- While places can be told apart, so can the trees that have handles. -/
theorem ofTree_inj (room : HasRoom nodes) (hf : Known nodes f) (hg : Known nodes g)
    (same : ofTree nodes f = ofTree nodes g) : f = g := by
  have kinds : f.kind = g.kind := by
    rw [← kind_ofTree nodes f, same, kind_ofTree]
  -- of two compound formulas with one connective and one place, both are what stands there
  have compound (hf : f ∈ nodes) (hg : g ∈ nodes) (cf : f.operands ≠ []) (cg : g.operands ≠ []) :
      f = g := by
    have refs := congrArg (fun h => h.ref.toNat) same
    simp only [ref_ofTree cf, ref_ofTree cg] at refs
    have places : placeOf nodes f = placeOf nodes g := by
      rw [← Nat.mod_eq_of_lt (placeOf_lt room hf), ← Nat.mod_eq_of_lt (placeOf_lt room hg)]
      exact refs
    have found := getElem?_placeOf hf
    rw [kinds, places, getElem?_placeOf hg] at found
    exact (Option.some.inj found).symm
  cases f with
  | const b =>
    match g, kinds with
    | .const c, _ =>
      have values : (if b then 1 else 0 : UInt32) = if c then 1 else 0 := congrArg Handle.ref same
      cases b <;> cases c <;> simp_all
  | var i =>
    match g, kinds with
    | .var j, _ => exact congrArg (fun h => Formula.var h.ref) same
  | not f =>
    match g, kinds with
    | .not g, _ => exact compound (hf.resolve_left nofun) (hg.resolve_left nofun) nofun nofun
  | and f f' =>
    match g, kinds with
    | .and g g', _ => exact compound (hf.resolve_left nofun) (hg.resolve_left nofun) nofun nofun
  | or f f' =>
    match g, kinds with
    | .or g g', _ => exact compound (hf.resolve_left nofun) (hg.resolve_left nofun) nofun nofun

theorem ofTree_append (hf : Known nodes f) (more : List Formula) :
    ofTree (nodes ++ more) f = ofTree nodes f := by
  have place (hf : f ∈ nodes) : placeOf (nodes ++ more) f = placeOf nodes f := by
    have inside := List.idxOf_lt_length_iff.mpr hf
    rw [placeOf, placeOf, List.idxOf_append, if_pos hf,
      List.take_append_of_le_length (Nat.le_of_lt inside)]
  cases f with
  | const b => rfl
  | var i => rfl
  | not f => simp only [ofTree, place (hf.resolve_left nofun)]
  | and f g => simp only [ofTree, place (hf.resolve_left nofun)]
  | or f g => simp only [ofTree, place (hf.resolve_left nofun)]

theorem placeOf_concat (new : f ∉ nodes) :
    placeOf (nodes ++ [f]) f = nodes.countP (·.kind = f.kind) := by
  rw [placeOf, List.idxOf_append, if_neg new, List.idxOf_cons_self, Nat.zero_add, List.take_left]

theorem HasRoom.of_append {more : List Formula} (room : HasRoom (nodes ++ more)) :
    HasRoom nodes := by
  intro k
  have bound := room k
  rw [List.filter_append, List.length_append] at bound
  omega

theorem OperandsFirst.of_concat (first : OperandsFirst (nodes ++ [f])) :
    OperandsFirst nodes ∧ ∀ g ∈ f.operands, Known nodes g := by
  constructor
  · intro i h found g hg
    obtain ⟨inside, -⟩ := List.getElem?_eq_some_iff.mp found
    refine (first i h (by rw [List.getElem?_append_left inside, found]) g hg).imp_right ?_
    rintro ⟨j, before, place⟩
    exact ⟨j, before, by rwa [List.getElem?_append_left (by omega)] at place⟩
  · intro g hg
    refine (first nodes.length f (by simp) g hg).imp_right ?_
    rintro ⟨j, before, place⟩
    rw [List.getElem?_append_left before] at place
    exact List.mem_of_getElem? place

theorem OperandsFirst.known (first : OperandsFirst nodes) (hf : f ∈ nodes) :
    ∀ g ∈ f.operands, Known nodes g := by
  intro g hg
  obtain ⟨i, place⟩ := List.mem_iff_getElem?.mp hf
  exact (first i f place g hg).imp_right fun ⟨_, _, place'⟩ => List.mem_of_getElem? place'

end Handle

/-! ## What the arena represents -/

namespace Arena

open Handle

def notKey? (handleOf : Formula → Handle) : Formula → Option Handle
  | .not f => some (handleOf f)
  | _ => none

def andKey? (handleOf : Formula → Handle) : Formula → Option (Handle × Handle)
  | .and f g => some (handleOf f, handleOf g)
  | _ => none

def orKey? (handleOf : Formula → Handle) : Formula → Option (Handle × Handle)
  | .or f g => some (handleOf f, handleOf g)
  | _ => none

/-- The arena and the list of handles belong to the formulas that were built, in this order. -/
structure Represents (a : Arena) (handles : List Handle) (nodes : List Formula) : Prop where
  handles_eq : handles = nodes.map (ofTree nodes)
  nots : a.nots.Lists (nodes.filterMap (notKey? (ofTree nodes)))
  ands : a.ands.Lists (nodes.filterMap (andKey? (ofTree nodes)))
  ors : a.ors.Lists (nodes.filterMap (orKey? (ofTree nodes)))

theorem represents_empty : empty.Represents [] [] :=
  ⟨rfl, ConsTable.lists_empty, ConsTable.lists_empty, ConsTable.lists_empty⟩

/-- A key of the formulas with one connective: their operands' handles, which determine them. -/
structure IsKey {κ : Type} (k : Formula.Kind) (key? : (Formula → Handle) → Formula → Option κ) :
    Prop where
  isSome_iff : ∀ u f, (key? u f).isSome ↔ f.kind = k
  congr : ∀ {u v : Formula → Handle} {f : Formula}, (∀ g ∈ f.operands, u g = v g) →
    key? u f = key? v f
  inj : ∀ {u : Formula → Handle} {f g : Formula} {key : κ}, key? u f = some key →
    key? u g = some key → (∀ x ∈ f.operands, ∀ y ∈ g.operands, u x = u y → x = y) → f = g

theorem isKey_not : IsKey .not notKey? where
  isSome_iff u f := by cases f <;> simp [notKey?, Formula.kind]
  congr {u v f} same := by
    cases f <;> simp_all [notKey?, Formula.operands]
  inj {u f g key} hf hg one := by
    cases f <;> cases g <;> simp_all [notKey?, Formula.operands]

theorem isKey_and : IsKey .and andKey? where
  isSome_iff u f := by cases f <;> simp [andKey?, Formula.kind]
  congr {u v f} same := by
    cases f <;> simp_all [andKey?, Formula.operands]
  inj {u f g key} hf hg one := by
    cases f <;> cases g <;> simp_all [andKey?, Formula.operands]
    grind

theorem isKey_or : IsKey .or orKey? where
  isSome_iff u f := by cases f <;> simp [orKey?, Formula.kind]
  congr {u v f} same := by
    cases f <;> simp_all [orKey?, Formula.operands]
  inj {u f g key} hf hg one := by
    cases f <;> cases g <;> simp_all [orKey?, Formula.operands]
    grind

section Step

variable {κ : Type} {k : Formula.Kind} {key? : (Formula → Handle) → Formula → Option κ}
  {nodes : List Formula} {f : Formula}

theorem filterMap_eq_of_mem {p q : Formula → Option κ} (h : ∀ f ∈ nodes, p f = q f) :
    nodes.filterMap p = nodes.filterMap q := by
  induction nodes with
  | nil => rfl
  | cons f nodes ih =>
    rw [List.filterMap_cons, List.filterMap_cons, h f List.mem_cons_self,
      ih fun g hg => h g (List.mem_cons_of_mem f hg)]

theorem IsKey.filterMap_concat (h : IsKey k key?) (first : OperandsFirst (nodes ++ [f])) :
    (nodes ++ [f]).filterMap (key? (ofTree (nodes ++ [f]))) =
      nodes.filterMap (key? (ofTree nodes)) ++ (key? (ofTree nodes) f).toList := by
  obtain ⟨before, operands⟩ := first.of_concat
  have kept : nodes.filterMap (key? (ofTree (nodes ++ [f]))) =
      nodes.filterMap (key? (ofTree nodes)) :=
    filterMap_eq_of_mem fun g hg =>
      h.congr fun x hx => ofTree_append (before.known hg x hx) [f]
  have last : key? (ofTree (nodes ++ [f])) f = key? (ofTree nodes) f :=
    h.congr fun x hx => ofTree_append (operands x hx) [f]
  rw [List.filterMap_append, kept, List.filterMap_cons, last]
  cases key? (ofTree nodes) f <;> rfl

theorem IsKey.length_filterMap (h : IsKey k key?) (u : Formula → Handle) (nodes : List Formula) :
    (nodes.filterMap (key? u)).length = nodes.countP (·.kind = k) := by
  rw [List.length_filterMap_eq_countP]
  apply List.countP_congr
  intro f _
  simpa using h.isSome_iff u f

variable [BEq κ] [Hashable κ] {t : ConsTable κ}

theorem IsKey.lists_of_other (h : IsKey k key?) (first : OperandsFirst (nodes ++ [f]))
    (lists : t.Lists (nodes.filterMap (key? (ofTree nodes)))) (other : f.kind ≠ k) :
    t.Lists ((nodes ++ [f]).filterMap (key? (ofTree (nodes ++ [f])))) := by
  have none : key? (ofTree nodes) f = none := by
    cases found : key? (ofTree nodes) f with
    | none => rfl
    | some key => exact absurd ((h.isSome_iff (ofTree nodes) f).mp (by simp [found])) other
  rw [h.filterMap_concat first, none, Option.toList_none, List.append_nil]
  exact lists

/-- A new formula gets the next place among those with its connective. -/
theorem IsKey.lists_intern [LawfulBEq κ] (h : IsKey k key?) (first : OperandsFirst (nodes ++ [f]))
    (room : HasRoom (nodes ++ [f])) (new : f ∉ nodes)
    (lists : t.Lists (nodes.filterMap (key? (ofTree nodes)))) {key : κ}
    (keyed : key? (ofTree nodes) f = some key) :
    (t.intern key).1 = (placeOf (nodes ++ [f]) f).toUInt32 ∧
      (t.intern key).2.Lists ((nodes ++ [f]).filterMap (key? (ofTree (nodes ++ [f])))) := by
  obtain ⟨before, operands⟩ := first.of_concat
  have kind : f.kind = k := (h.isSome_iff (ofTree nodes) f).mp (by simp [keyed])
  have fresh : key ∉ nodes.filterMap (key? (ofTree nodes)) := by
    intro listed
    obtain ⟨g, hg, keyed'⟩ := List.mem_filterMap.mp listed
    have same : f = g := h.inj keyed keyed' fun x hx y hy =>
      ofTree_inj room.of_append (operands x hx) (before.known hg y hy)
    exact new (same ▸ hg)
  have few : (nodes.filterMap (key? (ofTree nodes))).length < UInt32.size := by
    rw [h.length_filterMap, List.countP_eq_length_filter]
    exact room.of_append k
  obtain ⟨place, lists'⟩ := lists.intern_of_notMem few fresh
  rw [h.filterMap_concat first, keyed, placeOf_concat new, kind]
  exact ⟨by rw [place, h.length_filterMap], lists'⟩

end Step

variable {a : Arena} {handles : List Handle} {nodes : List Formula} {f : Formula}

/-- Building a new formula from the handles of its operands gives the handle of its tree. -/
theorem Represents.build (h : a.Represents handles nodes) (first : OperandsFirst (nodes ++ [f]))
    (room : HasRoom (nodes ++ [f])) (new : f ∉ nodes) {handleOf : Formula → Handle}
    (agrees : ∀ g, Known nodes g → handleOf g = ofTree nodes g) :
    (a.build handleOf f).1 = ofTree (nodes ++ [f]) f ∧
      (a.build handleOf f).2.Represents (handles ++ [(a.build handleOf f).1]) (nodes ++ [f]) := by
  obtain ⟨before, operands⟩ := first.of_concat
  -- what the cases share: formulas that were built before keep their handles
  have extended {a' : Arena} {last : Handle} (handle : last = ofTree (nodes ++ [f]) f)
      (nots : a'.nots.Lists ((nodes ++ [f]).filterMap (notKey? (ofTree (nodes ++ [f])))))
      (ands : a'.ands.Lists ((nodes ++ [f]).filterMap (andKey? (ofTree (nodes ++ [f])))))
      (ors : a'.ors.Lists ((nodes ++ [f]).filterMap (orKey? (ofTree (nodes ++ [f]))))) :
      last = ofTree (nodes ++ [f]) f ∧ a'.Represents (handles ++ [last]) (nodes ++ [f]) := by
    refine ⟨handle, ?_, nots, ands, ors⟩
    have kept : nodes.map (ofTree (nodes ++ [f])) = nodes.map (ofTree nodes) :=
      List.map_congr_left fun g hg => ofTree_append (.inr hg) [f]
    rw [h.handles_eq, handle, List.map_append, kept, List.map_singleton]
  cases f with
  | const b =>
    exact extended rfl (isKey_not.lists_of_other first h.nots nofun)
      (isKey_and.lists_of_other first h.ands nofun) (isKey_or.lists_of_other first h.ors nofun)
  | var i =>
    exact extended rfl (isKey_not.lists_of_other first h.nots nofun)
      (isKey_and.lists_of_other first h.ands nofun) (isKey_or.lists_of_other first h.ors nofun)
  | not g =>
    have key : notKey? (ofTree nodes) (.not g) = some (handleOf g) := by
      rw [agrees g (operands g (by simp [Formula.operands]))]
      rfl
    obtain ⟨place, lists⟩ := isKey_not.lists_intern first room new h.nots key
    exact extended (congrArg (Handle.mk .not) place) lists
      (isKey_and.lists_of_other first h.ands nofun) (isKey_or.lists_of_other first h.ors nofun)
  | and g g' =>
    have key : andKey? (ofTree nodes) (.and g g') = some (handleOf g, handleOf g') := by
      rw [agrees g (operands g (by simp [Formula.operands])),
        agrees g' (operands g' (by simp [Formula.operands]))]
      rfl
    obtain ⟨place, lists⟩ := isKey_and.lists_intern first room new h.ands key
    exact extended (congrArg (Handle.mk .and) place)
      (isKey_not.lists_of_other first h.nots nofun) lists
      (isKey_or.lists_of_other first h.ors nofun)
  | or g g' =>
    have key : orKey? (ofTree nodes) (.or g g') = some (handleOf g, handleOf g') := by
      rw [agrees g (operands g (by simp [Formula.operands])),
        agrees g' (operands g' (by simp [Formula.operands]))]
      rfl
    obtain ⟨place, lists⟩ := isKey_or.lists_intern first room new h.ors key
    exact extended (congrArg (Handle.mk .or) place)
      (isKey_not.lists_of_other first h.nots nofun)
      (isKey_and.lists_of_other first h.ands nofun) lists

end Arena

end TraceRegex
