import TraceRegex.Letter.Basic

/-! # Formulas over atoms

Guards of rules are propositional formulas over numbered atoms.  A formula is its syntax tree:
operand order and nesting matter, and two formulas are equal exactly when their trees are.  Each
node carries a digest of its tree, a bound on its atoms and its height.  Equality first compares
digests and addresses, so that comparing two trees that share their parts takes constant time.
-/

namespace TraceRegex

/-- Mixes the word `w` into the digest `h`: a multiplication spreads each bit upwards, and the
    shifted half brings the upper bits back down. -/
def Digest.mix (h w : UInt64) : UInt64 :=
  let x := (h ^^^ w) * 0x9e3779b97f4a7c15
  x ^^^ (x >>> 32)

inductive Formula where
  | const (value : Bool)
  | var (index : UInt32)
  | not (arg : Formula)
  | and (lhs rhs : Formula)
  | or (lhs rhs : Formula)
with
  @[computed_field]
  digest : Formula → UInt64
    | .const value => Digest.mix 1 (if value then 1 else 0)
    | .var index => Digest.mix 2 index.toUInt64
    | .not arg => Digest.mix 3 arg.digest
    | .and lhs rhs => Digest.mix (Digest.mix 4 lhs.digest) rhs.digest
    | .or lhs rhs => Digest.mix (Digest.mix 5 lhs.digest) rhs.digest
  /-- One more than the largest atom of the formula; zero when it has none. -/
  @[computed_field]
  varCount : Formula → Nat
    | .const _ => 0
    | .var index => index.toNat + 1
    | .not arg => arg.varCount
    | .and lhs rhs => max lhs.varCount rhs.varCount
    | .or lhs rhs => max lhs.varCount rhs.varCount
  /-- The number of connectives on the longest way down to a leaf. -/
  @[computed_field]
  height : Formula → Nat
    | .const _ => 0
    | .var _ => 0
    | .not arg => arg.height + 1
    | .and lhs rhs => max lhs.height rhs.height + 1
    | .or lhs rhs => max lhs.height rhs.height + 1

namespace Formula

instance : Inhabited Formula := ⟨.const false⟩

instance : Hashable Formula := ⟨digest⟩

/-! ## Equality -/

/-- Decides equality: trees with different digests differ, a tree equals itself, and otherwise the
    operands decide. -/
def decEq (f g : Formula) : Decidable (f = g) :=
  if hd : f.digest = g.digest then
    withPtrEqDecEq f g fun _ =>
      match f, g with
      | .const a, .const b => decidable_of_iff (a = b) (by simp)
      | .var i, .var j => decidable_of_iff (i = j) (by simp)
      | .not a, .not b =>
        match decEq a b with
        | isTrue h => isTrue (by rw [h])
        | isFalse h => isFalse (by simpa using h)
      | .and a b, .and c d | .or a b, .or c d =>
        match decEq a c with
        | isTrue h =>
          match decEq b d with
          | isTrue h' => isTrue (by rw [h, h'])
          | isFalse h' => isFalse (by simp [h'])
        | isFalse h => isFalse (by simp [h])
      | .const _, .var _ | .const _, .not _ | .const _, .and _ _ | .const _, .or _ _
      | .var _, .const _ | .var _, .not _ | .var _, .and _ _ | .var _, .or _ _
      | .not _, .const _ | .not _, .var _ | .not _, .and _ _ | .not _, .or _ _
      | .and _ _, .const _ | .and _ _, .var _ | .and _ _, .not _ | .and _ _, .or _ _
      | .or _ _, .const _ | .or _ _, .var _ | .or _ _, .not _ | .or _ _, .and _ _ =>
        isFalse (by simp)
  else isFalse fun h => hd (by rw [h])

instance : DecidableEq Formula := decEq

/-! ## Shape -/

inductive Kind where
  | const | var | not | and | or
deriving DecidableEq, Hashable, Repr

def Kind.name : Kind → String
  | .const => "const"
  | .var => "var"
  | .not => "not"
  | .and => "and"
  | .or => "or"

/-- The name of the connective with a given number; numbers beyond the last connective are shown as
    such. -/
def Kind.nameOfNumber : Nat → String
  | 0 => Kind.const.name
  | 1 => Kind.var.name
  | 2 => Kind.not.name
  | 3 => Kind.and.name
  | 4 => Kind.or.name
  | n => s!"kind({n})"

def kind : Formula → Kind
  | .const _ => .const
  | .var _ => .var
  | .not _ => .not
  | .and _ _ => .and
  | .or _ _ => .or

def isConst : Formula → Bool
  | .const _ => true
  | _ => false

def isVar : Formula → Bool
  | .var _ => true
  | _ => false

/-- The atom number `i` as a formula.  Atoms have 32-bit numbers; a larger one is taken modulo
    `2^32`. -/
def atom (i : Nat) : Formula := .var i.toUInt32

/-- The operands of the outermost connective, left to right. -/
def operands : Formula → List Formula
  | .const _ | .var _ => []
  | .not f => [f]
  | .and f g | .or f g => [f, g]

/-- A formula read as something that it is not. -/
inductive ShapeError where
  | notConstant (kind : Kind)
  | notVariable (kind : Kind)
  | notNegation (kind : Kind)
  | notBinary (kind : Kind)
deriving DecidableEq, Repr

def ShapeError.message : ShapeError → String
  | .notConstant k => s!"formula is not a constant ({k.name})"
  | .notVariable k => s!"formula is not a variable ({k.name})"
  | .notNegation k => s!"formula is not a negation ({k.name})"
  | .notBinary k => s!"formula is not binary ({k.name})"

def value? : Formula → Except ShapeError Bool
  | .const b => .ok b
  | f => .error (.notConstant f.kind)

def index? : Formula → Except ShapeError Nat
  | .var i => .ok i.toNat
  | f => .error (.notVariable f.kind)

def operand? : Formula → Except ShapeError Formula
  | .not f => .ok f
  | f => .error (.notNegation f.kind)

def operands? : Formula → Except ShapeError (Formula × Formula)
  | .and f g | .or f g => .ok (f, g)
  | f => .error (.notBinary f.kind)

/-! ## Meaning -/

def eval (l : Letter) : Formula → Bool
  | .const b => b
  | .var i => l.holds i.toNat
  | .not f => !f.eval l
  | .and f g => f.eval l && g.eval l
  | .or f g => f.eval l || g.eval l

end Formula

end TraceRegex
