import TraceRegex.Snapshot.Basic
import TraceRegex.Text.Quoted

/-! # The binary format of snapshots

A snapshot starts with a header: a magic number, the kind, and the counts of atoms and states.  Two
counted lists of states follow, the initial and the final ones, and then for each state its counted
rules, each with the length and the bytes of its guard and its target.  All numbers are
little-endian, counts of rules and lengths of guards four bytes long, all others two.
-/

namespace TraceRegex

/-- The four bytes of a number below `2^32`, low byte first. -/
def bytes32 (n : Nat) : List UInt8 := bytes16 n ++ bytes16 (n / 65536)

def word32 (a b c d : UInt8) : Nat := word16 a b + 65536 * word16 c d

inductive LoadError where
  | truncatedHeader
  | badMagic (magic : Nat)
  | unsupportedKind (code : UInt16)
  | noStates
  | truncatedAt (offset : Nat)
  | stateOutOfBounds (state : Nat)
  | tooManyRules (state count : Nat)
  | guard (state rule : Nat) (cause : BytecodeError)
  | targetOutOfBounds (state rule target : Nat)
  | trailingBytes (count : Nat)
  | noInitialState
  | manyInitialStates (count : Nat)
deriving DecidableEq, Repr

/-- Marks a detail as a fault of the format. -/
def malformed (detail : String) : String := "malformed snapshot: " ++ detail

def LoadError.message : LoadError → String
  | .truncatedHeader => malformed "truncated header"
  | .badMagic magic => malformed ("bad magic number 0x" ++ Text.hex 8 magic)
  | .unsupportedKind code => s!"unsupported snapshot kind ({code})"
  | .noStates => malformed "no states"
  | .truncatedAt offset => malformed s!"truncated at byte {offset}"
  | .stateOutOfBounds q => malformed s!"state {q} out-of-bounds"
  | .tooManyRules q count => malformed s!"state {q} has {count} rules"
  | .guard q i cause => s!"state {q} rule {i}: " ++ malformed cause.detail
  | .targetOutOfBounds q i t => malformed s!"state {q} rule {i} targets state {t}"
  | .trailingBytes n => malformed s!"{n} trailing bytes"
  | .noInitialState => malformed "no initial state"
  | .manyInitialStates n => malformed s!"deterministic snapshot with {n} initial states"

/-! ## The header -/

structure Header where
  kind : SnapshotKind
  atomCount : UInt16
  stateCount : UInt16
deriving DecidableEq, Repr, Inhabited

namespace Header

def magic : Nat := 0x82337462

def byteCount : Nat := 10

def encode (h : Header) : List UInt8 :=
  bytes32 magic ++ bytes16 h.kind.code.toNat ++ bytes16 h.atomCount.toNat
    ++ bytes16 h.stateCount.toNat

/-- Reads the header at the front of the bytes. -/
def decode : List UInt8 → Except LoadError Header
  | m0 :: m1 :: m2 :: m3 :: k0 :: k1 :: a0 :: a1 :: s0 :: s1 :: _ =>
    if word32 m0 m1 m2 m3 ≠ magic then .error (.badMagic (word32 m0 m1 m2 m3))
    else
      let kind : SnapshotKind := ⟨(word16 k0 k1).toUInt16⟩
      if kind.isKnown then
        .ok { kind, atomCount := (word16 a0 a1).toUInt16, stateCount := (word16 s0 s1).toUInt16 }
      else .error (.unsupportedKind kind.code)
  | _ => .error .truncatedHeader

end Header

/-! ## Writing -/

namespace Snapshot

/-- A counted list of states. -/
def encodeStates (states : List Nat) : Except TooLarge (List UInt8) :=
  if maxWord16 < states.length then .error (.statesInSet states.length)
  else .ok (bytes16 states.length ++ states.flatMap bytes16)

def encodeCodedRule (r : CodedRule) : List UInt8 :=
  bytes32 r.guard.length ++ r.guard ++ bytes16 r.target

def encodeRules (rules : List CodedRule) : List UInt8 :=
  bytes32 rules.length ++ rules.flatMap encodeCodedRule

def encode (s : Snapshot) : Except TooLarge (List UInt8) := do
  if maxWord16 < s.atomCount then throw (.atoms s.atomCount)
  if maxWord16 < s.stateCount then throw (.states s.stateCount)
  let header : Header :=
    { kind := s.kind, atomCount := s.atomCount.toUInt16, stateCount := s.stateCount.toUInt16 }
  let initials ← encodeStates s.initials
  let finals ← encodeStates s.finals
  return header.encode ++ initials ++ finals ++ s.transitions.flatMap encodeRules

end Snapshot

/-! ## Reading -/

/-- The bytes that are left, and the offset at which they start. -/
structure ByteCursor where
  offset : Nat
  rest : List UInt8

/-- A computation that takes bytes off the front. -/
abbrev ByteReader := StateT ByteCursor (Except LoadError)

namespace ByteReader

/-- Takes `n` elements off the front of a list, if there are that many. -/
def split? {α : Type} : Nat → List α → Option (List α × List α)
  | 0, rest => some ([], rest)
  | _ + 1, [] => none
  | n + 1, x :: xs => (split? n xs).map fun (front, rest) => (x :: front, rest)

def isShorter {α : Type} : Nat → List α → Bool
  | 0, _ => false
  | _ + 1, [] => true
  | n + 1, _ :: xs => isShorter n xs

def take (n : Nat) : ByteReader (List UInt8) := fun cursor =>
  if isShorter n cursor.rest then .error (.truncatedAt cursor.offset)
  else
    match split? n cursor.rest with
    | some (front, rest) => .ok (front, ⟨cursor.offset + n, rest⟩)
    | none => .error (.truncatedAt cursor.offset)

def u16 : ByteReader Nat := do
  match ← take 2 with
  | [lo, hi] => return word16 lo hi
  | _ => return 0

def u32 : ByteReader Nat := do
  match ← take 4 with
  | [a, b, c, d] => return word32 a b c d
  | _ => return 0

/-- Takes the given number of states, each of which must be in range. -/
def statesOf (stateCount : Nat) : Nat → ByteReader (List Nat)
  | 0 => return []
  | n + 1 => do
    let q ← u16
    if stateCount ≤ q then throw (.stateOutOfBounds q)
    return q :: (← statesOf stateCount n)

/-- Takes a counted list of states and puts it in order. -/
def states (stateCount : Nat) : ByteReader (List Nat) := do
  return (SortedSet.ofList (← statesOf stateCount (← u16))).toList

def rule (header : Header) (q i : Nat) : ByteReader CodedRule := do
  let guard : Bytecode ← take (← u32)
  let target ← u16
  match guard.check header.atomCount.toNat with
  | .error cause => throw (.guard q i cause)
  | .ok () =>
    if header.stateCount.toNat ≤ target then throw (.targetOutOfBounds q i target)
    return ⟨guard, target⟩

/-- Takes the given number of rules of the state `q`, the first of which has the number `i`. -/
def rulesOf (header : Header) (q i : Nat) : Nat → ByteReader (List CodedRule)
  | 0 => return []
  | n + 1 => do
    let r ← rule header q i
    return r :: (← rulesOf header q (i + 1) n)

/-- Takes the counted rules of the state `q`.  A rule has at least seven bytes, so a count that the
    bytes left cannot hold is refused at once. -/
def rules (header : Header) (q : Nat) : ByteReader (List CodedRule) := do
  let count ← u32
  if isShorter (7 * count) (← get).rest then throw (.tooManyRules q count)
  rulesOf header q 0 count

def transitionsOf (header : Header) (q : Nat) : Nat → ByteReader (List (List CodedRule))
  | 0 => return []
  | n + 1 => do
    let rs ← rules header q
    return rs :: (← transitionsOf header (q + 1) n)

/-- Takes what follows the header. -/
def body (header : Header) : ByteReader Snapshot := do
  let stateCount := header.stateCount.toNat
  let initials ← states stateCount
  let finals ← states stateCount
  let transitions ← transitionsOf header 0 stateCount
  let rest := (← get).rest
  if !rest.isEmpty then throw (.trailingBytes rest.length)
  -- faults of the rules and bytes that are left over are reported before these two
  if initials.isEmpty then throw .noInitialState
  if header.kind = .deterministic ∧ initials.length ≠ 1 then
    throw (.manyInitialStates initials.length)
  return {
    kind := header.kind
    atomCount := header.atomCount.toNat
    stateCount
    initials
    finals
    transitions }

end ByteReader

namespace Snapshot

def isSnapshot : List UInt8 → Bool
  | a :: b :: c :: d :: _ => word32 a b c d == Header.magic
  | _ => false

def load (bytes : List UInt8) : Except LoadError Snapshot := do
  let header ← Header.decode bytes
  if header.stateCount = 0 then throw .noStates
  let (s, _) ← (ByteReader.body header).run ⟨Header.byteCount, bytes.drop Header.byteCount⟩
  return s

end Snapshot

end TraceRegex
