import TraceRegex.Fault
import TraceRegex.Random.Sample

/-! # Lists of words

All words up to a length, and samples of words that are sorted by a test into accepted and rejected
ones.
-/

namespace TraceRegex

namespace Word

/-! ## Enumeration -/

/-- The letter whose atoms are the binary digits of a number. -/
def letterOfNat (atoms n : Nat) : Letter := .ofList ((List.range atoms).filter n.testBit)

/-- The number of letters over some atoms, as a number of 64 bits. -/
def letterCount (atoms : Nat) : Nat := if atoms < 64 then Nat.pow 2 atoms else 0

/-- All letters over the given number of atoms, if their number has 64 bits.  Their list must not be
    too long. -/
def allLetters (atoms : Nat) : Except Fault (List Letter) := do
  checkTable (letterCount atoms) 8
  return (List.range (letterCount atoms)).map (letterOfNat atoms)

/-- The words that are one letter longer than the given ones. -/
def extend (letters : List Letter) (words : List Word) : List Word :=
  words.flatMap fun w => letters.map fun l => w ++ [l]

def ofLength (letters : List Letter) : Nat → List Word
  | 0 => [[]]
  | n + 1 => extend letters (ofLength letters n)

/-- The given words and the longer ones that go on with up to `n` letters, shorter ones first. -/
def longerBy (letters : List Letter) : Nat → List Word → List Word
  | 0, words => words
  | n + 1, words => words ++ longerBy letters n (extend letters words)

/-- All words over the given number of atoms up to a length, shorter ones first. -/
def upTo (atoms length : Nat) : Except Fault (List Word) := do
  return longerBy (← allLetters atoms) length [[]]

/-! ## Samples -/

structure Plan where
  minLength : Nat
  maxLength : Nat
  /-- How many words of a length to draw when there are too many of them. -/
  count : Nat
  /-- How many words of a length are still listed completely. -/
  maxWords : Nat
  seed : UInt64
deriving DecidableEq, Repr, Inhabited

def maxPower : Nat := Nat.pow 2 32

/-- Goes on with the power `result` of `base`. -/
def powerFrom (base result : Nat) : Nat → Except Fault (Option Nat)
  | 0 => .ok (some result)
  | n + 1 =>
    if base = 0 then .error .outOfRange
    else if maxPower / base < result then .ok none
    else powerFrom base (result * base) n

/-- The power of a number, unless it exceeds the largest one.  Zero has no powers but the first one. -/
def power (base exponent : Nat) : Except Fault (Option Nat) :=
  if base = 1 then .ok (some 1) else powerFrom base 1 exponent

/-- All words of a length.  The letters are listed first, and the list must not be too long. -/
def listed (atoms length : Nat) : Except Fault (List Word) := do
  return ofLength (← allLetters atoms) length

def drawn (atoms length : Nat) : Nat → Sampler (List Word)
  | 0 => return []
  | n + 1 => do
    let w ← Sampler.letters atoms length
    return w :: (← drawn atoms length n)

/-- The words of one length: all of them, or a sample. -/
def sampleOf (plan : Plan) (atoms length : Nat) (g : Generator) :
    Except Fault (List Word × Generator) := do
  match ← power (letterCount atoms) length with
  | some total =>
    if total ≤ plan.maxWords then return (← listed atoms length, g)
    else sampled
  | none => sampled
where
  sampled : Except Fault (List Word × Generator) := do
    if 0 < plan.count then checkTable length 8
    return (drawn atoms length plan.count).run g

/-- The words of the given number of lengths, from `length` on. -/
def samplesFrom (plan : Plan) (atoms : Nat) (length : Nat) :
    Nat → Generator → Except Fault (List Word)
  | 0, _ => .ok []
  | n + 1, g => do
    let (words, g) ← sampleOf plan atoms length g
    return words ++ (← samplesFrom plan atoms (length + 1) n g)

/-- The words that a plan asks for: those that pass the test and those that do not. -/
def generate (plan : Plan) (atoms : Nat) (test : Word → Bool) :
    Except Fault (List Word × List Word) := do
  let words ← samplesFrom plan atoms plan.minLength (plan.maxLength + 1 - plan.minLength)
    (.ofSeed plan.seed)
  return (words.filter test, words.filter (!test ·))

end Word

end TraceRegex
