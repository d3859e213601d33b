import TraceRegex.Fault

/-! # Random numbers

A generator of pseudo-random words: a linear congruence on 128 bits whose state is scrambled into
each word.  The same seed always gives the same words.
-/

namespace TraceRegex

/-- The state of a generator, a number of 128 bits. -/
structure Generator where
  state : Nat
deriving DecidableEq, Repr, Inhabited

/-- A computation that draws random numbers. -/
abbrev Sampler := StateM Generator

inductive DrawError where
  /-- A number was asked for out of an empty range. -/
  | emptyRange
  | fault (cause : Fault)
deriving DecidableEq, Repr

def DrawError.message? : DrawError → Option String
  | .emptyRange => some "invalid argument to UintN"
  | .fault cause => cause.message?

namespace Generator

def wordSize : Nat := Nat.pow 2 64

def multiplier : Nat := 2549297995355413924 * wordSize + 4865540595714422341

def increment : Nat := 6364136223846793005 * wordSize + 1442695040888963407

def ofSeed (seed : UInt64) : Generator :=
  ⟨seed.toNat * wordSize + (seed ^^^ 0x9e3779b97f4a7c15).toNat⟩

def advance (g : Generator) : Generator := ⟨(g.state * multiplier + increment) % (wordSize * wordSize)⟩

/-- The word of a state. -/
def scramble (g : Generator) : UInt64 :=
  let hi : UInt64 := (g.state / wordSize).toUInt64
  let lo : UInt64 := g.state.toUInt64
  let mixed : UInt64 := (hi ^^^ (hi >>> 32)) * 0xda942042e4dd58b5
  (mixed ^^^ (mixed >>> 48)) * (lo ||| 1)

end Generator

namespace Sampler

def word : Sampler UInt64 := fun g => (g.advance.scramble, g.advance)

/-- How often a word is drawn again at most.  Fewer than half of all words are refused, so the limit
    is out of reach. -/
def maxDraws : Nat := 4096

/-- Scales a word to the range below `n`, and draws again when the low part of the product shows that
    the result would be biased. -/
def scaled (n : Nat) : Nat → Sampler Nat
  | 0 => return 0
  | draws + 1 => do
    let product := (← word).toNat * n
    if product % Generator.wordSize < (Generator.wordSize - n) % n then scaled n draws
    else return product / Generator.wordSize

/-- A number below `n`, where `n` is not zero. -/
def belowPositive (n : Nat) : Sampler Nat := do
  if n.isPowerOfTwo then return (← word).toNat % n
  else scaled n maxDraws

def below (n : UInt64) : ExceptT DrawError Sampler Nat := do
  if n = 0 then throw .emptyRange
  belowPositive n.toNat

def coin : Sampler Bool := do return (← word).toNat % 2 = 0

end Sampler

end TraceRegex
