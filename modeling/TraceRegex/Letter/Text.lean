import TraceRegex.Formula.Printer
import TraceRegex.Json.Decode
import TraceRegex.Letter.Basic
import TraceRegex.Text.Quoted

/-! # Letters as text

A letter is written as the list of the atoms that hold.  An atom is written by its name, or by its
number if it has none.
-/

namespace TraceRegex

structure UnknownAtom where
  text : String
deriving DecidableEq, Repr

def UnknownAtom.message (e : UnknownAtom) : String := "unknown atom " ++ Text.quoted e.text.toList

namespace Letter

/-- The largest number by which an atom can be written. -/
def maxNumber : Nat := 65535

/-- The number that a text of decimal digits spells, unless it is too large. -/
def number? (text : String) : Option Nat := do
  if text.isEmpty then none
  let n ← Json.natOfLiteral? text
  if n ≤ maxNumber then some n else none

/-- Reads an atom: the first with the given name or else the one with the given number. -/
def atomOf (names : List String) (text : String) : Except UnknownAtom Nat :=
  match names.idxOf? text with
  | some i => .ok i
  | none =>
    match number? text with
    | some n => .ok n
    | none => .error ⟨text⟩

def ofTexts (names : List String) (texts : List String) : Except UnknownAtom Letter := do
  return Letter.ofList (← texts.mapM (atomOf names))

/-- The text by which an atom is read back. -/
def atomText (names : List String) (i : Nat) : String := names.getD i (toString i)

def toTexts (names : List String) (l : Letter) : List String := l.atoms.map (atomText names)

def render (names : List String) (l : Letter) : String :=
  "\x7b" ++ ",".intercalate (l.atoms.map (atomName names)) ++ "\x7d"

end Letter

end TraceRegex
