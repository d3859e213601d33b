/-! # Lines and blanks

Lines of a byte string end with a line feed, before which a carriage return is dropped.  A line that
is too long ends the reading.  Blanks are the characters that Unicode counts as white space.
-/

namespace TraceRegex.Text

/-- The length in bytes that no line may reach. -/
def maxLineLength : Nat := 65536

def lineTooLong : String := "bufio.Scanner: token too long"

structure Lines where
  /-- The lines before the first one that is too long. -/
  lines : List (List UInt8)
  isCut : Bool
deriving DecidableEq, Repr, Inhabited

/-- A line, given in reverse, without a carriage return at its end. -/
def finishLine : List UInt8 → List UInt8
  | 13 :: line => line.reverse
  | line => line.reverse

/-- Goes on with lines found so far and the current one, both in reverse. -/
def linesFrom (found : List (List UInt8)) (current : List UInt8) (length : Nat) :
    List UInt8 → Lines
  | [] =>
    if length = 0 then ⟨found.reverse, false⟩
    else if maxLineLength ≤ length then ⟨found.reverse, true⟩
    else ⟨(finishLine current :: found).reverse, false⟩
  | b :: rest =>
    if b = 10 then
      if maxLineLength ≤ length then ⟨found.reverse, true⟩
      else linesFrom (finishLine current :: found) [] 0 rest
    else linesFrom found (b :: current) (length + 1) rest

def linesOfBytes (bytes : List UInt8) : Lines := linesFrom [] [] 0 bytes

/-! ## Blanks -/

def isBlank (c : Char) : Bool :=
  let n := c.toNat
  (9 ≤ n && n ≤ 13) || n == 0x20 || n == 0x85 || n == 0xa0 || n == 0x1680
    || (0x2000 ≤ n && n ≤ 0x200a) || n == 0x2028 || n == 0x2029 || n == 0x202f || n == 0x205f
    || n == 0x3000

def trimBlanks (cs : List Char) : List Char :=
  ((cs.dropWhile isBlank).reverse.dropWhile isBlank).reverse

/-- The runs of characters between blanks. -/
def fields (cs : List Char) : List (List Char) := go [] cs
where
  /-- Goes on with the characters of the current run in reverse. -/
  go (current : List Char) : List Char → List (List Char)
    | [] => if current.isEmpty then [] else [current.reverse]
    | c :: rest =>
      if isBlank c then
        if current.isEmpty then go [] rest else current.reverse :: go [] rest
      else go (c :: current) rest

end TraceRegex.Text
