/-! # Verdicts

What is known about a trace read so far: it matches, it may still come to match, or it cannot match
any more.  A search verdict says in addition how long the matching suffixes are.
-/

namespace TraceRegex

inductive Verdict where
  /-- The trace matches. -/
  | ok
  /-- The trace does not match, but an extension of it may. -/
  | pending
  /-- No extension of the trace matches. -/
  | failed
deriving DecidableEq, Repr, Inhabited

namespace Verdict

def name : Verdict → String
  | .ok => "ok"
  | .pending => "partial"
  | .failed => "failed"

/-- The name of the verdict with a given number; other numbers are shown as such. -/
def nameOfNumber : Nat → String
  | 0 => Verdict.ok.name
  | 1 => Verdict.pending.name
  | 2 => Verdict.failed.name
  | n => s!"match({n})"

end Verdict

/-- The verdict of a search for matching suffixes. -/
inductive SearchVerdict where
  /-- Some suffix matches: the lengths of the shortest and the longest one that do, and of the
      longest one that may still be extended. -/
  | ok (shortest longest horizon : Nat)
  /-- No suffix matches; suffixes up to the given length may still be extended to a match. -/
  | pending (horizon : Nat)
  /-- Nothing can ever match. -/
  | failed
deriving DecidableEq, Repr, Inhabited

namespace SearchVerdict

def name : SearchVerdict → String
  | .ok shortest longest horizon =>
    s!"ok(shortest={shortest}, longest={longest}, horizon={horizon})"
  | .pending horizon => s!"partial(horizon={horizon})"
  | .failed => Verdict.failed.name

def nameOfNumber (number shortest longest horizon : Nat) : String :=
  match number with
  | 0 => (ok shortest longest horizon).name
  | 1 => (pending horizon).name
  | n => Verdict.nameOfNumber n

end SearchVerdict

end TraceRegex
