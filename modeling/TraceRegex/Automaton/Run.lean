import TraceRegex.Automaton.Basic
import TraceRegex.Verdict

/-! # Running an automaton on a word

`eval` follows all enabled rules at once and keeps the list of states that the word read so far can
lead to.  Beside it stands the relation `Path`, which says what a single run is.
-/

namespace TraceRegex

namespace Automaton

inductive Path (a : Automaton) : Nat → Word → Nat → Prop where
  | nil {q : Nat} : Path a q [] q
  | cons {q : Nat} {l : Letter} {w : Word} {t : Nat} {r : Rule} (mem : r ∈ a.rulesFrom q)
      (enabled : r.guard.eval l = true) (rest : Path a r.target w t) : Path a q (l :: w) t

/-- Some run over the word leads from the initial state to a final one. -/
def Accepts (a : Automaton) (w : Word) : Prop := ∃ q ∈ a.finals, a.Path a.initial w q

def targets (a : Automaton) (l : Letter) (q : Nat) : List Nat :=
  ((a.rulesFrom q).filter (·.guard.eval l)).map Rule.target

def step (a : Automaton) (l : Letter) (live : List Nat) : List Nat :=
  (live.flatMap (a.targets l)).eraseDups

def classify (a : Automaton) (live : List Nat) : Verdict :=
  if live.isEmpty then .failed
  else if a.finals.toList.any live.contains then .ok
  else .pending

/-- Reads a word from the live states on; without live states there is nothing left to follow. -/
def evalFrom (a : Automaton) (live : List Nat) : Word → Verdict
  | [] => a.classify live
  | l :: w => if live.isEmpty then .failed else a.evalFrom (a.step l live) w

/-- The verdict of an automaton on a word.  Without final states nothing can match. -/
def eval (a : Automaton) (w : Word) : Verdict :=
  if a.finals.isEmpty then .failed else a.evalFrom [a.initial] w

end Automaton

end TraceRegex
