import TraceRegex.Proofs.Compilation
import TraceRegex.Proofs.Search

/-! # Searching with a compiled expression

The ages of a search are those of runs, and which runs there are is up to the automaton.  But in
every automaton that a compilation gives, a run that is alive can still reach a match: cleaning has
seen to that, and neither merging states nor collecting them in sets undoes it.  So a run over a
word is alive exactly if an extension of the word is in the language, and a search reports nothing
but how the suffixes stand to the language.
-/

namespace TraceRegex

/-! ## Runs of a represented automaton -/

namespace Snapshot

variable {s : Snapshot} {a : Automaton} {language : Word → Prop}

theorem Represents.step_iff (h : s.Represents a) {q t : Nat} {l : Letter} :
    s.Step q l t ↔ a.Step q l t := by
  constructor
  · intro step
    obtain ⟨rules, found, c, hc, enabled, target⟩ := step
    obtain ⟨r, hr, encoded, same⟩ := (h.codes q rules found).exists_rule hc
    rw [Bytecode.eval_of_encode encoded] at enabled
    exact ⟨r, hr, Except.ok.inj enabled, same.trans target⟩
  · intro step
    obtain ⟨r, hr, enabled, target⟩ := step
    have place : q < s.transitions.length := by
      rw [h.length_eq]
      exact Automaton.lt_length_of_mem_rulesFrom hr
    have found := List.getElem?_eq_getElem place
    obtain ⟨c, hc, encoded, same⟩ := (h.codes q _ found).exists_code hr
    refine ⟨_, found, c, hc, ?_, same.symm.trans target⟩
    rw [Bytecode.eval_of_encode encoded, enabled]

theorem Represents.path_iff (h : s.Represents a) {q t : Nat} {w : Word} :
    s.Path q w t ↔ a.Path q w t := by
  induction w generalizing q with
  | nil => rw [path_nil_iff, Automaton.path_nil_iff]
  | cons l w ih => simp only [path_cons_iff, Automaton.path_cons_iff, h.step_iff, ih]

/-- The lengths of the non-empty suffixes in a language. -/
def suffixLengths (language : Word → Prop) (w : Word) : Set Nat :=
  {n | ∃ u, u ≠ [] ∧ u <:+ w ∧ u.length = n ∧ language u}

theorem Represents.matchLengths_eq (h : s.Represents a)
    (accepts : ∀ u, a.Accepts u ↔ language u) (w : Word) :
    s.matchLengths w = suffixLengths language w := by
  ext n
  simp only [matchLengths, arrivals, suffixLengths, Set.mem_ofPred_eq, h.initials_eq, h.finals_eq,
    h.path_iff, List.mem_singleton, exists_eq_left, ← accepts]
  constructor
  · rintro ⟨q, final, u, some, suffix, length, path⟩
    exact ⟨u, some, suffix, length, q, final, path⟩
  · rintro ⟨u, some, suffix, length, q, final, path⟩
    exact ⟨q, final, u, some, suffix, length, path⟩

theorem Represents.liveLengths_eq (h : s.Represents a)
    (alive : ∀ u, (∃ q, a.Path a.initial u q) ↔ language u) (w : Word) :
    s.liveLengths w = suffixLengths language w := by
  ext n
  simp only [liveLengths, arrivals, suffixLengths, Set.mem_ofPred_eq, h.initials_eq, h.path_iff,
    List.mem_singleton, exists_eq_left, ← alive]
  constructor
  · rintro ⟨q, u, some, suffix, length, path⟩
    exact ⟨u, some, suffix, length, q, path⟩
  · rintro ⟨u, some, suffix, length, q, path⟩
    exact ⟨q, u, some, suffix, length, path⟩

theorem length_le_length_guards {rules : List CodedRule} (some : ∀ r ∈ rules, 0 < r.guard.length) :
    rules.length ≤ (rules.flatMap (·.guard)).length := by
  induction rules with
  | nil => exact Nat.zero_le 0
  | cons r rules ih =>
    obtain ⟨first, later⟩ := List.forall_mem_cons.mp some
    have := ih later
    rw [List.flatMap_cons, List.length_append, List.length_cons]
    omega

/-- No guard is empty, so a state has no more rules than its guards have bytes. -/
theorem Represents.length_lt_of_guards (h : s.Represents a) {rules : List CodedRule} {n : Nat}
    (hrules : rules ∈ s.transitions) (short : (rules.flatMap (·.guard)).length < n) :
    rules.length < n ∧ ∀ r ∈ rules, r.guard.length < n := by
  refine ⟨Nat.lt_of_le_of_lt (length_le_length_guards ?_) short, ?_⟩
  · intro r hr
    obtain ⟨q, rule, -, encoded, -⟩ := h.exists_rule hrules hr
    exact (Formula.coded_of_encode encoded).length_pos
  · intro r hr
    have part : r.guard.Sublist (rules.flatMap (·.guard)) :=
      List.sublist_flatten_of_mem (List.mem_map_of_mem hr)
    exact Nat.lt_of_le_of_lt part.length_le short

end Snapshot

/-! ## Verdicts on a language -/

open Snapshot (suffixLengths)

/-- The verdict says exactly how the suffixes of a word stand to a language: which of them are in
    it, and which have an extension that is.  If the language is empty, the search gives up. -/
structure SearchVerdict.Judges (v : SearchVerdict) (language : Word → Prop) (w : Word) : Prop where
  hopeless : (∀ u, ¬language u) → v = .failed
  describes : (∃ u, language u) →
    v.Describes (suffixLengths language w) (suffixLengths (fun u => ∃ x, language (u ++ x)) w)

theorem SearchVerdict.Judges.unique {v v' : SearchVerdict} {language : Word → Prop} {w : Word}
    (h : v.Judges language w) (h' : v'.Judges language w) : v = v' := by
  by_cases hope : ∃ u, language u
  · exact (h.describes hope).unique (h'.describes hope)
  · have none := not_exists.mp hope
    rw [h.hopeless none, h'.hopeless none]

theorem SearchExecutor.foldlM_of_failed {x : SearchExecutor}
    (failed : x.run.verdict = .failed) (w : Word) : w.foldlM advance x = .ok x := by
  have stays (l : Letter) : x.advance l = .ok x := by
    show (x.run.advance x.snapshot l >>= fun run => _) = _
    rw [SearchRun.advance, if_pos failed]
    rfl
  induction w with
  | nil => rfl
  | cons l w ih =>
    rw [List.foldlM_cons, stays l]
    exact ih

namespace Compiled

variable {c : Compiled} {language : Word → Prop}

theorem Reports.accepts_iff (h : c.Reports language) (w : Word) :
    c.result.Accepts w ↔ language w := by
  rw [← Automaton.eval_eq_ok_iff]
  exact (h.judges w).1

theorem Reports.no_finals_iff (h : c.Reports language) :
    (∀ q, ¬q ∈ c.result.finals) ↔ ∀ u, ¬language u := by
  constructor
  · intro none u hu
    obtain ⟨q, final, -⟩ := (h.accepts_iff u).mpr hu
    exact none q final
  · intro none
    -- the verdict on the empty word is *failed*, but there is a run over it
    have failed := (h.judges []).2.2.mpr none
    cases Automaton.eval_eq_failed_iff.mp failed with
    | inl noFinals => exact noFinals
    | inr noRun => exact absurd .nil (noRun c.result.initial)

theorem Reports.alive_iff (h : c.Reports language) (hope : ∃ u, language u) (w : Word) :
    (∃ q, c.result.Path c.result.initial w q) ↔ ∃ x, language (w ++ x) := by
  have failed := (h.judges w).2.2
  have finals : ¬∀ q, ¬q ∈ c.result.finals := by
    rw [h.no_finals_iff]
    exact not_forall_not.mpr hope
  rw [Automaton.eval_eq_failed_iff, or_iff_right finals] at failed
  rw [← not_iff_not, not_exists, not_exists]
  exact failed

/-- The search with the snapshot never faults, goes back to its start when it is reset, and reports
    how the suffixes of what it has read stand to the language. -/
theorem Reports.search (h : c.Reports language) {s : Snapshot} (taken : c.snapshot = .ok s)
    (w : Word) :
    ∃ y, w.foldlM SearchExecutor.advance (.ofSnapshot s) = .ok y ∧
      y.reset = .ofSnapshot s ∧ y.verdict.Judges language w := by
  rw [snapshot_eq] at taken
  obtain ⟨-, represents⟩ := Snapshot.represents_of_ofAutomaton taken
  by_cases hope : ∃ u, language u
  · have finals : s.finals ≠ [] := by
      intro none
      have noFinals := represents.isEmpty_finals.mp (List.isEmpty_iff.mpr none)
      exact not_forall_not.mpr hope (h.no_finals_iff.mp noFinals)
    obtain ⟨y, read, reset, described⟩ :=
      SearchExecutor.describes_suffixes (represents.runnable h.valid) finals w
    rw [represents.matchLengths_eq h.accepts_iff,
      represents.liveLengths_eq (h.alive_iff hope)] at described
    exact ⟨y, read, reset, fun none => absurd hope (not_exists.mpr none), fun _ => described⟩
  · have noFinals := represents.isEmpty_finals.mpr (h.no_finals_iff.mpr (not_exists.mp hope))
    have failed : (SearchExecutor.ofSnapshot s).verdict = .failed := by
      simp [SearchExecutor.verdict, SearchExecutor.ofSnapshot, SearchRun.start, noFinals]
    exact ⟨_, SearchExecutor.foldlM_of_failed failed w, rfl, fun _ => failed,
      fun some => absurd some hope⟩

end Compiled

/-! ## Large atoms

Formulas count their atoms with 32 bits.  An expression that asks for larger ones is lowered like
the one in which their numbers have started again at zero.
-/

namespace Condition

/-- The condition on the atoms that formulas have for its own. -/
def wrap : Condition → Condition
  | .true => .true
  | .false => .false
  | .atom i => .atom (i % UInt32.size)
  | .not c => .not c.wrap
  | .and c d => .and c.wrap d.wrap
  | .or c d => .or c.wrap d.wrap

theorem atoms_wrap (c : Condition) : c.wrap.atoms = c.atoms.map (· % UInt32.size) := by
  induction c with
  | true => rfl
  | false => rfl
  | atom i => rfl
  | not c ih => exact ih
  | and c d ihc ihd => simp only [wrap, atoms, ihc, ihd, List.map_append]
  | or c d ihc ihd => simp only [wrap, atoms, ihc, ihd, List.map_append]

theorem toFormula_wrap (c : Condition) : c.wrap.toFormula = c.toFormula := by
  induction c with
  | true => rfl
  | false => rfl
  | atom i =>
    have same : (i % UInt32.size).toUInt32 = i.toUInt32 := by
      apply UInt32.toNat_inj.mp
      simp [Nat.toUInt32]
    simp [wrap, toFormula, Formula.atom, same]
  | not c ih => simp only [wrap, toFormula, ih]
  | and c d ihc ihd => simp only [wrap, toFormula, ihc, ihd]
  | or c d ihc ihd => simp only [wrap, toFormula, ihc, ihd]

end Condition

namespace Expression

/-- The expression over the atoms that formulas have for its own. -/
def wrap : Expression → Expression
  | .condition c => .condition c.wrap
  | .empty => .empty
  | .union e f => .union e.wrap f.wrap
  | .intersect e f => .intersect e.wrap f.wrap
  | .concat e f => .concat e.wrap f.wrap
  | .fusion e f => .fusion e.wrap f.wrap
  | .star e => .star e.wrap
  | .plus e => .plus e.wrap
  | .prefixes e => .prefixes e.wrap
  | .complement e => .complement e.wrap

theorem atoms_wrap (e : Expression) : e.wrap.atoms = e.atoms.map (· % UInt32.size) := by
  induction e with
  | condition c => exact c.atoms_wrap
  | empty => rfl
  | union e f ihe ihf => simp only [wrap, atoms, ihe, ihf, List.map_append]
  | intersect e f ihe ihf => simp only [wrap, atoms, ihe, ihf, List.map_append]
  | concat e f ihe ihf => simp only [wrap, atoms, ihe, ihf, List.map_append]
  | fusion e f ihe ihf => simp only [wrap, atoms, ihe, ihf, List.map_append]
  | star e ih => exact ih
  | plus e ih => exact ih
  | prefixes e ih => exact ih
  | complement e ih => exact ih

theorem lt_of_mem_atoms_wrap (e : Expression) : ∀ i ∈ e.wrap.atoms, i < UInt32.size := by
  rw [atoms_wrap, List.forall_mem_map]
  exact fun i _ => Nat.mod_lt i (by decide)

theorem lower_wrap (e : Expression) : e.wrap.lower = e.lower := by
  induction e with
  | condition c => simp only [wrap, lower, c.toFormula_wrap]
  | empty => rfl
  | union e f ihe ihf => simp only [wrap, lower, ihe, ihf]
  | intersect e f ihe ihf => simp only [wrap, lower, ihe, ihf]
  | concat e f ihe ihf => simp only [wrap, lower, ihe, ihf]
  | fusion e f ihe ihf => simp only [wrap, lower, ihe, ihf]
  | star e ih => simp only [wrap, lower, ih]
  | plus e ih => simp only [wrap, lower, ih]
  | prefixes e ih => simp only [wrap, lower, ih]
  | complement e ih => simp only [wrap, lower, ih]

theorem compile_wrap (e : Expression) (settings : Settings) (names : List String) :
    e.wrap.compile settings names = e.compile settings names := by
  simp only [compile, lower_wrap]

/-! ## The main result -/

/-- The expression is compiled, written and read back as the snapshot, and the binary format, in which
    lengths are numbers of 32 bits, has room for the guards: those of each state, taken together, are
    shorter than 2^32 bytes.  No guard is empty, so this also bounds the number of rules, which the
    format would write modulo 2^32. -/
structure Loads (e : Expression) (settings : Settings) (names : List String) (ctx : Context)
    (s : Snapshot) : Prop where
  decoded : ∃ bytes given, ((e.compile settings names).run ctx).1.bytes = .ok bytes ∧
    Snapshot.decode bytes = .ok (s, given)
  guards : settings.format = .binary →
    ∀ t, ((e.compile settings names).run ctx).1.snapshot = .ok t →
      ∀ rules ∈ t.transitions, (rules.flatMap (·.guard)).length < UInt32.size

theorem Loads.search {e : Expression} {settings : Settings} {names : List String} {ctx : Context}
    {s : Snapshot} (h : e.Loads settings names ctx s) (w : Word) :
    ∃ y, w.foldlM SearchExecutor.advance (.ofSnapshot s) = .ok y ∧
      y.reset = .ofSnapshot s ∧ y.verdict.Judges e.wrap.Matches w := by
  obtain ⟨c, returned, format, reports, -⟩ :=
    compile_spec e.wrap e.lt_of_mem_atoms_wrap settings names
  rw [compile_wrap] at returned
  obtain ⟨⟨bytes, given, written, decoded⟩, guards⟩ := h
  rw [returned ctx] at written guards
  apply reports.search
  apply reports.snapshot_of_decode_of_binary written decoded
  intro binary t taken _ rules hrules
  have represents := (Snapshot.represents_of_ofAutomaton (c.snapshot_eq.symm.trans taken)).2
  exact represents.length_lt_of_guards hrules (guards (format ▸ binary) t taken rules hrules)

end Expression

end TraceRegex
