import TraceRegex.Compile.Basic
import TraceRegex.Proofs.Documents
import TraceRegex.Proofs.Lowering
import TraceRegex.Proofs.Streaming
import TraceRegex.Proofs.SubsetConstruction

/-! # Compiled expressions report their language

The verdicts of a compiled expression are followed through every stage: lowering gives an automaton
for the language, cleaning or minimizing makes its verdicts exact, determinization keeps them,
either format is read back as the snapshot that was written, and an executor reports the verdicts of
the automaton that the snapshot represents.
-/

namespace TraceRegex

/-! ## The stages of a compilation -/

namespace Automaton

variable {a : Automaton}

/-- The automaton over at least `n` atoms. -/
def widen (a : Automaton) (n : Nat) : Automaton := { a with atomCount := max a.atomCount n }

theorem valid_widen (h : a.Valid) (n : Nat) : (a.widen n).Valid where
  initial_lt := h.initial_lt
  length_transitions := h.length_transitions
  finals_lt := h.finals_lt
  target_lt := h.target_lt
  varCount_le rules hrules r hr :=
    Nat.le_trans (h.varCount_le rules hrules r hr) (Nat.le_max_left _ _)

theorem accepts_widen_iff (n : Nat) {w : Word} : (a.widen n).Accepts w ↔ a.Accepts w := by
  have steps (q : Nat) (l : Letter) (t : Nat) : (a.widen n).Step q l t ↔ a.Step q l t := Iff.rfl
  exact exists_congr fun _ => and_congr Iff.rfl (path_congr steps)

end Automaton

/-- The compiled expression has the verdicts of a language. -/
structure Compiled.Reports (c : Compiled) (language : Word → Prop) : Prop where
  valid : c.result.Valid
  deterministic : c.deterministic.isSome → c.result.Deterministic
  judges : ∀ w, (c.result.eval w).Judges language w

/-- The alphabet of the compiled expression is the names.  Its automata are well formed over it, and
    there is a deterministic one if that is the target. -/
structure Compiled.Declares (c : Compiled) (target : Target) (names : List String) : Prop where
  names_eq : c.names = names
  valid : c.automaton.Valid
  atomCount_eq : c.automaton.atomCount = names.length
  built_iff : c.deterministic.isSome ↔ target = .deterministic
  deterministic : ∀ d ∈ c.deterministic, d.Valid ∧ d.Deterministic ∧ d.atomCount = names.length

namespace Expression

/-- Compiling always ends, with the verdicts of the language.  If all atoms have names, these make up
    the alphabet. -/
theorem compile_spec (e : Expression) (small : ∀ i ∈ e.atoms, i < UInt32.size)
    (settings : Settings) (names : List String) :
    ∃ c, Build.Returns (e.compile settings names) c ∧ c.format = settings.format ∧
      c.Reports e.Matches ∧
      ((∀ i ∈ e.atoms, i < names.length) → c.Declares settings.target names) := by
  obtain ⟨lowered, returned, recognizes⟩ := lower_returns e small
  have wide := Automaton.valid_widen recognizes.valid names.length
  have named (bound : ∀ i ∈ e.atoms, i < names.length) :
      (lowered.widen names.length).atomCount = names.length :=
    Nat.max_eq_right (recognizes.atomCount_le names.length bound)
  obtain ⟨a, reduced, trim, accepts, atoms⟩ : ∃ a,
      Build.Returns (if settings.minimize then (lowered.widen names.length).minimize
        else (lowered.widen names.length).clean) a ∧ a.Trim ∧ (∀ w, a.Accepts w ↔ e.Matches w) ∧
        a.atomCount = (lowered.widen names.length).atomCount := by
    cases settings.minimize with
    | true =>
      refine ⟨_, (Automaton.minimize_returns wide).steady, Automaton.trim_minimize wide,
        fun w => ?_, Automaton.atomCount_minimize wide⟩
      rw [Automaton.accepts_minimize_iff wide, Automaton.accepts_widen_iff, recognizes.accepts_iff]
    | false =>
      refine ⟨_, (Automaton.clean_returns _).steady, Automaton.trim_clean wide, fun w => ?_,
        Automaton.atomCount_clean _⟩
      rw [Automaton.accepts_clean_iff wide, Automaton.accepts_widen_iff, recognizes.accepts_iff]
  have judges (w : Word) : (a.eval w).Judges e.Matches w := (trim.judges w).congr accepts
  unfold compile
  cases settings.target with
  | nondeterministic =>
    refine ⟨_, returned.bind (reduced.branch (Build.Returns.pure _)), rfl,
      ⟨trim.valid, nofun, judges⟩,
      fun bound => ⟨rfl, trim.valid, atoms.trans (named bound), by simp, nofun⟩⟩
  | deterministic =>
    -- the sets of states give the verdicts of the states, since these were made exact before
    obtain ⟨s, complete, -, determinized⟩ := Automaton.determinize_returns trim.valid
    refine ⟨_, returned.bind (reduced.branch ((determinized.map some).bind (Build.Returns.pure _))),
      rfl, ⟨complete.valid trim.valid, fun _ => complete.deterministic, fun w => ?_⟩,
      fun bound => ⟨rfl, trim.valid, atoms.trans (named bound), by simp, fun d built => ?_⟩⟩
    · show ((s.toAutomaton a.atomCount a.finals.toList).eval w).Judges e.Matches w
      rw [complete.eval_toAutomaton trim.accepts_of_finals]
      exact judges w
    · cases built
      exact ⟨complete.valid trim.valid, complete.deterministic, atoms.trans (named bound)⟩

theorem compile_returns (e : Expression) (small : ∀ i ∈ e.atoms, i < UInt32.size)
    (settings : Settings) (names : List String) :
    ∃ c, Build.Returns (e.compile settings names) c ∧ c.Reports e.Matches := by
  obtain ⟨c, returned, -, reports, -⟩ := compile_spec e small settings names
  exact ⟨c, returned, reports⟩

end Expression

/-! ## Both formats -/

namespace Compiled

variable {c : Compiled} {language : Word → Prop}

/-- The target that the expression was compiled for. -/
def target (c : Compiled) : Target :=
  if c.deterministic.isSome then .deterministic else .nondeterministic

theorem snapshot_eq (c : Compiled) : c.snapshot = Snapshot.ofAutomaton c.target.kind c.result := by
  rcases c with ⟨_, _, _, _ | d⟩
  · rfl
  · rfl

theorem Reports.deterministic_of_target (h : c.Reports language)
    (target : c.target = .deterministic) : c.result.Deterministic := by
  refine h.deterministic ?_
  unfold Compiled.target at target
  split at target
  · assumption
  · cases target

end Compiled

theorem Snapshot.le_of_encode {s : Snapshot} {bytes : List UInt8} (h : s.encode = .ok bytes) :
    s.atomCount ≤ maxWord16 ∧ s.stateCount ≤ maxWord16 := by
  unfold encode at h
  by_cases atoms : maxWord16 < s.atomCount
  · rw [if_pos atoms] at h
    cases h
  by_cases states : maxWord16 < s.stateCount
  · rw [if_neg atoms, if_pos states] at h
    cases h
  · exact ⟨Nat.not_lt.mp atoms, Nat.not_lt.mp states⟩

theorem Snapshot.WellFormed.decode_encode {s : Snapshot} (h : s.WellFormed) {bytes : List UInt8}
    (encoded : s.encode = .ok bytes) : decode bytes = .ok (s, []) := by
  obtain rfl := Except.ok.inj (h.encode_eq.symm.trans encoded)
  have magic : isSnapshot (s.header.encode ++ s.payload) = true :=
    beq_iff_eq.mpr (word32_bytes32 (by decide))
  rw [decode, if_pos magic, h.load_encode]

namespace Compiled

variable {c : Compiled} {language : Word → Prop}

theorem Reports.wellFormed (h : c.Reports language) {s : Snapshot} (taken : c.snapshot = .ok s)
    (atoms : s.atomCount ≤ maxWord16) (states : s.stateCount ≤ maxWord16)
    (short : ∀ rules ∈ s.transitions,
      rules.length < UInt32.size ∧ ∀ r ∈ rules, r.guard.length < UInt32.size) : s.WellFormed := by
  rw [snapshot_eq] at taken
  obtain ⟨kind, represents⟩ := Snapshot.represents_of_ofAutomaton taken
  have known : s.kind.isKnown = true := by
    rw [kind]
    cases c.target with
    | nondeterministic => rfl
    | deterministic => rfl
  exact represents.wellFormed h.valid known atoms states
    (fun rules hrules => Nat.le_of_lt_succ (short rules hrules).1)
    (fun rules hrules r hr => Nat.le_of_lt_succ ((short rules hrules).2 r hr))

theorem documentText_eq_ok_iff {text : String} : c.documentText = .ok text ↔
    c.document.toJson.depth ≤ Json.maxDepth ∧ c.document.toJson.pretty = text := by
  unfold documentText Json.Value.pretty?
  by_cases shallow : c.document.toJson.depth ≤ Json.maxDepth
  · simp [shallow]
  · simp [shallow]

theorem bytes_eq_ok_iff_of_json (json : c.format = .json) {bytes : List UInt8} :
    c.bytes = .ok bytes ↔
      ∃ text, c.documentText = .ok text ∧ Text.bytesOfString text = bytes := by
  unfold Compiled.bytes
  rw [json]
  cases c.documentText with
  | ok text => simp [bind, Except.bind, pure, Except.pure]
  | error e => simp [bind, Except.bind]

theorem bytes_eq_ok_iff_of_binary (binary : c.format = .binary) {bytes : List UInt8} :
    c.bytes = .ok bytes ↔ ∃ s, c.snapshot = .ok s ∧ s.encode = .ok bytes := by
  unfold Compiled.bytes
  rw [binary]
  cases c.snapshot with
  | ok s => cases encoded : s.encode <;> simp [bind, Except.bind, Except.mapError, encoded]
  | error e => simp [bind, Except.bind, Except.mapError]

/-- What is decoded from the bytes of a compiled expression is the snapshot of its automaton.  Only
    the binary format has fields that could be too narrow. -/
theorem Reports.snapshot_of_decode_of_binary (h : c.Reports language) {bytes : List UInt8}
    (written : c.bytes = .ok bytes) {s : Snapshot} {names : List String}
    (decoded : Snapshot.decode bytes = .ok (s, names))
    (short : c.format = .binary → ∀ s, c.snapshot = .ok s → s.stateCount ≤ maxWord16 →
      ∀ rules ∈ s.transitions,
        rules.length < UInt32.size ∧ ∀ r ∈ rules, r.guard.length < UInt32.size) :
    c.snapshot = .ok s := by
  cases format : c.format with
  | json =>
    obtain ⟨text, laidOut, rfl⟩ := (bytes_eq_ok_iff_of_json format).mp written
    obtain ⟨-, rfl⟩ := documentText_eq_ok_iff.mp laidOut
    rw [snapshot_eq]
    exact Snapshot.ofAutomaton_of_decode h.valid h.deterministic_of_target decoded
  | binary =>
    obtain ⟨t, taken, encoded⟩ := (bytes_eq_ok_iff_of_binary format).mp written
    obtain ⟨atoms, states⟩ := Snapshot.le_of_encode encoded
    have wellFormed := h.wellFormed taken atoms states (short format t taken states)
    -- what was encoded is decoded, so the snapshot at hand is the one that was taken
    have same := (wellFormed.decode_encode encoded).symm.trans decoded
    cases same
    exact taken

theorem Reports.snapshot_of_decode (h : c.Reports language) {bytes : List UInt8}
    (written : c.bytes = .ok bytes) {s : Snapshot} {names : List String}
    (decoded : Snapshot.decode bytes = .ok (s, names))
    (short : ∀ s, c.snapshot = .ok s → ∀ rules ∈ s.transitions,
      rules.length < UInt32.size ∧ ∀ r ∈ rules, r.guard.length < UInt32.size) :
    c.snapshot = .ok s :=
  h.snapshot_of_decode_of_binary written decoded fun _ t taken _ => short t taken

/-- The executor of the snapshot reports how every word stands to the language, and a reset takes it
    back to its start. -/
theorem Reports.executor (h : c.Reports language) {s : Snapshot} (taken : c.snapshot = .ok s) :
    ∃ x, Executor.ofSnapshot s = .ok x ∧ ∀ u : Word, ∃ y, u.foldlM Executor.advance x = .ok y
      ∧ y.reset = .ok x ∧ y.verdict.Judges language u := by
  rw [snapshot_eq] at taken
  obtain ⟨kind, represents⟩ := Snapshot.represents_of_ofAutomaton taken
  unfold Executor.ofSnapshot
  cases target : c.target with
  | nondeterministic =>
    rw [target] at kind
    refine ⟨_, if_pos kind, fun u => ?_⟩
    obtain ⟨y, read, reset, verdict⟩ := Executor.followAll_reports represents h.valid u
    exact ⟨y, read, reset, verdict ▸ h.judges u⟩
  | deterministic =>
    rw [target] at kind
    obtain ⟨x, started, reports⟩ := Executor.followFirst_reports represents h.valid
    refine ⟨x, ?_, fun u => ?_⟩
    · rw [kind, if_neg (by decide), if_pos (by decide), started]
    · obtain ⟨y, read, reset, verdict⟩ := reports u
      rw [(h.deterministic_of_target target).evalFirst_eq_eval] at verdict
      exact ⟨y, read, reset, verdict ▸ h.judges u⟩

end Compiled

/-! ## One or more letters with a property

The simplest repetition is compiled by hand, for an instance of the main result.
-/

namespace Automaton

variable {f : Formula} {n : Nat}

/-- Takes one or more letters that satisfy the guard. -/
def loop (guard : Formula) (n : Nat) : Automaton where
  atomCount := max guard.varCount n
  stateCount := 2
  initial := 0
  finals := .singleton 1
  transitions := [[⟨guard, 1⟩], [⟨guard, 1⟩]]

theorem widen_plus_phi (f : Formula) (n : Nat) : (phi f).plus.widen n = loop f n := by
  have initial : (SortedSet.singleton 1).contains 0 = false := by
    simp [← Bool.not_eq_true, SortedSet.contains_iff]
  have final : (SortedSet.singleton 1).contains 1 = true := by
    simp [SortedSet.contains_iff]
  simp [plus, phi, widen, loop, isFinal, initialRules, rulesFrom, initial, final]

theorem trim_loop (satisfiable : f.Satisfiable) : (loop f n).Trim := by
  obtain ⟨l, holds⟩ := satisfiable
  have rules (q : Nat) (h : q < 2) : (loop f n).rulesFrom q = [⟨f, 1⟩] := by
    match q with
    | 0 => rfl
    | 1 => rfl
  have step (q : Nat) (h : q < 2) : (loop f n).Path q [l] 1 :=
    path_singleton_iff.mpr ⟨_, rules q h ▸ List.mem_singleton_self _, holds, rfl⟩
  refine ⟨widen_plus_phi f n ▸ valid_widen (valid_plus (valid_phi f)) n, fun q r hr => ⟨l, ?_⟩,
    .inl fun q hq => ⟨?_, [l], 1, SortedSet.mem_singleton.mpr rfl, step q hq⟩⟩
  · rw [rules q (lt_length_of_mem_rulesFrom hr)] at hr
    rw [List.mem_singleton.mp hr]
    exact holds
  · match q, hq with
    | 0, _ => exact ⟨[], .nil⟩
    | 1, _ => exact ⟨[l], step 0 (by decide)⟩

theorem minimize_loop (satisfiable : f.Satisfiable) :
    Build.Returns (loop f n).minimize (loop f n) := by
  apply minimize_eq_self (trim_loop satisfiable)
  · intro rules hrules
    simp only [loop, List.mem_cons, List.not_mem_nil, or_false, or_self] at hrules
    simp [hrules]
  · -- one of the two states is final and the other is not
    intro p hp q hq similar
    obtain ⟨rel, bisimulation, related⟩ := similar
    have final := bisimulation.final_iff p q related
    have first : p < 2 := hp
    have second : q < 2 := hq
    simp only [loop, SortedSet.mem_singleton] at final
    omega

end Automaton

namespace Expression

theorem compile_plus_returns {c : Condition} {f : Formula} (read : Build.Returns c.toFormula f)
    (satisfiable : f.Satisfiable) (format : Format) {minimize : Bool} (names : List String) :
    Build.Returns
      ((Expression.plus (.condition c)).compile ⟨.nondeterministic, format, minimize⟩ names)
      ⟨format, names, .loop f names.length, none⟩ := by
  have lowered : Build.Returns (Expression.plus (.condition c)).lower (Automaton.phi f).plus :=
    (read.bind (Build.Returns.pure (Automaton.phi f))).bind (Build.Returns.pure _)
  have reduced : Build.Returns
      (if minimize then ((Automaton.phi f).plus.widen names.length).minimize
        else ((Automaton.phi f).plus.widen names.length).clean)
      (Automaton.loop f names.length) := by
    rw [Automaton.widen_plus_phi]
    cases minimize with
    | true => exact Automaton.minimize_loop satisfiable
    | false =>
      have steady := (Automaton.clean_returns (Automaton.loop f names.length)).steady
      unfold Build.Steady at steady
      rw [(Automaton.trim_loop satisfiable).clean_eq_self] at steady
      exact steady
  exact lowered.bind (reduced.branch (Build.Returns.pure (Compiled.mk format names _ none)))

end Expression

/-! ## The main result -/

namespace Expression

/-- Compiling an expression keeps its language through every setting and both formats.  If the bytes
    of the compiled expression are decoded, then the executor of the snapshot exists, never faults,
    goes back to its start when it is reset, and reports after every word `u` whether `u` is in the
    language, or only some extension of it is, or none.  For an expression without prefix closures
    the language is what the reference semantics decides. -/
theorem executor_judges_language (e : Expression) (small : ∀ i ∈ e.atoms, i < UInt32.size)
    (settings : Settings) (names : List String) (ctx : Context) (bytes : List UInt8)
    (written : ((e.compile settings names).run ctx).1.bytes = .ok bytes)
    (s : Snapshot) (names' : List String) (decoded : Snapshot.decode bytes = .ok (s, names'))
    (short : ∀ s, ((e.compile settings names).run ctx).1.snapshot = .ok s →
      ∀ rules ∈ s.transitions,
        rules.length < UInt32.size ∧ ∀ r ∈ rules, r.guard.length < UInt32.size) :
    (e.usesPrefixes = false → ∀ u, Decides (e.accepts u) (e.Matches u)) ∧
      ∃ x, Executor.ofSnapshot s = .ok x ∧ ∀ u : Word, ∃ y, u.foldlM Executor.advance x = .ok y
        ∧ y.reset = .ok x ∧ y.verdict.Judges e.Matches u := by
  obtain ⟨c, returned, reports⟩ := compile_returns e small settings names
  rw [returned ctx] at written short
  exact ⟨fun noPrefixes u => decides_accepts noPrefixes u,
    reports.executor (reports.snapshot_of_decode written decoded short)⟩

/-- One or more letters with the first of three atoms and without the second, in the binary format:
    nothing is matched at the start, and a word of two such letters is. -/
theorem executor_judges_language_of_plus :
    let e : Expression := .plus (.condition (.and (.atom 0) (.not (.atom 1))))
    let c := ((e.compile ⟨.nondeterministic, .binary, false⟩ ["p", "q", "r"]).run .empty).1
    ∃ bytes s x, (∀ i ∈ e.atoms, i < UInt32.size) ∧ c.bytes = .ok bytes
      ∧ Snapshot.decode bytes = .ok (s, []) ∧ c.snapshot = .ok s
      ∧ (∀ rules ∈ s.transitions,
        rules.length < UInt32.size ∧ ∀ r ∈ rules, r.guard.length < UInt32.size)
      ∧ Executor.ofSnapshot s = .ok x ∧ x.verdict = .pending
      ∧ ∃ y, [Letter.ofList [0], .ofList [0, 2]].foldlM Executor.advance x = .ok y
        ∧ y.reset = .ok x ∧ y.verdict = .ok := by
  intro e c
  have small : ∀ i ∈ e.atoms, i < UInt32.size := by decide
  let guard : Formula := .and (.var 0) (.not (.var 1))
  have satisfiable : guard.Satisfiable := ⟨.ofList [0], rfl⟩
  have read : Build.Returns (Condition.and (.atom 0) (.not (.atom 1))).toFormula guard :=
    (Build.Returns.pure _).bind
      (((Build.Returns.pure _).bind (Build.not_returns _)).bind (Build.and_returns _ _))
  have compiled : c = ⟨.binary, ["p", "q", "r"], .loop guard 3, none⟩ :=
    compile_plus_returns read satisfiable _ _ .empty
  let s : Snapshot := ⟨.nondeterministic, 3, 2, [0], [1],
    [[⟨[4, 2, 0, 0, 3, 2, 1, 0], 1⟩], [⟨[4, 2, 0, 0, 3, 2, 1, 0], 1⟩]]⟩
  have taken : c.snapshot = .ok s := compiled ▸ rfl
  have short : ∀ rules ∈ s.transitions,
      rules.length < UInt32.size ∧ ∀ r ∈ rules, r.guard.length < UInt32.size := by decide
  have wellFormed : s.WellFormed :=
    (Snapshot.represents_of_ofAutomaton (compiled ▸ taken)).2.wellFormed
      (Automaton.trim_loop satisfiable).valid rfl (by decide) (by decide) (by decide) (by decide)
  have written : c.bytes = .ok (s.header.encode ++ s.payload) :=
    (Compiled.bytes_eq_ok_iff_of_binary (compiled ▸ rfl)).mpr ⟨s, taken, wellFormed.encode_eq⟩
  have decoded := wellFormed.decode_encode wellFormed.encode_eq
  obtain ⟨decides, x, started, judges⟩ :=
    executor_judges_language e small _ _ _ _ written s _ decoded
      fun t ht => Except.ok.inj (taken.symm.trans ht) ▸ short
  have matches_iff (w : Word) {b : Bool} (h : e.accepts w = .ok b) : b = true ↔ e.Matches w := by
    obtain ⟨_, answered, iff⟩ := decides rfl w
    cases h.symm.trans answered
    exact iff
  have outside : ¬e.Matches [] := fun h => Bool.noConfusion ((matches_iff [] rfl).mpr h)
  have inside : e.Matches [.ofList [0]] := (matches_iff _ rfl).mp rfl
  refine ⟨_, s, x, small, written, decoded, taken, short, started, ?_, ?_⟩
  · obtain ⟨y, read, -, -, pending, -⟩ := judges []
    cases read
    exact pending.mpr ⟨outside, _, inside⟩
  · obtain ⟨y, read, reset, ok, -⟩ := judges [.ofList [0], .ofList [0, 2]]
    exact ⟨y, read, reset, ok.mpr ((matches_iff _ rfl).mp rfl)⟩

end Expression

end TraceRegex
