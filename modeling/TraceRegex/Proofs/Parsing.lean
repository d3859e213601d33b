import TraceRegex.Proofs.Derivations
import TraceRegex.Proofs.Scanning

/-! # The parser accepts the grammar

Every derivation of the tokens of a text is found.  The parser is followed downwards through the
levels of the grammar: at each place the next token, and after a keyword the one behind it, decides
what can stand there, so a broken attempt is always one that is forgiven, and a repetition goes on
exactly as long as the derivation does.  The bound on the depth of the recursion is never reached,
since each bracket that opens a new descent takes a token.
-/

namespace TraceRegex

namespace Grammar

open Token (punctuation)

variable {tokens : Array Token} {p q : Pattern} {ps : List Pattern} {i j k n : Nat}
  {ts us : List Tree} {o : Outcome}

/-! ## Outcomes at a place -/

/-- The text of the token at a place, unless the text ends there. -/
def wordAt (tokens : Array Token) (i : Nat) : Option String :=
  match tokens[i]? with
  | some t => if t.kind = .eof then none else some t.text
  | none => none

theorem wordAt_eq_some_iff {w : String} :
    wordAt tokens i = some w ↔ ∃ t, tokens[i]? = some t ∧ t.kind ≠ .eof ∧ t.text = w := by
  unfold wordAt
  cases tokens[i]? with
  | none => simp
  | some t => by_cases h : t.kind = .eof <;> simp [h]

/-- From every cursor at `i`, whatever error it remembers, the attempt has the outcome and ends
    at `j`. -/
def Results (attempt : Cursor → Outcome × Cursor) (i : Nat) (o : Outcome) (j : Nat) : Prop :=
  ∀ c : Cursor, c.position = i → ∃ c', attempt c = (o, c') ∧ c'.position = j

/-- From every cursor at `i`, the attempt breaks off without going beyond `reach`. -/
def Breaks (attempt : Cursor → Outcome × Cursor) (i reach : Nat) : Prop :=
  ∀ c : Cursor, c.position = i → ∃ e c', attempt c = (.raised e, c') ∧ c'.position ≤ reach

/-- From every cursor at `i`, the attempt fails in a way that is forgiven. -/
def Passes (attempt : Cursor → Outcome × Cursor) (i : Nat) : Prop :=
  Results attempt i .unmatched i ∨ Breaks attempt i (i + lookahead)

theorem Breaks.passes {attempt : Cursor → Outcome × Cursor} {reach : Nat}
    (h : Breaks attempt i reach) (near : reach ≤ i + lookahead) : Passes attempt i := by
  refine .inr fun c hc => ?_
  obtain ⟨e, c', result, near'⟩ := h c hc
  exact ⟨e, c', result, Nat.le_trans near' near⟩

/-! ### Tokens -/

theorem results_takeToken {test : Token → Bool} {t : Token} (found : tokens[i]? = some t)
    (passed : test t = true) : Results (takeToken tokens test) i (.matched [.leaf i]) (i + 1) := by
  rintro c rfl
  exact ⟨{ c with position := c.position + 1 }, by simp [takeToken, found, passed], rfl⟩

theorem results_literal {w : String} (h : wordAt tokens i = some w) :
    Results (run tokens (n + 1) (.literal w)) i (.matched [.leaf i]) (i + 1) := by
  obtain ⟨t, found, kind, rfl⟩ := wordAt_eq_some_iff.mp h
  exact results_takeToken found (by simp [kind])

theorem misses_literal {w : String} (h : wordAt tokens i ≠ some w) :
    Results (run tokens (n + 1) (.literal w)) i .unmatched i := by
  rintro c rfl
  refine ⟨c, ?_, rfl⟩
  rw [run, takeToken]
  unfold wordAt at h
  cases found : tokens[c.position]? with
  | none => rfl
  | some t =>
    by_cases kind : t.kind = .eof
    · simp [kind]
    · simp_all

/-! ### Symbols -/

theorem results_symbol {s : NonTerminal} (h : Results (run tokens n (body s)) i (.matched ts) j) :
    Results (run tokens (n + 1) (.symbol s)) i (.matched [.node s i j ts]) j := by
  rintro c rfl
  obtain ⟨c', result, rfl⟩ := h c rfl
  exact ⟨c', by rw [run, result], rfl⟩

theorem misses_symbol {s : NonTerminal} (h : Results (run tokens n (body s)) i .unmatched i) :
    Results (run tokens (n + 1) (.symbol s)) i .unmatched i := by
  rintro c rfl
  obtain ⟨c', result, same⟩ := h c rfl
  exact ⟨c', by rw [run, result], same⟩

theorem breaks_symbol {s : NonTerminal} {reach : Nat} (h : Breaks (run tokens n (body s)) i reach) :
    Breaks (run tokens (n + 1) (.symbol s)) i reach := by
  rintro c rfl
  obtain ⟨e, c', result, near⟩ := h c rfl
  exact ⟨e, c'.note e, by rw [run, result], by simpa using near⟩

/-! ### Patterns in a row -/

/-- The patterns in a row take the tokens up to `j`, whatever stands before them in the row. -/
def MatchesRow (tokens : Array Token) (n : Nat) (ps : List Pattern) (i j : Nat) (ts : List Tree) :
    Prop :=
  ∀ atHead before, Results (runItems tokens n atHead before ps) i (.matched (before ++ ts)) j

theorem matchesRow_nil : MatchesRow tokens (n + 1) [] i i [] := by
  rintro atHead before c rfl
  exact ⟨c, by simp [runItems], rfl⟩

theorem MatchesRow.cons (first : Results (run tokens n p) i (.matched ts) k)
    (rest : MatchesRow tokens n ps k j us) :
    MatchesRow tokens (n + 1) (p :: ps) i j (ts ++ us) := by
  rintro atHead before c rfl
  obtain ⟨c', result, rfl⟩ := first c rfl
  obtain ⟨c'', result', rfl⟩ := rest false (before ++ ts) c' rfl
  exact ⟨c'', by simp [runItems, result, result'], rfl⟩

theorem results_seq (h : MatchesRow tokens n ps i j ts) :
    Results (run tokens (n + 1) (.seq ps)) i (.matched ts) j := by
  rintro c rfl
  exact h true [] c rfl

theorem results_pair (first : Results (run tokens (n + 2) p) i (.matched ts) k)
    (second : Results (run tokens (n + 1) q) k (.matched us) j) :
    Results (run tokens (n + 4) (.seq [p, q])) i (.matched (ts ++ us)) j := by
  simpa using results_seq (MatchesRow.cons first (MatchesRow.cons second matchesRow_nil))

theorem misses_seq (h : Results (run tokens n p) i .unmatched i) :
    Results (run tokens (n + 2) (.seq (p :: ps))) i .unmatched i := by
  rintro c rfl
  obtain ⟨c', result, same⟩ := h c rfl
  exact ⟨c', by simp [run, runItems, result], same⟩

theorem breaks_seq {reach : Nat} (h : Breaks (run tokens n p) i reach) :
    Breaks (run tokens (n + 2) (.seq (p :: ps))) i reach := by
  rintro c rfl
  obtain ⟨e, c', result, near⟩ := h c rfl
  exact ⟨e, c', by simp [run, runItems, result], near⟩

/-- A row breaks off behind its first pattern if the second one does not match. -/
theorem breaks_second (first : Results (run tokens (n + 1) p) i (.matched ts) k)
    (second : Results (run tokens n q) k .unmatched k) :
    Breaks (run tokens (n + 3) (.seq (p :: q :: ps))) i k := by
  rintro c rfl
  obtain ⟨c', result, same⟩ := first c rfl
  obtain ⟨c'', result', same'⟩ := second c' same
  refine ⟨⟨c''.position, some (describeItems (q :: ps))⟩, c'', ?_, Nat.le_of_eq same'⟩
  simp [run, runItems, result, result']

/-! ### Options -/

/-- One of the options takes the tokens up to `j`, whatever errors the ones before it raised. -/
def MatchesOption (tokens : Array Token) (n : Nat) (ps : List Pattern) (i j : Nat)
    (ts : List Tree) : Prop :=
  ∀ furthest reach, Results (runOptions tokens n furthest reach ps) i (.matched ts) j

theorem matchesOption_here (h : Results (run tokens n p) i (.matched ts) j) :
    MatchesOption tokens (n + 1) (p :: ps) i j ts := by
  rintro furthest reach c rfl
  obtain ⟨c', result, rfl⟩ := h c rfl
  exact ⟨c.accept c', by rw [runOptions, result], by simp⟩

theorem MatchesOption.later (rest : MatchesOption tokens n ps i j ts)
    (h : Passes (run tokens n p) i) : MatchesOption tokens (n + 1) (p :: ps) i j ts := by
  rintro furthest reach c rfl
  cases h with
  | inl misses =>
    obtain ⟨c', result, -⟩ := misses c rfl
    obtain ⟨c'', result', same⟩ := rest furthest reach c rfl
    exact ⟨c'', by simp [runOptions, result, result'], same⟩
  | inr breaks =>
    obtain ⟨e, c', result, near⟩ := breaks c rfl
    have forgiven : c.isCommitted c' = false := by
      simpa [Cursor.isCommitted] using near
    have noted : (c.noteAttempt e c').position = c.position := by simp
    rw [runOptions, result]
    simp only [forgiven, Bool.false_eq_true, if_false]
    split
    · exact rest _ _ _ noted
    · exact rest _ _ _ noted

theorem results_choice (h : MatchesOption tokens n ps i j ts) :
    Results (run tokens (n + 1) (.choice ps)) i (.matched ts) j := by
  rintro c rfl
  exact h none 0 c rfl

theorem misses_options {m : Nat} (h : ∀ p ∈ ps, ∀ n ≥ m, Results (run tokens n p) i .unmatched i)
    (enough : m + ps.length + 1 ≤ n) (reach : Nat) :
    Results (runOptions tokens n none reach ps) i .unmatched i := by
  rintro c rfl
  induction ps generalizing n with
  | nil =>
    obtain ⟨n, rfl⟩ := Nat.exists_eq_add_one_of_ne_zero (by omega : n ≠ 0)
    exact ⟨c, by rw [runOptions], rfl⟩
  | cons p ps ih =>
    obtain ⟨n, rfl⟩ := Nat.exists_eq_add_one_of_ne_zero (by omega : n ≠ 0)
    rw [List.length_cons] at enough
    obtain ⟨c', result, -⟩ := h p List.mem_cons_self n (by omega) c rfl
    rw [runOptions, result]
    exact ih (by omega) fun q hq => h q (List.mem_cons_of_mem _ hq)

theorem misses_choice {m : Nat} (h : ∀ p ∈ ps, ∀ n ≥ m, Results (run tokens n p) i .unmatched i)
    (enough : m + ps.length + 2 ≤ n) : Results (run tokens n (.choice ps)) i .unmatched i := by
  obtain ⟨n, rfl⟩ := Nat.exists_eq_add_one_of_ne_zero (by omega : n ≠ 0)
  exact misses_options h (by omega) 0

/-! ### Repetitions -/

theorem many_stop (h : Passes (run tokens n p) i) (once : Bool) (before : List Tree) :
    Results (runMany tokens (n + 1) p once before) i (.matched before) i := by
  rintro c rfl
  cases h with
  | inl misses =>
    obtain ⟨c', result, same⟩ := misses c rfl
    exact ⟨c.accept c', by rw [runMany, result], by simpa using same⟩
  | inr breaks =>
    obtain ⟨e, c', result, near⟩ := breaks c rfl
    have forgiven : c.isCommitted c' = false := by
      simpa [Cursor.isCommitted] using near
    exact ⟨(c.note e).noteAttempt e c', by simp [runMany, result, forgiven], by simp⟩

theorem many_again {before : List Tree} (first : Results (run tokens n p) i (.matched ts) k)
    (rest : Results (runMany tokens n p false (before ++ ts)) k o j) :
    Results (runMany tokens (n + 1) p false before) i o j := by
  rintro c rfl
  obtain ⟨c', result, rfl⟩ := first c rfl
  obtain ⟨c'', result', rfl⟩ := rest (c.accept c') (by simp)
  exact ⟨c'', by simp [runMany, result, result'], rfl⟩

theorem many_once {before : List Tree} (h : Results (run tokens n p) i (.matched ts) j) :
    Results (runMany tokens (n + 1) p true before) i (.matched (before ++ ts)) j := by
  rintro c rfl
  obtain ⟨c', result, rfl⟩ := h c rfl
  exact ⟨c.accept c', by simp [runMany, result], by simp⟩

/-! ## What can follow -/

/-- Numbers and words do not look like other tokens. -/
def Lexical (tokens : Array Token) : Prop :=
  ∀ (i : Nat) (t : Token), tokens[i]? = some t → t.kind ≠ .symbol → t.text ∉ punctuation

/-- The tokens that could make something longer that ends before them.  The opening bracket is one,
    because it makes an operator of a keyword that is otherwise a name. -/
def continuers : NonTerminal → List String
  | .primary => ["("]
  | .repeated | .unary => ["(", "[", "\x7b"]
  | .conjunction => ["(", "[", "\x7b", "&&"]
  | .disjunction => ["(", "[", "\x7b", "&&", "||"]
  | .fusion => ["(", "[", "\x7b", "&&", "||", ":"]
  | .concatenation => ["(", "[", "\x7b", "&&", "||", ":", ";"]
  | .intersection => ["(", "[", "\x7b", "&&", "||", ":", ";", "&"]
  | .union => ["(", "[", "\x7b", "&&", "||", ":", ";", "&", "|"]
  | .repetition | .abort | .permute => []

/-- What ends before the place `j` is not made longer by the token there. -/
def Stops (tokens : Array Token) (s : NonTerminal) (j : Nat) : Prop :=
  ∀ w ∈ continuers s, wordAt tokens j ≠ some w

theorem stops_of_word {s : NonTerminal} {w : String} (h : wordAt tokens j = some w)
    (other : w ∉ continuers s) : Stops tokens s j := by
  rintro w' mem same
  cases h.symm.trans same
  exact other mem

/-- How many steps a symbol needs beyond those for its tokens. -/
def level : NonTerminal → Nat
  | .primary => 30
  | .repeated => 40
  | .unary => 50
  | .conjunction => 60
  | .disjunction => 70
  | .fusion => 80
  | .concatenation => 90
  | .intersection => 100
  | .union => 110
  | .repetition | .abort | .permute => 0

/-- Derivations of the symbol that are not longer than `length` are found. -/
def Completes (tokens : Array Token) (length : Nat) (s : NonTerminal) : Prop :=
  ∀ ⦃i j : Nat⦄ ⦃ts : List Tree⦄, Derivation tokens (.symbol s) i j ts → j ≤ i + length →
    Stops tokens s j → ∀ ⦃n : Nat⦄, 64 * (j - i) + level s ≤ n →
      Results (run tokens n (.symbol s)) i (.matched ts) j

theorem Derivation.word_eq {w : String} (h : Derivation tokens (.literal w) i j ts) :
    wordAt tokens i = some w ∧ j = i + 1 ∧ ts = [.leaf i] := by
  cases h with
  | token found fits => exact ⟨wordAt_eq_some_iff.mpr ⟨_, found, fits⟩, rfl, rfl⟩

/-- A row that starts with a literal starts with that word. -/
theorem Derivation.after_word {w : String}
    (h : Derivation tokens (.seq (.literal w :: ps)) i j ts) :
    wordAt tokens i = some w ∧ ∃ us, Derivation tokens (.seq ps) (i + 1) j us ∧
      ts = .leaf i :: us := by
  obtain ⟨k, mark, us, first, rest, rfl⟩ := derivation_cons_iff.mp h
  obtain ⟨word, rfl, rfl⟩ := first.word_eq
  exact ⟨word, us, rest, rfl⟩

/-! ## Chains -/

section

variable {length : Nat} {s operand : NonTerminal} {op : String}

/-- The operators of a chain and their operands are taken one after the other, up to the last. -/
theorem Completes.operators (h : Completes tokens length operand)
    (new : op ∉ continuers operand) (stops : Stops tokens operand j)
    (ends : wordAt tokens j ≠ some op) {i : Nat}
    (derivation : Derivation tokens (.star (.seq [.literal op, .symbol operand])) i j ts)
    (short : j ≤ i + length) :
    Stops tokens operand i ∧ ∀ before n, 64 * (j - i) + level operand + 5 ≤ n →
      Results (runMany tokens n (.seq [.literal op, .symbol operand]) false before) i
        (.matched (before ++ ts)) j := by
  revert short
  refine Derivation.star_induction (motive := fun i ts => j ≤ i + length →
    Stops tokens operand i ∧ ∀ before n, 64 * (j - i) + level operand + 5 ≤ n →
      Results (runMany tokens n (.seq [.literal op, .symbol operand]) false before) i
        (.matched (before ++ ts)) j) ?_ ?_ derivation
  · intro _
    refine ⟨stops, fun before n enough => ?_⟩
    obtain ⟨m, rfl⟩ : ∃ m, n = m + 4 := ⟨n - 4, by omega⟩
    rw [List.append_nil]
    exact many_stop (.inl (misses_seq (misses_literal ends))) false before
  · intro i k us vs first rest ih short
    obtain ⟨word, arg, argument, rfl⟩ := first.after_word
    rw [derivation_single_iff] at argument
    have inside := argument.le
    have beyond := rest.le
    obtain ⟨stops', found⟩ := ih (by omega)
    refine ⟨stops_of_word word new, fun before n enough => ?_⟩
    obtain ⟨m, rfl⟩ : ∃ m, n = m + 5 := ⟨n - 5, by omega⟩
    have taken := h argument (by omega) stops' (show 64 * (k - (i + 1)) + level operand ≤ m + 1 by
      omega)
    have others := found (before ++ .leaf i :: arg) (m + 4) (by omega)
    rw [List.append_assoc] at others
    exact many_again (results_pair (results_literal word) taken) others

theorem Completes.results_chain (h : Completes tokens length operand)
    (new : op ∉ continuers operand) (stops : Stops tokens operand j)
    (ends : wordAt tokens j ≠ some op) {i : Nat}
    (derivation : Derivation tokens (chain operand op) i j ts) (short : j ≤ i + length)
    (enough : 64 * (j - i) + level operand + 9 ≤ n) :
    Results (run tokens n (chain operand op)) i (.matched ts) j := by
  obtain ⟨k, us, vs, first, others, rfl⟩ := derivation_cons_iff.mp derivation
  rw [derivation_single_iff] at others
  have inside := first.le
  have beyond := others.le
  obtain ⟨stops', found⟩ := h.operators new stops ends others (by omega)
  obtain ⟨m, rfl⟩ : ∃ m, n = m + 4 := ⟨n - 4, by omega⟩
  have argument := h first (by omega) stops' (show 64 * (k - i) + level operand ≤ m + 2 by omega)
  have rest : Results (run tokens (m + 1) (.star (.seq [.literal op, .symbol operand]))) k
      (.matched vs) j := found [] m (by omega)
  exact results_pair argument rest

/-- A chain is complete if its operands are. -/
theorem Completes.chain (h : Completes tokens length operand) (shape : body s = chain operand op)
    (more : ∀ w ∈ continuers operand, w ∈ continuers s) (mem : op ∈ continuers s)
    (new : op ∉ continuers operand) (higher : level operand + 10 ≤ level s) :
    Completes tokens length s := by
  intro i j ts derivation short stops n enough
  obtain ⟨us, below, rfl⟩ := derivation_symbol_iff.mp derivation
  rw [shape] at below
  obtain ⟨m, rfl⟩ : ∃ m, n = m + 1 := ⟨n - 1, by omega⟩
  apply results_symbol
  rw [shape]
  exact h.results_chain new (fun w hw => stops w (more w hw)) (stops op mem) below short
    (by omega)

end

/-! ## Operands of chains -/

/-- A repetition takes its pattern as often as the derivation does, if nothing depends on what
    follows each time. -/
theorem results_star {m : Nat} (each : ∀ {i k : Nat} {us : List Tree}, Derivation tokens p i k us →
      i < k ∧ ∀ n ≥ m, Results (run tokens n p) i (.matched us) k)
    (stop : ∀ n ≥ m, Passes (run tokens n p) j) {i : Nat}
    (derivation : Derivation tokens (.star p) i j ts) (enough : j - i + m + 2 ≤ n) :
    Results (run tokens n (.star p)) i (.matched ts) j := by
  have loop : ∀ before n, j - i + m + 1 ≤ n →
      Results (runMany tokens n p false before) i (.matched (before ++ ts)) j := by
    refine Derivation.star_induction (motive := fun i ts => ∀ before n, j - i + m + 1 ≤ n →
      Results (runMany tokens n p false before) i (.matched (before ++ ts)) j) ?_ ?_ derivation
    · intro before n enough
      obtain ⟨n, rfl⟩ : ∃ n', n = n' + 1 := ⟨n - 1, by omega⟩
      rw [List.append_nil]
      exact many_stop (stop n (by omega)) false before
    · intro i k us vs first rest ih before n enough
      obtain ⟨n, rfl⟩ : ∃ n', n = n' + 1 := ⟨n - 1, by omega⟩
      obtain ⟨progress, found⟩ := each first
      have beyond := rest.le
      have others := ih (before ++ us) n (by omega)
      rw [List.append_assoc] at others
      exact many_again (found n (by omega)) others
  obtain ⟨n, rfl⟩ : ∃ n', n = n' + 1 := ⟨n - 1, by omega⟩
  exact loop [] n (by omega)

theorem results_either {a b : String}
    (derivation : Derivation tokens (.choice [.literal a, .literal b]) i j ts) (enough : 4 ≤ n) :
    (wordAt tokens i = some a ∨ wordAt tokens i = some b) ∧ j = i + 1 ∧
      Results (run tokens n (.choice [.literal a, .literal b])) i (.matched ts) j := by
  obtain ⟨n, rfl⟩ : ∃ n', n = n' + 4 := ⟨n - 4, by omega⟩
  obtain ⟨p, mem, derivation⟩ := derivation_choice_iff.mp derivation
  have here (h : wordAt tokens i = some a) :
      Results (run tokens (n + 4) (.choice [.literal a, .literal b])) i (.matched [.leaf i])
        (i + 1) := results_choice (matchesOption_here (results_literal h))
  simp only [List.mem_cons, List.not_mem_nil, or_false] at mem
  rcases mem with rfl | rfl
  · obtain ⟨word, rfl, rfl⟩ := derivation.word_eq
    exact ⟨.inl word, rfl, here word⟩
  · obtain ⟨word, rfl, rfl⟩ := derivation.word_eq
    refine ⟨.inr word, rfl, ?_⟩
    by_cases first : wordAt tokens i = some a
    · exact here first
    · exact results_choice ((matchesOption_here (results_literal word)).later
        (.inl (misses_literal first)))

theorem Lexical.kind_eq (lexical : Lexical tokens) {t : Token} (found : tokens[i]? = some t)
    (mem : t.text ∈ punctuation) : t.kind = .symbol := by
  by_cases kind : t.kind = .symbol
  · exact kind
  · exact absurd mem (lexical i t found kind)

/-- A token of the punctuation is neither a number nor a name. -/
theorem Lexical.misses_takeToken (lexical : Lexical tokens) {w : String}
    (h : wordAt tokens i = some w) (mem : w ∈ punctuation) {test : Token → Bool}
    (fails : ∀ t : Token, t.kind = .symbol → test t = false) :
    Results (takeToken tokens test) i .unmatched i := by
  rintro c rfl
  obtain ⟨t, found, -, rfl⟩ := wordAt_eq_some_iff.mp h
  exact ⟨c, by simp [takeToken, found, fails t (lexical.kind_eq found mem)], rfl⟩

theorem Lexical.misses_int (lexical : Lexical tokens) {w : String} (h : wordAt tokens i = some w)
    (mem : w ∈ punctuation) (n : Nat) : Results (run tokens (n + 1) .int) i .unmatched i :=
  lexical.misses_takeToken h mem (by simp +contextual)

theorem Lexical.misses_ident (lexical : Lexical tokens) {w : String} (h : wordAt tokens i = some w)
    (mem : w ∈ punctuation) (n : Nat) : Results (run tokens (n + 1) .ident) i .unmatched i :=
  lexical.misses_takeToken h mem (by simp +contextual)

/-- A repetition is decided by its first token, and by whether there is a comma in it. -/
theorem results_repetition (lexical : Lexical tokens)
    (derivation : Derivation tokens (.symbol .repetition) i j ts) (enough : 16 ≤ n) :
    i < j ∧ (wordAt tokens i = some "[" ∨ wordAt tokens i = some "\x7b") ∧
      Results (run tokens n (.symbol .repetition)) i (.matched ts) j := by
  obtain ⟨n, rfl⟩ : ∃ n', n = n' + 16 := ⟨n - 16, by omega⟩
  obtain ⟨us, below, rfl⟩ := derivation_symbol_iff.mp derivation
  obtain ⟨p, mem, option⟩ := derivation_choice_iff.mp below
  simp only [List.mem_cons, List.not_mem_nil, or_false] at mem
  rcases mem with rfl | rfl
  · obtain ⟨first, _, later, rfl⟩ := option.after_word
    obtain ⟨_, _, _, sign, closes, rfl⟩ := derivation_cons_iff.mp later
    rw [derivation_single_iff] at closes
    obtain ⟨-, rfl, taken⟩ := results_either sign (n := n + 11) (by omega)
    obtain ⟨last, rfl, rfl⟩ := closes.word_eq
    refine ⟨by omega, .inl first, ?_⟩
    exact results_symbol (results_choice (matchesOption_here (results_seq
      ((MatchesRow.cons (results_literal first) (MatchesRow.cons taken
        (MatchesRow.cons (results_literal last) matchesRow_nil)))))))
  · obtain ⟨first, _, later, rfl⟩ := option.after_word
    obtain ⟨_, _, _, count, upper, rfl⟩ := derivation_cons_iff.mp later
    obtain ⟨k, vs, _, more, closes, rfl⟩ := derivation_cons_iff.mp upper
    rw [derivation_single_iff] at closes
    obtain ⟨last, rfl, rfl⟩ := closes.word_eq
    cases count with
    | token found kind =>
    have number (m : Nat) : Results (run tokens (m + 1) .int) (i + 1) (.matched [.leaf (i + 1)])
        (i + 1 + 1) := results_takeToken found (by simpa [Pattern.Fits] using kind)
    have inside := more.le
    have rest : Results (run tokens (n + 8) (.optional (.seq [.literal ",", .optional .int])))
        (i + 1 + 1) (.matched vs) k := by
      rcases derivation_optional_iff.mp more with ⟨rfl, rfl⟩ | more
      · have other : wordAt tokens (i + 1 + 1) ≠ some "," := by simp [last]
        exact many_stop (.inl (misses_seq (misses_literal other))) true []
      · obtain ⟨comma, _, bound, rfl⟩ := more.after_word
        rw [derivation_single_iff] at bound
        refine many_once (results_pair (results_literal comma) ?_)
        rcases derivation_optional_iff.mp bound with ⟨rfl, rfl⟩ | bound
        · exact many_stop (.inl (lexical.misses_int last (by decide) (n + 2))) true []
        · cases bound with
          | token found kind =>
            exact many_once (results_takeToken found (by simpa [Pattern.Fits] using kind))
    have other : wordAt tokens i ≠ some "[" := by simp [first]
    refine ⟨by omega, .inr first, ?_⟩
    exact results_symbol (results_choice ((matchesOption_here (results_seq
      ((MatchesRow.cons (results_literal first) (MatchesRow.cons (number _) (MatchesRow.cons rest
        (MatchesRow.cons (results_literal last) matchesRow_nil))))))).later
          (.inl (misses_seq (misses_literal other)))))

theorem misses_repetition (stops : Stops tokens .repeated j) (enough : 8 ≤ n) :
    Results (run tokens n (.symbol .repetition)) j .unmatched j := by
  obtain ⟨n, rfl⟩ : ∃ n', n = n' + 1 := ⟨n - 1, by omega⟩
  refine misses_symbol (misses_choice (m := 3) (fun p mem m hm => ?_) (by simpa using enough))
  obtain ⟨m, rfl⟩ : ∃ m', m = m' + 3 := ⟨m - 3, by omega⟩
  simp only [List.mem_cons, List.not_mem_nil, or_false] at mem
  rcases mem with rfl | rfl
  · exact misses_seq (misses_literal (stops _ (by decide)))
  · exact misses_seq (misses_literal (stops _ (by decide)))

/-! ## Operands in brackets, keywords and names -/

/-- What an operand without operators can be. -/
inductive Primary (tokens : Array Token) (i : Nat) : Nat → List Tree → Prop where
  | empty (opens : wordAt tokens i = some "(") (closes : wordAt tokens (i + 1) = some ")") :
      Primary tokens i (i + 1 + 1) [.leaf i, .leaf (i + 1)]
  | group {k : Nat} {us : List Tree} (opens : wordAt tokens i = some "(")
      (arg : Derivation tokens (.symbol .union) (i + 1) k us)
      (closes : wordAt tokens k = some ")") :
      Primary tokens i (k + 1) (.leaf i :: (us ++ [.leaf k]))
  | prefixes {k : Nat} {us : List Tree} (keyword : wordAt tokens i = some "PARTIAL")
      (opens : wordAt tokens (i + 1) = some "(")
      (arg : Derivation tokens (.symbol .union) (i + 1 + 1) k us)
      (closes : wordAt tokens k = some ")") :
      Primary tokens i (k + 1) (.leaf i :: .leaf (i + 1) :: (us ++ [.leaf k]))
  | abort {j : Nat} {us : List Tree} (keyword : wordAt tokens i = some "ABORT")
      (args : Derivation tokens (.symbol .abort) (i + 1) j us) : Primary tokens i j (.leaf i :: us)
  | permute {j : Nat} {us : List Tree} (keyword : wordAt tokens i = some "PERMUTE")
      (args : Derivation tokens (.symbol .permute) (i + 1) j us) :
      Primary tokens i j (.leaf i :: us)
  | constant {w : String} (found : wordAt tokens i = some w) (mem : w ∈ ["true", "false"]) :
      Primary tokens i (i + 1) [.leaf i]
  | name {t : Token} (found : tokens[i]? = some t) (kind : t.kind = .ident) :
      Primary tokens i (i + 1) [.leaf i]

theorem Derivation.primary (h : Derivation tokens (.symbol .primary) i j ts) :
    ∃ us, Primary tokens i j us ∧ ts = [.node .primary i j us] := by
  obtain ⟨us, below, rfl⟩ := derivation_symbol_iff.mp h
  refine ⟨us, ?_, rfl⟩
  obtain ⟨p, mem, option⟩ := derivation_choice_iff.mp below
  simp only [List.mem_cons, List.not_mem_nil, or_false] at mem
  rcases mem with rfl | rfl | rfl | rfl | rfl | rfl | rfl | rfl
  · obtain ⟨opens, _, later, rfl⟩ := option.after_word
    obtain ⟨closes, _, last, rfl⟩ := later.after_word
    obtain ⟨rfl, rfl⟩ := derivation_nil_iff.mp last
    exact .empty opens closes
  · obtain ⟨opens, _, later, rfl⟩ := option.after_word
    obtain ⟨_, _, _, arg, last, rfl⟩ := derivation_cons_iff.mp later
    obtain ⟨closes, rfl, rfl⟩ := (derivation_single_iff.mp last).word_eq
    exact .group opens arg closes
  · obtain ⟨keyword, _, bracket, rfl⟩ := option.after_word
    obtain ⟨opens, _, later, rfl⟩ := bracket.after_word
    obtain ⟨_, _, _, arg, last, rfl⟩ := derivation_cons_iff.mp later
    obtain ⟨closes, rfl, rfl⟩ := (derivation_single_iff.mp last).word_eq
    exact .prefixes keyword opens arg closes
  · obtain ⟨keyword, _, args, rfl⟩ := option.after_word
    exact .abort keyword (derivation_single_iff.mp args)
  · obtain ⟨keyword, _, args, rfl⟩ := option.after_word
    exact .permute keyword (derivation_single_iff.mp args)
  · obtain ⟨found, rfl, rfl⟩ := option.word_eq
    exact .constant found (by simp)
  · obtain ⟨found, rfl, rfl⟩ := option.word_eq
    exact .constant found (by simp)
  · cases option with
    | token found kind => exact .name found kind

/-- An operand takes a token, and does not start with a closing bracket or an operator. -/
theorem Lexical.primary_starts (lexical : Lexical tokens) (h : Primary tokens i j ts) :
    i < j ∧ ∃ w, wordAt tokens i = some w ∧ w ∉ [")", "!", "~"] := by
  cases h with
  | empty opens closes => exact ⟨by omega, _, opens, by decide⟩
  | group opens arg closes =>
    have inside := arg.le
    exact ⟨by omega, _, opens, by decide⟩
  | prefixes keyword opens arg closes =>
    have inside := arg.le
    exact ⟨by omega, _, keyword, by decide⟩
  | abort keyword args =>
    have inside := args.le
    exact ⟨by omega, _, keyword, by decide⟩
  | permute keyword args =>
    have inside := args.le
    exact ⟨by omega, _, keyword, by decide⟩
  | @constant w found mem =>
    simp only [List.mem_cons, List.not_mem_nil, or_false] at mem
    refine ⟨by omega, w, found, ?_⟩
    rcases mem with rfl | rfl <;> decide
  | @name t found kind =>
    have other : t.text ∉ punctuation := lexical i t found (by simp [kind])
    refine ⟨by omega, t.text, wordAt_eq_some_iff.mpr ⟨t, found, by simp [kind], rfl⟩, ?_⟩
    exact fun mem => other ((by decide : ∀ w ∈ [")", "!", "~"], w ∈ punctuation) _ mem)

/-- The symbol takes a token, and it does not start with a closing bracket. -/
def Starts (tokens : Array Token) (s : NonTerminal) : Prop :=
  ∀ ⦃i j : Nat⦄ ⦃ts : List Tree⦄, Derivation tokens (.symbol s) i j ts →
    i < j ∧ wordAt tokens i ≠ some ")"

theorem Starts.chain {s operand : NonTerminal} {op : String} (h : Starts tokens operand)
    (shape : body s = chain operand op) : Starts tokens s := by
  intro i j ts derivation
  obtain ⟨us, below, rfl⟩ := derivation_symbol_iff.mp derivation
  rw [shape] at below
  obtain ⟨k, _, _, first, rest, rfl⟩ := derivation_cons_iff.mp below
  obtain ⟨progress, word⟩ := h first
  exact ⟨Nat.lt_of_lt_of_le progress rest.le, word⟩

theorem Lexical.repeated_starts (lexical : Lexical tokens)
    (h : Derivation tokens (.symbol .repeated) i j ts) :
    i < j ∧ ∃ w, wordAt tokens i = some w ∧ w ∉ [")", "!", "~"] := by
  obtain ⟨us, below, rfl⟩ := derivation_symbol_iff.mp h
  obtain ⟨k, _, _, first, rest, rfl⟩ := derivation_cons_iff.mp below
  obtain ⟨_, primary, -⟩ := first.primary
  obtain ⟨progress, word⟩ := lexical.primary_starts primary
  exact ⟨Nat.lt_of_lt_of_le progress rest.le, word⟩

theorem Lexical.starts_union (lexical : Lexical tokens) : Starts tokens .union := by
  have unary : Starts tokens .unary := by
    intro i j ts derivation
    obtain ⟨us, below, rfl⟩ := derivation_symbol_iff.mp derivation
    obtain ⟨k, _, _, marks, operand, rfl⟩ := derivation_cons_iff.mp below
    obtain ⟨progress, w, word, other⟩ :=
      lexical.repeated_starts (derivation_single_iff.mp operand)
    refine ⟨Nat.lt_of_le_of_lt marks.le progress, ?_⟩
    refine Derivation.star_induction (motive := fun i _ => wordAt tokens i ≠ some ")") ?_ ?_ marks
    · intro closes
      cases word.symm.trans closes
      exact other (by decide)
    · intro i k us vs mark _ _ closes
      obtain ⟨either, -⟩ := results_either mark (Nat.le_refl 4)
      simp [closes] at either
  have conjunction : Starts tokens .conjunction := unary.chain rfl
  have disjunction : Starts tokens .disjunction := conjunction.chain rfl
  have fusion : Starts tokens .fusion := disjunction.chain rfl
  have concatenation : Starts tokens .concatenation := fusion.chain rfl
  have intersection : Starts tokens .intersection := concatenation.chain rfl
  exact intersection.chain rfl

theorem breaks_chain {s operand : NonTerminal} {op : String} {m : Nat}
    (shape : body s = chain operand op)
    (h : ∀ n ≥ m, Breaks (run tokens n (.symbol operand)) i i) :
    ∀ n ≥ m + 3, Breaks (run tokens n (.symbol s)) i i := by
  intro n enough
  obtain ⟨n, rfl⟩ : ∃ n', n = n' + 3 := ⟨n - 3, by omega⟩
  apply breaks_symbol
  rw [shape]
  exact breaks_seq (h n (by omega))

/-- No expression starts with a closing bracket, and the attempt to read one takes nothing. -/
theorem Lexical.breaks_union (lexical : Lexical tokens) (closes : wordAt tokens i = some ")") :
    ∀ n ≥ 39, Breaks (run tokens n (.symbol .union)) i i := by
  have literal {w : String} (other : w ≠ ")") {n : Nat} :
      Results (run tokens (n + 1) (.literal w)) i .unmatched i :=
    misses_literal (by simpa [closes] using other.symm)
  have primary : ∀ n ≥ 14, Results (run tokens n (.symbol .primary)) i .unmatched i := by
    intro n enough
    obtain ⟨n, rfl⟩ : ∃ n', n = n' + 1 := ⟨n - 1, by omega⟩
    refine misses_symbol (misses_choice (m := 3) (fun p mem m hm => ?_) (by simpa using enough))
    obtain ⟨m, rfl⟩ : ∃ m', m = m' + 3 := ⟨m - 3, by omega⟩
    simp only [List.mem_cons, List.not_mem_nil, or_false] at mem
    rcases mem with rfl | rfl | rfl | rfl | rfl | rfl | rfl | rfl
    · exact misses_seq (literal (by decide))
    · exact misses_seq (literal (by decide))
    · exact misses_seq (literal (by decide))
    · exact misses_seq (literal (by decide))
    · exact misses_seq (literal (by decide))
    · exact literal (by decide)
    · exact literal (by decide)
    · exact lexical.misses_ident closes (by decide) _
  have unary : ∀ n ≥ 21, Breaks (run tokens n (.symbol .unary)) i i := by
    intro n enough
    obtain ⟨n, rfl⟩ : ∃ n', n = n' + 21 := ⟨n - 21, by omega⟩
    have marks : Results (run tokens (n + 16) (.choice [.literal "!", .literal "~"])) i
        .unmatched i := by
      refine misses_choice (m := 1) (fun p mem m hm => ?_) (by simp)
      obtain ⟨m, rfl⟩ : ∃ m', m = m' + 1 := ⟨m - 1, by omega⟩
      simp only [List.mem_cons, List.not_mem_nil, or_false] at mem
      rcases mem with rfl | rfl
      · exact literal (by decide)
      · exact literal (by decide)
    have repeated : Results (run tokens (n + 17) (.symbol .repeated)) i .unmatched i :=
      misses_symbol (misses_seq (primary (n + 14) (by omega)))
    exact breaks_symbol (breaks_second (many_stop (.inl marks) false []) repeated)
  have conjunction := breaks_chain (s := .conjunction) rfl unary
  have disjunction := breaks_chain (s := .disjunction) rfl conjunction
  have fusion := breaks_chain (s := .fusion) rfl disjunction
  have concatenation := breaks_chain (s := .concatenation) rfl fusion
  have intersection := breaks_chain (s := .intersection) rfl concatenation
  exact breaks_chain (s := .union) rfl intersection

/-! ## Completeness -/

section

variable {length : Nat}

theorem Completes.results_abort (h : Completes tokens length .union)
    (derivation : Derivation tokens (.symbol .abort) i j ts) (short : j ≤ i + length)
    (enough : 64 * (j - i) ≤ n) : Results (run tokens n (.symbol .abort)) i (.matched ts) j := by
  obtain ⟨us, below, rfl⟩ := derivation_symbol_iff.mp derivation
  obtain ⟨opens, _, inner, rfl⟩ := below.after_word
  obtain ⟨k, arg, _, first, later, rfl⟩ := derivation_cons_iff.mp inner
  obtain ⟨comma, _, rest, rfl⟩ := later.after_word
  obtain ⟨l, arg', _, second, last, rfl⟩ := derivation_cons_iff.mp rest
  obtain ⟨closes, rfl, rfl⟩ := (derivation_single_iff.mp last).word_eq
  have inside := first.le
  have inside' := second.le
  obtain ⟨m, rfl⟩ : ∃ m, n = m + 10 := ⟨n - 10, by omega⟩
  have found : Results (run tokens (m + 6) (.symbol .union)) (i + 1) (.matched arg) k :=
    h first (by omega) (stops_of_word comma (by decide)) (by simp only [level]; omega)
  have found' : Results (run tokens (m + 4) (.symbol .union)) (k + 1) (.matched arg') l :=
    h second (by omega) (stops_of_word closes (by decide)) (by simp only [level]; omega)
  exact results_symbol (results_seq (MatchesRow.cons (results_literal opens)
    (MatchesRow.cons found (MatchesRow.cons (results_literal comma) (MatchesRow.cons found'
      (MatchesRow.cons (results_literal closes) matchesRow_nil))))))

theorem Completes.results_permute (lexical : Lexical tokens) (h : Completes tokens length .union)
    (derivation : Derivation tokens (.symbol .permute) i j ts) (short : j ≤ i + length)
    (enough : 64 * (j - i) ≤ n) : Results (run tokens n (.symbol .permute)) i (.matched ts) j := by
  obtain ⟨us, below, rfl⟩ := derivation_symbol_iff.mp derivation
  obtain ⟨opens, _, inner, rfl⟩ := below.after_word
  obtain ⟨k, args, _, list, last, rfl⟩ := derivation_cons_iff.mp inner
  obtain ⟨closes, rfl, rfl⟩ := (derivation_single_iff.mp last).word_eq
  have inside := list.le
  obtain ⟨m, rfl⟩ : ∃ m, n = m + 6 := ⟨n - 6, by omega⟩
  have found : Results (run tokens (m + 2) (.optional (.seq [.symbol .union,
      .star (.seq [.literal ",", .symbol .union])]))) (i + 1) (.matched args) k := by
    rcases derivation_optional_iff.mp list with ⟨rfl, rfl⟩ | list
    · obtain ⟨m, rfl⟩ : ∃ m', m = m' + 2 := ⟨m - 2, by omega⟩
      have breaks := lexical.breaks_union closes m (by omega)
      exact many_stop ((breaks_seq breaks).passes (Nat.le_add_right _ _)) true []
    · have taken : Results (run tokens m (Grammar.chain .union ",")) (i + 1) (.matched args) k :=
        h.results_chain (by decide) (stops_of_word closes (by decide)) (by simp [closes]) list
          (by omega) (by simp only [level]; omega)
      exact many_once taken
  exact results_symbol (results_seq (MatchesRow.cons (results_literal opens)
    (MatchesRow.cons found (MatchesRow.cons (results_literal closes) matchesRow_nil))))

theorem passes_row {w : String} (h : wordAt tokens i ≠ some w) :
    Passes (run tokens (n + 3) (.seq (.literal w :: ps))) i :=
  .inl (misses_seq (misses_literal h))

/-- A keyword without a bracket behind it is taken back. -/
theorem passes_keyword {w : String} (next : Results (run tokens n q) (i + 1) .unmatched (i + 1)) :
    Passes (run tokens (n + 3) (.seq (.literal w :: q :: ps))) i := by
  by_cases word : wordAt tokens i = some w
  · exact (breaks_second (results_literal word) next).passes (by simp [lookahead])
  · exact passes_row word

/-- Where no bracket stands, the options with brackets are passed. -/
theorem MatchesOption.without_brackets (here : wordAt tokens i ≠ some "(")
    (next : wordAt tokens (i + 1) ≠ some "(")
    (rest : MatchesOption tokens (n + 8) [.literal "true", .literal "false", .ident] i j ts) :
    Results (run tokens (n + 15) (.symbol .primary)) i (.matched [.node .primary i j ts]) j := by
  have group {m : Nat} {s : NonTerminal} {ps : List Pattern}
      (shape : body s = .seq (.literal "(" :: ps)) :
      Results (run tokens (m + 4) (.symbol s)) (i + 1) .unmatched (i + 1) := by
    apply misses_symbol
    rw [shape]
    exact misses_seq (misses_literal next)
  exact results_symbol (results_choice (((((rest.later
    (passes_keyword (group (s := .permute) rfl))).later
    (passes_keyword (group (s := .abort) rfl))).later (passes_keyword (misses_literal next))).later
    (passes_row here)).later (passes_row here)))

/-- An operand that contains shorter expressions is found if they are. -/
theorem Completes.primary (lexical : Lexical tokens) (h : Completes tokens length .union) :
    Completes tokens (length + 1) .primary := by
  intro i j ts derivation short stops n enough
  obtain ⟨us, shape, rfl⟩ := derivation.primary
  obtain ⟨progress, -⟩ := lexical.primary_starts shape
  have stops : wordAt tokens j ≠ some "(" := stops "(" (by decide)
  simp only [level] at enough
  obtain ⟨m, rfl⟩ : ∃ m, n = m + 15 := ⟨n - 15, by omega⟩
  cases shape with
  | empty opens closes =>
    exact results_symbol (results_choice (matchesOption_here
      (results_pair (results_literal opens) (results_literal closes))))
  | @group k arg opens argument closes =>
    have inside := argument.le
    have found : Results (run tokens (m + 8) (.symbol .union)) (i + 1) (.matched arg) k :=
      h argument (by omega) (stops_of_word closes (by decide)) (by simp only [level]; omega)
    -- the first option, the empty brackets, breaks off behind the bracket
    have other := misses_literal (n := m + 8) (lexical.starts_union argument).2
    have empty : Breaks (run tokens (m + 12) (.seq [.literal "(", .literal ")"])) i (i + 1) :=
      breaks_second (results_literal opens) other
    exact results_symbol (results_choice ((matchesOption_here (results_seq
      (MatchesRow.cons (results_literal opens) (MatchesRow.cons found
        (MatchesRow.cons (results_literal closes) matchesRow_nil))))).later
          (empty.passes (by simp [lookahead]))))
  | @prefixes k arg keyword opens argument closes =>
    have inside := argument.le
    have found : Results (run tokens (m + 6) (.symbol .union)) (i + 1 + 1) (.matched arg) k :=
      h argument (by omega) (stops_of_word closes (by decide)) (by simp only [level]; omega)
    have here : wordAt tokens i ≠ some "(" := by simp [keyword]
    exact results_symbol (results_choice (((matchesOption_here (results_seq
      (MatchesRow.cons (results_literal keyword) (MatchesRow.cons (results_literal opens)
        (MatchesRow.cons found (MatchesRow.cons (results_literal closes) matchesRow_nil)))))).later
          (passes_row here)).later (passes_row here)))
  | abort keyword args =>
    have here : wordAt tokens i ≠ some "(" := by simp [keyword]
    have partials : wordAt tokens i ≠ some "PARTIAL" := by simp [keyword]
    have found := h.results_abort (n := m + 6) args (by omega) (by omega)
    exact results_symbol (results_choice ((((matchesOption_here
      (results_pair (results_literal keyword) found)).later (passes_row partials)).later
        (passes_row here)).later (passes_row here)))
  | permute keyword args =>
    have here : wordAt tokens i ≠ some "(" := by simp [keyword]
    have partials : wordAt tokens i ≠ some "PARTIAL" := by simp [keyword]
    have aborts : wordAt tokens i ≠ some "ABORT" := by simp [keyword]
    have found := h.results_permute (n := m + 5) lexical args (by omega) (by omega)
    exact results_symbol (results_choice (((((matchesOption_here
      (results_pair (results_literal keyword) found)).later (passes_row aborts)).later
        (passes_row partials)).later (passes_row here)).later (passes_row here)))
  | @constant w found mem =>
    simp only [List.mem_cons, List.not_mem_nil, or_false] at mem
    rcases mem with rfl | rfl
    · exact (matchesOption_here (results_literal found)).without_brackets (by simp [found]) stops
    · have other : wordAt tokens i ≠ some "true" := by simp [found]
      exact ((matchesOption_here (results_literal found)).later
        (.inl (misses_literal other))).without_brackets (by simp [found]) stops
  | @name t found kind =>
    have word : wordAt tokens i = some t.text :=
      wordAt_eq_some_iff.mpr ⟨t, found, by simp [kind], rfl⟩
    have other : t.text ∉ punctuation := lexical i t found (by simp [kind])
    have here : wordAt tokens i ≠ some "(" := by
      intro opens
      rw [Option.some.inj (word.symm.trans opens)] at other
      exact other (by decide)
    have taken (m : Nat) : Results (run tokens (m + 1) .ident) i (.matched [.leaf i]) (i + 1) :=
      results_takeToken found (by simp [kind])
    -- the constants are words too, and they are tried before the names
    by_cases constant : wordAt tokens i = some "true"
    · exact (matchesOption_here (results_literal constant)).without_brackets here stops
    by_cases constant' : wordAt tokens i = some "false"
    · exact ((matchesOption_here (results_literal constant')).later
        (.inl (misses_literal constant))).without_brackets here stops
    · exact (((matchesOption_here (taken _)).later
        (.inl (misses_literal constant'))).later
          (.inl (misses_literal constant))).without_brackets here stops

/-- Repetitions stand directly behind their operand. -/
theorem Completes.repeated (lexical : Lexical tokens) (h : Completes tokens length .primary) :
    Completes tokens length .repeated := by
  intro i j ts derivation short stops n enough
  obtain ⟨us, below, rfl⟩ := derivation_symbol_iff.mp derivation
  obtain ⟨k, arg, marks, first, rest, rfl⟩ := derivation_cons_iff.mp below
  rw [derivation_single_iff] at rest
  have inside := first.le
  have beyond := rest.le
  simp only [level] at enough
  obtain ⟨m, rfl⟩ : ∃ m, n = m + 5 := ⟨n - 5, by omega⟩
  -- neither a repetition nor what follows the whole starts with the bracket of a group
  have behind : Stops tokens .primary k := by
    refine Derivation.star_induction (motive := fun k _ => Stops tokens .primary k)
      (fun w mem => stops w ?_) ?_ rest
    · simp only [continuers, List.mem_cons, List.not_mem_nil, or_false] at mem ⊢
      exact .inl mem
    · intro i k us vs mark _ _
      obtain ⟨-, opens | opens, -⟩ := results_repetition lexical mark (Nat.le_refl 16)
      · exact stops_of_word opens (by decide)
      · exact stops_of_word opens (by decide)
  have found : Results (run tokens (m + 2) (.symbol .primary)) i (.matched arg) k :=
    h first (by omega) behind (by simp only [level]; omega)
  have repetitions : Results (run tokens (m + 1) (.star (.symbol .repetition))) k
      (.matched marks) j := by
    refine results_star (m := 16) (fun mark => ?_) (fun n enough => ?_) rest (by omega)
    · obtain ⟨progress, -⟩ := results_repetition lexical mark (Nat.le_refl 16)
      exact ⟨progress, fun n enough => (results_repetition lexical mark enough).2.2⟩
    · exact .inl (misses_repetition stops (by omega))
  exact results_symbol (results_pair found repetitions)

/-- The marks before an operand are taken one after the other. -/
theorem Completes.unary (lexical : Lexical tokens) (h : Completes tokens length .repeated) :
    Completes tokens length .unary := by
  intro i j ts derivation short stops n enough
  obtain ⟨us, below, rfl⟩ := derivation_symbol_iff.mp derivation
  obtain ⟨k, marks, arg, first, last, rfl⟩ := derivation_cons_iff.mp below
  have operand := derivation_single_iff.mp last
  have inside := first.le
  have beyond := operand.le
  obtain ⟨-, w, word, other⟩ := lexical.repeated_starts operand
  simp only [List.mem_cons, List.not_mem_nil, or_false, not_or] at other
  simp only [level] at enough
  obtain ⟨m, rfl⟩ : ∃ m, n = m + 5 := ⟨n - 5, by omega⟩
  have signs : Results (run tokens (m + 2) (.star (.choice [.literal "!", .literal "~"]))) i
      (.matched marks) k := by
    refine results_star (m := 6) (fun mark => ?_) (fun n enough => .inl ?_) first (by omega)
    · obtain ⟨-, rfl, -⟩ := results_either mark (Nat.le_refl 4)
      exact ⟨Nat.lt_succ_self _, fun n enough => (results_either mark (by omega)).2.2⟩
    · refine misses_choice (m := 1) (fun p mem n hn => ?_) (by simp; omega)
      obtain ⟨n, rfl⟩ : ∃ n', n = n' + 1 := ⟨n - 1, by omega⟩
      simp only [List.mem_cons, List.not_mem_nil, or_false] at mem
      rcases mem with rfl | rfl
      · exact misses_literal (by simpa [word] using other.2.1)
      · exact misses_literal (by simpa [word] using other.2.2)
  have found : Results (run tokens (m + 1) (.symbol .repeated)) k (.matched arg) j :=
    h operand (by omega) stops (by simp only [level]; omega)
  exact results_symbol (results_pair signs found)

end

/-- Every derivation of an expression is found, if nothing follows that would make it longer. -/
theorem completes_union (lexical : Lexical tokens) (length : Nat) :
    Completes tokens length .union := by
  induction length with
  | zero =>
    intro i j ts derivation short
    have progress := (lexical.starts_union derivation).1
    omega
  | succ length ih =>
    have unary := ((ih.primary lexical).repeated lexical).unary lexical
    have conjunction : Completes tokens (length + 1) .conjunction :=
      unary.chain rfl (by decide) (by decide) (by decide) (by decide)
    have disjunction : Completes tokens (length + 1) .disjunction :=
      conjunction.chain rfl (by decide) (by decide) (by decide) (by decide)
    have fusion : Completes tokens (length + 1) .fusion :=
      disjunction.chain rfl (by decide) (by decide) (by decide) (by decide)
    have concatenation : Completes tokens (length + 1) .concatenation :=
      fusion.chain rfl (by decide) (by decide) (by decide) (by decide)
    have intersection : Completes tokens (length + 1) .intersection :=
      concatenation.chain rfl (by decide) (by decide) (by decide) (by decide)
    exact intersection.chain rfl (by decide) (by decide) (by decide) (by decide)

/-! ## Whole texts -/

section

variable {text : List Token}

theorem lexical_of_closed (h : Token.Closed text) : Lexical text.toArray := by
  obtain ⟨front, eof, rfl, -, end_text, proper⟩ := h
  intro i t found kind
  rw [List.getElem?_toArray] at found
  have mem := List.mem_of_getElem? found
  simp only [List.mem_append, List.mem_singleton] at mem
  rcases mem with mem | rfl
  · exact (proper t mem).distinct kind
  · rw [end_text]
    decide

/-- Something that ends at the end of the text takes every token before it. -/
theorem Derivation.position_eq (h : Token.Closed text) {p : Pattern}
    (derivation : Derivation text.toArray p 0 j ts) (stopped : atEnd text.toArray j = true) :
    j = text.length - 1 := by
  obtain ⟨front, eof, rfl, kind, -, proper⟩ := h
  obtain ⟨row, cut, length, derived⟩ := derivation.derives
  simp only [List.drop_zero, Nat.zero_add] at cut length
  have inside : j ≤ front.length := by
    refine Nat.le_of_not_lt fun outside => ?_
    have prefix_row : front ++ [eof] <+: row := by
      refine List.prefix_of_prefix_length_le (List.prefix_refl _) ⟨_, cut.symm⟩ ?_
      simp only [List.length_append, List.length_singleton]
      omega
    exact derived.not_eof eof (prefix_row.subset (by simp)) kind
  have outside : front.length ≤ j := by
    refine Nat.le_of_not_lt fun inside => ?_
    have found : (front ++ [eof]).toArray[j]? = some (front[j]) := by
      rw [List.getElem?_toArray, List.getElem?_append_left (by omega)]
      exact List.getElem?_eq_getElem (by omega)
    simp only [atEnd, found, beq_iff_eq] at stopped
    exact (proper _ (List.getElem_mem _)).not_eof stopped
  simp only [List.length_append, List.length_singleton]
  omega

theorem parse_eq_ok_iff_run {tree : Tree} : parse tokens = .ok tree ↔
    ∃ c, run tokens (depthBound tokens) (.symbol .union) ⟨0, none, 0⟩ = (.matched [tree], c) ∧
      atEnd tokens c.position = true := by
  unfold parse
  generalize run tokens (depthBound tokens) (.symbol .union) ⟨0, none, 0⟩ = result
  obtain ⟨o, c⟩ := result
  cases o with
  | unmatched => simp
  | raised e => simp
  | matched trees =>
    match trees with
    | [] => simp
    | [t] =>
      by_cases stopped : atEnd tokens c.position = true
      · simp only [stopped, if_true, Except.ok.injEq]
        exact ⟨fun same => ⟨c, same ▸ rfl, stopped⟩, fun ⟨_, same, _⟩ => by cases same; rfl⟩
      · simp [stopped]
    | _ :: _ :: _ => simp

/-- The parser answers with the trees that derive the whole text, and with no other. -/
theorem parse_eq_ok_iff (h : Token.Closed text) {tree : Tree} :
    parse text.toArray = .ok tree ↔
      Derivation text.toArray (.symbol .union) 0 (text.length - 1) [tree] := by
  rw [parse_eq_ok_iff_run]
  constructor
  · rintro ⟨c, found, stopped⟩
    have derivation := derivation_of_run found
    rwa [derivation.position_eq h stopped] at derivation
  · intro derivation
    have lexical := lexical_of_closed h
    obtain ⟨front, eof, rfl, kind, -, -⟩ := h
    simp only [List.length_append, List.length_singleton, Nat.add_sub_cancel] at derivation
    have last : (front ++ [eof]).toArray[front.length]? = some eof := by simp
    have stops : Stops (front ++ [eof]).toArray .union front.length := by
      intro w _ same
      simp only [wordAt, last, kind, if_true] at same
      cases same
    have enough : 64 * (front.length - 0) + level .union ≤ depthBound (front ++ [eof]).toArray := by
      simp only [level, depthBound, List.size_toArray, List.length_append, List.length_singleton]
      omega
    obtain ⟨c, found, position⟩ :=
      completes_union lexical front.length derivation (by omega) stops enough ⟨0, none, 0⟩ rfl
    exact ⟨c, found, by simp only [atEnd, position, last, kind, beq_self_eq_true]⟩

/-- The parser succeeds on the tokens of a text exactly if they can be derived from the grammar, and
    what it answers with is then the derivation, which takes each token in its turn. -/
theorem parse_ok_iff_derives {source : List Text.Glyph}
    (scanned : Token.tokenize source = .ok text) :
    ((∃ tree, parse text.toArray = .ok tree) ↔ Derives (.symbol .union) text.dropLast) ∧
      ∀ tree, parse text.toArray = .ok tree ↔
        Derivation text.toArray (.symbol .union) 0 text.dropLast.length [tree] ∧
          tree.leaves = List.range text.dropLast.length := by
  have closed := Token.closed_of_tokenize scanned
  have found (tree : Tree) : parse text.toArray = .ok tree ↔
      Derivation text.toArray (.symbol .union) 0 text.dropLast.length [tree] := by
    rw [parse_eq_ok_iff closed, List.length_dropLast]
  have stands : text.toArray.toList.drop 0 = text.dropLast ++ text.drop text.dropLast.length := by
    rw [List.drop_zero, List.length_dropLast, List.dropLast_eq_take]
    exact (List.take_append_drop _ _).symm
  refine ⟨⟨?_, ?_⟩, fun tree => ⟨fun parsed => ?_, fun h => (found tree).mpr h.1⟩⟩
  · rintro ⟨tree, parsed⟩
    obtain ⟨row, cut, length, derived⟩ := ((found tree).mp parsed).derives
    rw [Nat.zero_add] at length
    rw [stands] at cut
    rwa [List.append_inj_left cut length]
  · intro derives
    obtain ⟨ts, derivation⟩ := derives.exists_derivation stands
    obtain ⟨us, -, rfl⟩ := derivation_symbol_iff.mp derivation
    rw [Nat.zero_add] at derivation
    exact ⟨_, (found _).mpr derivation⟩
  · have derivation := (found tree).mp parsed
    have leaves := derivation.leaves_eq
    rw [Nat.sub_zero, ← List.range_eq_range'] at leaves
    exact ⟨derivation, by simpa [leavesOf] using leaves⟩

/-- A keyword as a name, and a keyword with an empty list behind it. -/
theorem parse_ok_iff_derives_keywords :
    ∃ text, Token.tokenize (Text.glyphsOfString "PARTIAL & PERMUTE()") = .ok text ∧
      (parse text.toArray).isOk = true ∧
      ((∃ tree, parse text.toArray = .ok tree) ↔ Derives (.symbol .union) text.dropLast) ∧
      ∀ tree, parse text.toArray = .ok tree ↔
        Derivation text.toArray (.symbol .union) 0 text.dropLast.length [tree] ∧
          tree.leaves = List.range text.dropLast.length := by
  have scanned : Token.tokenize (Text.glyphsOfString "PARTIAL & PERMUTE()") =
      .ok [⟨.ident, "PARTIAL", 0, 0⟩, ⟨.symbol, "&", 8, 7⟩, ⟨.ident, "PERMUTE", 10, 9⟩,
        ⟨.symbol, "(", 17, 17⟩, ⟨.symbol, ")", 18, 18⟩, ⟨.eof, "<EOF>", 19, 19⟩] := by rfl
  exact ⟨_, scanned, by decide +kernel, parse_ok_iff_derives scanned⟩

end

end Grammar

end TraceRegex
