import TraceRegex.Expression.Parser

/-! # Derivations

The patterns of the grammar are read as a context-free grammar in two ways: `Derives` says which
rows of tokens a pattern stands for, and `Derivation` says which trees over the tokens of a text
show it.  A pattern that the parser matches always comes with a derivation of the tokens taken.
-/

namespace TraceRegex

namespace Grammar

/-- The token is one that the pattern stands for by itself. -/
def Pattern.Fits : Pattern → Token → Prop
  | .literal text, t => t.kind ≠ .eof ∧ t.text = text
  | .int, t => t.kind = .int
  | .ident, t => t.kind = .ident
  | _, _ => False

/-- The row of tokens can be derived from the pattern. -/
inductive Derives : Pattern → List Token → Prop where
  | token {p : Pattern} {t : Token} (fits : p.Fits t) : Derives p [t]
  | symbol {s : NonTerminal} {ts : List Token} (h : Derives (body s) ts) : Derives (.symbol s) ts
  | nil : Derives (.seq []) []
  | cons {p : Pattern} {ps : List Pattern} {ts us : List Token} (first : Derives p ts)
      (rest : Derives (.seq ps) us) : Derives (.seq (p :: ps)) (ts ++ us)
  | choice {p : Pattern} {ps : List Pattern} {ts : List Token} (mem : p ∈ ps) (h : Derives p ts) :
      Derives (.choice ps) ts
  | stop {p : Pattern} : Derives (.star p) []
  | again {p : Pattern} {ts us : List Token} (first : Derives p ts) (rest : Derives (.star p) us) :
      Derives (.star p) (ts ++ us)
  | skip {p : Pattern} : Derives (.optional p) []
  | take {p : Pattern} {ts : List Token} (h : Derives p ts) : Derives (.optional p) ts

/-- The trees derive the tokens from the place `i` up to the place `j` from the pattern. -/
inductive Derivation (tokens : Array Token) : Pattern → Nat → Nat → List Tree → Prop where
  | token {p : Pattern} {t : Token} {i : Nat} (found : tokens[i]? = some t) (fits : p.Fits t) :
      Derivation tokens p i (i + 1) [.leaf i]
  | symbol {s : NonTerminal} {i j : Nat} {ts : List Tree} (h : Derivation tokens (body s) i j ts) :
      Derivation tokens (.symbol s) i j [.node s i j ts]
  | nil {i : Nat} : Derivation tokens (.seq []) i i []
  | cons {p : Pattern} {ps : List Pattern} {i j k : Nat} {ts us : List Tree}
      (first : Derivation tokens p i k ts) (rest : Derivation tokens (.seq ps) k j us) :
      Derivation tokens (.seq (p :: ps)) i j (ts ++ us)
  | choice {p : Pattern} {ps : List Pattern} {i j : Nat} {ts : List Tree} (mem : p ∈ ps)
      (h : Derivation tokens p i j ts) : Derivation tokens (.choice ps) i j ts
  | stop {p : Pattern} {i : Nat} : Derivation tokens (.star p) i i []
  | again {p : Pattern} {i j k : Nat} {ts us : List Tree} (first : Derivation tokens p i k ts)
      (rest : Derivation tokens (.star p) k j us) : Derivation tokens (.star p) i j (ts ++ us)
  | skip {p : Pattern} {i : Nat} : Derivation tokens (.optional p) i i []
  | take {p : Pattern} {i j : Nat} {ts : List Tree} (h : Derivation tokens p i j ts) :
      Derivation tokens (.optional p) i j ts

variable {tokens : Array Token} {p : Pattern} {ps : List Pattern} {i j : Nat} {ts : List Tree}

/-! ## Rows of tokens -/

/-- The trees of a derivation cover a row of tokens that can be derived. -/
theorem Derivation.derives (h : Derivation tokens p i j ts) :
    ∃ row, tokens.toList.drop i = row ++ tokens.toList.drop j ∧ j = i + row.length ∧
      Derives p row := by
  induction h with
  | @token p t i found fits =>
    rw [← Array.getElem?_toList, List.getElem?_eq_some_iff] at found
    obtain ⟨inside, found⟩ := found
    refine ⟨[t], ?_, rfl, .token fits⟩
    rw [List.drop_eq_getElem_cons inside, found]
    rfl
  | symbol h ih =>
    obtain ⟨row, cut, length, derived⟩ := ih
    exact ⟨row, cut, length, .symbol derived⟩
  | nil => exact ⟨[], rfl, rfl, .nil⟩
  | cons first rest ihFirst ihRest =>
    obtain ⟨row, cut, length, derived⟩ := ihFirst
    obtain ⟨row', cut', length', derived'⟩ := ihRest
    refine ⟨row ++ row', ?_, ?_, .cons derived derived'⟩
    · rw [cut, cut', List.append_assoc]
    · rw [length', length, List.length_append, Nat.add_assoc]
  | choice mem h ih =>
    obtain ⟨row, cut, length, derived⟩ := ih
    exact ⟨row, cut, length, .choice mem derived⟩
  | stop => exact ⟨[], rfl, rfl, .stop⟩
  | again first rest ihFirst ihRest =>
    obtain ⟨row, cut, length, derived⟩ := ihFirst
    obtain ⟨row', cut', length', derived'⟩ := ihRest
    refine ⟨row ++ row', ?_, ?_, .again derived derived'⟩
    · rw [cut, cut', List.append_assoc]
    · rw [length', length, List.length_append, Nat.add_assoc]
  | skip => exact ⟨[], rfl, rfl, .skip⟩
  | take h ih =>
    obtain ⟨row, cut, length, derived⟩ := ih
    exact ⟨row, cut, length, .take derived⟩

/-- What stands behind the first part of a row. -/
theorem drop_add_of_append {i : Nat} {row rest : List Token}
    (h : tokens.toList.drop i = row ++ rest) : tokens.toList.drop (i + row.length) = rest := by
  rw [← List.drop_drop, h, List.drop_left]

/-- A row that can be derived has trees wherever it stands. -/
theorem Derives.exists_derivation {row : List Token} (h : Derives p row) {i : Nat}
    {rest : List Token} (stands : tokens.toList.drop i = row ++ rest) :
    ∃ ts, Derivation tokens p i (i + row.length) ts := by
  induction h generalizing i rest with
  | @token p t fits =>
    have found : tokens[i]? = some t := by
      rw [← Array.getElem?_toList, ← List.head?_drop, stands]
      rfl
    exact ⟨_, .token found fits⟩
  | symbol h ih =>
    obtain ⟨ts, derivation⟩ := ih stands
    exact ⟨_, .symbol derivation⟩
  | nil => exact ⟨[], .nil⟩
  | cons first rest ihFirst ihRest =>
    rw [List.append_assoc] at stands
    obtain ⟨ts, derivation⟩ := ihFirst stands
    obtain ⟨us, derivation'⟩ := ihRest (drop_add_of_append stands)
    rw [List.length_append, ← Nat.add_assoc]
    exact ⟨_, .cons derivation derivation'⟩
  | choice mem h ih =>
    obtain ⟨ts, derivation⟩ := ih stands
    exact ⟨ts, .choice mem derivation⟩
  | stop => exact ⟨[], .stop⟩
  | again first rest ihFirst ihRest =>
    rw [List.append_assoc] at stands
    obtain ⟨ts, derivation⟩ := ihFirst stands
    obtain ⟨us, derivation'⟩ := ihRest (drop_add_of_append stands)
    rw [List.length_append, ← Nat.add_assoc]
    exact ⟨_, .again derivation derivation'⟩
  | skip => exact ⟨[], .skip⟩
  | take h ih =>
    obtain ⟨ts, derivation⟩ := ih stands
    exact ⟨ts, .take derivation⟩

/-- The end of a text is never part of what is derived. -/
theorem Derives.not_eof {row : List Token} (h : Derives p row) : ∀ t ∈ row, t.kind ≠ .eof := by
  induction h with
  | @token p t fits =>
    intro u mem
    cases List.mem_singleton.mp mem
    cases p with
    | literal text => exact fits.1
    | int | ident => simp [show t.kind = _ from fits]
    | symbol | seq | choice | star | optional => exact fits.elim
  | symbol h ih => exact ih
  | nil | stop | skip => simp
  | cons first rest ihFirst ihRest =>
    exact List.forall_mem_append.mpr ⟨ihFirst, ihRest⟩
  | choice mem h ih => exact ih
  | again first rest ihFirst ihRest =>
    exact List.forall_mem_append.mpr ⟨ihFirst, ihRest⟩
  | take h ih => exact ih

theorem Derivation.le (h : Derivation tokens p i j ts) : i ≤ j := by
  obtain ⟨row, -, length, -⟩ := h.derives
  omega

mutual

/-- The places of the tokens in a tree, from left to right. -/
def Tree.leaves : Tree → List Nat
  | .leaf i => [i]
  | .node _ _ _ children => leavesOf children

/-- The places of the tokens in a row of trees. -/
def leavesOf : List Tree → List Nat
  | [] => []
  | t :: ts => t.leaves ++ leavesOf ts

end

theorem leavesOf_append (ts us : List Tree) : leavesOf (ts ++ us) = leavesOf ts ++ leavesOf us := by
  induction ts with
  | nil => rfl
  | cons t ts ih => simp [leavesOf, ih]

/-- A derivation uses each of its tokens once, in order. -/
theorem Derivation.leaves_eq (h : Derivation tokens p i j ts) :
    leavesOf ts = List.range' i (j - i) := by
  have join {i j k : Nat} {ts us : List Tree} (first : i ≤ k) (rest : k ≤ j)
      (hts : leavesOf ts = List.range' i (k - i)) (hus : leavesOf us = List.range' k (j - k)) :
      leavesOf (ts ++ us) = List.range' i (j - i) := by
    rw [leavesOf_append, hts, hus, show j - i = (k - i) + (j - k) by omega,
      ← List.range'_append_1, show i + (k - i) = k by omega]
  induction h with
  | token found fits => simp [leavesOf, Tree.leaves]
  | symbol h ih => simpa [leavesOf, Tree.leaves] using ih
  | nil | stop | skip => simp [leavesOf]
  | cons first rest ihFirst ihRest => exact join first.le rest.le ihFirst ihRest
  | again first rest ihFirst ihRest => exact join first.le rest.le ihFirst ihRest
  | choice mem h ih => exact ih
  | take h ih => exact ih

/-! ## Taking derivations apart -/

theorem derivation_symbol_iff {s : NonTerminal} :
    Derivation tokens (.symbol s) i j ts ↔
      ∃ us, Derivation tokens (body s) i j us ∧ ts = [.node s i j us] := by
  constructor
  · intro h
    cases h with
    | token found fits => cases fits
    | symbol h => exact ⟨_, h, rfl⟩
  · rintro ⟨us, h, rfl⟩
    exact .symbol h

theorem derivation_nil_iff : Derivation tokens (.seq []) i j ts ↔ j = i ∧ ts = [] := by
  constructor
  · intro h
    cases h with
    | token found fits => cases fits
    | nil => exact ⟨rfl, rfl⟩
  · rintro ⟨rfl, rfl⟩
    exact .nil

theorem derivation_cons_iff :
    Derivation tokens (.seq (p :: ps)) i j ts ↔ ∃ k us vs, Derivation tokens p i k us ∧
      Derivation tokens (.seq ps) k j vs ∧ ts = us ++ vs := by
  constructor
  · intro h
    cases h with
    | token found fits => cases fits
    | cons first rest => exact ⟨_, _, _, first, rest, rfl⟩
  · rintro ⟨k, us, vs, first, rest, rfl⟩
    exact .cons first rest

theorem derivation_single_iff :
    Derivation tokens (.seq [p]) i j ts ↔ Derivation tokens p i j ts := by
  simp only [derivation_cons_iff, derivation_nil_iff]
  constructor
  · rintro ⟨k, us, vs, h, ⟨rfl, rfl⟩, rfl⟩
    rwa [List.append_nil]
  · intro h
    exact ⟨j, ts, [], h, ⟨rfl, rfl⟩, (List.append_nil ts).symm⟩

theorem derivation_choice_iff :
    Derivation tokens (.choice ps) i j ts ↔ ∃ p ∈ ps, Derivation tokens p i j ts := by
  constructor
  · intro h
    cases h with
    | token found fits => cases fits
    | choice mem h => exact ⟨_, mem, h⟩
  · rintro ⟨p, mem, h⟩
    exact .choice mem h

theorem derivation_optional_iff :
    Derivation tokens (.optional p) i j ts ↔
      (j = i ∧ ts = []) ∨ Derivation tokens p i j ts := by
  constructor
  · intro h
    cases h with
    | token found fits => cases fits
    | skip => exact .inl ⟨rfl, rfl⟩
    | take h => exact .inr h
  · rintro (⟨rfl, rfl⟩ | h)
    · exact .skip
    · exact .take h

/-- The derivations of a repetition, from its end. -/
theorem Derivation.star_induction {motive : Nat → List Tree → Prop} (stop : motive j [])
    (again : ∀ {i k : Nat} {us vs : List Tree}, Derivation tokens p i k us →
      Derivation tokens (.star p) k j vs → motive k vs → motive i (us ++ vs))
    (h : Derivation tokens (.star p) i j ts) : motive i ts := by
  generalize pattern : Pattern.star p = q at h
  induction h with
  | token found fits =>
    subst pattern
    cases fits
  | stop => exact stop
  | again first rest _ ih =>
    cases pattern
    exact again first rest (ih stop again rfl)
  | symbol | nil | cons | choice | skip | take => cases pattern

/-! ## What the parser matches -/

namespace Cursor

variable (c attempt : Cursor) (e : Mismatch)

@[simp]
theorem position_accept : (c.accept attempt).position = attempt.position := by
  unfold accept
  split <;> rfl

@[simp]
theorem position_note : (c.note e).position = c.position := by
  unfold note
  split <;> rfl

@[simp]
theorem position_noteAttempt : (c.noteAttempt e attempt).position = c.position := by
  unfold noteAttempt
  split <;> rfl

end Cursor

/-- What an attempt from the place `i` says about the tokens, if it goes on from the trees `before`:
    a match has a derivation, and without one nothing was taken. -/
def Explains (tokens : Array Token) (before : List Tree) (p : Pattern) (i : Nat) :
    Outcome × Cursor → Prop
  | (.matched ts, c) => ∃ us, ts = before ++ us ∧ Derivation tokens p i c.position us
  | (.unmatched, c) => c.position = i
  | (.raised _, _) => True

/-- All attempts with `n` steps to go are sound. -/
structure SoundWithin (tokens : Array Token) (n : Nat) : Prop where
  one : ∀ p c, Explains tokens [] p c.position (run tokens n p c)
  items : ∀ atHead before ps c,
    Explains tokens before (.seq ps) c.position (runItems tokens n atHead before ps c)
  options : ∀ furthest reach ps c,
    Explains tokens [] (.choice ps) c.position (runOptions tokens n furthest reach ps c)
  many : ∀ p before c,
    Explains tokens before (.star p) c.position (runMany tokens n p false before c)
  once : ∀ p before c,
    Explains tokens before (.optional p) c.position (runMany tokens n p true before c)

theorem explains_takeToken {test : Token → Bool} (fits : ∀ t, test t = true → p.Fits t)
    (c : Cursor) : Explains tokens [] p c.position (takeToken tokens test c) := by
  unfold takeToken
  split
  next t found =>
    split
    next passed => exact ⟨_, rfl, .token found (fits t passed)⟩
    next => rfl
  next => rfl

variable {n : Nat}

theorem SoundWithin.explains_run (h : SoundWithin tokens n) (p : Pattern) (c : Cursor) :
    Explains tokens [] p c.position (run tokens (n + 1) p c) := by
  cases p with
  | literal text => exact explains_takeToken (by simp [Pattern.Fits]) c
  | int => exact explains_takeToken (by simp [Pattern.Fits]) c
  | ident => exact explains_takeToken (by simp [Pattern.Fits]) c
  | symbol s =>
    have sound := h.one (body s) c
    rw [run]
    split
    next ts c' result =>
      rw [result] at sound
      obtain ⟨us, rfl, derivation⟩ := sound
      exact ⟨_, rfl, .symbol derivation⟩
    next c' result =>
      rw [result] at sound
      exact sound
    next => trivial
  | seq items => exact h.items true [] items c
  | choice options => exact h.options none 0 options c
  | star p => exact h.many p [] c
  | optional p => exact h.once p [] c

/-- Behind the head, a pattern that does not match is an error. -/
theorem runItems_ne_unmatched (n : Nat) (before : List Tree) (ps : List Pattern) (c c' : Cursor) :
    runItems tokens n false before ps c ≠ (.unmatched, c') := by
  induction n generalizing before ps c with
  | zero => simp [runItems]
  | succ n ih =>
    cases ps with
    | nil => simp [runItems]
    | cons p ps =>
      rw [runItems]
      split
      · exact ih _ _ _
      · simp
      · simp

theorem SoundWithin.explains_runItems (h : SoundWithin tokens n) (atHead : Bool)
    (before : List Tree) (ps : List Pattern) (c : Cursor) :
    Explains tokens before (.seq ps) c.position (runItems tokens (n + 1) atHead before ps c) := by
  cases ps with
  | nil => exact ⟨[], by simp, .nil⟩
  | cons p ps =>
    have sound := h.one p c
    rw [runItems]
    split
    next ts c' result =>
      rw [result] at sound
      obtain ⟨us, same, first⟩ := sound
      have rest := h.items false (before ++ ts) ps c'
      -- the trees of the later items are put behind those of the first one
      cases later : runItems tokens n false (before ++ ts) ps c' with
      | mk o c'' =>
        rw [later] at rest
        cases o with
        | matched all =>
          obtain ⟨vs, rfl, derivation⟩ := rest
          exact ⟨us ++ vs, by simp [same], .cons first derivation⟩
        | unmatched => exact absurd later (runItems_ne_unmatched n _ ps c' c'')
        | raised e => trivial
    next c' result =>
      rw [result] at sound
      split
      · exact sound
      · trivial
    next => trivial

theorem SoundWithin.explains_runOptions (h : SoundWithin tokens n) (furthest : Option Mismatch)
    (reach : Nat) (ps : List Pattern) (c : Cursor) :
    Explains tokens [] (.choice ps) c.position
      (runOptions tokens (n + 1) furthest reach ps c) := by
  -- a later option is also one of all options
  have later {p : Pattern} {ps : List Pattern} {i : Nat} {result : Outcome × Cursor}
      (sound : Explains tokens [] (.choice ps) i result) :
      Explains tokens [] (.choice (p :: ps)) i result := by
    obtain ⟨o, c'⟩ := result
    cases o with
    | matched ts =>
      obtain ⟨us, same, derivation⟩ := sound
      obtain ⟨q, mem, derivation⟩ := derivation_choice_iff.mp derivation
      exact ⟨us, same, .choice (List.mem_cons_of_mem _ mem) derivation⟩
    | unmatched => exact sound
    | raised e => trivial
  cases ps with
  | nil =>
    cases furthest with
    | none => rfl
    | some e => trivial
  | cons p ps =>
    have sound := h.one p c
    rw [runOptions]
    split
    next ts c' result =>
      rw [result] at sound
      obtain ⟨us, same, derivation⟩ := sound
      refine ⟨us, same, ?_⟩
      rw [Cursor.position_accept]
      exact .choice List.mem_cons_self derivation
    next => exact later (h.options furthest reach ps c)
    next e c' result =>
      have rest (furthest : Option Mismatch) (reach : Nat) :=
        h.options furthest reach ps (c.noteAttempt e c')
      rw [Cursor.position_noteAttempt] at rest
      dsimp only
      split
      · trivial
      · split
        · exact later (rest _ _)
        · exact later (rest _ _)

/-- A repetition always matches, if only nothing, or breaks off. -/
theorem runMany_ne_unmatched (n : Nat) (p : Pattern) (once : Bool) (before : List Tree)
    (c c' : Cursor) : runMany tokens n p once before c ≠ (.unmatched, c') := by
  induction n generalizing before c with
  | zero => simp [runMany]
  | succ n ih =>
    rw [runMany]
    split
    · split
      · simp
      · exact ih _ _
    · simp
    · dsimp only
      split <;> simp

theorem SoundWithin.explains_many (h : SoundWithin tokens n) (p : Pattern) (before : List Tree)
    (c : Cursor) :
    Explains tokens before (.star p) c.position (runMany tokens (n + 1) p false before c) := by
  have sound := h.one p c
  rw [runMany]
  split
  next ts c' result =>
    rw [result] at sound
    obtain ⟨us, same, first⟩ := sound
    have rest := h.many p (before ++ ts) (c.accept c')
    rw [Cursor.position_accept] at rest
    rw [if_neg Bool.false_ne_true]
    cases later : runMany tokens n p false (before ++ ts) (c.accept c') with
    | mk o c'' =>
      rw [later] at rest
      cases o with
      | matched all =>
        obtain ⟨vs, rfl, derivation⟩ := rest
        exact ⟨us ++ vs, by simp [same], .again first derivation⟩
      | unmatched => exact absurd later (runMany_ne_unmatched n p false _ _ c'')
      | raised e => trivial
  next c' result =>
    rw [result] at sound
    refine ⟨[], by simp, ?_⟩
    rw [Cursor.position_accept, show c'.position = c.position from sound]
    exact .stop
  next e c' result =>
    dsimp only
    split
    · trivial
    · exact ⟨[], by simp, by simpa using .stop⟩

theorem SoundWithin.explains_once (h : SoundWithin tokens n) (p : Pattern) (before : List Tree)
    (c : Cursor) :
    Explains tokens before (.optional p) c.position (runMany tokens (n + 1) p true before c) := by
  have sound := h.one p c
  rw [runMany]
  split
  next ts c' result =>
    rw [result] at sound
    obtain ⟨us, same, derivation⟩ := sound
    exact ⟨us, by simp [same], by simpa using .take derivation⟩
  next c' result =>
    rw [result] at sound
    refine ⟨[], by simp, ?_⟩
    rw [Cursor.position_accept, show c'.position = c.position from sound]
    exact .skip
  next e c' result =>
    dsimp only
    split
    · trivial
    · exact ⟨[], by simp, by simpa using .skip⟩

theorem soundWithin (tokens : Array Token) (n : Nat) : SoundWithin tokens n := by
  induction n with
  | zero =>
    -- without steps left, everything breaks off
    constructor <;> intros <;> simp [run, runItems, runOptions, runMany, Explains]
  | succ n ih =>
    exact ⟨ih.explains_run, ih.explains_runItems, ih.explains_runOptions, ih.explains_many,
      ih.explains_once⟩

/-- A pattern that was matched has a derivation, whatever the number of steps and the errors seen so
    far. -/
theorem derivation_of_run {c c' : Cursor} (h : run tokens n p c = (.matched ts, c')) :
    Derivation tokens p c.position c'.position ts := by
  have sound := (soundWithin tokens n).one p c
  rw [h] at sound
  obtain ⟨us, rfl, derivation⟩ := sound
  exact derivation

end Grammar

end TraceRegex
