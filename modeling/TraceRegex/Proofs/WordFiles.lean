import TraceRegex.Proofs.AtomNumbering
import TraceRegex.Words.File

/-! # Reading back word files

A word is written on one line, since JSON escapes line feeds, and the line ends with a bracket, so
nothing is trimmed off it.  An atom is written by its name or, if it has none, by its number.  Which of
the two a text is can be told when it is read: the names of an expression are different words, and a
word does not start with a digit.
-/

namespace TraceRegex

/-! ## Words of an expression -/

namespace Token

theorem isDigit_of_startsWord {c : Char} (h : startsWord c = true) : c.isDigit = false := by
  have ranges : (65 ≤ c.val.toNat ∧ c.val.toNat ≤ 90 ∨ 97 ≤ c.val.toNat ∧ c.val.toNat ≤ 122) ∨
      c = '_' := by
    rcases Bool.or_eq_true_iff.mp h with letter | underscore
    · refine .inl ((Bool.or_eq_true_iff.mp letter).imp (fun upper => ?_) fun lower => ?_)
      · exact of_decide_eq_true upper
      · exact (Bool.and_eq_true_iff.mp lower).imp of_decide_eq_true of_decide_eq_true
    · exact .inr (beq_iff_eq.mp underscore)
  refine Bool.eq_false_iff.mpr fun digit => ?_
  have upper : c.val.toNat ≤ 57 := of_decide_eq_true (Bool.and_eq_true_iff.mp digit).2
  rcases ranges with ranges | rfl
  · omega
  · exact absurd upper (by decide)

/-- If the token is a word, then it starts as words do. -/
def Lettered (t : Token) : Prop :=
  t.kind = .ident → ∃ c rest, t.text = String.ofList (c :: rest) ∧ startsWord c = true

theorem lettered_of_kind {t : Token} (h : t.kind ≠ .ident) : t.Lettered := fun same => absurd same h

theorem Pending.lettered_of_extend? {p : Pending} (h : ∀ t ∈ p.token?, t.Lettered) {c : Char} :
    (∀ p', p.extend? c = some (.inl p') → ∀ t ∈ p'.token?, t.Lettered) ∧
      ∀ t, p.extend? c = some (.inr t) → t.Lettered := by
  cases p with
  | nothing => simp [extend?]
  | digits chars offset edge =>
    refine ⟨fun p' added => ?_, fun t added => ?_⟩
    all_goals simp only [extend?, Option.ite_none_right_eq_some, Option.some.injEq, reduceCtorEq,
      and_false, Sum.inl.injEq] at added
    obtain ⟨-, rfl⟩ := added
    rintro t ⟨⟩
    exact lettered_of_kind (by simp)
  | word chars offset edge =>
    refine ⟨fun p' added => ?_, fun t added => ?_⟩
    all_goals simp only [extend?, Option.ite_none_right_eq_some, Option.some.injEq, reduceCtorEq,
      and_false, Sum.inl.injEq] at added
    obtain ⟨-, rfl⟩ := added
    obtain ⟨first, rest, text, starts⟩ := h _ rfl rfl
    rintro t ⟨⟩ -
    refine ⟨first, rest ++ [c], ?_, starts⟩
    rw [List.reverse_cons, String.ofList_inj.mp text]
    rfl
  | single d offset edge =>
    refine ⟨fun p' added => ?_, fun t added => ?_⟩
    all_goals simp only [extend?, Option.ite_none_right_eq_some, Option.some.injEq, reduceCtorEq,
      and_false, Sum.inr.injEq] at added
    obtain ⟨-, rfl⟩ := added
    exact lettered_of_kind (by simp)

theorem lettered_of_start? {c : Char} {offset edge : Nat} {p : Pending} {found : List Token}
    (started : start? c offset edge = some (p, found)) :
    (∀ t ∈ p.token?, t.Lettered) ∧ ∀ t ∈ found, t.Lettered := by
  simp only [start?] at started
  split at started
  next =>
    cases started
    refine ⟨?_, by simp⟩
    rintro t ⟨⟩
    exact lettered_of_kind (by simp)
  split at started
  next starts =>
    cases started
    refine ⟨?_, by simp⟩
    rintro t ⟨⟩ -
    exact ⟨c, [], rfl, starts⟩
  split at started
  next =>
    cases started
    refine ⟨?_, by simp⟩
    rintro t ⟨⟩
    exact lettered_of_kind (by simp)
  split at started
  next =>
    cases started
    exact ⟨by simp [Pending.token?], List.forall_mem_singleton.mpr (lettered_of_kind (by simp))⟩
  split at started
  next =>
    cases started
    exact ⟨by simp [Pending.token?], by simp⟩
  next => cases started

/-- All words that the scanner has found or is in the middle of start as words do. -/
structure Scan.Lettered (s : Scan) : Prop where
  found : ∀ t ∈ s.found, t.Lettered
  pending : ∀ t ∈ s.pending.token?, t.Lettered

theorem Scan.Lettered.step {s s' : Scan} {g : Text.Glyph} (h : s.Lettered)
    (stepped : step? s g = some s') : s'.Lettered := by
  simp only [step?] at stepped
  split at stepped
  next p added =>
    cases stepped
    exact ⟨h.found, (Pending.lettered_of_extend? h.pending).1 p added⟩
  next t added =>
    cases stepped
    have added := (Pending.lettered_of_extend? h.pending).2 t added
    exact ⟨List.forall_mem_cons.mpr ⟨added, h.found⟩, by simp [Pending.token?]⟩
  next =>
    obtain ⟨⟨p, found⟩, started, rfl⟩ := Option.map_eq_some_iff.mp stepped
    obtain ⟨pending, new⟩ := lettered_of_start? started
    refine ⟨?_, pending⟩
    rw [List.forall_mem_append, List.forall_mem_append]
    exact ⟨⟨new, fun t mem => h.pending t (Option.mem_toList.mp mem)⟩, h.found⟩

theorem Scan.Lettered.scan {s : Scan} (h : s.Lettered) {source : List Text.Glyph}
    {tokens : List Token} (scanned : Token.scan s source = .ok tokens) :
    ∀ t ∈ tokens, t.Lettered := by
  induction source generalizing s with
  | nil =>
    cases scanned
    intro t mem
    rw [List.mem_reverse, List.mem_cons, List.mem_append] at mem
    rcases mem with rfl | mem | mem
    · exact lettered_of_kind (by simp)
    · exact h.pending t (Option.mem_toList.mp mem)
    · exact h.found t mem
  | cons g source ih =>
    rw [Token.scan] at scanned
    split at scanned
    next s' stepped => exact ih (h.step stepped) scanned
    next => cases scanned

theorem lettered_of_tokenize {source : List Text.Glyph} {tokens : List Token}
    (h : tokenize source = .ok tokens) : ∀ t ∈ tokens, t.Lettered := by
  have start : Scan.Lettered ⟨[], .nothing, 0, 0⟩ := ⟨by simp, by simp [Pending.token?]⟩
  exact start.scan h

end Token

namespace Grammar

variable {tokens : Array Token}

namespace Tree

theorem mem_identifiersOf {ts : List Tree} {name : String} :
    name ∈ identifiersOf tokens ts ↔ ∃ t ∈ ts, name ∈ t.identifiers tokens := by
  induction ts with
  | nil => simp [identifiersOf]
  | cons t ts ih => simp [identifiersOf, ih]

/-- An identifier of a node is its only token, or it is an identifier further down. -/
theorem mem_identifiers_node {s : NonTerminal} {first next : Nat} {children : List Tree}
    {name : String} (mem : name ∈ (node s first next children).identifiers tokens) :
    (∃ i, s = .primary ∧ children = [.leaf i] ∧ name = (tokenAt tokens i).text ∧
      name ∉ ["true", "false"]) ∨ ∃ t ∈ children, name ∈ t.identifiers tokens := by
  unfold identifiers at mem
  split at mem
  next => cases mem
  next i same =>
    cases same
    dsimp only at mem
    split at mem
    next => cases mem
    next other =>
      refine .inl ⟨i, rfl, rfl, List.mem_singleton.mp mem, ?_⟩
      rw [List.mem_singleton.mp mem]
      simpa [not_or] using other
  next arg reps same =>
    cases same
    split at mem
    next => cases mem
    next => exact .inr ⟨arg, List.mem_cons_self, mem⟩
  next same =>
    cases same
    exact .inr (mem_identifiersOf.mp mem)

end Tree

/-- A token by itself is a constant or a word. -/
theorem Primary.of_leaf {i j k : Nat} {us : List Tree} (h : Primary tokens i j us)
    (single : us = [.leaf k]) :
    k = i ∧ ((∃ w ∈ ["true", "false"], wordAt tokens i = some w) ∨
      ∃ t, tokens[i]? = some t ∧ t.kind = .ident) := by
  have not_symbol {s : NonTerminal} {i j : Nat} (args : Derivation tokens (.symbol s) i j []) :
      False := by
    obtain ⟨_, -, same⟩ := derivation_symbol_iff.mp args
    cases same
  cases h with
  | empty opens closes => cases single
  | group opens arg closes => simp at single
  | prefixes keyword opens arg closes => cases single
  | abort keyword args =>
    cases single
    exact (not_symbol args).elim
  | permute keyword args =>
    cases single
    exact (not_symbol args).elim
  | constant found mem =>
    cases single
    exact ⟨rfl, .inl ⟨_, mem, found⟩⟩
  | name found kind =>
    cases single
    exact ⟨rfl, .inr ⟨_, found, kind⟩⟩

/-- The name is the text of a word among the tokens. -/
def Names (tokens : Array Token) (name : String) : Prop :=
  ∃ t ∈ tokens, t.kind = .ident ∧ t.text = name

/-- Every identifier of a derivation is the text of a word. -/
theorem Derivation.names {p : Pattern} {i j : Nat} {ts : List Tree}
    (h : Derivation tokens p i j ts) :
    ∀ t ∈ ts, ∀ name ∈ t.identifiers tokens, Names tokens name := by
  induction h with
  | token found fits => simp [Tree.identifiers]
  | @symbol s i j children h ih =>
    refine List.forall_mem_singleton.mpr fun name mem => ?_
    rcases Tree.mem_identifiers_node mem with ⟨k, rfl, single, said, other⟩ | ⟨t, below, mem⟩
    · -- constants are words of their own, and they are no identifiers
      obtain ⟨us, primary, same⟩ := Derivation.primary (.symbol h)
      cases same
      obtain ⟨rfl, ⟨w, constant, found⟩ | ⟨t, found, kind⟩⟩ := primary.of_leaf single
      · obtain ⟨t, there, -, rfl⟩ := wordAt_eq_some_iff.mp found
        rw [said, tokenAt, Array.getD_eq_getD_getElem?, there] at other
        exact absurd constant other
      · refine ⟨t, Array.mem_of_getElem? found, kind, ?_⟩
        rw [said, tokenAt, Array.getD_eq_getD_getElem?, found]
        rfl
    · exact ih t below name mem
  | nil | stop | skip => simp
  | cons _ _ ihFirst ihRest | again _ _ ihFirst ihRest =>
    exact List.forall_mem_append.mpr ⟨ihFirst, ihRest⟩
  | choice _ _ ih | take _ ih => exact ih

end Grammar

/-- The names are different words. -/
structure Alphabet (names : List String) : Prop where
  distinct : names.Nodup
  words : ∀ name ∈ names, ∃ c rest, name = String.ofList (c :: rest) ∧ Token.startsWord c = true

theorem Expression.alphabet_of_parse {source : List Text.Glyph} {e : Expression}
    {names : List String} (parsed : parse source = .ok (e, names)) : Alphabet names := by
  obtain ⟨text, tree, scanned, derived, once, -⟩ := names_of_parse parsed
  refine ⟨once ▸ nodup_eraseDups _, fun name mem => ?_⟩
  rw [once, List.mem_eraseDups] at mem
  have derivation := (Grammar.parse_eq_ok_iff (Token.closed_of_tokenize scanned)).mp derived
  obtain ⟨t, found, kind, rfl⟩ := derivation.names tree List.mem_cons_self name mem
  exact Token.lettered_of_tokenize scanned t (List.mem_toArray.mp found) kind

/-! ## Letters -/

theorem mapM_map_eq_ok {α β ε : Type} {write : α → β} {read : β → Except ε α} {xs : List α}
    (h : ∀ x ∈ xs, read (write x) = .ok x) : (xs.map write).mapM read = .ok xs := by
  induction xs with
  | nil => rfl
  | cons x xs ih =>
    obtain ⟨first, later⟩ := List.forall_mem_cons.mp h
    rw [List.map_cons, List.mapM_cons, first, ih later]
    rfl

namespace Letter

variable {names : List String}

theorem number?_toString {i : Nat} (small : i ≤ maxNumber) : number? (toString i) = some i := by
  have value : Json.natOfLiteral? (toString i) = some i :=
    (Json.reads_nat i).1 (Nat.le_trans small (by decide))
  have nonempty : (toString i).isEmpty = false := by
    rw [Nat.toString_eq_ofList_toDigits, String.isEmpty_eq_false_iff, ne_eq, String.ofList_eq_empty_iff]
    exact Nat.toDigits_ne_nil
  simp only [number?, nonempty, value]
  exact if_pos small

/-- A number is no name, since it starts with a digit. -/
theorem toString_not_mem (h : Alphabet names) (i : Nat) : toString i ∉ names := by
  intro mem
  obtain ⟨c, rest, spelled, starts⟩ := h.words _ mem
  rw [Nat.toString_eq_ofList_toDigits] at spelled
  have digit : c.isDigit = true := by
    refine Json.isDigit_of_mem_toDigits (n := i) ?_
    rw [String.ofList_inj.mp spelled]
    exact List.mem_cons_self
  rw [Token.isDigit_of_startsWord starts] at digit
  cases digit

theorem atomOf_atomText (h : Alphabet names) {i : Nat} (small : i ≤ maxNumber) :
    atomOf names (atomText names i) = .ok i := by
  unfold atomOf atomText
  by_cases named : i < names.length
  · have found : names.idxOf? (names.getD i (toString i)) = some i := by
      rw [List.getD_eq_getElem?_getD, List.getElem?_eq_getElem named, Option.getD_some,
        List.idxOf?_eq_some_iff]
      refine ⟨named, rfl, fun j earlier same => ?_⟩
      exact absurd (h.distinct.getElem_inj_iff.mp same) (Nat.ne_of_lt earlier)
    rw [found]
  · -- names are looked up first, so the number must not be one
    have unnamed : names.getD i (toString i) = toString i := by
      rw [List.getD_eq_getElem?_getD, List.getElem?_eq_none (Nat.not_lt.mp named), Option.getD_none]
    rw [unnamed, List.idxOf?_eq_none_iff.mpr (toString_not_mem h i), number?_toString small]

theorem ofList_atoms (l : Letter) : ofList l.atoms = l := ext_holds fun i => holds_ofList l.atoms i

theorem ofTexts_toTexts (h : Alphabet names) {l : Letter} (small : ∀ i ∈ l.atoms, i ≤ maxNumber) :
    ofTexts names (l.toTexts names) = .ok l := by
  unfold ofTexts toTexts
  rw [mapM_map_eq_ok fun i hi => atomOf_atomText h (small i hi)]
  exact congrArg Except.ok (ofList_atoms l)

end Letter

/-! ## JSON on one line -/

namespace Json

/-- No character is a control character. -/
def Printable (text : List Char) : Prop := ∀ c ∈ text, 32 ≤ c.toNat

theorem Printable.append {text text' : List Char} (h : Printable text) (h' : Printable text') :
    Printable (text ++ text') :=
  List.forall_mem_append.mpr ⟨h, h'⟩

theorem Printable.intercalate {separator : List Char} (between : Printable separator)
    {texts : List (List Char)} (h : ∀ text ∈ texts, Printable text) :
    Printable (separator.intercalate texts) := by
  induction texts with
  | nil => exact nofun
  | cons text texts ih =>
    obtain ⟨first, later⟩ := List.forall_mem_cons.mp h
    cases texts with
    | nil => rwa [List.intercalate_singleton]
    | cons next texts =>
      rw [List.intercalate_cons_cons]
      exact (first.append between).append (ih later)

theorem printable_digitChar {d : Nat} (h : d < 16) : 32 ≤ d.digitChar.toNat := by
  have all : ∀ d < 16, 32 ≤ d.digitChar.toNat := by decide
  exact all d h

theorem printable_hex_four {n : Nat} (h : n < 65536) : Printable (Text.hex 4 n).toList := by
  rw [toList_hex_four h]
  simp only [Printable, List.forall_mem_cons]
  exact ⟨printable_digitChar (by omega), printable_digitChar (by omega),
    printable_digitChar (by omega), printable_digitChar (by omega), nofun⟩

theorem printable_of_all {text : List Char} (h : text.all (fun c => decide (32 ≤ c.toNat)) = true) :
    Printable text :=
  fun c hc => of_decide_eq_true (List.all_eq_true.mp h c hc)

theorem printable_escapeChar (c : Char) : Printable (escapeChar c).toList := by
  unfold escapeChar
  -- the first seven branches write a backslash and one more character
  iterate 7
    split
    next => exact printable_of_all rfl
  split
  next h =>
    have low : c.toNat < 65536 := by
      rcases h with h | rfl | rfl | rfl | h | h
      · omega
      · decide
      · decide
      · decide
      · omega
      · omega
    rw [String.toList_append]
    exact (printable_of_all rfl).append (printable_hex_four low)
  next plain =>
    rw [show c.toString.toList = [c] from String.toList_singleton c]
    exact List.forall_mem_singleton.mpr (Nat.not_lt.mp fun low => plain (.inl low))

theorem printable_quote (s : String) : Printable (quote s).toList := by
  have inside : Printable (String.join (s.toList.map escapeChar)).toList := by
    intro c hc
    rw [String.toList_join, List.mem_flatMap] at hc
    obtain ⟨text, mem, hc⟩ := hc
    obtain ⟨d, -, rfl⟩ := List.mem_map.mp mem
    exact printable_escapeChar d c hc
  unfold quote
  rw [String.toList_append, String.toList_append]
  exact ((printable_of_all rfl).append inside).append (printable_of_all rfl)

theorem Value.Natural.printable_compact {v : Value} (h : v.Natural) :
    Printable v.compact.toList := by
  induction h with
  | null => exact printable_of_all rfl
  | bool b => cases b <;> exact printable_of_all rfl
  | number n =>
    show Printable (toString n).toList
    rw [Nat.toString_eq_ofList_toDigits, String.toList_ofList]
    intro c hc
    have digit := Char.isDigit_iff_toNat.mp (isDigit_of_mem_toDigits hc)
    exact Nat.le_trans (by decide) digit.1
  | string s => exact printable_quote s
  | @array items _ ih =>
    rw [Value.compact, compactItems_eq, String.toList_append, String.toList_append,
      String.toList_intercalate, List.map_map]
    refine ((printable_of_all rfl).append (.intercalate (printable_of_all rfl) ?_)).append
      (printable_of_all rfl)
    exact List.forall_mem_map.mpr ih
  | @object members _ ih =>
    rw [Value.compact, compactMembers_eq, String.toList_append, String.toList_append,
      String.toList_intercalate, List.map_map]
    refine ((printable_of_all rfl).append (.intercalate (printable_of_all rfl) ?_)).append
      (printable_of_all rfl)
    refine List.forall_mem_map.mpr fun m hm => ?_
    rw [Function.comp_apply, String.toList_append, String.toList_append]
    exact ((printable_quote m.1).append (printable_of_all rfl)).append (ih m hm)

end Json

/-! ## Lines -/

namespace Text

theorem le_of_mem_utf8EncodeChar {c : Char} (h : 32 ≤ c.toNat) :
    ∀ b ∈ String.utf8EncodeChar c, 32 ≤ b.toNat := by
  have value {m : Nat} (hm : m < 256) : (UInt8.ofNat m).toNat = m := UInt8.toNat_ofNat_of_lt' hm
  have code : c.val.toNat = c.toNat := rfl
  fun_cases String.utf8EncodeChar c with
  | case1 v one =>
    refine List.forall_mem_singleton.mpr ?_
    rw [value (by omega)]
    exact h
  | case2 v many two =>
    simp only [List.forall_mem_cons]
    rw [value (by omega), value (by omega)]
    exact ⟨by omega, by omega, nofun⟩
  | case3 v many more three =>
    simp only [List.forall_mem_cons]
    rw [value (by omega), value (by omega), value (by omega)]
    exact ⟨by omega, by omega, by omega, nofun⟩
  | case4 v many more most =>
    simp only [List.forall_mem_cons]
    rw [value (by omega), value (by omega), value (by omega), value (by omega)]
    exact ⟨by omega, by omega, by omega, by omega, nofun⟩

/-- A line in front of further bytes. -/
theorem linesFrom_line (found : List (List UInt8)) {line : List UInt8} (one : 10 ∉ line)
    (current : List UInt8) (length : Nat) (short : length + line.length < maxLineLength)
    (rest : List UInt8) :
    linesFrom found current length (line ++ 10 :: rest) =
      linesFrom (finishLine (line.reverse ++ current) :: found) [] 0 rest := by
  induction line generalizing current length with
  | nil =>
    rw [List.nil_append, linesFrom, if_pos rfl, if_neg (by simpa using short)]
    rfl
  | cons b line ih =>
    rw [List.mem_cons, not_or] at one
    rw [List.length_cons] at short
    rw [List.cons_append, linesFrom, if_neg (Ne.symm one.1), ih one.2 _ _ (by omega),
      List.reverse_cons, List.append_assoc]
    rfl

/-- The bytes stand on one line of their own, and nothing is dropped at its end. -/
structure OneLine (line : List UInt8) : Prop where
  unbroken : 10 ∉ line
  kept : finishLine line.reverse = line
  short : line.length < maxLineLength

theorem linesFrom_flatMap {lines : List (List UInt8)} (h : ∀ line ∈ lines, OneLine line)
    (found : List (List UInt8)) :
    linesFrom found [] 0 (lines.flatMap (· ++ [10])) = ⟨found.reverse ++ lines, false⟩ := by
  induction lines generalizing found with
  | nil => simp [linesFrom]
  | cons line lines ih =>
    obtain ⟨first, later⟩ := List.forall_mem_cons.mp h
    rw [List.flatMap_cons, List.append_assoc, List.singleton_append,
      linesFrom_line found first.unbroken [] 0 (by simpa using first.short), List.append_nil,
      first.kept, ih later]
    simp

theorem linesOfBytes_flatMap {lines : List (List UInt8)} (h : ∀ line ∈ lines, OneLine line) :
    linesOfBytes (lines.flatMap (· ++ [10])) = ⟨lines, false⟩ :=
  linesFrom_flatMap h []

end Text

namespace Word

variable {names : List String}

/-! ## One word -/

/-- The document of a word. -/
def toJson (names : List String) (w : Word) : Json.Value :=
  .array (w.map fun l => .array ((l.toTexts names).map .string))

theorem natural_toJson (names : List String) (w : Word) : (w.toJson names).Natural := by
  refine .array (List.forall_mem_map.mpr fun l _ => .array (List.forall_mem_map.mpr fun s _ => ?_))
  exact .string s

theorem depth_toJson (names : List String) (w : Word) : (w.toJson names).depth ≤ Json.maxDepth := by
  have nested : 0 + (Json.itemsDepth (w.map fun l => .array ((l.toTexts names).map .string)) + 1)
      ≤ Json.maxDepth := by
    refine Json.add_itemsDepth_le_iff.mpr ⟨by decide, List.forall_mem_map.mpr fun l _ => ?_⟩
    refine Json.add_itemsDepth_le_iff.mpr ⟨by decide, List.forall_mem_map.mpr fun s _ => ?_⟩
    show 2 ≤ Json.maxDepth
    decide
  rwa [Nat.zero_add] at nested

theorem lettersOfJson?_toJsonLine (w : Word) :
    lettersOfJson? (w.toJsonLine names).toList = some (w.map (Letter.toTexts names)) := by
  have read : Json.parse? (w.toJsonLine names).toList = some (w.toJson names) :=
    (natural_toJson names w).reads_compact.1 (depth_toJson names w)
  have letters : Json.Reads (∀ l ∈ w, True)
      (Json.Slots.empty.update [] (fun _ => Json.decodeList "" Json.updateString) (w.toJson names))
      ⟨w.map (Letter.toTexts names), []⟩ :=
    Json.reads_slots fun l _ => (SnapshotDoc.reads_names (l.toTexts names)).bind_pure (·.items)
  unfold lettersOfJson?
  rw [read, Option.bind_some]
  exact (letters.bind_pure (·.items)).1 fun _ _ => trivial

/-- The line stands in brackets. -/
theorem toList_toJsonLine (names : List String) (w : Word) :
    ∃ inside, (w.toJsonLine names).toList = '[' :: (inside ++ [']']) := by
  show ∃ inside, (w.toJson names).compact.toList = _
  rw [toJson, Json.Value.compact, String.toList_append, String.toList_append]
  exact ⟨_, rfl⟩

theorem trimBlanks_toJsonLine (w : Word) :
    Text.trimBlanks (w.toJsonLine names).toList = (w.toJsonLine names).toList := by
  obtain ⟨inside, brackets⟩ := toList_toJsonLine names w
  have opening : Text.isBlank '[' = false := by decide
  have closing : Text.isBlank ']' = false := by decide
  rw [brackets, Text.trimBlanks, List.dropWhile_cons_of_neg (by simp [opening]), List.reverse_cons,
    List.reverse_append, List.reverse_singleton, List.singleton_append, List.cons_append,
    List.dropWhile_cons_of_neg (by simp [closing])]
  simp

theorem ofLine_toJsonLine (h : Alphabet names) {w : Word}
    (small : ∀ l ∈ w, ∀ i ∈ l.atoms, i ≤ Letter.maxNumber) (line : Nat) :
    ofLine names line (w.toJsonLine names).toList = .ok (some w) := by
  obtain ⟨inside, brackets⟩ := toList_toJsonLine names w
  have written : (w.toJsonLine names).toList.isEmpty = false := by rw [brackets]; rfl
  unfold ofLine
  simp only [trimBlanks_toJsonLine, written, Bool.false_eq_true, if_false, lettersOfJson?_toJsonLine,
    mapM_map_eq_ok fun l hl => Letter.ofTexts_toTexts h (small l hl)]

theorem oneLine_toJsonLine {w : Word}
    (short : (Text.bytesOfString (w.toJsonLine names)).length < Text.maxLineLength) :
    Text.OneLine (Text.bytesOfString (w.toJsonLine names)) := by
  refine ⟨fun feed => ?_, ?_, short⟩
  · rw [Text.bytesOfString_eq, List.mem_flatMap] at feed
    obtain ⟨c, mem, feed⟩ := feed
    have printable := (natural_toJson names w).printable_compact c mem
    exact absurd (Text.le_of_mem_utf8EncodeChar printable 10 feed) (by decide)
  · obtain ⟨inside, brackets⟩ := toList_toJsonLine names w
    have closing : String.utf8EncodeChar ']' = [93] := by decide
    rw [Text.bytesOfString_eq, brackets, ← List.cons_append, List.flatMap_append,
      List.flatMap_singleton, closing, List.reverse_append]
    simp [Text.finishLine]

/-! ## Whole files -/

theorem bytesOfString_fileOf (names : List String) (words : List Word) :
    Text.bytesOfString (fileOf names words) =
      (words.map fun w => Text.bytesOfString (w.toJsonLine names)).flatMap (· ++ [10]) := by
  have feed : String.utf8EncodeChar '\n' = [10] := by decide
  rw [Text.bytesOfString_eq, fileOf, String.toList_join, List.flatMap_map, List.flatMap_assoc,
    List.flatMap_map]
  refine congrArg words.flatMap (funext fun w => ?_)
  rw [String.toList_append, List.flatMap_append, Text.bytesOfString_eq]
  simp [feed]

theorem ofLines_toJsonLine (h : Alphabet names) {words : List Word}
    (small : ∀ w ∈ words, ∀ l ∈ w, ∀ i ∈ l.atoms, i ≤ Letter.maxNumber) (line : Nat) :
    ofLines names line (words.map fun w => Text.bytesOfString (w.toJsonLine names)) = .ok words := by
  induction words generalizing line with
  | nil => rfl
  | cons w words ih =>
    obtain ⟨first, later⟩ := List.forall_mem_cons.mp small
    rw [List.map_cons, ofLines, Text.charsOfBytes_bytesOfString, ofLine_toJsonLine h first, ih later]
    rfl

/-- Words that are written with the names of an expression are read back, if no atom has a larger
    number than can be read and no line is too long.  So is each letter by itself.  Atoms need not have
    a name. -/
theorem files_read_back {source : List Text.Glyph} {e : Expression} {names : List String}
    (parsed : Expression.parse source = .ok (e, names)) :
    (∀ words : List Word,
      (∀ w ∈ words, ∀ l ∈ w, ∀ i ∈ l.atoms, i ≤ Letter.maxNumber) →
      (∀ w ∈ words, (Text.bytesOfString (w.toJsonLine names)).length < Text.maxLineLength) →
      ofFile names (Text.bytesOfString (fileOf names words)) = .ok words) ∧
    ∀ l : Letter, (∀ i ∈ l.atoms, i ≤ Letter.maxNumber) →
      Letter.ofTexts names (l.toTexts names) = .ok l := by
  have alphabet := Expression.alphabet_of_parse parsed
  refine ⟨fun words small short => ?_, fun l small => Letter.ofTexts_toTexts alphabet small⟩
  have lines := Text.linesOfBytes_flatMap
    (List.forall_mem_map.mpr fun w hw => oneLine_toJsonLine (short w hw))
  simp only [ofFile, bytesOfString_fileOf, lines, ofLines_toJsonLine alphabet small]
  rfl

/-- An empty word, an empty letter and an atom without a name. -/
theorem files_read_back_of_unnamed_atom :
    let source := Text.glyphsOfString "b; a"
    let e : Expression := .concat (.condition (.atom 0)) (.condition (.atom 1))
    let names := ["b", "a"]
    let words : List Word := [[], [∅], [.ofList [0, 1], .ofList [65535]]]
    Expression.parse source = .ok (e, names) ∧
      fileOf names words = "[]\n[[]]\n[[\"b\",\"a\"],[\"65535\"]]\n" ∧
      ofFile names (Text.bytesOfString (fileOf names words)) = .ok words ∧
      Letter.ofTexts names (Letter.toTexts names (.ofList [1, 2])) = .ok (.ofList [1, 2]) := by
  intro source e names words
  have parsed : Expression.parse source = .ok (e, names) := by decide +kernel
  obtain ⟨files, letters⟩ := files_read_back parsed
  exact ⟨parsed, by decide +kernel, files words (by decide +kernel) (by decide +kernel),
    letters _ (by decide +kernel)⟩

end Word

end TraceRegex
