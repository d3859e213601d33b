import TraceRegex.Proofs.Scanning
import TraceRegex.Proofs.Utf8

/-! # Where tokens stand

The bytes of a source are those of its characters in a row, and the characters are those of its
tokens in a row with separators between them.  The offset of a token is the number of bytes before
it, and its edge is what is left of them without the characters at the end that can be trimmed.
-/

namespace TraceRegex

namespace Text

/-! ## Bytes of characters -/

/-- The number of bytes that the characters take up. -/
def width : List Glyph → Nat
  | [] => 0
  | g :: gs => g.width + width gs

@[simp]
theorem width_append (gs hs : List Glyph) : width (gs ++ hs) = width gs + width hs := by
  induction gs with
  | nil => simp [width]
  | cons g gs ih => simp [width, ih, Nat.add_assoc]

/-- The bytes are those of the characters, one after the other.  A character below 128 is a byte by
    itself, and the bytes of all others start from 128 on. -/
inductive Spells : List UInt8 → List Glyph → Prop where
  | nil : Spells [] []
  | small {b : UInt8} {bytes : List UInt8} {g : Glyph} {gs : List Glyph} (ascii : b.toNat < 0x80)
      (one : g.width = 1) (same : g.char = Char.ofNat b.toNat) (rest : Spells bytes gs) :
      Spells (b :: bytes) (g :: gs)
  | large {b : UInt8} {front bytes : List UInt8} {g : Glyph} {gs : List Glyph}
      (lead : 0x80 ≤ b.toNat) (char : 0x80 ≤ g.char.toNat) (many : g.width = front.length + 1)
      (rest : Spells bytes gs) : Spells (b :: (front ++ bytes)) (g :: gs)

theorem Spells.length_eq {bytes : List UInt8} {gs : List Glyph} (h : Spells bytes gs) :
    bytes.length = width gs := by
  induction h with
  | nil => rfl
  | small _ one _ _ ih =>
    rw [List.length_cons, ih, width, one, Nat.add_comm]
  | large _ _ many _ ih =>
    rw [List.length_cons, List.length_append, ih, width, many]
    omega

theorem Spells.of_append {bytes : List UInt8} {gs hs : List Glyph} (h : Spells bytes (gs ++ hs)) :
    ∃ front rest, bytes = front ++ rest ∧ Spells front gs ∧ Spells rest hs := by
  induction gs generalizing bytes with
  | nil => exact ⟨[], bytes, rfl, .nil, h⟩
  | cons g gs ih =>
    cases h with
    | small ascii one same rest =>
      obtain ⟨front, back, rfl, spelled, spelled'⟩ := ih rest
      exact ⟨_ :: front, back, rfl, .small ascii one same spelled, spelled'⟩
    | large lead char many rest =>
      obtain ⟨front, back, rfl, spelled, spelled'⟩ := ih rest
      exact ⟨_ :: (_ ++ front), back, by simp, .large lead char many spelled, spelled'⟩

theorem toNat_ofNat_of_isValidChar {n : Nat} (h : n.isValidChar) : (Char.ofNat n).toNat = n := by
  rw [Char.ofNat, dif_pos h]
  rfl

theorem toNat_ofNat_byte (b : UInt8) : (Char.ofNat b.toNat).toNat = b.toNat :=
  toNat_ofNat_of_isValidChar (.inl (Nat.lt_trans b.toNat_lt (by decide)))

theorem Spells.of_cons_small {bytes : List UInt8} {g : Glyph} {gs : List Glyph}
    (h : Spells bytes (g :: gs)) (ascii : g.char.toNat < 0x80) :
    ∃ rest, bytes = UInt8.ofNat g.char.toNat :: rest ∧ g.width = 1 ∧ Spells rest gs := by
  cases h with
  | @small b bytes _ _ _ one same rest =>
    refine ⟨bytes, ?_, one, rest⟩
    rw [same, toNat_ofNat_byte, UInt8.ofNat_toNat]
  | large _ char => exact absurd ascii (Nat.not_lt.mpr char)

/-- What holds of the characters holds of the bytes, if all characters are small. -/
theorem Spells.forall_mem {bytes : List UInt8} {gs : List Glyph} (h : Spells bytes gs)
    {p : Char → Prop} (all : ∀ g ∈ gs, g.char.toNat < 0x80 ∧ p g.char) :
    ∀ b ∈ bytes, p (Char.ofNat b.toNat) := by
  induction h with
  | nil => simp
  | small _ _ same _ ih =>
    rw [List.forall_mem_cons] at all ⊢
    exact ⟨same ▸ all.1.2, ih all.2⟩
  | large _ char => exact absurd (all _ List.mem_cons_self).1 (Nat.not_lt.mpr char)

theorem glyph?_eq_some {least code n : Nat} {g : Glyph} (h : glyph? least code n = some g) :
    g.width = n ∧ least ≤ g.char.toNat := by
  simp only [glyph?, Option.ite_none_right_eq_some, Option.some.injEq] at h
  obtain ⟨⟨atLeast, valid⟩, rfl⟩ := h
  refine ⟨rfl, ?_⟩
  rwa [toNat_ofNat_of_isValidChar valid]

theorem frontGlyph?_of_small {b : UInt8} (h : b.toNat < 0x80) (rest : List UInt8) :
    frontGlyph? (b :: rest) = some ⟨Char.ofNat b.toNat, 1⟩ := by
  unfold frontGlyph?
  exact if_pos (UInt8.lt_iff_toNat_lt.mpr h)

/-- A character of more bytes than one takes up bytes that are there, and its number is large. -/
theorem frontGlyph?_of_large {b : UInt8} (lead : 0x80 ≤ b.toNat) {rest : List UInt8} {g : Glyph}
    (h : frontGlyph? (b :: rest) = some g) :
    ∃ n, g.width = n + 1 ∧ n ≤ rest.length ∧ 0x80 ≤ g.char.toNat := by
  have wide {least code n : Nat} (made : glyph? least code (n + 1) = some g) (big : 0x80 ≤ least)
      (there : n ≤ rest.length) :
      ∃ n, g.width = n + 1 ∧ n ≤ rest.length ∧ 0x80 ≤ g.char.toNat := by
    obtain ⟨width, atLeast⟩ := glyph?_eq_some made
    exact ⟨n, width, there, Nat.le_trans big atLeast⟩
  simp only [frontGlyph?] at h
  split at h
  next small => exact absurd (UInt8.lt_iff_toNat_lt.mp small) (Nat.not_lt.mpr lead)
  split at h
  next => cases h
  split at h
  next =>
    split at h
    next c _ =>
      obtain ⟨x, -, made⟩ := Option.bind_eq_some_iff.mp h
      exact wide made (by decide) (by simp)
    next => cases h
  split at h
  next =>
    split at h
    next c d _ =>
      obtain ⟨x, -, made⟩ := Option.bind_eq_some_iff.mp h
      obtain ⟨y, -, made⟩ := Option.bind_eq_some_iff.mp made
      exact wide made (by decide) (by simp)
    next => cases h
  split at h
  next =>
    split at h
    next c d e _ =>
      obtain ⟨x, -, made⟩ := Option.bind_eq_some_iff.mp h
      obtain ⟨y, -, made⟩ := Option.bind_eq_some_iff.mp made
      obtain ⟨z, -, made⟩ := Option.bind_eq_some_iff.mp made
      exact wide made (by decide) (by simp)
    next => cases h
  next => cases h

theorem glyphsOnto_spells (found : List Glyph) (bytes : List UInt8) :
    ∃ gs, glyphsOnto found 0 bytes = gs.reverse ++ found ∧ Spells bytes gs := by
  match bytes with
  | [] => exact ⟨[], rfl, .nil⟩
  | b :: rest =>
    by_cases ascii : b.toNat < 0x80
    · obtain ⟨gs, read, spelled⟩ := glyphsOnto_spells (⟨Char.ofNat b.toNat, 1⟩ :: found) rest
      refine ⟨⟨Char.ofNat b.toNat, 1⟩ :: gs, ?_, .small ascii rfl rfl spelled⟩
      rw [glyphsOnto_of_front (frontGlyph?_of_small ascii rest)]
      simpa using read
    have lead := Nat.not_lt.mp ascii
    cases front : frontGlyph? (b :: rest) with
    | none =>
      obtain ⟨gs, read, spelled⟩ := glyphsOnto_spells (⟨replacement, 1⟩ :: found) rest
      have char : 0x80 ≤ replacement.toNat := by decide
      have whole : Spells (b :: ([] ++ rest)) (⟨replacement, 1⟩ :: gs) :=
        .large lead char rfl spelled
      refine ⟨⟨replacement, 1⟩ :: gs, ?_, whole⟩
      rw [glyphsOnto, front]
      simpa using read
    | some g =>
      -- the other bytes of the character are skipped
      obtain ⟨n, wide, there, char⟩ := frontGlyph?_of_large lead front
      obtain ⟨gs, read, spelled⟩ := glyphsOnto_spells (g :: found) (rest.drop n)
      have taken : (rest.take n).length = n := List.length_take_of_le there
      refine ⟨g :: gs, ?_, ?_⟩
      · have skipped := glyphsOnto_skip (g :: found) (rest.take n) (rest.drop n)
        rw [taken, List.take_append_drop] at skipped
        rw [glyphsOnto_of_front front, wide, Nat.add_sub_cancel, skipped]
        simpa using read
      · rw [← List.take_append_drop n rest]
        exact .large lead char (by rw [wide, taken]) spelled
termination_by bytes.length
decreasing_by
  all_goals
    simp only [List.length_cons, List.length_drop]
    omega

theorem spells_glyphsOfBytes (bytes : List UInt8) : Spells bytes (glyphsOfBytes bytes) := by
  obtain ⟨gs, read, spelled⟩ := glyphsOnto_spells [] bytes
  rw [glyphsOfBytes, read, List.append_nil, List.reverse_reverse]
  exact spelled

end Text

namespace Token

open Text (Glyph width)

/-! ## Trimming -/

/-- The characters without those at the end that can be trimmed. -/
def trimEnd (gs : List Glyph) : List Glyph :=
  (gs.reverse.dropWhile fun g => isTrimmed g.char).reverse

theorem trimEnd_snoc (gs : List Glyph) (g : Glyph) :
    trimEnd (gs ++ [g]) = if isTrimmed g.char then trimEnd gs else gs ++ [g] := by
  rw [trimEnd, List.reverse_append, List.reverse_singleton, List.singleton_append,
    List.dropWhile_cons]
  split
  · rfl
  · rw [List.reverse_cons, List.reverse_reverse]

/-- Trimming does not go beyond a character that is not trimmed. -/
theorem trimEnd_append {gs hs : List Glyph} {g : Glyph} (kept : isTrimmed g.char = false) :
    trimEnd (gs ++ g :: hs) = gs ++ g :: trimEnd hs := by
  have front : (g :: gs.reverse).dropWhile (fun g => isTrimmed g.char) = g :: gs.reverse := by
    rw [List.dropWhile_cons, kept, if_neg Bool.false_ne_true]
  simp only [trimEnd, List.reverse_append, List.reverse_cons, List.append_assoc,
    List.singleton_append, List.dropWhile_append, front]
  split
  next none => simp [List.isEmpty_iff.mp none]
  next => simp

/-- What is trimmed can be trimmed, and what is left ends with something else. -/
theorem trimEnd_cut (gs : List Glyph) :
    ∃ cut, gs = trimEnd gs ++ cut ∧ (∀ g ∈ cut, isTrimmed g.char = true) ∧
      (trimEnd gs = [] ∨ ∃ front g, trimEnd gs = front ++ [g] ∧ isTrimmed g.char = false) := by
  let p := fun g : Glyph => isTrimmed g.char
  refine ⟨(gs.reverse.takeWhile p).reverse, ?_, fun g mem => ?_, ?_⟩
  · rw [trimEnd, ← List.reverse_append, List.takeWhile_append_dropWhile, List.reverse_reverse]
  · exact List.all_eq_true.mp List.all_takeWhile g (List.mem_reverse.mp mem)
  · have stopped := List.head?_dropWhile_not p gs.reverse
    rw [trimEnd]
    cases left : gs.reverse.dropWhile p with
    | nil => exact .inl rfl
    | cons g front =>
      rw [left] at stopped
      exact .inr ⟨front.reverse, g, List.reverse_cons, stopped⟩

/-! ## Layout -/

/-- The token is written with the characters `gs` behind the characters `before`. -/
structure Stands (t : Token) (before gs : List Glyph) : Prop where
  offset : t.offset = width before
  edge : t.edge = width (trimEnd before)
  text : t.text = String.ofList (gs.map Glyph.char)
  starts : ∃ g rest, gs = g :: rest ∧ isSeparator g.char = false

/-- The characters are those of the tokens, with separators before, between and behind them. -/
inductive Laid : List Glyph → List Token → Prop where
  | nil : Laid [] []
  | blank {gs : List Glyph} {tokens : List Token} {g : Glyph} (front : Laid gs tokens)
      (separates : isSeparator g.char = true) : Laid (gs ++ [g]) tokens
  | token {before gs : List Glyph} {tokens : List Token} {t : Token} (front : Laid before tokens)
      (stands : t.Stands before gs) : Laid (before ++ gs) (tokens ++ [t])

/-- Each token has its place, and behind the last one there are only separators. -/
theorem Laid.stands {gs : List Glyph} {tokens : List Token} (h : Laid gs tokens) {k : Nat}
    {t : Token} (found : tokens[k]? = some t) :
    ∃ before written after, gs = before ++ (written ++ after) ∧ Laid before (tokens.take k) ∧
      t.Stands before written ∧
      (k + 1 = tokens.length → ∀ g ∈ after, isSeparator g.char = true) := by
  induction h with
  | nil => simp at found
  | @blank gs tokens g front separates ih =>
    obtain ⟨before, written, after, rfl, laid, stands, last⟩ := ih found
    refine ⟨before, written, after ++ [g], by simp, laid, stands, fun whole => ?_⟩
    exact List.forall_mem_append.mpr ⟨last whole, List.forall_mem_singleton.mpr separates⟩
  | @token before gs tokens u front stands ih =>
    have inside := (List.getElem?_eq_some_iff.mp found).1
    rw [List.length_append, List.length_singleton] at inside
    -- either the token stands further in front, or it is the one that was added
    rcases Nat.lt_succ_iff_lt_or_eq.mp inside with earlier | rfl
    · rw [List.getElem?_append_left earlier] at found
      obtain ⟨before', written, after, rfl, laid, stands', -⟩ := ih found
      refine ⟨before', written, after ++ gs, by simp, ?_, stands', fun whole => ?_⟩
      · rwa [List.take_append_of_le_length (Nat.le_of_lt earlier)]
      · rw [List.length_append, List.length_singleton] at whole
        omega
    · rw [List.getElem?_concat_length, Option.some.injEq] at found
      subst found
      refine ⟨before, gs, [], by simp, ?_, stands, fun _ => by simp⟩
      rwa [List.take_left]

/-! ## Scanning -/

/-- The scanner has seen the characters, and what it has found and what is pending are laid out as
    they are. -/
structure Scan.Covers (s : Scan) (seen : List Glyph) : Prop where
  offset : s.offset = width seen
  edge : s.edge = width (trimEnd seen)
  laid : ∃ before gs, seen = before ++ gs ∧ Laid before s.found.reverse ∧
    ((s.pending.token? = none ∧ gs = []) ∨ ∃ t, s.pending.token? = some t ∧ t.Stands before gs)

/-- What is pending can be taken as it is. -/
theorem Scan.Covers.closed {s : Scan} {seen : List Glyph} (h : s.Covers seen) :
    Laid seen (s.pending.token?.toList ++ s.found).reverse := by
  obtain ⟨before, gs, rfl, laid, ⟨none, rfl⟩ | ⟨t, pending, stands⟩⟩ := h.laid
  · simpa [none] using laid
  · rw [pending, Option.toList_some, List.singleton_append, List.reverse_cons]
    exact laid.token stands

/-- A character is added to a pending token. -/
theorem Stands.extend {t : Token} {before gs : List Glyph} (h : t.Stands before gs) (g : Glyph)
    {kind : TokenKind} {text : String} (added : text = String.ofList (t.text.toList ++ [g.char])) :
    (Token.mk kind text t.offset t.edge).Stands before (gs ++ [g]) := by
  obtain ⟨first, rest, rfl, starts⟩ := h.starts
  refine ⟨h.offset, h.edge, ?_, first, rest ++ [g], rfl, starts⟩
  rw [added, h.text, String.toList_ofList, List.map_append, List.map_singleton]

theorem Pending.extend?_eq_none_of_token? {p : Pending} (none : p.token? = .none) (c : Char) :
    p.extend? c = .none := by
  cases p with
  | nothing => rfl
  | digits | word | single => cases none

theorem Pending.extend?_stands {p : Pending} {t : Token} (pending : p.token? = some t)
    {before gs : List Glyph} (h : t.Stands before gs) {g : Glyph} :
    (∀ p', p.extend? g.char = some (.inl p') →
      ∃ t', p'.token? = some t' ∧ t'.Stands before (gs ++ [g])) ∧
    ∀ t', p.extend? g.char = some (.inr t') → t'.Stands before (gs ++ [g]) := by
  cases p with
  | nothing => cases pending
  | digits chars offset edge =>
    cases pending
    refine ⟨fun p' added => ?_, fun t' added => ?_⟩
    all_goals simp only [extend?, Option.ite_none_right_eq_some, Option.some.injEq, reduceCtorEq,
      and_false, Sum.inl.injEq] at added
    obtain ⟨-, rfl⟩ := added
    exact ⟨_, rfl, h.extend g (by simp)⟩
  | word chars offset edge =>
    cases pending
    refine ⟨fun p' added => ?_, fun t' added => ?_⟩
    all_goals simp only [extend?, Option.ite_none_right_eq_some, Option.some.injEq, reduceCtorEq,
      and_false, Sum.inl.injEq] at added
    obtain ⟨-, rfl⟩ := added
    exact ⟨_, rfl, h.extend g (by simp)⟩
  | single d offset edge =>
    cases pending
    refine ⟨fun p' added => ?_, fun t' added => ?_⟩
    all_goals simp only [extend?, Option.ite_none_right_eq_some, Option.some.injEq, reduceCtorEq,
      and_false, Sum.inr.injEq] at added
    obtain ⟨-, rfl⟩ := added
    exact h.extend g (by simp)

/-- The characters that separate tokens. -/
def separators : List Char := [' ', '\t', '\n', '\r', '\x0c']

theorem isSeparator_iff {c : Char} : isSeparator c = true ↔ c ∈ separators := by
  simp [isSeparator, separators, or_assoc]

/-- No token starts with a separator. -/
theorem start?_of_separator {c : Char} (h : isSeparator c = true) (offset edge : Nat) :
    start? c offset edge = some (.nothing, []) := by
  rw [isSeparator_iff, separators] at h
  simp only [List.mem_cons, List.not_mem_nil, or_false] at h
  rcases h with rfl | rfl | rfl | rfl | rfl <;> rfl

/-- What a character starts: a separator by itself, or a token that it is the first character of. -/
theorem start?_cases {c : Char} {offset edge : Nat} {p : Pending} {found : List Token}
    (started : start? c offset edge = some (p, found)) :
    (isSeparator c = true ∧ p = .nothing ∧ found = []) ∨
      (isSeparator c = false ∧ ∃ kind,
        p.token?.toList ++ found = [⟨kind, String.ofList [c], offset, edge⟩] ∧
          (p = .nothing ∨ found = [])) := by
  by_cases separates : isSeparator c = true
  · rw [start?_of_separator separates] at started
    cases started
    exact .inl ⟨separates, rfl, rfl⟩
  · refine .inr ⟨Bool.eq_false_iff.mpr separates, ?_⟩
    simp only [start?, separates] at started
    split at started
    next =>
      cases started
      exact ⟨.int, by simp [Pending.token?], .inr rfl⟩
    split at started
    next =>
      cases started
      exact ⟨.ident, by simp [Pending.token?], .inr rfl⟩
    split at started
    next =>
      cases started
      exact ⟨.symbol, by simp [Pending.token?], .inr rfl⟩
    split at started
    next =>
      cases started
      exact ⟨.symbol, by simp [Pending.token?], .inl rfl⟩
    next => cases started

theorem Scan.Covers.step {s s' : Scan} {seen : List Glyph} {g : Glyph} (h : s.Covers seen)
    (stepped : step? s g = some s') : s'.Covers (seen ++ [g]) := by
  have offset : s.offset + g.width = width (seen ++ [g]) := by simp [h.offset, width]
  have edge : (if isTrimmed g.char then s.edge else s.offset + g.width) =
      width (trimEnd (seen ++ [g])) := by
    rw [trimEnd_snoc]
    split
    · exact h.edge
    · exact offset
  obtain ⟨before, gs, same, laid, pending⟩ := h.laid
  -- the character goes on with the pending token, completes it, or is looked at by itself
  simp only [step?] at stepped
  split at stepped
  next p added =>
    cases stepped
    refine ⟨offset, edge, before, gs ++ [g], by rw [same, List.append_assoc], laid, .inr ?_⟩
    rcases pending with ⟨none, -⟩ | ⟨t, pending, stands⟩
    · rw [Pending.extend?_eq_none_of_token? none] at added
      cases added
    · exact (Pending.extend?_stands pending stands).1 p added
  next t added =>
    cases stepped
    refine ⟨offset, edge, seen ++ [g], [], by simp, ?_, .inl ⟨rfl, rfl⟩⟩
    rcases pending with ⟨none, -⟩ | ⟨t', pending, stands⟩
    · rw [Pending.extend?_eq_none_of_token? none] at added
      cases added
    · rw [List.reverse_cons, same, List.append_assoc]
      exact laid.token ((Pending.extend?_stands pending stands).2 t added)
  next =>
    obtain ⟨⟨p, found⟩, started, rfl⟩ := Option.map_eq_some_iff.mp stepped
    have closed := h.closed
    rcases start?_cases started with ⟨separates, rfl, rfl⟩ | ⟨other, kind, shape, single⟩
    · exact ⟨offset, edge, seen ++ [g], [], by simp, closed.blank separates, .inl ⟨rfl, rfl⟩⟩
    · have stands : (Token.mk kind (String.ofList [g.char]) s.offset s.edge).Stands seen [g] :=
        ⟨h.offset, h.edge, rfl, g, [], rfl, other⟩
      rcases single with rfl | rfl
      · -- the token is complete
        cases shape
        refine ⟨offset, edge, seen ++ [g], [], by simp, ?_, .inl ⟨rfl, rfl⟩⟩
        rw [List.append_assoc, List.reverse_append]
        exact closed.token stands
      · -- the token is pending
        rw [List.append_nil, Option.toList_eq_singleton_iff] at shape
        exact ⟨offset, edge, seen, [g], rfl, closed, .inr ⟨_, shape, stands⟩⟩

theorem Scan.Covers.scan {s : Scan} {seen : List Glyph} (h : s.Covers seen) {source : List Glyph}
    {tokens : List Token} (scanned : Token.scan s source = .ok tokens) :
    ∃ front eof, tokens = front ++ [eof] ∧ Laid (seen ++ source) front ∧
      eof.offset = width (seen ++ source) ∧ eof.edge = width (trimEnd (seen ++ source)) := by
  induction source generalizing s seen with
  | nil =>
    cases scanned
    rw [List.append_nil]
    exact ⟨_, _, List.reverse_cons, h.closed, h.offset, h.edge⟩
  | cons g source ih =>
    rw [Token.scan] at scanned
    split at scanned
    next s' stepped =>
      have rest := ih (h.step stepped) scanned
      rwa [List.append_assoc, List.singleton_append] at rest
    next => cases scanned

/-- The place of a token, which for the end of the text is behind all characters. -/
theorem stands_of_tokenize {source : List Glyph} {text : List Token}
    (scanned : tokenize source = .ok text) {k : Nat} {t : Token} (found : text[k]? = some t) :
    ∃ before after, source = before ++ after ∧ Laid before (text.take k) ∧
      t.offset = width before ∧ t.edge = width (trimEnd before) ∧
      ∀ g ∈ after.head?, isSeparator g.char = false := by
  have start : Scan.Covers ⟨[], .nothing, 0, 0⟩ [] := ⟨rfl, rfl, [], [], rfl, .nil, .inl ⟨rfl, rfl⟩⟩
  obtain ⟨front, eof, rfl, laid, offset, edge⟩ := start.scan scanned
  rw [List.nil_append] at laid offset edge
  have inside := (List.getElem?_eq_some_iff.mp found).1
  rw [List.length_append, List.length_singleton] at inside
  rcases Nat.lt_succ_iff_lt_or_eq.mp inside with earlier | rfl
  · rw [List.getElem?_append_left earlier] at found
    obtain ⟨before, written, after, rfl, laid, stands, -⟩ := laid.stands found
    refine ⟨before, written ++ after, rfl, ?_, stands.offset, stands.edge, ?_⟩
    · rwa [List.take_append_of_le_length (Nat.le_of_lt earlier)]
    · obtain ⟨g, rest, rfl, starts⟩ := stands.starts
      simpa using starts
  · rw [List.getElem?_concat_length, Option.some.injEq] at found
    subst found
    refine ⟨source, [], by simp, ?_, offset, edge, by simp⟩
    rwa [List.take_left]

/-- Every token but the end of the text has one behind it. -/
theorem Closed.exists_next {text : List Token} (h : Closed text) {k : Nat} {t : Token}
    (found : text[k]? = some t) (inside : t.kind ≠ .eof) : ∃ u, text[k + 1]? = some u := by
  obtain ⟨front, eof, rfl, kind, -, -⟩ := h
  have bound := (List.getElem?_eq_some_iff.mp found).1
  rw [List.length_append, List.length_singleton] at bound
  rcases Nat.lt_succ_iff_lt_or_eq.mp bound with earlier | rfl
  · exact ⟨_, List.getElem?_eq_getElem (by simpa using earlier)⟩
  · rw [List.getElem?_concat_length, Option.some.injEq] at found
    exact absurd (found ▸ kind) inside

/-- A token of one character is that character. -/
theorem Stands.single {t : Token} {before gs : List Glyph} (h : t.Stands before gs) {c : Char}
    (text : t.text = String.ofList [c]) : ∃ g, gs = [g] ∧ g.char = c := by
  have chars := String.ofList_injective (h.text.symm.trans text)
  obtain ⟨g, rfl, same⟩ := List.map_eq_singleton_iff.mp chars
  exact ⟨g, rfl, same⟩

/-- Two tokens of one character each, the edge of the token behind the second one, and the
    characters around them. -/
theorem stretch_of_tokenize {source : List Glyph} {text : List Token}
    (scanned : tokenize source = .ok text) {i j : Nat} (before : i < j) {t u v : Token} {c d : Char}
    (first : text[i]? = some t) (firstText : t.text = String.ofList [c])
    (last : text[j]? = some u) (lastText : u.text = String.ofList [d])
    (next : text[j + 1]? = some v) (kept : isTrimmed d = false) :
    ∃ front inside blanks after g h, source = front ++ g :: (inside ++ h :: (blanks ++ after)) ∧
      g.char = c ∧ h.char = d ∧ t.offset = width front ∧ u.offset = width (front ++ g :: inside) ∧
      v.edge = width (front ++ g :: (inside ++ [h])) + width (trimEnd blanks) ∧
      (∀ g ∈ blanks, isSeparator g.char = true) ∧
      ∀ g ∈ after.head?, isSeparator g.char = false := by
  -- from the back: first what stands before the third token, then before the second one
  obtain ⟨whole, after, rfl, laid, -, edge, stops⟩ := stands_of_tokenize scanned next
  have length : (text.take (j + 1)).length = j + 1 :=
    List.length_take_of_le (Nat.le_of_lt (List.getElem?_eq_some_iff.mp next).1)
  obtain ⟨upTo, written, blanks, rfl, earlier, closing, blank⟩ :=
    laid.stands (k := j) (by rwa [List.getElem?_take_of_lt (Nat.lt_succ_self j)])
  obtain ⟨h, rfl, rfl⟩ := closing.single lastText
  rw [List.take_take, Nat.min_eq_left (Nat.le_succ j)] at earlier
  obtain ⟨front, written, inside, rfl, -, opening, -⟩ :=
    earlier.stands (k := i) (by rwa [List.getElem?_take_of_lt before])
  obtain ⟨g, rfl, rfl⟩ := opening.single firstText
  refine ⟨front, inside, blanks, after, g, h, by simp, rfl, rfl, opening.offset, closing.offset, ?_,
    blank (by rw [length]), stops⟩
  simp only [edge, List.singleton_append]
  rw [trimEnd_append kept, ← Text.width_append]
  simp

end Token

end TraceRegex
