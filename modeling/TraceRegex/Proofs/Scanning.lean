import TraceRegex.Expression.Token

/-! # The tokens of a text

Whatever the text, the scanner ends with one end token, and its numbers and words never look like
one of the other tokens.  Texts that are put together from known pieces are scanned piece by piece:
a piece is described by the tokens that it adds and by what may be pending before and after it.
-/

namespace TraceRegex

namespace Token

/-- The texts of the tokens that are neither numbers nor words. -/
def punctuation : List String :=
  ["[", "]", "(", ")", "\x7b", "\x7d", ";", ":", "!", "~", "*", "+", ",", "|", "&", "||", "&&"]

/-! ## Every text -/

/-- A token before the end of a text. -/
structure Proper (t : Token) : Prop where
  not_eof : t.kind ≠ .eof
  distinct : t.kind ≠ .symbol → t.text ∉ punctuation

/-- Only characters of words are pending as a number or a word, and only half a connective as
    anything else. -/
def Pending.Tidy : Pending → Prop
  | .nothing => True
  | .digits chars _ _ | .word chars _ _ => ∀ c ∈ chars, continuesWord c = true
  | .single c _ _ => c = '|' ∨ c = '&'

theorem continuesWord_of_isDigit {c : Char} (h : c.isDigit = true) : continuesWord c = true := by
  simp [continuesWord, Char.isAlphanum, h]

theorem continuesWord_of_startsWord {c : Char} (h : startsWord c = true) :
    continuesWord c = true := by
  simp only [startsWord, Bool.or_eq_true] at h
  rcases h with h | h
  · simp [continuesWord, Char.isAlphanum, h]
  · simp [continuesWord, h]

theorem isDigit_eq_false {c : Char} (h : continuesWord c = false) : c.isDigit = false :=
  Bool.eq_false_iff.mpr fun digit => by simp [continuesWord_of_isDigit digit] at h

theorem startsWord_eq_false {c : Char} (h : continuesWord c = false) : startsWord c = false :=
  Bool.eq_false_iff.mpr fun starts => by simp [continuesWord_of_startsWord starts] at h

theorem ofList_not_mem_punctuation {chars : List Char} (h : ∀ c ∈ chars, continuesWord c = true) :
    String.ofList chars ∉ punctuation := by
  intro mem
  have apart : punctuation.all (fun w => w.toList.any fun c => !continuesWord c) = true := by decide
  obtain ⟨c, hc, other⟩ := List.any_eq_true.mp (List.all_eq_true.mp apart _ mem)
  rw [String.toList_ofList] at hc
  simp [h c hc] at other

theorem Pending.Tidy.proper {p : Pending} (h : p.Tidy) : ∀ t ∈ p.token?.toList, t.Proper := by
  intro t mem
  cases p with
  | nothing => cases mem
  | digits chars offset edge =>
    cases List.mem_singleton.mp mem
    exact ⟨by simp, fun _ => ofList_not_mem_punctuation fun c hc => h c (List.mem_reverse.mp hc)⟩
  | word chars offset edge =>
    cases List.mem_singleton.mp mem
    exact ⟨by simp, fun _ => ofList_not_mem_punctuation fun c hc => h c (List.mem_reverse.mp hc)⟩
  | single c offset edge =>
    cases List.mem_singleton.mp mem
    exact ⟨by simp, fun other => absurd rfl other⟩

/-- What a character adds to a pending token. -/
theorem Pending.Tidy.extend {p : Pending} (h : p.Tidy) {c : Char} {next : Pending ⊕ Token}
    (added : p.extend? c = some next) :
    (∃ p', next = .inl p' ∧ p'.Tidy) ∨ ∃ t, next = .inr t ∧ t.Proper := by
  cases p with
  | nothing => cases added
  | digits chars offset edge =>
    simp only [extend?, Option.ite_none_right_eq_some, Option.some.injEq] at added
    obtain ⟨digit, rfl⟩ := added
    exact .inl ⟨_, rfl, List.forall_mem_cons.mpr ⟨continuesWord_of_isDigit digit, h⟩⟩
  | word chars offset edge =>
    simp only [extend?, Option.ite_none_right_eq_some, Option.some.injEq] at added
    obtain ⟨letter, rfl⟩ := added
    exact .inl ⟨_, rfl, List.forall_mem_cons.mpr ⟨letter, h⟩⟩
  | single d offset edge =>
    simp only [extend?, Option.ite_none_right_eq_some, Option.some.injEq] at added
    obtain ⟨-, rfl⟩ := added
    exact .inr ⟨_, rfl, by simp, fun other => absurd rfl other⟩

theorem start?_tidy {c : Char} {offset edge : Nat} {p : Pending} {found : List Token}
    (started : start? c offset edge = some (p, found)) : p.Tidy ∧ ∀ t ∈ found, t.Proper := by
  simp only [start?] at started
  split at started
  next digit =>
    cases started
    exact ⟨by simpa [Pending.Tidy] using continuesWord_of_isDigit digit, by simp⟩
  split at started
  next letter =>
    cases started
    exact ⟨by simpa [Pending.Tidy] using continuesWord_of_startsWord letter, by simp⟩
  split at started
  next half =>
    cases started
    exact ⟨half, by simp⟩
  split at started
  · cases started
    exact ⟨trivial, by simpa using ⟨by simp, fun other => absurd rfl other⟩⟩
  split at started
  · cases started
    exact ⟨trivial, by simp⟩
  · cases started

/-- What the scanner has found so far is proper. -/
structure Scan.Tidy (s : Scan) : Prop where
  found : ∀ t ∈ s.found, t.Proper
  pending : s.pending.Tidy

theorem Scan.Tidy.step {s s' : Scan} {g : Text.Glyph} (h : s.Tidy) (stepped : step? s g = some s') :
    s'.Tidy := by
  simp only [step?] at stepped
  split at stepped
  next p added =>
    cases stepped
    obtain ⟨p', same, tidy⟩ | ⟨t, same, -⟩ := h.pending.extend added
    · cases same
      exact ⟨h.found, tidy⟩
    · cases same
  next t added =>
    cases stepped
    obtain ⟨p', same, -⟩ | ⟨t', same, proper⟩ := h.pending.extend added
    · cases same
    · cases same
      exact ⟨List.forall_mem_cons.mpr ⟨proper, h.found⟩, trivial⟩
  next =>
    obtain ⟨⟨p, found⟩, started, rfl⟩ := Option.map_eq_some_iff.mp stepped
    obtain ⟨tidy, proper⟩ := start?_tidy started
    refine ⟨fun t mem => ?_, tidy⟩
    simp only [List.mem_append] at mem
    rcases mem with (mem | mem) | mem
    · exact proper t mem
    · exact h.pending.proper t mem
    · exact h.found t mem

/-- A text is a list of proper tokens and its end. -/
def Closed (tokens : List Token) : Prop :=
  ∃ front eof, tokens = front ++ [eof] ∧ eof.kind = .eof ∧ eof.text = "<EOF>" ∧
    ∀ t ∈ front, t.Proper

theorem Scan.Tidy.scan {s : Scan} (h : s.Tidy) {source : List Text.Glyph} {tokens : List Token}
    (scanned : Token.scan s source = .ok tokens) : Closed tokens := by
  induction source generalizing s with
  | nil =>
    cases scanned
    refine ⟨(s.pending.token?.toList ++ s.found).reverse, _, List.reverse_cons, rfl, rfl, ?_⟩
    intro t mem
    simp only [List.mem_reverse, List.mem_append] at mem
    rcases mem with mem | mem
    · exact h.pending.proper t mem
    · exact h.found t mem
  | cons g source ih =>
    rw [Token.scan] at scanned
    split at scanned
    next s' stepped => exact ih (h.step stepped) scanned
    next => cases scanned

theorem closed_of_tokenize {source : List Text.Glyph} {tokens : List Token}
    (h : tokenize source = .ok tokens) : Closed tokens := by
  have start : Scan.Tidy ⟨[], .nothing, 0, 0⟩ := ⟨by simp, trivial⟩
  exact start.scan h

/-! ## Texts in pieces -/

/-- What a token says, wherever it stands. -/
abbrev Piece := TokenKind × String

def piece (t : Token) : Piece := (t.kind, t.text)

/-- The pieces that the scanner has seen, with the pending one. -/
def Scan.pieces (s : Scan) : List Piece := (s.pending.token?.toList ++ s.found).reverse.map piece

theorem Scan.pieces_of_token {s : Scan} {t : Token} (h : s.pending.token? = some t) :
    s.pieces = s.found.reverse.map piece ++ [t.piece] := by
  simp [pieces, h]

/-- The characters of a text with their widths. -/
def glyphs (chars : List Char) : List Text.Glyph := chars.map fun c => ⟨c, c.utf8Size⟩

/-- Nothing is pending. -/
def Pending.Idle (p : Pending) : Prop := p = .nothing

/-- The characters are scanned as the pieces, wherever something is pending that `before` allows, and
    what is pending behind them is allowed by `after`. -/
def Scans (before after : Pending → Prop) (chars : List Char) (pieces : List Piece) : Prop :=
  ∀ s : Scan, before s.pending → ∃ s' : Scan, after s'.pending ∧ s'.pieces = s.pieces ++ pieces ∧
    ∀ rest, scan s (glyphs chars ++ rest) = scan s' rest

section

variable {before between after : Pending → Prop} {chars chars' : List Char}
  {pieces pieces' : List Piece}

theorem Scans.append (first : Scans before between chars pieces)
    (rest : Scans between after chars' pieces') :
    Scans before after (chars ++ chars') (pieces ++ pieces') := by
  intro s allowed
  obtain ⟨s', allowed', seen, scanned⟩ := first s allowed
  obtain ⟨s'', allowed'', seen', scanned'⟩ := rest s' allowed'
  refine ⟨s'', allowed'', by rw [seen', seen, List.append_assoc], fun rest => ?_⟩
  rw [glyphs, List.map_append, List.append_assoc]
  exact (scanned _).trans (scanned' rest)

theorem Pending.Idle.tidy {p : Pending} (h : p.Idle) : p.Tidy := by
  rw [h]
  trivial

theorem Scans.mono {before' after' : Pending → Prop} (h : Scans before after chars pieces)
    (pre : ∀ {p}, before' p → before p) (post : ∀ {p}, after p → after' p) :
    Scans before' after' chars pieces := by
  intro s allowed
  obtain ⟨s', allowed', scanned⟩ := h s (pre allowed)
  exact ⟨s', post allowed', scanned⟩

/-- A single character, by what one step of the scanner makes of it. -/
theorem Scans.of_step {c : Char} (h : ∀ s : Scan, before s.pending → ∃ s' : Scan,
    step? s ⟨c, c.utf8Size⟩ = some s' ∧ after s'.pending ∧ s'.pieces = s.pieces ++ pieces) :
    Scans before after [c] pieces := by
  intro s allowed
  obtain ⟨s', stepped, allowed', seen⟩ := h s allowed
  refine ⟨s', allowed', seen, fun rest => ?_⟩
  show scan s (⟨c, c.utf8Size⟩ :: rest) = _
  rw [scan, stepped]

end

/-- Something pending ends before a character that is not part of a word or a connective. -/
theorem Pending.Tidy.extend?_eq_none {p : Pending} (h : p.Tidy) {c : Char}
    (noWord : continuesWord c = false) (noHalf : c ∉ ['|', '&']) : p.extend? c = none := by
  cases p with
  | nothing => rfl
  | digits chars offset edge =>
    simp [extend?, isDigit_eq_false noWord]
  | word chars offset edge => simp [extend?, noWord]
  | single d offset edge =>
    have other : c ≠ d := by
      rintro rfl
      exact noHalf (by simpa [Tidy] using h)
    simp [extend?, other]

/-- A character by which no pending token goes on is looked at by itself. -/
theorem step?_eq_start {s : Scan} {c : Char} {p : Pending} {found : List Token}
    (ends : s.pending.extend? c = none) (started : start? c s.offset s.edge = some (p, found)) :
    ∃ s' : Scan, step? s ⟨c, c.utf8Size⟩ = some s' ∧ s'.pending = p ∧
      s'.pieces = s.pieces ++ (p.token?.toList ++ found).reverse.map piece := by
  refine ⟨⟨found ++ s.pending.token?.toList ++ s.found, p, s.offset + c.utf8Size,
    if isTrimmed c then s.edge else s.offset + c.utf8Size⟩, ?_, rfl, ?_⟩
  · simp only [step?, ends, started, Option.map_some]
  · simp [Scan.pieces]

theorem scans_symbol {c : Char} (mem : c ∈ symbols) :
    Scans Pending.Tidy Pending.Idle [c] [(.symbol, c.toString)] := by
  have apart : symbols.all (fun c => continuesWord c = false ∧ c ∉ ['|', '&']) = true := by decide
  obtain ⟨noWord, noHalf⟩ := of_decide_eq_true (List.all_eq_true.mp apart c mem)
  refine Scans.of_step fun s tidy => ?_
  have started : start? c s.offset s.edge =
      some (.nothing, [⟨.symbol, c.toString, s.offset, s.edge⟩]) := by
    have noHalf : ¬(c = '|' ∨ c = '&') := by simpa using noHalf
    simp [start?, isDigit_eq_false noWord, startsWord_eq_false noWord, noHalf, mem]
  exact step?_eq_start (tidy.extend?_eq_none noWord noHalf) started

theorem scans_blank : Scans Pending.Tidy Pending.Idle [' '] [] := by
  refine Scans.of_step fun s tidy => ?_
  have started : start? ' ' s.offset s.edge = some (.nothing, []) := rfl
  exact step?_eq_start (tidy.extend?_eq_none (by decide) (by decide)) started

/-- Half a connective. -/
theorem scans_half {c : Char} (mem : c ∈ ['|', '&']) :
    Scans Pending.Idle Pending.Tidy [c] [(.symbol, c.toString)] := by
  refine Scans.of_step fun s idle => ?_
  have started : start? c s.offset s.edge = some (.single c s.offset s.edge, []) := by
    simp only [List.mem_cons, List.not_mem_nil, or_false] at mem
    rcases mem with rfl | rfl <;> rfl
  obtain ⟨s', stepped, pending, seen⟩ := step?_eq_start (by rw [idle]; rfl) started
  refine ⟨s', stepped, ?_, seen⟩
  rw [pending]
  simpa [Pending.Tidy] using mem

/-- A connective of two equal characters. -/
theorem scans_connective {c : Char} (mem : c ∈ ['|', '&']) :
    Scans Pending.Idle Pending.Idle [c, c] [(.symbol, String.ofList [c, c])] := by
  rintro ⟨found, pending, offset, edge⟩ idle
  cases idle
  refine ⟨⟨⟨.symbol, String.ofList [c, c], offset, edge⟩ :: found, .nothing, offset + 1 + 1,
    offset + 1 + 1⟩, rfl, by simp [Scan.pieces, Pending.token?, piece], fun rest => ?_⟩
  simp only [List.mem_cons, List.not_mem_nil, or_false] at mem
  rcases mem with rfl | rfl <;> rfl

/-- A word goes on with all characters that can be part of it. -/
theorem scan_continues {chars : List Char} (h : ∀ d ∈ chars, continuesWord d = true) {s : Scan}
    {seen : List Char} {offset edge : Nat} (pending : s.pending = .word seen offset edge) :
    ∃ s' : Scan, s'.pending = .word (chars.reverse ++ seen) offset edge ∧ s'.found = s.found ∧
      ∀ rest, scan s (glyphs chars ++ rest) = scan s' rest := by
  induction chars generalizing s seen with
  | nil => exact ⟨s, pending, rfl, fun _ => rfl⟩
  | cons c chars ih =>
    rw [List.forall_mem_cons] at h
    have stepped : step? s ⟨c, c.utf8Size⟩ = some ⟨s.found, .word (c :: seen) offset edge,
        s.offset + c.utf8Size, if isTrimmed c then s.edge else s.offset + c.utf8Size⟩ := by
      simp [step?, pending, Pending.extend?, h.1]
    obtain ⟨s', pending', found, scanned⟩ := ih h.2 (s := ⟨s.found, .word (c :: seen) offset edge,
      s.offset + c.utf8Size, if isTrimmed c then s.edge else s.offset + c.utf8Size⟩) rfl
    refine ⟨s', by simpa using pending', found, fun rest => ?_⟩
    show scan s (⟨c, c.utf8Size⟩ :: (glyphs chars ++ rest)) = _
    rw [scan, stepped]
    exact scanned rest

theorem scans_word {c : Char} {chars : List Char}
    (first : ∀ offset edge, start? c offset edge = some (.word [c] offset edge, []))
    (rest : ∀ d ∈ chars, continuesWord d = true) :
    Scans Pending.Idle Pending.Tidy (c :: chars) [(.ident, String.ofList (c :: chars))] := by
  intro s idle
  obtain ⟨s₁, stepped, pending₁, seen₁⟩ :=
    step?_eq_start (by rw [idle]; rfl) (first s.offset s.edge)
  obtain ⟨s₂, pending₂, found₂, scanned⟩ := scan_continues rest pending₁
  have before : s₁.found.reverse.map piece = s.pieces := by
    rw [Scan.pieces_of_token (by rw [pending₁]; rfl)] at seen₁
    exact List.append_cancel_right seen₁
  refine ⟨s₂, ?_, ?_, fun rest => ?_⟩
  · rw [pending₂]
    intro d mem
    simp only [List.mem_append, List.mem_reverse, List.mem_singleton] at mem
    rcases mem with mem | rfl
    · exact rest d mem
    · exact (start?_tidy (first 0 0)).1 d (List.mem_singleton_self d)
  · rw [Scan.pieces_of_token (by rw [pending₂]; rfl), found₂, before, piece]
    simp only [List.reverse_append, List.reverse_reverse, List.reverse_singleton,
      List.singleton_append]
  · show scan s (⟨c, c.utf8Size⟩ :: (glyphs chars ++ rest)) = _
    rw [scan, stepped]
    exact scanned rest

/-- A text in pieces has the tokens of its pieces. -/
theorem Scans.tokenize {chars : List Char} {pieces : List Piece}
    (h : Scans Pending.Idle Pending.Tidy chars pieces) :
    ∃ tokens, tokenize (glyphs chars) = .ok tokens ∧
      tokens.map piece = pieces ++ [(.eof, "<EOF>")] := by
  obtain ⟨s, -, seen, scanned⟩ := h ⟨[], .nothing, 0, 0⟩ rfl
  have whole := scanned []
  rw [List.append_nil] at whole
  refine ⟨_, whole, ?_⟩
  rw [List.reverse_cons, List.map_append]
  exact congrArg (· ++ _) seen

end Token

end TraceRegex
