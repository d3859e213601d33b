import TraceRegex.Json.Reader

/-! # Reading back the text of JSON documents

The scanner turns the text of a document into the tokens of the document, and the assembler turns
these back into the document, unless it is nested too deeply.  Numbers and words end only where the
next character cannot go on with them, so for a text that may end with one, `Scans` asks for such a
character; `Emits` does not.
-/

namespace TraceRegex.Json

/-! ## Readers that may refuse -/

/-- The answer is the value if the condition holds, and there is none otherwise. -/
def Reads {α : Type} (fits : Prop) (answer : Option α) (x : α) : Prop :=
  (fits → answer = some x) ∧ (¬fits → answer = none)

namespace Reads

variable {α β : Type} {p q : Prop} {answer : Option α} {x : α}

theorem of_eq (h : answer = some x) : Reads True answer x :=
  ⟨fun _ => h, fun no => absurd trivial no⟩

theorem congr (h : Reads p answer x) (same : p ↔ q) : Reads q answer x :=
  ⟨fun hq => h.1 (same.mpr hq), fun hq => h.2 fun hp => hq (same.mp hp)⟩

theorem bind {f : α → Option β} {y : β} (h : Reads p answer x) (hf : p → Reads q (f x) y) :
    Reads (p ∧ q) (answer >>= f) y := by
  by_cases hp : p
  · rw [h.1 hp]
    exact (hf hp).congr (and_iff_right hp).symm
  · rw [h.2 hp]
    exact ⟨fun both => absurd both.1 hp, fun _ => rfl⟩

theorem bind_some {f : α → Option β} {y : β} (h : Reads p answer x) (hf : f x = some y) :
    Reads p (answer >>= f) y :=
  (h.bind fun _ => of_eq hf).congr (and_iff_left trivial)

theorem bind_pure (h : Reads p answer x) (f : α → β) :
    Reads p (answer >>= fun x => pure (f x)) (f x) :=
  h.bind_some rfl

theorem map (h : Reads p answer x) (f : α → β) : Reads p (answer.map f) (f x) := by
  rw [Option.map_eq_bind]
  exact h.bind_some rfl

theorem eq_of_some (h : Reads p answer x) {y : α} (hy : answer = some y) : y = x := by
  by_cases hp : p
  · exact Option.some.inj (hy.symm.trans (h.1 hp))
  · exact absurd (hy.symm.trans (h.2 hp)) nofun

end Reads

/-! ## Scanning pieces of text -/

/-- No number or word goes on here. -/
def Ends (rest : List Char) : Prop := ∀ c ∈ rest.head?, isBare c = false

/-- The scanner turns the text into the tokens, whatever follows. -/
def Emits (text : List Char) (tokens : List Token) : Prop :=
  ∀ found rest, scan? found .nothing (text ++ rest) = scan? (tokens.reverse ++ found) .nothing rest

/-- The scanner turns the text into the tokens, if nothing goes on with its end. -/
def Scans (text : List Char) (tokens : List Token) : Prop :=
  ∀ found rest, Ends rest →
    scan? found .nothing (text ++ rest) = scan? (tokens.reverse ++ found) .nothing rest

section

variable {text text' : List Char} {tokens tokens' : List Token}

theorem Emits.scans (h : Emits text tokens) : Scans text tokens := fun found rest _ => h found rest

theorem Emits.append (h : Emits text tokens) (h' : Emits text' tokens') :
    Emits (text ++ text') (tokens ++ tokens') := by
  intro found rest
  rw [List.append_assoc, h, h', List.reverse_append, List.append_assoc]

theorem Emits.append_scans (h : Emits text tokens) (h' : Scans text' tokens') :
    Scans (text ++ text') (tokens ++ tokens') := by
  intro found rest ends
  rw [List.append_assoc, h, h' _ _ ends, List.reverse_append, List.append_assoc]

theorem Scans.append_emits {c : Char} (h : Scans text tokens) (h' : Emits (c :: text') tokens')
    (ends : isBare c = false) : Emits (text ++ c :: text') (tokens ++ tokens') := by
  intro found rest
  have stop : Ends (c :: text' ++ rest) := by
    intro d hd
    cases hd
    exact ends
  rw [List.append_assoc, h _ _ stop, h', List.reverse_append, List.append_assoc]

theorem scan?_cons (found : List Token) (pending : Pending) (c : Char) (rest : List Char) :
    scan? found pending (c :: rest) =
      (scanChar? pending c).bind fun next => scan? (next.1 ++ found) next.2 rest := by
  rw [scan?]
  cases scanChar? pending c with
  | none => rfl
  | some next => rfl

theorem emits_nil : Emits [] [] := fun _ _ => rfl

theorem Emits.of_start {c : Char} (h : startToken? c = some (tokens.reverse, .nothing)) :
    Emits [c] tokens := by
  intro found rest
  rw [List.singleton_append, scan?_cons, scanChar?, h]
  rfl

end

theorem emits_spaces (n : Nat) : Emits (List.replicate n ' ') [] := by
  induction n with
  | zero => exact emits_nil
  | succ n ih => exact (Emits.of_start rfl : Emits [' '] []).append ih

/-! ## Numbers and words -/

theorem startToken?_of_isBare {c : Char} (h : isBare c = true) :
    startToken? c = some ([], .bare [c]) := by
  unfold startToken?
  split
  case h_8 =>
    have inked : ¬(c = ' ' ∨ c = '\t' ∨ c = '\n' ∨ c = '\r') := by
      rintro (rfl | rfl | rfl | rfl) <;> exact absurd h (by decide)
    rw [if_neg inked, if_pos h]
  all_goals exact absurd h (by decide)

theorem scan?_bare (found : List Token) {chars : List Char} (h : ∀ c ∈ chars, isBare c = true)
    (seen rest : List Char) : scan? found (.bare seen) (chars ++ rest)
      = scan? found (.bare (chars.reverse ++ seen)) rest := by
  induction chars generalizing seen with
  | nil => rfl
  | cons c chars ih =>
    rw [List.cons_append, scan?_cons, scanChar?, if_pos (h c List.mem_cons_self),
      List.reverse_cons, List.append_assoc]
    exact ih (fun d hd => h d (List.mem_cons_of_mem _ hd)) (c :: seen)

/-- The end of a number or a word completes it, and only then is the next token started. -/
theorem scan?_bare_end (found : List Token) {seen : List Char} {token : Token}
    (h : bareToken? seen.reverse = some token) {rest : List Char} (ends : Ends rest) :
    scan? found (.bare seen) rest = scan? (token :: found) .nothing rest := by
  cases rest with
  | nil =>
    show (bareToken? seen.reverse).map (· :: found) = _
    rw [h]
    rfl
  | cons c rest =>
    -- the character that ends the word is looked at a second time
    rw [scan?_cons, scan?_cons, scanChar?, scanChar?,
      if_neg (Bool.eq_false_iff.mp (ends c rfl)), h]
    cases started : startToken? c with
    | none => rfl
    | some next =>
      show scan? ((next.1 ++ [token]) ++ found) next.2 rest = _
      rw [List.append_assoc]
      rfl

theorem scans_bare {chars : List Char} {token : Token} (h : chars.all isBare = true)
    (spelled : bareToken? chars = some token) : Scans chars [token] := by
  intro found rest ends
  cases chars with
  | nil => cases spelled
  | cons c chars =>
    rw [List.all_cons, Bool.and_eq_true] at h
    rw [List.cons_append, scan?_cons, scanChar?, startToken?_of_isBare h.1]
    show scan? found (.bare [c]) (chars ++ rest) = _
    rw [scan?_bare found (List.all_eq_true.mp h.2) [c] rest]
    refine scan?_bare_end found ?_ ends
    rwa [List.reverse_append, List.reverse_reverse]

theorem isBare_of_isDigit {c : Char} (h : c.isDigit = true) : isBare c = true := by
  unfold isBare Char.isAlphanum
  rw [h, Bool.or_true]
  rfl

theorem isDigit_of_mem_toDigits {n : Nat} {c : Char} (h : c ∈ Nat.toDigits 10 n) :
    c.isDigit = true := Nat.isDigit_of_mem_toDigits (by decide) (by decide) h

/-- Only the number zero starts with the digit zero. -/
theorem head_toDigits {n : Nat} (h : 0 < n) : (Nat.toDigits 10 n).head? ≠ some '0' := by
  induction n using Nat.strongRecOn with
  | ind n ih =>
    by_cases small : n < 10
    · rw [Nat.toDigits_of_lt_base small, List.head?_cons]
      have nonzero : ∀ d < 10, 0 < d → some d.digitChar ≠ some '0' := by decide
      exact nonzero n small h
    · have front := ih (n / 10) (by omega) (by omega)
      rw [Nat.toDigits_of_base_le (by decide) (by omega), List.head?_append]
      cases spelled : Nat.toDigits 10 (n / 10) with
      | nil => exact absurd spelled Nat.toDigits_ne_nil
      | cons c rest => rwa [spelled] at front

theorem dropInteger?_of_ne {c : Char} (h : c ≠ '0') (rest : List Char) :
    dropInteger? (c :: rest) = dropDigits? (c :: rest) := by
  unfold dropInteger?
  split
  · next same =>
    cases same
    exact absurd rfl h
  · rfl

theorem isNumber_of_ne {c : Char} (h : c ≠ '-') (rest : List Char) :
    isNumber (c :: rest)
      = ((do dropExponent? (← dropFraction? (← dropInteger? (c :: rest)))) == some []) := by
  unfold isNumber
  split
  next same =>
    cases same
    exact absurd rfl h
  rfl

theorem isNumber_toDigits (n : Nat) : isNumber (Nat.toDigits 10 n) = true := by
  rcases Nat.eq_zero_or_pos n with rfl | positive
  · decide
  · have front := head_toDigits positive
    have digits : ∀ c ∈ Nat.toDigits 10 n, c.isDigit = true := fun c => isDigit_of_mem_toDigits
    cases spelled : Nat.toDigits 10 n with
    | nil => exact absurd spelled Nat.toDigits_ne_nil
    | cons c rest =>
      rw [spelled] at front digits
      have first : c.isDigit = true := digits c List.mem_cons_self
      have unsigned : c ≠ '-' := by
        rintro rfl
        exact absurd first (by decide)
      have nonzero : c ≠ '0' := fun zero => front (by rw [zero]; rfl)
      have dropped : (rest ++ []).dropWhile Char.isDigit = [] :=
        List.dropWhile_append_of_pos fun d hd => digits d (List.mem_cons_of_mem _ hd)
      rw [List.append_nil] at dropped
      rw [isNumber_of_ne unsigned, dropInteger?_of_ne nonzero, dropDigits?, if_pos first, dropped]
      rfl

/-- The digits of a number spell no word. -/
theorem bareToken?_toDigits (n : Nat) :
    bareToken? (Nat.toDigits 10 n) = some (.scalar (.ofNat n)) := by
  have noWord {word : List Char} (h : word.all Char.isDigit = false) :
      Nat.toDigits 10 n ≠ word := by
    rintro rfl
    exact Bool.false_ne_true
      (h.symm.trans (List.all_eq_true.mpr fun _ => isDigit_of_mem_toDigits))
  unfold bareToken?
  rw [if_neg (noWord rfl), if_neg (noWord rfl), if_neg (noWord rfl),
    if_pos (isNumber_toDigits n), ← Nat.toString_eq_ofList_toDigits]
  rfl

theorem scans_nat (n : Nat) : Scans (toString n).toList [.scalar (.ofNat n)] := by
  rw [Nat.toString_eq_ofList_toDigits, String.toList_ofList]
  refine scans_bare (List.all_eq_true.mpr fun c hc => ?_) (bareToken?_toDigits n)
  exact isBare_of_isDigit (isDigit_of_mem_toDigits hc)

/-! ## Strings -/

/-- The piece of a string stands for the character, whatever pieces come after it. -/
inductive Spells : Piece → Char → Prop where
  | char (c : Char) : Spells (.char c) c
  | unit (c : Char) (h : c.toNat < 0xd800) : Spells (.unit c.toNat) c

theorem Spells.textOfPieces_cons {p : Piece} {c : Char} (h : Spells p c) (pieces : List Piece) :
    textOfPieces (p :: pieces) = c :: textOfPieces pieces := by
  cases h with
  | char => rfl
  | unit _ low =>
    have plain : charOfCode c.toNat = c := by
      rw [charOfCode, if_pos (show c.toNat.isValidChar from c.valid), Char.ofNat_toNat]
    -- a unit below the surrogates is no half of a pair, whatever comes next
    rcases pieces with _ | ⟨_ | lo, pieces⟩
    · exact congrArg (· :: []) plain
    · exact congrArg (· :: textOfPieces (_ :: pieces)) plain
    · rw [textOfPieces, if_neg fun pair => Nat.not_le.mpr low pair.1, plain]

theorem hexValue?_digitChar {d : Nat} (h : d < 16) : Text.hexValue? d.digitChar = some d := by
  have all : ∀ d < 16, Text.hexValue? d.digitChar = some d := by decide
  exact all d h

theorem toList_hex_four {n : Nat} (h : n < 65536) :
    (Text.hex 4 n).toList
      = [(n / 4096).digitChar, (n / 256 % 16).digitChar, (n / 16 % 16).digitChar,
        (n % 16).digitChar] := by
  have step {n : Nat} (h : 16 ≤ n) :
      Nat.toDigits 16 n = Nat.toDigits 16 (n / 16) ++ [(n % 16).digitChar] :=
    Nat.toDigits_of_base_le (by decide) h
  unfold Text.hex
  rw [String.toList_ofList]
  by_cases one : n < 16
  · rw [Nat.toDigits_of_lt_base one, show n / 4096 = 0 by omega, show n / 256 % 16 = 0 by omega,
      show n / 16 % 16 = 0 by omega, show n % 16 = n by omega]
    rfl
  by_cases two : n < 256
  · rw [step (by omega), Nat.toDigits_of_lt_base (show n / 16 < 16 by omega),
      show n / 4096 = 0 by omega, show n / 256 % 16 = 0 by omega,
      show n / 16 % 16 = n / 16 by omega]
    rfl
  by_cases three : n < 4096
  · rw [step (by omega), step (by omega),
      Nat.toDigits_of_lt_base (show n / 16 / 16 < 16 by omega),
      show n / 4096 = 0 by omega, show n / 256 % 16 = n / 16 / 16 by omega]
    rfl
  · rw [step (by omega), step (by omega), step (by omega),
      Nat.toDigits_of_lt_base (show n / 16 / 16 / 16 < 16 by omega),
      show n / 4096 = n / 16 / 16 / 16 by omega, show n / 256 % 16 = n / 16 / 16 % 16 by omega]
    rfl

theorem scan?_hexDigit (found : List Token) (pieces : List Piece) (count code : Nat) {d : Nat}
    (h : d < 16) (rest : List Char) :
    scan? found (.digits pieces count code) (d.digitChar :: rest)
      = scan? found (if count = 3 then .string (.unit (code * 16 + d) :: pieces)
          else .digits pieces (count + 1) (code * 16 + d)) rest := by
  rw [scan?_cons, scanChar?, hexValue?_digitChar h, Option.map_some]
  by_cases last : count = 3
  · rw [if_pos last, if_pos last]
    rfl
  · rw [if_neg last, if_neg last]
    rfl

theorem scan?_escaped_unit (found : List Token) (pieces : List Piece) {n : Nat} (h : n < 65536)
    (rest : List Char) :
    scan? found (.string pieces) (("\\u" ++ Text.hex 4 n).toList ++ rest)
      = scan? found (.string (.unit n :: pieces)) rest := by
  have whole :
      (((0 * 16 + n / 4096) * 16 + n / 256 % 16) * 16 + n / 16 % 16) * 16 + n % 16 = n := by
    omega
  rw [String.toList_append, toList_hex_four h]
  show scan? found (.digits pieces 0 0) ((n / 4096).digitChar :: (n / 256 % 16).digitChar
    :: (n / 16 % 16).digitChar :: (n % 16).digitChar :: rest) = _
  rw [scan?_hexDigit _ _ _ _ (by omega), if_neg (by decide), scan?_hexDigit _ _ _ _ (by omega),
    if_neg (by decide), scan?_hexDigit _ _ _ _ (by omega), if_neg (by decide),
    scan?_hexDigit _ _ _ _ (by omega), if_pos (by decide), whole]

/-- The text of a character is read as a piece that stands for it. -/
theorem exists_spells (c : Char) :
    ∃ p, Spells p c ∧ ∀ found pieces rest,
      scan? found (.string pieces) ((escapeChar c).toList ++ rest)
        = scan? found (.string (p :: pieces)) rest := by
  have code {n : Nat} {d : Char} (h : c.toNat = n) (hd : Char.ofNat n = d) : c = d := by
    rw [← hd, ← h, Char.ofNat_toNat]
  unfold escapeChar
  -- the first seven branches write a backslash and one more character
  split
  next h =>
    subst h
    exact ⟨_, .char _, fun _ _ _ => rfl⟩
  next quote =>
  split
  next h =>
    subst h
    exact ⟨_, .char _, fun _ _ _ => rfl⟩
  next backslash =>
  split
  next h =>
    subst h
    exact ⟨_, .char _, fun _ _ _ => rfl⟩
  split
  next h =>
    subst h
    exact ⟨_, .char _, fun _ _ _ => rfl⟩
  split
  next h =>
    subst h
    exact ⟨_, .char _, fun _ _ _ => rfl⟩
  split
  next h =>
    obtain rfl := code h rfl
    exact ⟨_, .char _, fun _ _ _ => rfl⟩
  split
  next h =>
    obtain rfl := code h rfl
    exact ⟨_, .char _, fun _ _ _ => rfl⟩
  split
  next h =>
    have low : c.toNat < 0xd800 := by
      rcases h with h | rfl | rfl | rfl | h | h
      · omega
      · decide
      · decide
      · decide
      · omega
      · omega
    exact ⟨_, .unit c low, fun found pieces rest =>
      scan?_escaped_unit found pieces (Nat.lt_trans low (by decide)) rest⟩
  next plain =>
    refine ⟨_, .char c, fun found pieces rest => ?_⟩
    rw [show c.toString.toList = [c] from String.toList_singleton c, List.singleton_append,
      scan?_cons, scanChar?, if_neg quote, if_neg backslash, if_neg fun low => plain (.inl low)]
    rfl

theorem scan?_escaped (found : List Token) (cs : List Char) (pieces : List Piece)
    (rest : List Char) : ∃ new, textOfPieces new = cs ∧
      scan? found (.string pieces) (cs.flatMap (fun c => (escapeChar c).toList) ++ rest)
        = scan? found (.string (new.reverse ++ pieces)) rest := by
  induction cs generalizing pieces with
  | nil => exact ⟨[], rfl, rfl⟩
  | cons c cs ih =>
    obtain ⟨p, spells, first⟩ := exists_spells c
    obtain ⟨new, text, later⟩ := ih (p :: pieces)
    refine ⟨p :: new, by rw [spells.textOfPieces_cons, text], ?_⟩
    rw [List.flatMap_cons, List.append_assoc, first, later, List.reverse_cons, List.append_assoc]
    rfl

theorem emits_quote (s : String) : Emits (quote s).toList [.text s] := by
  intro found rest
  have spelled : (quote s).toList ++ rest
      = '"' :: (s.toList.flatMap (fun c => (escapeChar c).toList) ++ '"' :: rest) := by
    simp only [quote, String.toList_append, String.toList_join, List.flatMap_map,
      String.reduceToList, List.append_assoc, List.cons_append, List.nil_append]
  obtain ⟨pieces, text, inside⟩ := scan?_escaped found s.toList [] ('"' :: rest)
  rw [spelled]
  show scan? found (.string []) _ = _
  rw [inside, List.append_nil]
  show scan? (.text (String.ofList (textOfPieces pieces.reverse.reverse)) :: found) .nothing rest
    = _
  rw [List.reverse_reverse, text, String.ofList_toList]
  rfl

/-! ## Scanning documents -/

mutual

/-- The tokens of a document. -/
def Value.tokens : Value → List Token
  | .string s => [.text s]
  | .array items => .openArray :: ([Token.comma].intercalate (itemTokens items) ++ [.closeArray])
  | .object members =>
    .openObject :: ([Token.comma].intercalate (memberTokens members) ++ [.closeObject])
  | v => [.scalar v]

def itemTokens : List Value → List (List Token)
  | [] => []
  | v :: vs => v.tokens :: itemTokens vs

def memberTokens : List (String × Value) → List (List Token)
  | [] => []
  | (key, v) :: ms => (.text key :: .colon :: v.tokens) :: memberTokens ms

end

/-- Every number in the document is a natural number. -/
inductive Value.Natural : Value → Prop where
  | null : Natural .null
  | bool (b : Bool) : Natural (.bool b)
  | number (n : Nat) : Natural (.ofNat n)
  | string (s : String) : Natural (.string s)
  | array {items : List Value} (h : ∀ v ∈ items, Natural v) : Natural (.array items)
  | object {members : List (String × Value)} (h : ∀ m ∈ members, Natural m.2) :
    Natural (.object members)

theorem itemTokens_eq (items : List Value) : itemTokens items = items.map Value.tokens := by
  induction items with
  | nil => rfl
  | cons v items ih => rw [itemTokens, ih, List.map_cons]

theorem memberTokens_eq (members : List (String × Value)) :
    memberTokens members = members.map fun m => .text m.1 :: .colon :: m.2.tokens := by
  induction members with
  | nil => rfl
  | cons m members ih => rw [memberTokens, ih, List.map_cons]

theorem indentedItems_eq (level : Nat) (items : List Value) :
    indentedItems level items = items.map (Value.indented level) := by
  induction items with
  | nil => rfl
  | cons v items ih => rw [indentedItems, ih, List.map_cons]

theorem indentedMembers_eq (level : Nat) (members : List (String × Value)) :
    indentedMembers level members
      = members.map fun m => quote m.1 ++ ": " ++ m.2.indented level := by
  induction members with
  | nil => rfl
  | cons m members ih => rw [indentedMembers, ih, List.map_cons]

theorem emits_indentation (level : Nat) : Emits (indentation level).toList [] := by
  rw [indentation, String.toList_ofList]
  exact emits_spaces _

/-- Texts that commas separate, with or without blanks, are the tokens of their elements. -/
theorem scans_separated {α : Type} {text : α → List Char} {tokens : α → List Token}
    {blanks : List Char} (comma : Emits (',' :: blanks) [.comma]) (x : α) (xs : List α)
    (h : ∀ y ∈ x :: xs, Scans (text y) (tokens y)) :
    Scans ((',' :: blanks).intercalate ((x :: xs).map text))
      ([Token.comma].intercalate ((x :: xs).map tokens)) := by
  induction xs generalizing x with
  | nil =>
    rw [List.map_singleton, List.map_singleton, List.intercalate_singleton,
      List.intercalate_singleton]
    exact h x List.mem_cons_self
  | cons x' xs ih =>
    have later := ih x' fun y hy => h y (List.mem_cons_of_mem _ hy)
    rw [List.map_cons, List.map_cons, List.map_cons, List.map_cons, List.intercalate_cons_cons,
      List.intercalate_cons_cons]
    exact ((h x List.mem_cons_self).append_emits comma rfl).append_scans later

theorem emits_block {α : Type} {text : α → String} {tokens : α → List Token}
    (opening closing : Char) {start stop : Token} (hstart : Emits [opening] [start])
    (hstop : Emits [closing] [stop]) (level : Nat) (xs : List α)
    (h : ∀ x ∈ xs, Scans (text x).toList (tokens x)) :
    Emits (block (String.singleton opening) (String.singleton closing) level (xs.map text)).toList
      (start :: ([Token.comma].intercalate (xs.map tokens) ++ [stop])) := by
  unfold block
  cases xs with
  | nil =>
    rw [List.map_nil, if_pos List.isEmpty_nil, String.toList_append, String.toList_singleton,
      String.toList_singleton, List.map_nil, List.intercalate_nil]
    exact hstart.append hstop
  | cons x xs =>
    have newline : Emits ['\n'] [] := Emits.of_start rfl
    have comma : Emits [',', '\n'] [.comma] :=
      (Emits.of_start rfl : Emits [','] [.comma]).append newline
    have line (y : α) (hy : y ∈ x :: xs) :
        Scans ((indentation (level + 1)).toList ++ (text y).toList) (tokens y) :=
      (emits_indentation (level + 1)).append_scans (h y hy)
    have lines := scans_separated comma x xs line
    rw [if_neg (by simp)]
    simp only [String.toList_append, String.toList_singleton, String.toList_intercalate,
      List.map_map, Function.comp_def, List.append_assoc]
    exact hstart.append <| newline.append <|
      lines.append_emits (newline.append ((emits_indentation level).append hstop)) rfl

theorem Value.Natural.scans_indented {v : Value} (h : v.Natural) (level : Nat) :
    Scans (v.indented level).toList v.tokens := by
  induction h generalizing level with
  | null => exact (scans_bare rfl rfl : Scans "null".toList _)
  | bool b =>
    cases b with
    | false => exact (scans_bare rfl rfl : Scans "false".toList _)
    | true => exact (scans_bare rfl rfl : Scans "true".toList _)
  | number n => exact scans_nat n
  | string s => exact (emits_quote s).scans
  | @array items _ ih =>
    have body := emits_block '[' ']' (Emits.of_start rfl)
      (Emits.of_start rfl) level items fun v hv => ih v hv (level + 1)
    rw [Value.indented, Value.tokens, indentedItems_eq, itemTokens_eq]
    exact body.scans
  | @object members _ ih =>
    have colon : Emits [':', ' '] [.colon] :=
      (Emits.of_start rfl : Emits [':'] [.colon]).append (Emits.of_start rfl : Emits [' '] [])
    have member (m : String × Value) (hm : m ∈ members) :
        Scans (quote m.1 ++ ": " ++ m.2.indented (level + 1)).toList
          (.text m.1 :: .colon :: m.2.tokens) := by
      rw [String.toList_append, String.toList_append]
      exact ((emits_quote m.1).append colon).append_scans (ih m hm (level + 1))
    have body := emits_block '\x7b' '\x7d' (Emits.of_start rfl)
      (Emits.of_start rfl) level members member
    rw [Value.indented, Value.tokens, indentedMembers_eq, memberTokens_eq]
    exact body.scans

/-- The elements of a container on one line. -/
theorem emits_row {α : Type} {text : α → String} {tokens : α → List Token}
    (opening closing : Char) {start stop : Token} (hstart : Emits [opening] [start])
    (hstop : Emits [closing] [stop]) (ends : isBare closing = false) (xs : List α)
    (h : ∀ x ∈ xs, Scans (text x).toList (tokens x)) :
    Emits (String.singleton opening ++ ",".intercalate (xs.map text)
        ++ String.singleton closing).toList
      (start :: ([Token.comma].intercalate (xs.map tokens) ++ [stop])) := by
  simp only [String.toList_append, String.toList_singleton, String.toList_intercalate,
    List.map_map, List.append_assoc]
  cases xs with
  | nil => exact hstart.append hstop
  | cons x xs =>
    have comma : Emits [','] [.comma] := Emits.of_start rfl
    have row := scans_separated comma x xs h
    exact hstart.append (row.append_emits hstop ends)

theorem compactItems_eq (items : List Value) : compactItems items = items.map Value.compact := by
  induction items with
  | nil => rfl
  | cons v items ih => rw [compactItems, ih, List.map_cons]

theorem compactMembers_eq (members : List (String × Value)) :
    compactMembers members = members.map fun m => quote m.1 ++ ":" ++ m.2.compact := by
  induction members with
  | nil => rfl
  | cons m members ih => rw [compactMembers, ih, List.map_cons]

theorem Value.Natural.scans_compact {v : Value} (h : v.Natural) :
    Scans v.compact.toList v.tokens := by
  induction h with
  | null => exact (scans_bare rfl rfl : Scans "null".toList _)
  | bool b =>
    cases b with
    | false => exact (scans_bare rfl rfl : Scans "false".toList _)
    | true => exact (scans_bare rfl rfl : Scans "true".toList _)
  | number n => exact scans_nat n
  | string s => exact (emits_quote s).scans
  | @array items _ ih =>
    have body := emits_row '[' ']' (Emits.of_start rfl) (Emits.of_start rfl) rfl items ih
    rw [Value.compact, Value.tokens, compactItems_eq, itemTokens_eq]
    exact body.scans
  | @object members _ ih =>
    have member (m : String × Value) (hm : m ∈ members) :
        Scans (quote m.1 ++ ":" ++ m.2.compact).toList (.text m.1 :: .colon :: m.2.tokens) := by
      rw [String.toList_append, String.toList_append]
      exact ((emits_quote m.1).append (Emits.of_start rfl : Emits [':'] [.colon])).append_scans
        (ih m hm)
    have body := emits_row '\x7b' '\x7d' (Emits.of_start rfl) (Emits.of_start rfl) rfl members
      member
    rw [Value.compact, Value.tokens, compactMembers_eq, memberTokens_eq]
    exact body.scans

theorem Scans.tokens?_eq {text : List Char} {tokens : List Token} (h : Scans text tokens) :
    tokens? text = some tokens := by
  have scanned := h [] [] (fun c hc => nomatch hc)
  rw [List.append_nil, List.append_nil] at scanned
  unfold tokens?
  rw [scanned]
  show some tokens.reverse.reverse = _
  rw [List.reverse_reverse]

/-! ## Assembling documents -/

/-- An array takes one level itself and leaves the others to its items. -/
theorem add_itemsDepth_le_iff {items : List Value} {n limit : Nat} :
    n + (itemsDepth items + 1) ≤ limit
      ↔ n < limit ∧ ∀ v ∈ items, n + 1 + v.depth ≤ limit := by
  induction items with
  | nil => exact (and_iff_left fun v hv => nomatch hv).symm
  | cons v items ih =>
    rw [List.forall_mem_cons, and_left_comm, ← ih, itemsDepth]
    omega

theorem add_membersDepth_le_iff {members : List (String × Value)} {n limit : Nat} :
    n + (membersDepth members + 1) ≤ limit
      ↔ n < limit ∧ ∀ m ∈ members, n + 1 + m.2.depth ≤ limit := by
  induction members with
  | nil => exact (and_iff_left fun m hm => nomatch hm).symm
  | cons m members ih =>
    rw [List.forall_mem_cons, and_left_comm, ← ih, membersDepth]
    omega

namespace Assembly

/-- The tokens of elements that commas separate hand over one element after the other. -/
theorem reads_separated {α : Type} (ready delivered : List α → Assembly)
    (tokens : α → List Token) {fits : α → Prop}
    (comma : ∀ done, step? (delivered done) .comma = some (ready done)) (x : α) (xs : List α)
    (element : ∀ y ∈ x :: xs, ∀ done,
      Reads (fits y) ((tokens y).foldlM step? (ready done)) (delivered (y :: done)))
    (done : List α) :
    Reads (∀ y ∈ x :: xs, fits y)
      (([Token.comma].intercalate ((x :: xs).map tokens)).foldlM step? (ready done))
      (delivered ((x :: xs).reverse ++ done)) := by
  induction xs generalizing x done with
  | nil =>
    rw [List.map_singleton, List.intercalate_singleton]
    exact (element x List.mem_cons_self done).congr List.forall_mem_singleton.symm
  | cons x' xs ih =>
    have first := element x List.mem_cons_self done
    have later := ih x' (fun y hy => element y (List.mem_cons_of_mem _ hy)) (x :: done)
    have resumed : Reads (∀ y ∈ x' :: xs, fits y)
        (([Token.comma] ++ [Token.comma].intercalate ((x' :: xs).map tokens)).foldlM step?
          (delivered (x :: done))) (delivered ((x' :: xs).reverse ++ x :: done)) := by
      rw [List.singleton_append, List.foldlM_cons, comma]
      exact later
    rw [List.map_cons, List.map_cons, List.intercalate_cons_cons, List.append_assoc,
      List.foldlM_append, List.reverse_cons, List.append_assoc]
    exact (first.bind fun _ => resumed).congr List.forall_mem_cons.symm

/-- Where a value may come, it is read like where one must come. -/
theorem foldlM_itemOrClose (v : Value) (containers : List Container) (rest : List Token) :
    (v.tokens ++ rest).foldlM step? ⟨containers, .itemOrClose⟩
      = (v.tokens ++ rest).foldlM step? ⟨containers, .value⟩ := by
  cases v <;> rfl

theorem reads_enter (c : Container) (phase : Phase) (outer : List Container) :
    Reads (outer.length < maxDepth) (enter? c phase outer) ⟨c :: outer, phase⟩ :=
  ⟨fun h => if_pos h, fun h => if_neg h⟩

theorem reads_items {items : List Value} (fits : Value → Prop) {outer : List Container}
    (item : ∀ v ∈ items, ∀ done, Reads (fits v)
      (v.tokens.foldlM step? ⟨.array done :: outer, .value⟩) (deliver v (.array done :: outer))) :
    Reads (∀ v ∈ items, fits v)
      (([Token.comma].intercalate (items.map Value.tokens) ++ [Token.closeArray]).foldlM step?
        ⟨.array [] :: outer, .itemOrClose⟩) (deliver (.array items) outer) := by
  cases items with
  | nil => exact (Reads.of_eq rfl).congr (iff_of_true trivial nofun)
  | cons v vs =>
    have read := reads_separated (fun done => ⟨.array done :: outer, .value⟩)
      (fun done => ⟨.array done :: outer, .commaOrClose⟩) Value.tokens (fun _ => rfl) v vs item []
    -- the first item may come where the array could also be closed
    have start : ∃ rest, [Token.comma].intercalate ((v :: vs).map Value.tokens)
        ++ [Token.closeArray] = v.tokens ++ rest := by
      cases vs with
      | nil => exact ⟨_, by rw [List.map_singleton, List.intercalate_singleton]⟩
      | cons v' vs =>
        exact ⟨_, by rw [List.map_cons, List.map_cons, List.intercalate_cons_cons,
          List.append_assoc, List.append_assoc]⟩
    obtain ⟨rest, start⟩ := start
    rw [start, foldlM_itemOrClose, ← start, List.foldlM_append]
    refine read.bind_some ?_
    show some (deliver (.array ((v :: vs).reverse ++ []).reverse) outer) = _
    rw [List.append_nil, List.reverse_reverse]

theorem reads_members {members : List (String × Value)} (fits : Value → Prop)
    {outer : List Container} (member : ∀ m ∈ members, ∀ done key, Reads (fits m.2)
      (m.2.tokens.foldlM step? ⟨.object done key :: outer, .value⟩)
      (deliver m.2 (.object done key :: outer))) :
    Reads (∀ m ∈ members, fits m.2)
      (([Token.comma].intercalate (members.map fun m => .text m.1 :: .colon :: m.2.tokens)
        ++ [Token.closeObject]).foldlM step? ⟨.object [] "" :: outer, .keyOrClose⟩)
      (deliver (.object members) outer) := by
  cases members with
  | nil => exact (Reads.of_eq rfl).congr (iff_of_true trivial nofun)
  | cons m ms =>
    have read := reads_separated (fun done => ⟨.object done "" :: outer, .key⟩)
      (fun done => ⟨.object done "" :: outer, .commaOrClose⟩)
      (fun m => .text m.1 :: .colon :: m.2.tokens) (fun _ => rfl) m ms
      (fun m hm done => member m hm done m.1) []
    -- a key may come where one must come
    have start : ([Token.comma].intercalate
        ((m :: ms).map fun m => .text m.1 :: .colon :: m.2.tokens)
        ++ [Token.closeObject]).foldlM step? ⟨.object [] "" :: outer, .keyOrClose⟩
        = ([Token.comma].intercalate
        ((m :: ms).map fun m => .text m.1 :: .colon :: m.2.tokens)
        ++ [Token.closeObject]).foldlM step? ⟨.object [] "" :: outer, .key⟩ := by
      rw [List.map_cons, List.intercalate_cons_cons_left]
      rfl
    rw [start, List.foldlM_append]
    refine read.bind_some ?_
    show some (deliver (.object ((m :: ms).reverse ++ []).reverse) outer) = _
    rw [List.append_nil, List.reverse_reverse]

end Assembly

theorem Value.Natural.reads_tokens {v : Value} (h : v.Natural) (containers : List Container)
    (room : containers.length ≤ maxDepth) :
    Reads (containers.length + v.depth ≤ maxDepth)
      (v.tokens.foldlM Assembly.step? ⟨containers, .value⟩) (Assembly.deliver v containers) := by
  induction h generalizing containers with
  | null => exact (Reads.of_eq rfl).congr (iff_of_true trivial room)
  | bool b => exact (Reads.of_eq rfl).congr (iff_of_true trivial room)
  | number n => exact (Reads.of_eq rfl).congr (iff_of_true trivial room)
  | string s => exact (Reads.of_eq rfl).congr (iff_of_true trivial room)
  | @array items _ ih =>
    rw [Value.tokens, itemTokens_eq, Value.depth, List.foldlM_cons]
    refine ((Assembly.reads_enter (.array []) .itemOrClose containers).bind fun deeper =>
      Assembly.reads_items (fun v => containers.length + 1 + v.depth ≤ maxDepth)
        fun v hv done => ih v hv (.array done :: containers) deeper).congr ?_
    exact add_itemsDepth_le_iff.symm
  | @object members _ ih =>
    rw [Value.tokens, memberTokens_eq, Value.depth, List.foldlM_cons]
    refine ((Assembly.reads_enter (.object [] "") .keyOrClose containers).bind fun deeper =>
      Assembly.reads_members (fun v => containers.length + 1 + v.depth ≤ maxDepth)
        fun m hm done key => ih m hm (.object done key :: containers) deeper).congr ?_
    exact add_membersDepth_le_iff.symm

theorem Value.Natural.reads_of_scans {v : Value} (h : v.Natural) {text : List Char}
    (scans : Scans text v.tokens) : Reads (v.depth ≤ maxDepth) (parse? text) v := by
  have tree := h.reads_tokens [] (Nat.zero_le _)
  rw [List.length_nil, Nat.zero_add] at tree
  unfold parse?
  rw [scans.tokens?_eq]
  exact tree.bind_some rfl

theorem Value.Natural.reads_pretty {v : Value} (h : v.Natural) :
    Reads (v.depth ≤ maxDepth) (parse? v.pretty.toList) v :=
  h.reads_of_scans (h.scans_indented 0)

theorem Value.Natural.reads_compact {v : Value} (h : v.Natural) :
    Reads (v.depth ≤ maxDepth) (parse? v.compact.toList) v :=
  h.reads_of_scans h.scans_compact

/-! ## The depth of what is read -/

/-- The token does not bring a whole container. -/
def Token.Flat : Token → Prop
  | .scalar v => v.depth = 0
  | _ => True

theorem flat_of_bareToken? {chars : List Char} {t : Token} (h : bareToken? chars = some t) :
    t.Flat := by
  unfold bareToken? at h
  split at h
  next => cases h; rfl
  split at h
  next => cases h; rfl
  split at h
  next => cases h; rfl
  split at h
  next => cases h; rfl
  next => cases h

theorem flat_of_startToken? {c : Char} {tokens : List Token} {pending : Pending}
    (h : startToken? c = some (tokens, pending)) : ∀ t ∈ tokens, t.Flat := by
  unfold startToken? at h
  split at h
  case h_8 =>
    split at h
    next => cases h; exact nofun
    split at h
    next => cases h; exact nofun
    next => cases h
  case h_7 => cases h; exact nofun
  all_goals
    cases h
    exact List.forall_mem_singleton.mpr trivial

theorem flat_of_scanChar? {before pending : Pending} {c : Char} {tokens : List Token}
    (h : scanChar? before c = some (tokens, pending)) : ∀ t ∈ tokens, t.Flat := by
  cases before with
  | nothing => exact flat_of_startToken? h
  | bare chars =>
    rw [scanChar?] at h
    split at h
    next => cases h; exact nofun
    next =>
      obtain ⟨token, bare, h⟩ := Option.bind_eq_some_iff.mp h
      obtain ⟨⟨started, _⟩, start, h⟩ := Option.bind_eq_some_iff.mp h
      cases h
      exact List.forall_mem_append.mpr ⟨flat_of_startToken? start,
        List.forall_mem_singleton.mpr (flat_of_bareToken? bare)⟩
  | string pieces =>
    rw [scanChar?] at h
    split at h
    next => cases h; exact List.forall_mem_singleton.mpr trivial
    split at h
    next => cases h; exact nofun
    split at h
    next => cases h
    next => cases h; exact nofun
  | escape pieces =>
    rw [scanChar?] at h
    split at h
    next => cases h; exact nofun
    next =>
      obtain ⟨d, -, same⟩ := Option.map_eq_some_iff.mp h
      cases same
      exact nofun
  | digits pieces count code =>
    obtain ⟨d, -, same⟩ := Option.map_eq_some_iff.mp h
    dsimp only at same
    split at same
    next => cases same; exact nofun
    next => cases same; exact nofun

theorem flat_of_scan? {found tokens : List Token} {pending : Pending} {text : List Char}
    (h : scan? found pending text = some tokens) (flat : ∀ t ∈ found, t.Flat) :
    ∀ t ∈ tokens, t.Flat := by
  induction text generalizing found pending with
  | nil =>
    cases pending with
    | nothing => cases h; exact flat
    | bare chars =>
      obtain ⟨token, bare, same⟩ := Option.map_eq_some_iff.mp h
      cases same
      exact List.forall_mem_cons.mpr ⟨flat_of_bareToken? bare, flat⟩
    | string pieces => cases h
    | escape pieces => cases h
    | digits pieces count code => cases h
  | cons c text ih =>
    rw [scan?_cons] at h
    obtain ⟨⟨new, pending'⟩, taken, h⟩ := Option.bind_eq_some_iff.mp h
    exact ih h (List.forall_mem_append.mpr ⟨flat_of_scanChar? taken, flat⟩)

/-- The elements that a container has so far. -/
def Container.values : Container → List Value
  | .array items => items
  | .object members _ => members.map Prod.snd

namespace Assembly

/-- There is room for the open containers, and in each for the elements that it has. -/
def Roomy : List Container → Prop
  | [] => True
  | c :: outer => outer.length < maxDepth ∧
    (∀ v ∈ c.values, outer.length + 1 + v.depth ≤ maxDepth) ∧ Roomy outer

/-- Nothing that is open or finished is too deep. -/
structure Bounded (a : Assembly) : Prop where
  roomy : Roomy a.containers
  finished : ∀ v, a.phase = .finished v → v.depth ≤ maxDepth

theorem Roomy.length_le {containers : List Container} (h : Roomy containers) :
    containers.length ≤ maxDepth := by
  cases containers with
  | nil => exact Nat.zero_le _
  | cons c outer => exact h.1

section

variable {containers outer : List Container} {a b : Assembly} {t : Token}

theorem bounded_deliver (h : Roomy containers) {v : Value}
    (fits : containers.length + v.depth ≤ maxDepth) : (deliver v containers).Bounded := by
  match containers, h, fits with
  | [], _, fits =>
    refine ⟨trivial, fun w same => ?_⟩
    cases same
    rwa [List.length_nil, Nat.zero_add] at fits
  | .array items :: outer, h, fits =>
    exact ⟨⟨h.1, List.forall_mem_cons.mpr ⟨fits, h.2.1⟩, h.2.2⟩, nofun⟩
  | .object members key :: outer, h, fits =>
    exact ⟨⟨h.1, List.forall_mem_cons.mpr ⟨fits, h.2.1⟩, h.2.2⟩, nofun⟩

theorem bounded_close_array {items : List Value} (h : Roomy (.array items :: outer)) :
    (deliver (.array items.reverse) outer).Bounded := by
  refine bounded_deliver h.2.2 (add_itemsDepth_le_iff.mpr ⟨h.1, fun v hv => ?_⟩)
  exact h.2.1 v (List.mem_reverse.mp hv)

theorem bounded_close_object {members : List (String × Value)} {key : String}
    (h : Roomy (.object members key :: outer)) :
    (deliver (.object members.reverse) outer).Bounded := by
  refine bounded_deliver h.2.2 (add_membersDepth_le_iff.mpr ⟨h.1, fun m hm => ?_⟩)
  exact h.2.1 m.2 (List.mem_map_of_mem (List.mem_reverse.mp hm))

theorem bounded_enter {c : Container} {phase : Phase} (h : Roomy containers)
    (entered : enter? c phase containers = some b) (new : c.values = [])
    (unfinished : ∀ v, phase = .finished v → False) : b.Bounded := by
  unfold enter? at entered
  split at entered
  next room =>
    cases entered
    exact ⟨⟨room, new ▸ nofun, h⟩, fun v same => (unfinished v same).elim⟩
  next => cases entered

theorem bounded_value? (h : Roomy containers) (flat : t.Flat)
    (taken : value? containers t = some b) : b.Bounded := by
  cases t with
  | openArray => exact bounded_enter h taken rfl nofun
  | openObject => exact bounded_enter h taken rfl nofun
  | text s =>
    cases taken
    exact bounded_deliver h h.length_le
  | scalar v =>
    cases taken
    have leaf : v.depth = 0 := flat
    exact bounded_deliver h (leaf ▸ h.length_le)
  | closeArray => cases taken
  | closeObject => cases taken
  | comma => cases taken
  | colon => cases taken

/-- A token brings a value, closes a container, or changes only the key or the phase. -/
theorem step?_cases (taken : a.step? t = some b) :
    value? a.containers t = some b ∨
    (∃ items outer, a.containers = .array items :: outer ∧
      b = deliver (.array items.reverse) outer) ∨
    (∃ members key outer, a.containers = .object members key :: outer ∧
      b = deliver (.object members.reverse) outer) ∨
    (∃ members key key' outer, a.containers = .object members key :: outer ∧
      b = ⟨.object members key' :: outer, .colon⟩) ∨
    (b.containers = a.containers ∧ ∀ v, b.phase ≠ .finished v) := by
  unfold step? at taken
  split at taken
  next => exact .inl taken
  next inside =>
    cases taken
    exact .inr (.inl ⟨_, _, inside, rfl⟩)
  next => exact .inl taken
  next inside =>
    cases taken
    exact .inr (.inr (.inl ⟨_, _, _, inside, rfl⟩))
  next inside =>
    cases taken
    exact .inr (.inr (.inr (.inl ⟨_, _, _, _, inside, rfl⟩)))
  next inside =>
    cases taken
    exact .inr (.inr (.inr (.inl ⟨_, _, _, _, inside, rfl⟩)))
  next =>
    cases taken
    exact .inr (.inr (.inr (.inr ⟨rfl, nofun⟩)))
  next inside =>
    cases taken
    exact .inr (.inr (.inr (.inr ⟨inside.symm, nofun⟩)))
  next inside =>
    cases taken
    exact .inr (.inr (.inr (.inr ⟨inside.symm, nofun⟩)))
  next inside =>
    cases taken
    exact .inr (.inl ⟨_, _, inside, rfl⟩)
  next inside =>
    cases taken
    exact .inr (.inr (.inl ⟨_, _, _, inside, rfl⟩))
  next => cases taken

/-- One token keeps the bound: a container is closed one level further out than its elements. -/
theorem Bounded.of_step? (h : a.Bounded) (flat : t.Flat) (taken : a.step? t = some b) :
    b.Bounded := by
  have roomy := h.roomy
  obtain value | ⟨items, outer, inside, rfl⟩ | ⟨members, key, outer, inside, rfl⟩ |
    ⟨members, key, key', outer, inside, rfl⟩ | ⟨same, unfinished⟩ := step?_cases taken
  · exact bounded_value? roomy flat value
  · exact bounded_close_array (inside ▸ roomy)
  · exact bounded_close_object (inside ▸ roomy)
  · rw [inside] at roomy
    exact ⟨roomy, nofun⟩
  · exact ⟨same ▸ roomy, fun v finished => absurd finished (unfinished v)⟩

end

theorem Bounded.of_foldlM {a b : Assembly} {tokens : List Token} (h : a.Bounded)
    (flat : ∀ t ∈ tokens, t.Flat) (taken : tokens.foldlM step? a = some b) : b.Bounded := by
  induction tokens generalizing a with
  | nil =>
    cases taken
    exact h
  | cons t tokens ih =>
    rw [List.forall_mem_cons] at flat
    rw [List.foldlM_cons] at taken
    obtain ⟨next, first, later⟩ := Option.bind_eq_some_iff.mp taken
    exact ih (h.of_step? flat.1 first) flat.2 later

end Assembly

theorem depth_le_of_parse? {text : List Char} {v : Value} (h : parse? text = some v) :
    v.depth ≤ maxDepth := by
  obtain ⟨tokens, scanned, rest⟩ := Option.bind_eq_some_iff.mp h
  obtain ⟨final, assembled, read⟩ := Option.bind_eq_some_iff.mp rest
  obtain ⟨found, listed, rfl⟩ := Option.map_eq_some_iff.mp scanned
  have flat (t : Token) (ht : t ∈ found.reverse) : t.Flat :=
    flat_of_scan? listed nofun t (List.mem_reverse.mp ht)
  have start : Assembly.Bounded ⟨[], .value⟩ := ⟨trivial, nofun⟩
  have bounded := start.of_foldlM flat assembled
  split at read
  next w finished =>
    cases read
    exact bounded.finished v finished
  next => cases read

end TraceRegex.Json
