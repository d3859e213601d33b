import TraceRegex.Text.Utf8

/-! # Reading back the bytes of a text

The bytes of a text are the encodings of its characters in a row, and every encoding is read as the
character that it encodes.
-/

namespace TraceRegex.Text

/-! ## One character -/

theorem continuation?_ofNat (n : Nat) :
    continuation? (UInt8.ofNat (n % 64 + 128)) = some (n % 64) := by
  have value : (UInt8.ofNat (n % 64 + 128)).toNat = n % 64 + 128 :=
    UInt8.toNat_ofNat_of_lt' (show n % 64 + 128 < 256 by omega)
  simp only [continuation?, UInt8.le_iff_toNat_le, UInt8.lt_iff_toNat_lt, UInt8.reduceToNat, value]
  rw [if_pos (show 128 ≤ n % 64 + 128 ∧ n % 64 + 128 < 192 by omega), Nat.add_sub_cancel]

theorem glyph?_toNat {c : Char} {least code : Nat} (h : least ≤ c.toNat) (same : code = c.toNat)
    (width : Nat) : glyph? least code width = some ⟨c, width⟩ := by
  subst same
  unfold glyph?
  rw [if_pos ⟨h, c.valid⟩, Char.ofNat_toNat]

theorem frontGlyph?_utf8EncodeChar (c : Char) (rest : List UInt8) :
    frontGlyph? (String.utf8EncodeChar c ++ rest)
      = some ⟨c, (String.utf8EncodeChar c).length⟩ := by
  have bound : c.toNat < 0x110000 := by
    rcases c.valid with h | ⟨_, h⟩
    · exact Nat.lt_trans h (by decide)
    · exact h
  have code : c.val.toNat = c.toNat := rfl
  have value {m : Nat} (hm : m < 256) : (UInt8.ofNat m).toNat = m := UInt8.toNat_ofNat_of_lt' hm
  -- one case for each number of bytes: the lead byte decides how many are read
  fun_cases String.utf8EncodeChar c with
  | case1 v one =>
    have lead := value (show v < 256 by omega)
    simp only [List.cons_append, List.nil_append, frontGlyph?, UInt8.lt_iff_toNat_lt,
      UInt8.reduceToNat, lead]
    rw [if_pos (by omega), show Char.ofNat v = c from Char.ofNat_toNat c]
    rfl
  | case2 v many two =>
    have lead := value (show v / 64 % 32 + 192 < 256 by omega)
    simp only [List.cons_append, List.nil_append, frontGlyph?, UInt8.lt_iff_toNat_lt,
      UInt8.reduceToNat, lead, continuation?_ofNat]
    rw [if_neg (by omega), if_neg (by omega), if_pos (by omega)]
    exact glyph?_toNat (by omega) (by omega) 2
  | case3 v many more three =>
    have lead := value (show v / 4096 % 16 + 224 < 256 by omega)
    simp only [List.cons_append, List.nil_append, frontGlyph?, UInt8.lt_iff_toNat_lt,
      UInt8.reduceToNat, lead, continuation?_ofNat]
    rw [if_neg (by omega), if_neg (by omega), if_neg (by omega), if_pos (by omega)]
    exact glyph?_toNat (by omega) (by omega) 3
  | case4 v many more most =>
    have lead := value (show v / 262144 % 8 + 240 < 256 by omega)
    simp only [List.cons_append, List.nil_append, frontGlyph?, UInt8.lt_iff_toNat_lt,
      UInt8.reduceToNat, lead, continuation?_ofNat]
    rw [if_neg (by omega), if_neg (by omega), if_neg (by omega), if_neg (by omega),
      if_pos (by omega)]
    exact glyph?_toNat (by omega) (by omega) 4

/-! ## All characters -/

theorem glyphsOnto_skip (found : List Glyph) (bytes rest : List UInt8) :
    glyphsOnto found bytes.length (bytes ++ rest) = glyphsOnto found 0 rest := by
  induction bytes with
  | nil => rfl
  | cons b bytes ih => exact ih

theorem glyphsOnto_of_front {found : List Glyph} {b : UInt8} {rest : List UInt8} {g : Glyph}
    (h : frontGlyph? (b :: rest) = some g) :
    glyphsOnto found 0 (b :: rest) = glyphsOnto (g :: found) (g.width - 1) rest := by
  rw [glyphsOnto, h]

theorem glyphsOnto_flatMap (cs : List Char) (found : List Glyph) :
    glyphsOnto found 0 (cs.flatMap String.utf8EncodeChar)
      = (cs.map fun c => ⟨c, c.utf8Size⟩).reverse ++ found := by
  induction cs generalizing found with
  | nil => rfl
  | cons c cs ih =>
    have front := frontGlyph?_utf8EncodeChar c (cs.flatMap String.utf8EncodeChar)
    have size := String.length_utf8EncodeChar c
    rw [List.flatMap_cons, List.map_cons, List.reverse_cons, List.append_assoc,
      List.singleton_append, ← ih, ← size]
    -- the first byte gives the glyph, and the others of the same character are skipped
    cases spelled : String.utf8EncodeChar c with
    | nil => exact absurd spelled String.utf8EncodeChar_ne_nil
    | cons b bytes =>
      rw [spelled, List.cons_append] at front
      rw [List.cons_append, glyphsOnto_of_front front]
      exact glyphsOnto_skip _ bytes _

theorem toList_loop (bs : ByteArray) (i : Nat) (r : List UInt8) :
    ByteArray.toList.loop bs i r = r.reverse ++ bs.data.toList.drop i := by
  fun_induction ByteArray.toList.loop bs i r with
  | case1 i r h ih =>
    have inside : i < bs.data.toList.length := h
    have head : bs.get! i = bs.data.toList.get ⟨i, inside⟩ := by
      show bs.data[i]! = _
      rw [getElem!_pos bs.data i inside]
      rfl
    rw [ih, List.drop_eq_getElem_cons inside, List.reverse_cons, List.append_assoc,
      List.singleton_append, head, List.get_eq_getElem]
  | case2 i r h =>
    have beyond : bs.data.toList.length ≤ i := Nat.not_lt.mp h
    rw [List.drop_eq_nil_of_le beyond, List.append_nil]

theorem toList_toByteArray (bytes : List UInt8) : bytes.toByteArray.toList = bytes := by
  show ByteArray.toList.loop bytes.toByteArray 0 [] = bytes
  rw [toList_loop, List.toList_data_toByteArray]
  rfl

theorem bytesOfString_eq (s : String) :
    bytesOfString s = s.toList.flatMap String.utf8EncodeChar := by
  unfold bytesOfString String.toUTF8
  rw [← String.utf8Encode_toList, List.utf8Encode, toList_toByteArray]

theorem glyphsOfBytes_bytesOfString (s : String) :
    glyphsOfBytes (bytesOfString s) = glyphsOfString s := by
  unfold glyphsOfBytes glyphsOfString
  rw [bytesOfString_eq, glyphsOnto_flatMap, List.append_nil, List.reverse_reverse]

theorem charsOfBytes_bytesOfString (s : String) : charsOfBytes (bytesOfString s) = s.toList := by
  unfold charsOfBytes
  rw [glyphsOfBytes_bytesOfString, glyphsOfString, List.map_map]
  exact List.map_id _

end TraceRegex.Text
