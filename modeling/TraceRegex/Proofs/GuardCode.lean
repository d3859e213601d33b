import TraceRegex.Snapshot.Bytecode

/-! # The code of a guard

The code of a formula is taken off the front of any bytes that start with it, whatever follows: its
value is that of the formula, and the check passes if the atoms of the formula are in range.  As
many steps as the code has bytes are enough.  What passes the check is the code of such a formula.
-/

namespace TraceRegex

theorem bind_eq_ok {ε α β : Type} {m : Except ε α} {f : α → Except ε β} {y : β}
    (h : m >>= f = .ok y) : ∃ x, m = .ok x ∧ f x = .ok y := by
  cases m with
  | error e => cases h
  | ok x => exact ⟨x, rfl, h⟩

/-- Two bytes spell every number that fits into them. -/
theorem word16_bytes16 {n : Nat} (h : n ≤ maxWord16) :
    word16 n.toUInt8 (n / 256).toUInt8 = n := by
  unfold maxWord16 at h
  simp only [word16, Nat.toUInt8_eq, UInt8.toNat_ofNat']
  omega

namespace Formula

/-- The bytes are the code of the formula. -/
inductive Coded : Formula → Bytecode → Prop where
  | const (b : Bool) : Coded (.const b) [if b then 1 else 0]
  | var {i : UInt32} (small : i.toNat ≤ maxWord16) : Coded (.var i) (2 :: bytes16 i.toNat)
  | not {f : Formula} {code : Bytecode} (arg : Coded f code) : Coded (.not f) (3 :: code)
  | and {f g : Formula} {lhs rhs : Bytecode} (left : Coded f lhs) (right : Coded g rhs) :
      Coded (.and f g) (4 :: (lhs ++ rhs))
  | or {f g : Formula} {lhs rhs : Bytecode} (left : Coded f lhs) (right : Coded g rhs) :
      Coded (.or f g) (5 :: (lhs ++ rhs))

theorem Coded.length_pos {f : Formula} {code : Bytecode} (h : Coded f code) : 0 < code.length := by
  cases h <;> simp

theorem coded_of_encode {f : Formula} {code : Bytecode} (h : f.encode = .ok code) :
    Coded f code := by
  induction f generalizing code with
  | const b =>
    cases h
    exact .const b
  | var i =>
    unfold encode at h
    split at h
    · cases h
    · next small =>
      cases h
      exact .var (Nat.le_of_not_lt small)
  | not f ih =>
    obtain ⟨arg, hf, h⟩ := bind_eq_ok h
    cases h
    exact .not (ih hf)
  | and f g ihf ihg =>
    obtain ⟨lhs, hf, h⟩ := bind_eq_ok h
    obtain ⟨rhs, hg, h⟩ := bind_eq_ok h
    cases h
    exact .and (ihf hf) (ihg hg)
  | or f g ihf ihg =>
    obtain ⟨lhs, hf, h⟩ := bind_eq_ok h
    obtain ⟨rhs, hg, h⟩ := bind_eq_ok h
    cases h
    exact .or (ihf hf) (ihg hg)

theorem encode_of_coded {f : Formula} {code : Bytecode} (h : Coded f code) :
    f.encode = .ok code := by
  induction h with
  | const b => rfl
  | var small => exact if_neg (Nat.not_lt.mpr small)
  | not arg ih => simp [encode, ih, bind, Except.bind, pure, Except.pure]
  | and left right ihl ihr => simp [encode, ihl, ihr, bind, Except.bind, pure, Except.pure]
  | or left right ihl ihr => simp [encode, ihl, ihr, bind, Except.bind, pure, Except.pure]

theorem varCount_le_iff {f : Formula} {n : Nat} :
    f.varCount ≤ n ↔ ∀ i, f.mentions i = true → i.toNat < n := by
  induction f with
  | const b => simp [varCount, mentions]
  | var j =>
    refine ⟨fun bound i same => ?_, fun all => all j (beq_self_eq_true j)⟩
    rw [eq_of_beq same]
    exact bound
  | not f ih => exact ih
  | and f g ihf ihg | or f g ihf ihg =>
    rw [varCount, Nat.max_le, ihf, ihg]
    simp only [mentions, Bool.or_eq_true, or_imp, forall_and]

/-- A formula has a code if the numbers of its atoms fit into two bytes; otherwise it has an atom
    that does not fit and is reported. -/
theorem encode_cases (f : Formula) :
    ((∃ code, f.encode = .ok code) ∧ ∀ i, f.mentions i = true → i.toNat ≤ maxWord16) ∨
      ∃ i, f.mentions i = true ∧ maxWord16 < i.toNat ∧ f.encode = .error (.atomOffset i.toNat) := by
  induction f with
  | const b => exact .inl ⟨⟨_, rfl⟩, by simp [mentions]⟩
  | var j =>
    by_cases large : maxWord16 < j.toNat
    · exact .inr ⟨j, by simp [mentions], large, if_pos large⟩
    · refine .inl ⟨⟨_, if_neg large⟩, ?_⟩
      simpa [mentions] using large
  | not f ih =>
    rcases ih with ⟨⟨code, encoded⟩, small⟩ | ⟨i, mentioned, large, failed⟩
    · exact .inl ⟨⟨3 :: code, by rw [encode, encoded]; rfl⟩, small⟩
    · exact .inr ⟨i, mentioned, large, by rw [encode, failed]; rfl⟩
  | and f g ihf ihg | or f g ihf ihg =>
    rcases ihf with ⟨⟨lhs, left⟩, small⟩ | ⟨i, mentioned, large, failed⟩
    · rcases ihg with ⟨⟨rhs, right⟩, small'⟩ | ⟨i, mentioned, large, failed⟩
      · refine .inl ⟨?_, fun i either => ?_⟩
        · rw [encode, left, right]
          exact ⟨_, rfl⟩
        · exact ((Bool.or_eq_true _ _).mp either).elim (small i) (small' i)
      · exact .inr ⟨i, by simp [mentions, mentioned], large, by rw [encode, left, failed]; rfl⟩
    · exact .inr ⟨i, by simp [mentions, mentioned], large, by rw [encode, failed]; rfl⟩

end Formula

/-- Two bytes are those of the number that they spell. -/
theorem bytes16_word16 (lo hi : UInt8) : bytes16 (word16 lo hi) = [lo, hi] := by
  have hlo := lo.toNat_lt
  have hhi := hi.toNat_lt
  have low : (word16 lo hi).toUInt8 = lo := by
    apply UInt8.toNat_inj.mp
    simp only [word16, Nat.toUInt8_eq, UInt8.toNat_ofNat']
    omega
  have high : (word16 lo hi / 256).toUInt8 = hi := by
    apply UInt8.toNat_inj.mp
    simp only [word16, Nat.toUInt8_eq, UInt8.toNat_ofNat']
    omega
  rw [bytes16, low, high]

theorem word16_le (lo hi : UInt8) : word16 lo hi ≤ maxWord16 := by
  have := lo.toNat_lt
  have := hi.toNat_lt
  unfold word16 maxWord16
  omega

namespace Bytecode

open Formula

/-- Running the code gives the value of the formula, and leaves what follows the code. -/
theorem evalFront_append {f : Formula} {code : Bytecode} (h : Coded f code) (l : Letter)
    (steps : Nat) (enough : code.length ≤ steps) (rest : Bytecode) :
    evalFront l steps (code ++ rest) = .ok (f.eval l, rest) := by
  induction h generalizing steps rest with
  | const b =>
    cases steps with
    | zero => cases enough
    | succ steps =>
      cases b with
      | true => rfl
      | false => rfl
  | @var i small =>
    cases steps with
    | zero => cases enough
    | succ steps =>
      show Except.ok (l.holds (word16 i.toNat.toUInt8 (i.toNat / 256).toUInt8), rest) = _
      rw [word16_bytes16 small]
      rfl
  | @not f code arg ih =>
    cases steps with
    | zero => cases enough
    | succ steps =>
      show (evalFront l steps (code ++ rest) >>= fun p => pure (!p.1, p.2)) = _
      rw [ih steps (Nat.le_of_succ_le_succ enough) rest]
      rfl
  | @and f g lhs rhs left right ihl ihr =>
    cases steps with
    | zero => cases enough
    | succ steps =>
      have total : (lhs ++ rhs).length ≤ steps := Nat.le_of_succ_le_succ enough
      rw [List.length_append] at total
      -- what the left operand leaves starts with the code of the right one
      show (evalFront l steps (lhs ++ rhs ++ rest) >>= fun p =>
        evalFront l steps p.2 >>= fun q => pure (p.1 && q.1, q.2)) = _
      rw [List.append_assoc, ihl steps (by omega) (rhs ++ rest)]
      show (evalFront l steps (rhs ++ rest) >>= fun q => pure (f.eval l && q.1, q.2)) = _
      rw [ihr steps (by omega) rest]
      rfl
  | @or f g lhs rhs left right ihl ihr =>
    cases steps with
    | zero => cases enough
    | succ steps =>
      have total : (lhs ++ rhs).length ≤ steps := Nat.le_of_succ_le_succ enough
      rw [List.length_append] at total
      show (evalFront l steps (lhs ++ rhs ++ rest) >>= fun p =>
        evalFront l steps p.2 >>= fun q => pure (p.1 || q.1, q.2)) = _
      rw [List.append_assoc, ihl steps (by omega) (rhs ++ rest)]
      show (evalFront l steps (rhs ++ rest) >>= fun q => pure (f.eval l || q.1, q.2)) = _
      rw [ihr steps (by omega) rest]
      rfl

theorem eval_of_encode {f : Formula} {code : Bytecode} (h : f.encode = .ok code) (l : Letter) :
    eval l code = .ok (f.eval l) := by
  have front := evalFront_append (coded_of_encode h) l code.length (Nat.le_refl _) []
  rw [List.append_nil] at front
  unfold eval
  rw [front]
  rfl

/-- The check takes the code off the front if its atoms are in range. -/
theorem checkFront_append {f : Formula} {code : Bytecode} (h : Coded f code) {atomCount : Nat}
    (bound : f.varCount ≤ atomCount) (steps : Nat) (enough : code.length ≤ steps)
    (rest : Bytecode) : checkFront atomCount steps (code ++ rest) = .ok rest := by
  induction h generalizing steps rest with
  | const b =>
    cases steps with
    | zero => cases enough
    | succ steps =>
      cases b with
      | true => rfl
      | false => rfl
  | @var i small =>
    cases steps with
    | zero => cases enough
    | succ steps =>
      show (if atomCount ≤ word16 i.toNat.toUInt8 (i.toNat / 256).toUInt8 then _ else _) = _
      rw [word16_bytes16 small, if_neg (Nat.not_le.mpr bound)]
      rfl
  | @not f code arg ih =>
    cases steps with
    | zero => cases enough
    | succ steps => exact ih bound steps (Nat.le_of_succ_le_succ enough) rest
  | @and f g lhs rhs left right ihl ihr | @or f g lhs rhs left right ihl ihr =>
    cases steps with
    | zero => cases enough
    | succ steps =>
      have total : (lhs ++ rhs).length ≤ steps := Nat.le_of_succ_le_succ enough
      rw [List.length_append] at total
      obtain ⟨boundF, boundG⟩ := Nat.max_le.mp bound
      show (checkFront atomCount steps (lhs ++ rhs ++ rest) >>= checkFront atomCount steps) = _
      rw [List.append_assoc, ihl boundF steps (by omega) (rhs ++ rest)]
      exact ihr boundG steps (by omega) rest

theorem check_of_encode {f : Formula} {code : Bytecode} (h : f.encode = .ok code) {atomCount : Nat}
    (bound : f.varCount ≤ atomCount) : check atomCount code = .ok () := by
  have front := checkFront_append (coded_of_encode h) bound code.length (Nat.le_refl _) []
  rw [List.append_nil] at front
  unfold check
  rw [front]
  rfl

theorem toNat_word16 (lo hi : UInt8) : (word16 lo hi).toUInt32.toNat = word16 lo hi := by
  have small := word16_le lo hi
  unfold maxWord16 at small
  apply UInt32.toNat_ofNat_of_lt'
  simp only [UInt32.size]
  omega

theorem coded_atom (lo hi : UInt8) : Coded (.atom (word16 lo hi)) [2, lo, hi] := by
  have small : (word16 lo hi).toUInt32.toNat ≤ maxWord16 := by
    rw [toNat_word16]
    exact word16_le lo hi
  have coded := Coded.var small
  rwa [toNat_word16, bytes16_word16] at coded

/-- What a step of the check accepts: a constant, an atom in range, or a connective whose operands
    the check takes off next. -/
theorem checkFront_cases {atomCount steps : Nat} {op : UInt8} {code rest : Bytecode}
    (h : checkFront atomCount (steps + 1) (op :: code) = .ok rest) :
    ((op = 0 ∨ op = 1) ∧ code = rest) ∨
    (op = 2 ∧ ∃ lo hi, code = lo :: hi :: rest ∧ word16 lo hi < atomCount) ∨
    (op = 3 ∧ checkFront atomCount steps code = .ok rest) ∨
    ((op = 4 ∨ op = 5) ∧ ∃ middle, checkFront atomCount steps code = .ok middle ∧
      checkFront atomCount steps middle = .ok rest) := by
  unfold checkFront at h
  by_cases constant : op = 0 ∨ op = 1
  · rw [if_pos constant] at h
    exact Or.inl ⟨constant, Except.ok.inj h⟩
  rw [if_neg constant] at h
  by_cases atom : op = 2
  · rw [if_pos atom] at h
    split at h
    next lo hi code =>
      by_cases outside : atomCount ≤ word16 lo hi
      · rw [if_pos outside] at h
        cases h
      · rw [if_neg outside] at h
        cases h
        exact Or.inr (Or.inl ⟨atom, lo, hi, rfl, Nat.not_le.mp outside⟩)
    next => cases h
  rw [if_neg atom] at h
  by_cases negation : op = 3
  · rw [if_pos negation] at h
    exact Or.inr (Or.inr (Or.inl ⟨negation, h⟩))
  rw [if_neg negation] at h
  by_cases binary : op = 4 ∨ op = 5
  · rw [if_pos binary] at h
    exact Or.inr (Or.inr (Or.inr ⟨binary, bind_eq_ok h⟩))
  · rw [if_neg binary] at h
    cases h

/-- What the check takes off the front is the code of a formula whose atoms are in range. -/
theorem exists_coded_of_checkFront {atomCount steps : Nat} {code rest : Bytecode}
    (h : checkFront atomCount steps code = .ok rest) :
    ∃ f front, Coded f front ∧ code = front ++ rest ∧ f.varCount ≤ atomCount := by
  induction steps generalizing code rest with
  | zero => cases h
  | succ steps ih =>
    cases code with
    | nil => cases h
    | cons op code =>
      obtain ⟨rfl | rfl, rfl⟩ | ⟨rfl, lo, hi, rfl, inside⟩ | ⟨rfl, operand⟩ |
        ⟨binary, middle, left, right⟩ := checkFront_cases h
      · exact ⟨_, _, .const false, rfl, Nat.zero_le _⟩
      · exact ⟨_, _, .const true, rfl, Nat.zero_le _⟩
      · refine ⟨_, _, coded_atom lo hi, rfl, ?_⟩
        show (word16 lo hi).toUInt32.toNat + 1 ≤ atomCount
        rw [toNat_word16]
        exact inside
      · obtain ⟨f, front, coded, rfl, bound⟩ := ih operand
        exact ⟨_, _, .not coded, rfl, bound⟩
      · obtain ⟨f, lhs, codedF, rfl, boundF⟩ := ih left
        obtain ⟨g, rhs, codedG, rfl, boundG⟩ := ih right
        have bound := Nat.max_le.mpr ⟨boundF, boundG⟩
        cases binary with
        | inl conjunction => exact ⟨_, _, .and codedF codedG, by simp [conjunction], bound⟩
        | inr disjunction => exact ⟨_, _, .or codedF codedG, by simp [disjunction], bound⟩

theorem exists_encode_of_check {atomCount : Nat} {code : Bytecode}
    (h : check atomCount code = .ok ()) :
    ∃ f : Formula, f.encode = .ok code ∧ f.varCount ≤ atomCount := by
  obtain ⟨rest, front, ended⟩ := bind_eq_ok h
  obtain ⟨f, taken, coded, same, bound⟩ := exists_coded_of_checkFront front
  by_cases empty : rest.isEmpty = true
  · rw [List.isEmpty_iff.mp empty, List.append_nil] at same
    exact ⟨f, same ▸ encode_of_coded coded, bound⟩
  · rw [if_neg empty] at ended
    cases ended

end Bytecode

end TraceRegex
