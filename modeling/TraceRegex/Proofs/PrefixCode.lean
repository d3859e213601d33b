import TraceRegex.Proofs.GuardCode
import TraceRegex.Proofs.HashConsing

/-! # Guard code is a prefix code

Every formula whose atoms have numbers of two bytes has a code, and reading the code gives the
formula back, whatever the context holds.  The bytes that pass the check are exactly such codes, and
no code is a proper beginning of another one.

The check takes bytes off the front and so cannot look at a byte that is not there.  A scan by
position can; `checkAt` is that scan, where a look beyond the end is a fault.  It never comes to
one, and finds what the check finds.
-/

namespace TraceRegex

namespace Formula

variable {f g : Formula} {code : Bytecode}

theorem encode_error_iff : (∃ e, f.encode = .error e) ↔
    ∃ i, f.mentions i = true ∧ maxWord16 < i.toNat := by
  rcases encode_cases f with ⟨⟨code, encoded⟩, small⟩ | ⟨i, mentioned, large, failed⟩
  · refine ⟨fun ⟨e, failed⟩ => ?_, fun ⟨i, mentioned, large⟩ => ?_⟩
    · cases encoded.symm.trans failed
    · exact absurd (small i mentioned) (Nat.not_le.mpr large)
  · exact ⟨fun _ => ⟨i, mentioned, large⟩, fun _ => ⟨_, failed⟩⟩

end Formula

namespace Bytecode

open Formula

variable {f g : Formula} {code rest : Bytecode}

/-! ## Reading -/

/-- Reading takes the code off the front and builds the formula, whatever follows the code. -/
theorem decompileFront_append (h : Coded f code) (steps : Nat) (enough : code.length ≤ steps)
    (rest : Bytecode) :
    Build.Returns (decompileFront steps (code ++ rest)).run (.ok (f, rest)) := by
  open Build in
  induction h generalizing steps rest with
  | const b =>
    cases steps with
    | zero => cases enough
    | succ steps =>
      cases b with
      | true => exact Returns.pure _
      | false => exact Returns.pure _
  | @var i small =>
    cases steps with
    | zero => cases enough
    | succ steps =>
      have same : atom (word16 i.toNat.toUInt8 (i.toNat / 256).toUInt8) = .var i := by
        rw [word16_bytes16 small]
        simp [atom]
      rw [← same]
      exact Returns.pure _
  | @not f code arg ih =>
    cases steps with
    | zero => cases enough
    | succ steps =>
      exact (ih steps (Nat.le_of_succ_le_succ enough) rest).except_bind
        ((not_returns f).lift.except_bind (Returns.pure _))
  | @and f g lhs rhs left right ihl ihr =>
    cases steps with
    | zero => cases enough
    | succ steps =>
      have total : (lhs ++ rhs).length ≤ steps := Nat.le_of_succ_le_succ enough
      rw [List.length_append] at total
      -- what the left operand leaves starts with the code of the right one
      have first := ihl steps (by omega) (rhs ++ rest)
      rw [← List.append_assoc] at first
      exact first.except_bind ((ihr steps (by omega) rest).except_bind
        ((and_returns f g).lift.except_bind (Returns.pure _)))
  | @or f g lhs rhs left right ihl ihr =>
    cases steps with
    | zero => cases enough
    | succ steps =>
      have total : (lhs ++ rhs).length ≤ steps := Nat.le_of_succ_le_succ enough
      rw [List.length_append] at total
      have first := ihl steps (by omega) (rhs ++ rest)
      rw [← List.append_assoc] at first
      exact first.except_bind ((ihr steps (by omega) rest).except_bind
        ((or_returns f g).lift.except_bind (Returns.pure _)))

theorem decompile_of_encode (h : f.encode = .ok code) :
    Build.Returns code.decompile.run (.ok f) := by
  have front := decompileFront_append (coded_of_encode h) code.length (Nat.le_refl _) []
  rw [List.append_nil] at front
  exact front.except_bind (Build.Returns.pure _)

/-- Bytes begin with the code of at most one formula. -/
theorem coded_unique {front front' rest rest' : Bytecode} (h : Coded f front) (h' : Coded g front')
    (same : front ++ rest = front' ++ rest') : f = g ∧ rest = rest' := by
  have enough : front.length ≤ (front ++ rest).length := by simp
  have enough' : front'.length ≤ (front ++ rest).length := by simp [same]
  have first := decompileFront_append h _ enough rest
  have second := decompileFront_append h' _ enough' rest'
  rw [← same] at second
  exact Prod.mk.inj (Except.ok.inj (first.unique second))

theorem check_iff_of_encode (h : f.encode = .ok code) (n : Nat) :
    check n code = .ok () ↔ f.varCount ≤ n := by
  refine ⟨fun passed => ?_, check_of_encode h⟩
  obtain ⟨g, encoded, bound⟩ := exists_encode_of_check passed
  have same : code ++ [] = code ++ [] := rfl
  obtain ⟨rfl, -⟩ := coded_unique (coded_of_encode h) (coded_of_encode encoded) same
  exact bound

theorem check_iff (n : Nat) (code : Bytecode) : check n code = .ok () ↔
    ∃ f : Formula, f.encode = .ok code ∧ ∀ i, f.mentions i = true → i.toNat < n := by
  refine ⟨fun passed => ?_, fun ⟨f, encoded, small⟩ => ?_⟩
  · obtain ⟨f, encoded, bound⟩ := exists_encode_of_check passed
    exact ⟨f, encoded, varCount_le_iff.mp bound⟩
  · exact check_of_encode encoded (varCount_le_iff.mpr small)

/-! ## Checking by position -/

/-- The byte at a position. -/
def byteAt (code : Bytecode) (pos : Nat) : Except Fault UInt8 :=
  match code[pos]? with
  | some b => .ok b
  | none => .error .outOfRange

/-- Checks the code of one formula at a position, giving the position after it.  There is a fault if
    a byte beyond the end is looked at, or if the steps do not suffice. -/
def checkAt (atomCount : Nat) (code : Bytecode) :
    Nat → Nat → Except Fault (Except BytecodeError Nat)
  | 0, _ => .error .outOfRange
  | steps + 1, pos => do
    if code.length ≤ pos then return .error .truncated
    let op ← byteAt code pos
    if op = 0 ∨ op = 1 then return .ok (pos + 1)
    else if op = 2 then
      if code.length < pos + 3 then return .error .truncated
      let atom := word16 (← byteAt code (pos + 1)) (← byteAt code (pos + 2))
      if atomCount ≤ atom then return .error (.atomOutOfBounds atom) else return .ok (pos + 3)
    else if op = 3 then checkAt atomCount code steps (pos + 1)
    else if op = 4 ∨ op = 5 then
      match ← checkAt atomCount code steps (pos + 1) with
      | .ok next => checkAt atomCount code steps next
      | .error e => return .error e
    else return .error (.invalidOpcode op)

/-- Checks that the bytes are the code of exactly one formula over atoms below `atomCount`, from the
    first position on. -/
def scan (atomCount : Nat) (code : Bytecode) : Except Fault (Except BytecodeError Unit) := do
  match ← checkAt atomCount code (code.length + 1) 0 with
  | .ok next =>
    if next = code.length then return .ok ()
    else return .error (.trailingBytes (code.length - next))
  | .error e => return .error e

theorem byteAt_eq {pos : Nat} (inside : pos < code.length) : byteAt code pos = .ok code[pos] := by
  simp [byteAt, inside]

theorem checkFront_nil (n steps : Nat) : checkFront n steps [] = .error .truncated := by
  cases steps with
  | zero => rfl
  | succ steps => rfl

/-- What the check leaves is what stands after a later position. -/
theorem drop_of_checkFront {n steps pos : Nat}
    (h : checkFront n steps (code.drop pos) = .ok rest) :
    pos < code.length - rest.length ∧ code.drop (code.length - rest.length) = rest := by
  -- the check takes off at least one byte, the opcode
  obtain ⟨f, front, coded, same, -⟩ := exists_coded_of_checkFront h
  have last : rest <:+ code :=
    (List.suffix_append front rest).trans (same ▸ List.drop_suffix pos code)
  refine ⟨?_, (List.suffix_iff_eq_drop.mp last).symm⟩
  have lengths := congrArg List.length same
  rw [List.length_drop, List.length_append] at lengths
  have := coded.length_pos
  omega

/-- The position after the code that the check takes off. -/
def position (code : Bytecode) (r : Except BytecodeError Bytecode) : Except BytecodeError Nat :=
  r.map fun rest => code.length - rest.length

theorem position_drop {pos : Nat} (inside : pos < code.length) :
    position code (.ok (code.drop (pos + 1))) = .ok (pos + 1) := by
  show Except.ok (code.length - (code.drop (pos + 1)).length) = _
  rw [List.length_drop]
  congr 1
  omega

/-- Both bytes of an atom are there when they are looked at. -/
theorem checkAt_atom {pos : Nat} (inside : pos < code.length) (atom : code[pos] = 2)
    (n steps steps' : Nat) : checkAt n code (steps + 1) pos =
      .ok (position code (checkFront n (steps' + 1) (code.drop pos))) := by
  unfold checkAt
  rw [if_neg (Nat.not_le.mpr inside), byteAt_eq inside, List.drop_eq_getElem_cons inside, atom]
  show (if code.length < pos + 3 then _ else _) = _
  by_cases short : code.length < pos + 3
  · rw [if_pos short]
    have few : (code.drop (pos + 1)).length < 2 := by
      rw [List.length_drop]
      omega
    match code.drop (pos + 1), few with
    | [], _ => rfl
    | [_], _ => rfl
  · have second : pos + 1 < code.length := by omega
    have third : pos + 2 < code.length := by omega
    rw [if_neg short, byteAt_eq second, byteAt_eq third, List.drop_eq_getElem_cons second,
      List.drop_eq_getElem_cons third]
    show (if n ≤ word16 code[pos + 1] code[pos + 2] then _ else _) =
      Except.ok (position code (if n ≤ word16 code[pos + 1] code[pos + 2] then _ else _))
    split
    · rfl
    · rw [position_drop third]
      rfl

/-- The scan by position finds what the check of the bytes from there on finds. -/
theorem checkAt_eq (n : Nat) (code : Bytecode) (steps steps' pos : Nat)
    (enough : code.length - pos < steps) (enough' : code.length - pos ≤ steps') :
    checkAt n code steps pos = .ok (position code (checkFront n steps' (code.drop pos))) := by
  induction steps generalizing pos steps' with
  | zero => omega
  | succ steps ih =>
    by_cases inside : pos < code.length
    · obtain ⟨steps', rfl⟩ : ∃ k, steps' = k + 1 := ⟨steps' - 1, by omega⟩
      by_cases atom : code[pos] = 2
      · exact checkAt_atom inside atom n steps steps'
      unfold checkAt
      rw [if_neg (Nat.not_le.mpr inside), byteAt_eq inside, List.drop_eq_getElem_cons inside]
      unfold checkFront
      -- both look at the same opcode, and go on alike
      generalize code[pos] = op at atom
      show (if op = 0 ∨ op = 1 then _ else _) = _
      by_cases constant : op = 0 ∨ op = 1
      · rw [if_pos constant, if_pos constant, position_drop inside]
        rfl
      rw [if_neg constant, if_neg constant, if_neg atom, if_neg atom]
      by_cases negation : op = 3
      · rw [if_pos negation, if_pos negation]
        exact ih steps' (pos + 1) (by omega) (by omega)
      rw [if_neg negation, if_neg negation]
      by_cases binary : op = 4 ∨ op = 5
      · rw [if_pos binary, if_pos binary, ih steps' (pos + 1) (by omega) (by omega)]
        cases left : checkFront n steps' (code.drop (pos + 1)) with
        | error e => rfl
        | ok middle =>
          -- the right operand stands at the position where the left one ends
          obtain ⟨later, dropped⟩ := drop_of_checkFront left
          have right := ih steps' (code.length - middle.length) (by omega) (by omega)
          rw [dropped] at right
          exact right
      · rw [if_neg binary, if_neg binary]
        rfl
    · unfold checkAt
      rw [if_pos (Nat.not_lt.mp inside), List.drop_eq_nil_of_le (Nat.not_lt.mp inside),
        checkFront_nil]
      rfl

/-- The scan never looks beyond the end, and finds what the check finds. -/
theorem scan_eq (n : Nat) (code : Bytecode) : scan n code = .ok (check n code) := by
  have whole := checkAt_eq n code (code.length + 1) code.length 0 (by omega) (by omega)
  unfold scan check
  rw [whole, List.drop_zero]
  cases front : checkFront n code.length code with
  | error e => rfl
  | ok rest =>
    have taken : checkFront n code.length (code.drop 0) = .ok rest := front
    have later : 0 < code.length - rest.length := (drop_of_checkFront taken).1
    have count : code.length - (code.length - rest.length) = rest.length := by omega
    show (if code.length - rest.length = code.length then _ else Except.ok (Except.error
      (BytecodeError.trailingBytes (code.length - (code.length - rest.length))))) = _
    rw [count]
    cases rest with
    | nil => exact if_pos (Nat.sub_zero _)
    | cons b rest => exact if_neg (by rw [List.length_cons]; omega)

/-! ## The code of guards -/

/-- Guard code is an exact prefix code for formulas.

    A formula has no code exactly if it has an atom whose number exceeds two bytes, and such an atom
    is reported.  If it has a code, reading the code gives the formula back in every context, under
    the handle that it had if one was given out; and the code passes the check exactly if the atoms
    of the formula are in range.

    Conversely, for any bytes: checking them looks at no byte beyond their end; if they pass, they
    can be read in every context, and are the code of the formula that is read, whose atoms are in
    range.  So exactly the codes of formulas over atoms in range pass, and no code is a proper
    beginning of another one. -/
theorem guard_code_exact :
    (∀ f : Formula,
      ((∃ e, f.encode = .error e) ↔ ∃ i, f.mentions i = true ∧ maxWord16 < i.toNat) ∧
        (∀ e, f.encode = .error e →
          ∃ i, f.mentions i = true ∧ maxWord16 < i.toNat ∧ e = .atomOffset i.toNat) ∧
        ∀ code, f.encode = .ok code →
          (∀ ctx, (code.decompile.run.run ctx).1 = .ok f) ∧
            (∀ s h, Session.start.Leads s → (h, f) ∈ s.obtained →
              (s.step (.decompile code)).obtained = s.obtained ++ [(h, f)]) ∧
            ∀ n, check n code = .ok () ↔ f.varCount ≤ n) ∧
      (∀ (n : Nat) (code : Bytecode),
        scan n code = .ok (check n code) ∧
          (check n code = .ok () → ∀ ctx, ∃ f, (code.decompile.run.run ctx).1 = .ok f ∧
            f.varCount ≤ n ∧ f.encode = .ok code) ∧
          (check n code = .ok () ↔
            ∃ f : Formula, f.encode = .ok code ∧ ∀ i, f.mentions i = true → i.toNat < n)) ∧
      ∀ (f g : Formula) (code longer : Bytecode), f.encode = .ok code → g.encode = .ok longer →
        code <+: longer → f = g ∧ code = longer := by
  refine ⟨fun f => ⟨encode_error_iff, fun e failed => ?_, fun code encoded => ?_⟩,
    fun n code => ⟨scan_eq n code, fun passed ctx => ?_, check_iff n code⟩, ?_⟩
  · rcases encode_cases f with ⟨⟨code, encoded⟩, -⟩ | ⟨i, mentioned, large, failed'⟩
    · cases encoded.symm.trans failed
    · exact ⟨i, mentioned, large, Except.error.inj (failed.symm.trans failed')⟩
  · have read := decompile_of_encode encoded
    refine ⟨read, fun s h reached before => ?_, check_iff_of_encode encoded⟩
    have answers : Build.Returns (Operation.decompile code).run (some f) :=
      read.map Except.toOption
    exact reached.sound.obtained_step_of_mem (by simp [Operation.operands]) answers before
  · obtain ⟨f, encoded, bound⟩ := exists_encode_of_check passed
    exact ⟨f, decompile_of_encode encoded ctx, bound, encoded⟩
  · rintro f g code _ encoded encoded' ⟨rest, rfl⟩
    have same := coded_unique (coded_of_encode encoded) (coded_of_encode encoded')
      (List.append_nil (code ++ rest)).symm
    exact ⟨same.1, by rw [same.2, List.append_nil]⟩

/-- The guard `¬x0 ∧ x258`, whose code has an atom with two bytes that differ from zero. -/
theorem guard_code_exact_of_conjunction :
    let f := Formula.and (.not (.var 0)) (.var 258)
    let code : Bytecode := [4, 3, 2, 0, 0, 2, 2, 1]
    f.encode = .ok code ∧ check 259 code = .ok () ∧ check 258 code ≠ .ok () ∧
      (∀ ctx, (code.decompile.run.run ctx).1 = .ok f) ∧
      (∃ s h, Session.start.Leads s ∧ (h, f) ∈ s.obtained ∧
        (s.step (.decompile code)).obtained = s.obtained ++ [(h, f)]) ∧
      ∃ e, (Formula.var 65536).encode = .error e ∧ e = .atomOffset 65536 := by
  intro f code
  have encoded : f.encode = .ok code := rfl
  obtain ⟨formulas, -, -⟩ := guard_code_exact
  obtain ⟨-, -, coded⟩ := formulas f
  obtain ⟨read, again, checked⟩ := coded code encoded
  obtain ⟨s, reached, known⟩ := Session.exists_leads Session.start f
  obtain ⟨⟨h, _⟩, before, rfl⟩ := List.mem_map.mp known
  obtain ⟨fails, reported, -⟩ := formulas (.var 65536)
  obtain ⟨e, failed⟩ := fails.mpr ⟨65536, by decide, by decide⟩
  obtain ⟨i, mentioned, -, rfl⟩ := reported e failed
  refine ⟨encoded, (checked 259).mpr (by decide), fun passed => ?_, read,
    ⟨s, h, reached, before, again s h reached before⟩, _, failed, ?_⟩
  · exact absurd ((checked 258).mp passed) (by decide)
  · have same : i = 65536 := by simpa [mentions] using mentioned
    rw [same]
    rfl

end Bytecode

end TraceRegex
