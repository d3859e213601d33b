import TraceRegex.Proofs.AtomNumbering

/-! # Derived forms

Bounded repetition, permutation and abort are no constructors: they are unfolded into unions and
concatenations.  Here they get their own meaning back.  The laws hold for every meaning of
expressions that takes the constructors for what they say (`Regular`); the language of an expression
is one such meaning, and the words that its automaton matches are another one.
-/

namespace TraceRegex

/-! ## Words in a row -/

section

variable {holds : Word → Prop} {m n : Nat} {w : Word}

theorem power_zero_iff : Power holds 0 w ↔ w = [] := by
  constructor
  · rintro ⟨⟩
    rfl
  · rintro rfl
    exact .zero

theorem power_succ_iff : Power holds (n + 1) w ↔ ∃ u v, w = u ++ v ∧ holds u ∧ Power holds n v := by
  constructor
  · rintro ⟨⟩
    next head tail => exact ⟨_, _, rfl, head, tail⟩
  · rintro ⟨u, v, rfl, head, tail⟩
    exact .succ head tail

theorem power_one_iff : Power holds 1 w ↔ holds w := by
  simp [power_succ_iff, power_zero_iff]

theorem power_add_iff :
    Power holds (m + n) w ↔ ∃ u v, w = u ++ v ∧ Power holds m u ∧ Power holds n v := by
  induction m generalizing w with
  | zero => simp [power_zero_iff]
  | succ m ih =>
    rw [Nat.add_right_comm, power_succ_iff]
    constructor
    · rintro ⟨u, v, rfl, head, rest⟩
      obtain ⟨v, v', rfl, front, back⟩ := ih.mp rest
      exact ⟨u ++ v, v', by simp, .succ head front, back⟩
    · rintro ⟨u, v, rfl, front, back⟩
      obtain ⟨u, u', rfl, head, front⟩ := power_succ_iff.mp front
      exact ⟨u, u' ++ v, by simp, head, ih.mpr ⟨u', v, rfl, front, back⟩⟩

/-- Up to `n + 1` words are none, or one and up to `n` more. -/
theorem exists_power_le_succ_iff :
    (∃ k ≤ n + 1, Power holds k w) ↔
      w = [] ∨ ∃ u v, w = u ++ v ∧ holds u ∧ ∃ k ≤ n, Power holds k v := by
  constructor
  · rintro ⟨k, le, power⟩
    cases k with
    | zero => exact .inl (power_zero_iff.mp power)
    | succ k =>
      obtain ⟨u, v, rfl, head, tail⟩ := power_succ_iff.mp power
      exact .inr ⟨u, v, rfl, head, k, Nat.le_of_succ_le_succ le, tail⟩
  · rintro (rfl | ⟨u, v, rfl, head, k, le, tail⟩)
    · exact ⟨0, Nat.zero_le _, .zero⟩
    · exact ⟨k + 1, Nat.succ_le_succ le, .succ head tail⟩

/-- A number of words from `m` to `m + n` is `m` words and up to `n` more. -/
theorem exists_power_between_iff :
    (∃ k, m ≤ k ∧ k ≤ m + n ∧ Power holds k w) ↔
      ∃ u v, w = u ++ v ∧ Power holds m u ∧ ∃ k ≤ n, Power holds k v := by
  constructor
  · rintro ⟨k, le, bound, power⟩
    obtain ⟨more, rfl⟩ := Nat.exists_eq_add_of_le le
    obtain ⟨u, v, rfl, front, back⟩ := power_add_iff.mp power
    exact ⟨u, v, rfl, front, more, Nat.le_of_add_le_add_left bound, back⟩
  · rintro ⟨u, v, rfl, front, more, le, back⟩
    exact ⟨m + more, Nat.le_add_right m more, Nat.add_le_add_left le m,
      power_add_iff.mpr ⟨u, v, rfl, front, back⟩⟩

/-- At least `m` words are `m` words and any number of them more. -/
theorem exists_power_ge_iff :
    (∃ k, m ≤ k ∧ Power holds k w) ↔
      ∃ u v, w = u ++ v ∧ Power holds m u ∧ ∃ k, Power holds k v := by
  constructor
  · rintro ⟨k, le, power⟩
    obtain ⟨more, rfl⟩ := Nat.exists_eq_add_of_le le
    obtain ⟨u, v, rfl, front, back⟩ := power_add_iff.mp power
    exact ⟨u, v, rfl, front, more, back⟩
  · rintro ⟨u, v, rfl, front, more, back⟩
    exact ⟨m + more, Nat.le_add_right m more, power_add_iff.mpr ⟨u, v, rfl, front, back⟩⟩

end

namespace Expression

/-- The word is a concatenation of words of the expressions, one of each, in the order of the
    list. -/
inductive InOrder (means : Expression → Word → Prop) : List Expression → Word → Prop where
  | nil : InOrder means [] []
  | cons {e : Expression} {es : List Expression} {u v : Word} (head : means e u)
      (tail : InOrder means es v) : InOrder means (e :: es) (u ++ v)

theorem inOrder_cons_iff {means : Expression → Word → Prop} {e : Expression}
    {es : List Expression} {w : Word} :
    InOrder means (e :: es) w ↔ ∃ u v, w = u ++ v ∧ means e u ∧ InOrder means es v := by
  constructor
  · rintro ⟨⟩
    next head tail => exact ⟨_, _, rfl, head, tail⟩
  · rintro ⟨u, v, rfl, head, tail⟩
    exact .cons head tail

theorem inOrder_nil_iff {means : Expression → Word → Prop} {w : Word} :
    InOrder means [] w ↔ w = [] := by
  constructor
  · rintro ⟨⟩
    rfl
  · rintro rfl
    exact .nil

theorem InOrder.congr {means means' : Expression → Word → Prop} {es : List Expression} {w : Word}
    (same : ∀ e ∈ es, ∀ u, means e u ↔ means' e u) (h : InOrder means es w) :
    InOrder means' es w := by
  induction h with
  | nil => exact .nil
  | cons head tail ih =>
    rw [List.forall_mem_cons] at same
    exact .cons ((same.1 _).mp head) (ih same.2)

/-! ## Meanings -/

/-- A meaning of expressions that takes the constructors of the derived forms for what they say. -/
structure Regular (means : Expression → Word → Prop) : Prop where
  empty_iff : ∀ {w}, means .empty w ↔ w = []
  union_iff : ∀ {e f w}, means (.union e f) w ↔ means e w ∨ means f w
  concat_iff : ∀ {e f w}, means (.concat e f) w ↔ ∃ u v, w = u ++ v ∧ means e u ∧ means f v
  star_iff : ∀ {e w}, means (.star e) w ↔ ∃ n, Power (means e) n w
  plus_iff : ∀ {e w}, means (.plus e) w ↔ ∃ n, Power (means e) (n + 1) w
  prefixes_iff : ∀ {e w}, means (.prefixes e) w ↔ ∃ v, means e (w ++ v)

theorem regular_matches : Regular Matches :=
  ⟨.rfl, .rfl, .rfl, .rfl, .rfl, .rfl⟩

/-- The automaton of the expression, built in the context, matches the word. -/
def Accepted (ctx : Context) (e : Expression) (w : Word) : Prop := (e.lower.run ctx).1.eval w = .ok

theorem accepted_iff_matches_wrap (ctx : Context) (e : Expression) (w : Word) :
    Accepted ctx e w ↔ e.wrap.Matches w := by
  obtain ⟨a, returned, recognizes⟩ := lower_returns e.wrap e.lt_of_mem_atoms_wrap
  rw [lower_wrap] at returned
  rw [Accepted, returned ctx, Automaton.eval_eq_ok_iff, recognizes.accepts_iff]

theorem regular_accepted (ctx : Context) : Regular (Accepted ctx) := by
  have same : Accepted ctx = fun e => e.wrap.Matches :=
    funext fun e => funext fun w => propext (accepted_iff_matches_wrap ctx e w)
  rw [same]
  exact ⟨.rfl, .rfl, .rfl, .rfl, .rfl, .rfl⟩

namespace Regular

variable {means : Expression → Word → Prop} (h : Regular means) {e : Expression} {w : Word}
include h

/-! ## Repetition -/

theorem power_iff {n : Nat} : means (e.power n) w ↔ Power (means e) (n + 1) w := by
  induction n generalizing w with
  | zero => exact power_one_iff.symm
  | succ n ih => simp only [power, h.concat_iff, ih, power_add_iff (m := n + 1), power_one_iff]

theorem upTo_iff {n : Nat} : means (e.upTo n) w ↔ ∃ k ≤ n + 1, Power (means e) k w := by
  induction n generalizing w with
  | zero =>
    rw [exists_power_le_succ_iff]
    simp [upTo, h.union_iff, h.empty_iff, power_zero_iff]
  | succ n ih =>
    rw [exists_power_le_succ_iff]
    simp only [upTo, h.union_iff, h.empty_iff, h.concat_iff, ih]

/-- The copies that are always there come first, and then those that may be there. -/
theorem between_iff {lo hi : Nat} (le : lo ≤ hi) :
    means (e.between lo hi) w ↔ ∃ k, lo ≤ k ∧ k ≤ hi ∧ Power (means e) k w := by
  obtain ⟨more, rfl⟩ := Nat.exists_eq_add_of_le le
  rw [exists_power_between_iff]
  unfold between
  rw [Nat.add_sub_cancel_left]
  -- without copies that are always there, or without further ones, one side is left out
  cases lo with
  | zero =>
    cases more with
    | zero => simp [h.empty_iff, power_zero_iff]
    | succ more => simp [h.upTo_iff, power_zero_iff]
  | succ lo =>
    cases more with
    | zero => simp [h.power_iff, power_zero_iff]
    | succ more => simp only [h.concat_iff, h.power_iff, h.upTo_iff]

theorem atLeast_iff {lo : Nat} :
    means (e.atLeast lo) w ↔ ∃ k, lo ≤ k ∧ Power (means e) k w := by
  match lo with
  | 0 => simp [atLeast, h.star_iff]
  | 1 =>
    simp only [atLeast, h.plus_iff]
    constructor
    · rintro ⟨n, power⟩
      exact ⟨n + 1, Nat.le_add_left 1 n, power⟩
    · rintro ⟨k, some, power⟩
      exact ⟨k - 1, by rwa [Nat.sub_add_cancel some]⟩
  | lo + 2 =>
    show means (.concat (e.power (lo + 1)) (.star e)) w ↔ _
    rw [exists_power_ge_iff, h.concat_iff]
    simp only [h.power_iff, h.star_iff]

/-! ## Permutation -/

theorem unionOf_iff {first : Expression} {rest : List Expression} :
    means (unionOf first rest) w ↔ ∃ e ∈ first :: rest, means e w := by
  rw [unionOf]
  induction rest generalizing first with
  | nil => simp
  | cons e rest ih =>
    rw [List.foldl_cons, ih]
    simp [h.union_iff, or_assoc]

end Regular

theorem exists_mem_picks {α : Type} {xs : List α} {y : α} (mem : y ∈ xs) :
    ∃ ys, (y, ys) ∈ picks xs := by
  induction xs with
  | nil => cases mem
  | cons x xs ih =>
    rw [picks]
    cases List.mem_cons.mp mem with
    | inl here => exact ⟨xs, by simp [here]⟩
    | inr later =>
      obtain ⟨ys, picked⟩ := ih later
      exact ⟨x :: ys, List.mem_cons_of_mem _ (List.mem_map.mpr ⟨_, picked, rfl⟩)⟩

/-- An order of a list starts with one of its elements, and goes on with an order of those that
    remain. -/
theorem exists_perm_iff_picks {α : Type} {xs : List α} {p : List α → Prop} (some : xs ≠ []) :
    (∃ order, order.Perm xs ∧ p order) ↔
      ∃ y ys, (y, ys) ∈ picks xs ∧ ∃ order, order.Perm ys ∧ p (y :: order) := by
  constructor
  · rintro ⟨order, perm, holds⟩
    cases order with
    | nil => exact absurd perm.nil_eq.symm some
    | cons y order =>
      obtain ⟨ys, picked⟩ := exists_mem_picks (perm.subset List.mem_cons_self)
      exact ⟨y, ys, picked, order, (perm.trans (perm_of_mem_picks picked).symm).cons_inv, holds⟩
  · rintro ⟨y, ys, picked, order, perm, holds⟩
    exact ⟨y :: order, (perm.cons y).trans (perm_of_mem_picks picked), holds⟩

namespace Regular

variable {means : Expression → Word → Prop} (h : Regular means) {w : Word}
include h

/-- Several expressions are permuted by the choice of the first. -/
theorem permuteOf_iff_picks {n : Nat} {e f : Expression} {rest : List Expression} :
    means (permuteOf (n + 1) (e :: f :: rest)) w ↔
      ∃ y ys, (y, ys) ∈ picks (e :: f :: rest) ∧ means (.concat y (permuteOf n ys)) w := by
  show means (unionOf (.concat e (permuteOf n (f :: rest))) _) w ↔ _
  rw [h.unionOf_iff]
  show (∃ g ∈ (picks (e :: f :: rest)).map fun p => .concat p.1 (permuteOf n p.2), means g w) ↔ _
  constructor
  · rintro ⟨g, mem, holds⟩
    obtain ⟨⟨y, ys⟩, picked, rfl⟩ := List.mem_map.mp mem
    exact ⟨y, ys, picked, holds⟩
  · rintro ⟨y, ys, picked, holds⟩
    exact ⟨_, List.mem_map.mpr ⟨(y, ys), picked, rfl⟩, holds⟩

theorem permuteOf_iff {n : Nat} {es : List Expression} (enough : es.length ≤ n) :
    means (permuteOf n es) w ↔ ∃ order, order.Perm es ∧ InOrder means order w := by
  induction n generalizing es w with
  | zero =>
    rw [List.length_eq_zero_iff.mp (Nat.le_zero.mp enough)]
    simp [permuteOf, h.empty_iff, inOrder_nil_iff]
  | succ n ih =>
    rcases es with _ | ⟨e, _ | ⟨f, rest⟩⟩
    · simp [permuteOf, h.empty_iff, inOrder_nil_iff]
    · simp [permuteOf, inOrder_cons_iff, inOrder_nil_iff]
    · rw [h.permuteOf_iff_picks, exists_perm_iff_picks (List.cons_ne_nil _ _)]
      refine exists_congr fun y => exists_congr fun ys => and_congr_right fun picked => ?_
      have fewer : ys.length ≤ n := by
        have length := (perm_of_mem_picks picked).length_eq
        simp only [List.length_cons] at length enough
        omega
      simp only [h.concat_iff, ih fewer, inOrder_cons_iff]
      constructor
      · rintro ⟨u, v, rfl, head, order, perm, tail⟩
        exact ⟨order, perm, u, v, rfl, head, tail⟩
      · rintro ⟨order, perm, u, v, rfl, head, tail⟩
        exact ⟨u, v, rfl, head, order, perm, tail⟩

theorem abort_iff {body exit : Expression} :
    means (body.abort exit) w ↔
      means body w ∨ ∃ u v, w = u ++ v ∧ (∃ t, means body (u ++ t)) ∧ means exit v := by
  rw [abort, h.union_iff, h.concat_iff, or_comm]
  simp only [h.prefixes_iff]

end Regular

/-! ## The reference semantics -/

theorem usesPrefixes_power {e : Expression} (plain : e.usesPrefixes = false) (n : Nat) :
    (e.power n).usesPrefixes = false := by
  induction n with
  | zero => exact plain
  | succ n ih => simp [power, usesPrefixes, ih, plain]

theorem usesPrefixes_upTo {e : Expression} (plain : e.usesPrefixes = false) (n : Nat) :
    (e.upTo n).usesPrefixes = false := by
  induction n with
  | zero => simp [upTo, usesPrefixes, plain]
  | succ n ih => simp [upTo, usesPrefixes, ih, plain]

theorem usesPrefixes_between {e : Expression} (plain : e.usesPrefixes = false) (lo hi : Nat) :
    (e.between lo hi).usesPrefixes = false := by
  unfold between
  split <;> simp [usesPrefixes, usesPrefixes_power plain, usesPrefixes_upTo plain]

theorem usesPrefixes_atLeast {e : Expression} (plain : e.usesPrefixes = false) (lo : Nat) :
    (e.atLeast lo).usesPrefixes = false := by
  unfold atLeast
  split <;> simp [usesPrefixes, usesPrefixes_power plain, plain]

theorem usesPrefixes_unionOf (first : Expression) {rest : List Expression}
    (plain : ∀ e ∈ first :: rest, e.usesPrefixes = false) :
    (unionOf first rest).usesPrefixes = false := by
  rw [unionOf]
  induction rest generalizing first with
  | nil => exact plain first List.mem_cons_self
  | cons e rest ih =>
    simp only [List.forall_mem_cons] at plain
    refine ih _ (List.forall_mem_cons.mpr ⟨?_, plain.2.2⟩)
    simp [usesPrefixes, plain.1, plain.2.1]

theorem usesPrefixes_permuteOf {n : Nat} {es : List Expression}
    (plain : ∀ e ∈ es, e.usesPrefixes = false) : (permuteOf n es).usesPrefixes = false := by
  induction n generalizing es with
  | zero => rfl
  | succ n ih =>
    match es with
    | [] => rfl
    | [e] => exact plain e List.mem_cons_self
    | e :: f :: rest =>
      refine usesPrefixes_unionOf (.concat e (permuteOf n (f :: rest))) fun g mem => ?_
      obtain ⟨⟨y, ys⟩, picked, rfl⟩ : ∃ p ∈ picks (e :: f :: rest),
          Expression.concat p.1 (permuteOf n p.2) = g := List.mem_map.mp mem
      have perm := perm_of_mem_picks picked
      have each : ∀ x ∈ y :: ys, x.usesPrefixes = false := fun x hx => plain x (perm.subset hx)
      rw [List.forall_mem_cons] at each
      simp [usesPrefixes, each.1, ih each.2]

/-- The reference semantics answers that the expression stands for the word. -/
theorem accepts_eq_ok_true_iff {e : Expression} (plain : e.usesPrefixes = false) (w : Word) :
    e.accepts w = .ok true ↔ e.Matches w := by
  obtain ⟨b, answered, holds⟩ := decides_accepts plain w
  rw [answered, ← holds, Except.ok.injEq]

/-! ## Main results -/

/-- With `L(e)^k` for `k` words of `e` in a row: from `lo` to `hi` copies of `e` stand for the words
    of `L(e)^k` with `lo ≤ k ≤ hi`, and at least `lo` copies for those with `lo ≤ k`.  This holds of
    the language, of the words that automata match, and of what the reference semantics answers for
    an expression without prefix closures. -/
theorem repetitions_counted (e : Expression) {lo hi : Nat} (le : lo ≤ hi) (w : Word) :
    ((e.between lo hi).Matches w ↔ ∃ k, lo ≤ k ∧ k ≤ hi ∧ Power e.Matches k w) ∧
      ((e.atLeast lo).Matches w ↔ ∃ k, lo ≤ k ∧ Power e.Matches k w) ∧
      (∀ ctx, (Accepted ctx (e.between lo hi) w ↔
          ∃ k, lo ≤ k ∧ k ≤ hi ∧ Power (Accepted ctx e) k w) ∧
        (Accepted ctx (e.atLeast lo) w ↔ ∃ k, lo ≤ k ∧ Power (Accepted ctx e) k w)) ∧
      (e.usesPrefixes = false →
        Decides ((e.between lo hi).accepts w)
          (∃ k, lo ≤ k ∧ k ≤ hi ∧ Power (fun u => e.accepts u = .ok true) k w) ∧
        Decides ((e.atLeast lo).accepts w)
          (∃ k, lo ≤ k ∧ Power (fun u => e.accepts u = .ok true) k w)) := by
  refine ⟨regular_matches.between_iff le, regular_matches.atLeast_iff, fun ctx => ?_,
    fun plain => ?_⟩
  · exact ⟨(regular_accepted ctx).between_iff le, (regular_accepted ctx).atLeast_iff⟩
  · have same : (fun u => e.accepts u = .ok true) = e.Matches :=
      funext fun u => propext (accepts_eq_ok_true_iff plain u)
    rw [same, ← regular_matches.between_iff le, ← regular_matches.atLeast_iff]
    exact ⟨decides_accepts (usesPrefixes_between plain lo hi) w,
      decides_accepts (usesPrefixes_atLeast plain lo) w⟩

/-- An operand that the empty word belongs to: two copies stand for a word of one letter too, but no
    three for a word of four. -/
theorem repetitions_counted_of_optional :
    let e : Expression := .union .empty (.condition (.atom 0))
    let p : Letter := .ofList [0]
    2 ≤ 3 ∧ (e.between 2 3).Matches [p] ∧ ¬(e.between 2 3).Matches [p, p, p, p] ∧
      (e.atLeast 2).Matches [p, p, p, p] ∧ Accepted .empty (e.between 2 3) [p] ∧
      e.usesPrefixes = false ∧ (e.between 2 3).accepts [p] = .ok true := by
  intro e p
  have le : 2 ≤ 3 := by decide
  have none : e.Matches [] := .inl rfl
  have one : e.Matches [p] := .inr ⟨p, rfl, rfl⟩
  have twice {holds : Word → Prop} (none : holds []) (one : holds [p]) : Power holds 2 [p] :=
    .succ (u := []) none (.succ (u := [p]) one .zero)
  have fourTimes : Power e.Matches 4 [p, p, p, p] :=
    .succ (u := [p]) one (.succ (u := [p]) one (.succ (u := [p]) one (.succ (u := [p]) one .zero)))
  have short {k : Nat} {w : Word} (power : Power e.Matches k w) : w.length ≤ k := by
    induction power with
    | zero => exact Nat.le_refl 0
    | succ head tail ih =>
      rcases head with rfl | ⟨l, rfl, -⟩
      · exact Nat.le_succ_of_le ih
      · simpa using ih
  have noneMatched : (e.lower.run .empty).1.eval [] = .ok := by decide +kernel
  have oneMatched : (e.lower.run .empty).1.eval [p] = .ok := by decide +kernel
  obtain ⟨between_iff, -, automata, answers⟩ := repetitions_counted e le [p]
  obtain ⟨longer_iff, atLeast_iff, -⟩ := repetitions_counted e le [p, p, p, p]
  refine ⟨le, between_iff.mpr ⟨2, by decide, le, twice none one⟩, fun matched => ?_,
    atLeast_iff.mpr ⟨4, by decide, fourTimes⟩,
    (automata .empty).1.mpr ⟨2, by decide, le, twice noneMatched oneMatched⟩, rfl, ?_⟩
  · obtain ⟨k, -, bound, power⟩ := longer_iff.mp matched
    exact absurd (Nat.le_trans (short power) bound) (by decide)
  · obtain ⟨b, answered, holds⟩ := (answers rfl).1
    rw [answered, holds.mpr ⟨2, by decide, le, twice rfl rfl⟩]

/-- A permutation stands for the words of its operands in a row, in any order.  An abort stands for
    the words of its body, and for a prefix of such a word followed by a word of its exit.  This
    holds of the language and of the words that automata match, and for a permutation of expressions
    without prefix closures also of what the reference semantics answers. -/
theorem orders_and_aborts (es : List Expression) (body exit : Expression) (w : Word) :
    ((permute es).Matches w ↔ ∃ order, order.Perm es ∧ InOrder Matches order w) ∧
      ((body.abort exit).Matches w ↔ body.Matches w ∨
        ∃ u v, w = u ++ v ∧ (∃ t, body.Matches (u ++ t)) ∧ exit.Matches v) ∧
      (∀ ctx, (Accepted ctx (permute es) w ↔
          ∃ order, order.Perm es ∧ InOrder (Accepted ctx) order w) ∧
        (Accepted ctx (body.abort exit) w ↔ Accepted ctx body w ∨
          ∃ u v, w = u ++ v ∧ (∃ t, Accepted ctx body (u ++ t)) ∧ Accepted ctx exit v)) ∧
      ((∀ e ∈ es, e.usesPrefixes = false) → Decides ((permute es).accepts w)
        (∃ order, order.Perm es ∧ InOrder (fun e u => e.accepts u = .ok true) order w)) := by
  refine ⟨regular_matches.permuteOf_iff (Nat.le_refl _), regular_matches.abort_iff, fun ctx => ?_,
    fun plain => ?_⟩
  · exact ⟨(regular_accepted ctx).permuteOf_iff (Nat.le_refl _), (regular_accepted ctx).abort_iff⟩
  · refine (decides_accepts (usesPrefixes_permuteOf plain) w).congr
      ((regular_matches.permuteOf_iff (Nat.le_refl _)).trans (exists_congr fun order => ?_))
    refine and_congr_right fun perm => ?_
    have same (e : Expression) (he : e ∈ order) (u : Word) : e.Matches u ↔ e.accepts u = .ok true :=
      (accepts_eq_ok_true_iff (plain e (perm.subset he)) u).symm
    exact ⟨.congr same, .congr fun e he u => (same e he u).symm⟩

end Expression

end TraceRegex
