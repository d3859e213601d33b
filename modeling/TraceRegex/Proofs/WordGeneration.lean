import Mathlib.Data.List.Nodup
import Mathlib.Data.List.TakeWhile
import Mathlib.Data.Nat.Bitwise
import TraceRegex.Words.Generate

/-! # Which words a plan gives

The words of a length are listed as long as there are few of them, each exactly once, and drawn
otherwise.  `generate_sorts_words` says so for each plan that can be carried out, and that the others
are refused: those that count the letters over 64 atoms or more, that list the letters over more than 45
atoms to get the empty word, or that draw words of more than 2 ^ 45 letters.
-/

namespace TraceRegex

/-! ## Draws -/

namespace Sampler

variable {α β : Type} {p : α → Prop} {q : β → Prop}

/-- Every result has the property `p`. -/
def Gives (m : Sampler α) (p : α → Prop) : Prop := ∀ g, p (m.run g).1

theorem Gives.pure {a : α} (h : p a) : Gives (pure a) p := fun _ => h

theorem Gives.bind {m : Sampler α} {f : α → Sampler β} (h : Gives m p)
    (h' : ∀ a, p a → Gives (f a) q) : Gives (m >>= f) q :=
  fun g => h' _ (h g) (m.run g).2

theorem Gives.mapM {f : β → Sampler α} {xs : List β} (h : ∀ x ∈ xs, Gives (f x) p) :
    Gives (xs.mapM f) fun ys => ∀ y ∈ ys, p y := by
  induction xs with
  | nil => exact .pure (by simp)
  | cons x xs ih =>
    obtain ⟨first, later⟩ := List.forall_mem_cons.mp h
    rw [List.mapM_cons]
    exact first.bind fun y hy => (ih later).bind fun ys hys =>
      .pure (List.forall_mem_cons.mpr ⟨hy, hys⟩)

end Sampler

/-- Only the first `atoms` atoms hold. -/
def Letter.IsOver (atoms : Nat) (l : Letter) : Prop := ∀ i, l.holds i = true → i < atoms

theorem Letter.isOver_ofList {atoms : Nat} {is : List Nat} :
    (ofList is).IsOver atoms ↔ ∀ i ∈ is, i < atoms := by
  simp only [IsOver, holds_ofList, List.contains_iff_mem]

namespace Word

/-- Only the first `atoms` atoms occur. -/
def IsOver (atoms : Nat) (w : Word) : Prop := ∀ l ∈ w, l.IsOver atoms

theorem gives_letter (atoms : Nat) : (Sampler.letter atoms).Gives (Letter.IsOver atoms) := by
  refine Sampler.Gives.bind (p := fun drawn => ∀ is ∈ drawn, ∀ i ∈ is, i < atoms)
    (.mapM fun i hi => Sampler.Gives.bind (p := fun _ => True) (fun _ => trivial) fun b _ => .pure ?_)
    fun drawn bound => .pure (Letter.isOver_ofList.mpr fun i hi => ?_)
  · cases b with
    | true => simpa using hi
    | false => simp
  · obtain ⟨is, mem, hi⟩ := List.mem_flatten.mp hi
    exact bound is mem i hi

theorem gives_letters (atoms n : Nat) :
    (Sampler.letters atoms n).Gives fun w => w.length = n ∧ w.IsOver atoms := by
  induction n with
  | zero => exact .pure ⟨rfl, by simp [IsOver]⟩
  | succ n ih =>
    refine (gives_letter atoms).bind fun l hl => ih.bind fun w hw => .pure ⟨?_, ?_⟩
    · rw [List.length_cons, hw.1]
    · exact List.forall_mem_cons.mpr ⟨hl, hw.2⟩

theorem gives_drawn (atoms n count : Nat) :
    (drawn atoms n count).Gives fun words =>
      words.length = count ∧ ∀ w ∈ words, w.length = n ∧ w.IsOver atoms := by
  induction count with
  | zero => exact .pure ⟨rfl, by simp⟩
  | succ count ih =>
    refine (gives_letters atoms n).bind fun w hw => ih.bind fun words hwords => .pure ⟨?_, ?_⟩
    · rw [List.length_cons, hwords.1]
    · exact List.forall_mem_cons.mpr ⟨hw, hwords.2⟩

/-! ## Lists of letters -/

theorem holds_letterOfNat (atoms n i : Nat) :
    (letterOfNat atoms n).holds i = (decide (i < atoms) && n.testBit i) := by
  rw [Bool.eq_iff_iff]
  simp [letterOfNat]

theorem mem_letters {atoms : Nat} {l : Letter} :
    l ∈ (List.range (2 ^ atoms)).map (letterOfNat atoms) ↔ l.IsOver atoms := by
  rw [List.mem_map]
  constructor
  · rintro ⟨n, -, rfl⟩ i hi
    rw [holds_letterOfNat, Bool.and_eq_true, decide_eq_true_iff] at hi
    exact hi.1
  · intro bound
    -- the digits of the number are the atoms of the letter
    let digits : Fin atoms → Bool := fun i => l.holds i
    refine ⟨Nat.ofBits digits, List.mem_range.mpr (Nat.ofBits_lt_two_pow digits), ?_⟩
    refine Letter.ext_holds fun i => ?_
    rw [holds_letterOfNat]
    by_cases below : i < atoms
    · rw [decide_eq_true below, Bool.true_and, Nat.testBit_ofBits_lt digits i below]
    · have absent : l.holds i = false := Bool.eq_false_iff.mpr fun h => below (bound i h)
      rw [decide_eq_false below, Bool.false_and, absent]

theorem nodup_letters (atoms : Nat) : ((List.range (2 ^ atoms)).map (letterOfNat atoms)).Nodup := by
  refine List.nodup_range.map_on fun n hn m hm same => Nat.eq_of_testBit_eq fun i => ?_
  rw [List.mem_range] at hn hm
  by_cases below : i < atoms
  · have digits := congrArg (Letter.holds · i) same
    simpa only [holds_letterOfNat, below, decide_true, Bool.true_and] using digits
  · -- both numbers have only zeros from here on
    have large : 2 ^ atoms ≤ 2 ^ i := Nat.pow_le_pow_right (by decide) (Nat.not_lt.mp below)
    rw [Nat.testBit_lt_two_pow (Nat.lt_of_lt_of_le hn large),
      Nat.testBit_lt_two_pow (Nat.lt_of_lt_of_le hm large)]

/-! ## Lists of words -/

variable {letters : List Letter} {words : List Word} {w : Word} {n : Nat}

theorem mem_extend : w ∈ extend letters words ↔ ∃ u ∈ words, ∃ l ∈ letters, u ++ [l] = w := by
  simp only [extend, List.mem_flatMap, List.mem_map]

theorem nodup_extend (nodup : letters.Nodup) (nodup' : words.Nodup) :
    (extend letters words).Nodup := by
  refine List.nodup_flatMap.mpr ⟨fun u _ => ?_, nodup'.imp fun {u v} differ => ?_⟩
  · exact nodup.map fun l m same => List.singleton_inj.mp (List.append_cancel_left same)
  · refine List.disjoint_left.mpr fun w left right => ?_
    obtain ⟨l, -, rfl⟩ := List.mem_map.mp left
    obtain ⟨m, -, same⟩ := List.mem_map.mp right
    exact differ (List.append_inj_left' same rfl).symm

theorem mem_ofLength : w ∈ ofLength letters n ↔ w.length = n ∧ ∀ l ∈ w, l ∈ letters := by
  induction n generalizing w with
  | zero =>
    rw [ofLength, List.mem_singleton, List.length_eq_zero_iff]
    exact ⟨by rintro rfl; simp, And.left⟩
  | succ n ih =>
    rw [ofLength, mem_extend]
    constructor
    · rintro ⟨u, hu, l, hl, rfl⟩
      obtain ⟨length, mem⟩ := ih.mp hu
      exact ⟨by rw [List.length_append, length]; rfl,
        List.forall_mem_append.mpr ⟨mem, List.forall_mem_singleton.mpr hl⟩⟩
    · rintro ⟨length, mem⟩
      obtain rfl | ⟨u, l, rfl⟩ := w.eq_nil_or_concat
      · cases length
      · rw [List.concat_eq_append] at *
        obtain ⟨front, last⟩ := List.forall_mem_append.mp mem
        rw [List.length_append] at length
        exact ⟨u, ih.mpr ⟨Nat.succ.inj length, front⟩, l, List.forall_mem_singleton.mp last, rfl⟩

theorem nodup_ofLength (nodup : letters.Nodup) : (ofLength letters n).Nodup := by
  induction n with
  | zero => exact List.nodup_singleton _
  | succ n ih => exact nodup_extend nodup ih

theorem longerBy_ofLength (letters : List Letter) (n k : Nat) :
    ∃ shorter, longerBy letters n (ofLength letters k) = shorter ++ ofLength letters (k + n) ∧
      ∀ w ∈ shorter, w.length < k + n := by
  induction n generalizing k with
  | zero => exact ⟨[], rfl, by simp⟩
  | succ n ih =>
    obtain ⟨shorter, split, lengths⟩ := ih (k + 1)
    rw [Nat.add_right_comm] at split lengths
    refine ⟨ofLength letters k ++ shorter, ?_, List.forall_mem_append.mpr ⟨fun w hw => ?_, lengths⟩⟩
    · rw [List.append_assoc]
      exact congrArg (ofLength letters k ++ ·) split
    · rw [(mem_ofLength.mp hw).1]
      exact Nat.lt_add_of_pos_right (Nat.succ_pos n)

/-- The words of one length are those that remain of all words up to it when shorter ones are
    dropped. -/
theorem listed_eq_dropWhile (atoms n : Nat) :
    listed atoms n = (upTo atoms n).map (·.dropWhile (·.length < n)) := by
  unfold listed upTo
  cases allLetters atoms with
  | error e => rfl
  | ok letters =>
    obtain ⟨shorter, split, lengths⟩ := longerBy_ofLength letters n 0
    rw [Nat.zero_add] at split lengths
    have kept : (ofLength letters n).dropWhile (·.length < n) = ofLength letters n := by
      refine List.dropWhile_eq_self_iff.mpr fun inside => ?_
      rw [(mem_ofLength.mp (List.getElem_mem inside)).1, decide_eq_true_iff]
      exact Nat.lt_irrefl n
    show Except.ok _ = Except.ok ((longerBy letters n (ofLength letters 0)).dropWhile _)
    rw [split, List.dropWhile_append_of_pos fun w hw => decide_eq_true (lengths w hw), kept]

/-! ## Powers -/

/-- The power is found exactly if it does not exceed the largest one: the division rules out each product
    that would. -/
theorem powerFrom_eq {base result : Nat} (positive : 0 < base) (small : result ≤ maxPower) (n : Nat) :
    powerFrom base result n =
      .ok (if result * base ^ n ≤ maxPower then some (result * base ^ n) else none) := by
  induction n generalizing result with
  | zero => rw [powerFrom, Nat.pow_zero, Nat.mul_one, if_pos small]
  | succ n ih =>
    have regroup : result * base ^ (n + 1) = result * base * base ^ n := by
      rw [Nat.pow_succ', Nat.mul_assoc]
    rw [powerFrom, if_neg (Nat.ne_of_gt positive), regroup]
    by_cases fits : result * base ≤ maxPower
    · rw [if_neg (Nat.not_lt.mpr ((Nat.le_div_iff_mul_le positive).mpr fits)), ih fits]
    · have large : ¬ result * base * base ^ n ≤ maxPower := fun h =>
        fits (Nat.le_trans (Nat.le_mul_of_pos_right _ (Nat.pow_pos positive)) h)
      rw [if_pos ((Nat.div_lt_iff_lt_mul positive).mpr (Nat.not_le.mp fits)), if_neg large]

theorem power_eq {base : Nat} (positive : 0 < base) (n : Nat) :
    power base n = .ok (if base ^ n ≤ maxPower then some (base ^ n) else none) := by
  have one : 1 ≤ maxPower := by decide
  unfold power
  split
  · next h => rw [h, Nat.one_pow, if_pos one]
  · rw [powerFrom_eq positive one, Nat.one_mul]

theorem letterCount_of_lt {atoms : Nat} (h : atoms < 64) : letterCount atoms = 2 ^ atoms := if_pos h

theorem letterCount_of_le {atoms : Nat} (h : 64 ≤ atoms) : letterCount atoms = 0 :=
  if_neg (Nat.not_lt.mpr h)

/-- The number of the empty words is found even if the letters cannot be counted. -/
theorem power_letterCount {atoms n : Nat} (countable : 0 < n → atoms < 64) :
    power (letterCount atoms) n =
      .ok (if (2 ^ atoms) ^ n ≤ maxPower then some ((2 ^ atoms) ^ n) else none) := by
  by_cases h : atoms < 64
  · rw [letterCount_of_lt h, power_eq (Nat.two_pow_pos atoms)]
  · obtain rfl : n = 0 := Nat.eq_zero_of_not_pos fun positive => h (countable positive)
    have one : 1 ≤ maxPower := by decide
    rw [letterCount_of_le (Nat.not_lt.mp h), Nat.pow_zero, if_pos one]
    rfl

theorem power_letterCount_of_le {atoms n : Nat} (positive : 0 < n) (h : 64 ≤ atoms) :
    power (letterCount atoms) n = .error .outOfRange := by
  obtain ⟨n, rfl⟩ := Nat.exists_eq_succ_of_ne_zero (Nat.ne_of_gt positive)
  rw [letterCount_of_le h]
  rfl

theorem room_eight {entries : Nat} : entries * 8 ≤ maxTableBytes ↔ entries ≤ 2 ^ 45 := by
  have bytes : maxTableBytes = 2 ^ 45 * 8 := by decide
  rw [bytes, Nat.mul_le_mul_right_iff (by decide)]

theorem room_letterCount {atoms : Nat} :
    letterCount atoms * 8 ≤ maxTableBytes ↔ atoms ≤ 45 ∨ 64 ≤ atoms := by
  rw [room_eight]
  by_cases h : atoms < 64
  · rw [letterCount_of_lt h, Nat.pow_le_pow_iff_right (by decide)]
    omega
  · rw [letterCount_of_le (Nat.not_lt.mp h)]
    exact iff_of_true (Nat.zero_le _) (.inr (Nat.not_lt.mp h))

/-! ## The words of one length -/

/-- All words of the length `n` are listed. -/
def Plan.Lists (plan : Plan) (atoms n : Nat) : Prop :=
  (2 ^ atoms) ^ n ≤ min plan.maxWords maxPower

instance (plan : Plan) (atoms n : Nat) : Decidable (plan.Lists atoms n) :=
  inferInstanceAs (Decidable (_ ≤ _))

theorem Plan.Lists.mul_le {plan : Plan} {atoms n : Nat} (h : plan.Lists atoms n) : atoms * n ≤ 32 := by
  have small : (2 ^ atoms) ^ n ≤ 2 ^ 32 := (Nat.le_min.mp h).2
  rwa [← Nat.pow_mul, Nat.pow_le_pow_iff_right (by decide)] at small

/-- The words of the length `n` can be had: their letters can be counted, and the words can be listed
    or drawn. -/
structure Plan.Feasible (plan : Plan) (atoms n : Nat) : Prop where
  countable : 0 < n → atoms < 64
  listable : plan.Lists atoms n → atoms ≤ 45 ∨ 64 ≤ atoms
  drawable : ¬ plan.Lists atoms n → 0 < plan.count → n ≤ 2 ^ 45

instance (plan : Plan) (atoms n : Nat) : Decidable (plan.Feasible atoms n) :=
  decidable_of_iff ((0 < n → atoms < 64) ∧ (plan.Lists atoms n → atoms ≤ 45 ∨ 64 ≤ atoms) ∧
      (¬ plan.Lists atoms n → 0 < plan.count → n ≤ 2 ^ 45))
    ⟨fun ⟨countable, listable, drawable⟩ => ⟨countable, listable, drawable⟩,
      fun ⟨countable, listable, drawable⟩ => ⟨countable, listable, drawable⟩⟩

/-- The words are those of the length `n` that the plan asks for. -/
structure Plan.Asks (plan : Plan) (atoms n : Nat) (words : List Word) : Prop where
  sound : ∀ w ∈ words, w.length = n ∧ w.IsOver atoms
  /-- All words over the atoms, each once. -/
  complete : plan.Lists atoms n → ∀ w : Word, w.length = n → w.IsOver atoms → words.count w = 1
  counted : ¬ plan.Lists atoms n → words.length = plan.count

theorem Plan.Asks.of_perm {plan : Plan} {atoms n : Nat} {words words' : List Word}
    (h : plan.Asks atoms n words) (same : words.Perm words') : plan.Asks atoms n words' where
  sound w hw := h.sound w (same.mem_iff.mpr hw)
  complete lists w length letters := same.count_eq w ▸ h.complete lists w length letters
  counted draws := same.length_eq ▸ h.counted draws

section

variable {plan : Plan} {atoms : Nat}

theorem sampleOf_of_lists (countable : 0 < n → atoms < 64) (lists : plan.Lists atoms n)
    (g : Generator) : sampleOf plan atoms n g = (listed atoms n).map (·, g) := by
  obtain ⟨few, small⟩ := Nat.le_min.mp lists
  rw [sampleOf, power_letterCount countable, if_pos small]
  show (if _ ≤ plan.maxWords then _ else _) = _
  rw [if_pos few]
  cases listed atoms n <;> rfl

theorem sampleOf_of_draws (countable : 0 < n → atoms < 64) (draws : ¬ plan.Lists atoms n)
    (g : Generator) : sampleOf plan atoms n g = sampleOf.sampled plan atoms n g := by
  rw [sampleOf, power_letterCount countable]
  split
  · next small =>
    have many : ¬ (2 ^ atoms) ^ n ≤ plan.maxWords := fun few => draws (Nat.le_min.mpr ⟨few, small⟩)
    show (if _ ≤ plan.maxWords then _ else _) = _
    rw [if_neg many]
  · rfl

theorem allLetters_eq : allLetters atoms =
    if atoms ≤ 45 ∨ 64 ≤ atoms then .ok ((List.range (letterCount atoms)).map (letterOfNat atoms))
    else .error .outOfRange := by
  rw [allLetters, checkTable]
  simp only [room_letterCount]
  split <;> rfl

theorem sampled_eq (g : Generator) : sampleOf.sampled plan atoms n g =
    if 0 < plan.count → n ≤ 2 ^ 45 then .ok ((drawn atoms n plan.count).run g)
    else .error .outOfRange := by
  rw [sampleOf.sampled, checkTable]
  by_cases asked : 0 < plan.count
  · by_cases short : n ≤ 2 ^ 45
    · rw [if_pos asked, if_pos (room_eight.mpr short), if_pos fun _ => short]
      rfl
    · rw [if_pos asked, if_neg (mt room_eight.mp short), if_neg fun h => short (h asked)]
      rfl
  · rw [if_neg asked, if_pos fun h => absurd h asked]
    rfl

theorem sampleOf_of_feasible (h : plan.Feasible atoms n) (g : Generator) :
    ∃ words g', sampleOf plan atoms n g = .ok (words, g') ∧ plan.Asks atoms n words := by
  by_cases lists : plan.Lists atoms n
  · let letters := (List.range (letterCount atoms)).map (letterOfNat atoms)
    have given : sampleOf plan atoms n g = .ok (ofLength letters n, g) := by
      rw [sampleOf_of_lists h.countable lists, listed, allLetters_eq, if_pos (h.listable lists)]
      rfl
    -- without letters there is still the empty word
    have mem (w : Word) : w ∈ ofLength letters n ↔ w.length = n ∧ w.IsOver atoms := by
      rw [mem_ofLength]
      refine and_congr_right fun length => forall₂_congr fun l hl => ?_
      have positive : 0 < n := length ▸ List.length_pos_of_mem hl
      rw [← mem_letters, ← letterCount_of_lt (h.countable positive)]
    have nodup : letters.Nodup := by
      by_cases few : atoms < 64
      · simpa only [letters, letterCount_of_lt few] using nodup_letters atoms
      · simp [letters, letterCount_of_le (Nat.not_lt.mp few)]
    refine ⟨_, g, given, fun w => (mem w).mp, fun _ w length inside => ?_,
      fun draws => absurd lists draws⟩
    exact List.count_eq_one_of_mem (nodup_ofLength nodup) ((mem w).mpr ⟨length, inside⟩)
  · have given : sampleOf plan atoms n g = .ok ((drawn atoms n plan.count).run g) := by
      rw [sampleOf_of_draws h.countable lists, sampled_eq, if_pos (h.drawable lists)]
    obtain ⟨count, sound⟩ := gives_drawn atoms n plan.count g
    exact ⟨_, _, given, sound, fun lists' => absurd lists' lists, fun _ => count⟩

theorem sampleOf_of_not_feasible (h : ¬ plan.Feasible atoms n) (g : Generator) :
    sampleOf plan atoms n g = .error .outOfRange := by
  by_cases countable : 0 < n → atoms < 64
  · by_cases lists : plan.Lists atoms n
    · have long : ¬ (atoms ≤ 45 ∨ 64 ≤ atoms) := fun listable =>
        h ⟨countable, fun _ => listable, fun draws => absurd lists draws⟩
      rw [sampleOf_of_lists countable lists, listed, allLetters_eq, if_neg long]
      rfl
    · have long : ¬ (0 < plan.count → n ≤ 2 ^ 45) := fun drawable =>
        h ⟨countable, fun lists' => absurd lists' lists, fun _ => drawable⟩
      rw [sampleOf_of_draws countable lists, sampled_eq, if_neg long]
  · obtain ⟨positive, many⟩ := Classical.not_imp.mp countable
    rw [sampleOf, power_letterCount_of_le positive (Nat.not_lt.mp many)]
    rfl

/-! ## Whole plans -/

theorem samplesFrom_succ {start : Nat} {g g' : Generator}
    (given : sampleOf plan atoms start g = .ok (words, g')) (k : Nat) :
    samplesFrom plan atoms start (k + 1) g =
      (samplesFrom plan atoms (start + 1) k g').map (words ++ ·) := by
  rw [samplesFrom, given]
  rfl

theorem filter_length_eq_nil (h : ∀ w ∈ words, w.length ≠ n) :
    words.filter (·.length = n) = [] :=
  List.filter_eq_nil_iff.mpr fun w hw => by simpa using h w hw

theorem samplesFrom_of_feasible {start k : Nat}
    (h : ∀ n, start ≤ n → n < start + k → plan.Feasible atoms n) (g : Generator) :
    ∃ words, samplesFrom plan atoms start k g = .ok words ∧
      (∀ w ∈ words, start ≤ w.length ∧ w.length < start + k) ∧
      ∀ n, start ≤ n → n < start + k → plan.Asks atoms n (words.filter (·.length = n)) := by
  induction k generalizing start g with
  | zero => exact ⟨[], rfl, by simp, fun n _ _ => by omega⟩
  | succ k ih =>
    obtain ⟨words, g', given, asked⟩ := sampleOf_of_feasible (h start (Nat.le_refl _) (by omega)) g
    have rest (n : Nat) (least : start + 1 ≤ n) (most : n < start + 1 + k) : plan.Feasible atoms n :=
      h n (by omega) (by omega)
    obtain ⟨later, given', lengths, asked'⟩ := ih rest g'
    refine ⟨words ++ later, ?_, fun w hw => ?_, fun n _ _ => ?_⟩
    · rw [samplesFrom_succ given, given']
      rfl
    · rcases List.mem_append.mp hw with hw | hw
      · have length := (asked.sound w hw).1
        omega
      · have bounds := lengths w hw
        omega
    · -- the words of the first length stand in front, and all later ones are longer
      rw [List.filter_append]
      by_cases first : n = start
      · have all : words.filter (·.length = n) = words :=
          List.filter_eq_self.mpr fun w hw => decide_eq_true ((asked.sound w hw).1.trans first.symm)
        have none : later.filter (·.length = n) = [] :=
          filter_length_eq_nil fun w hw same => by
            have bounds := lengths w hw
            omega
        rw [all, none, List.append_nil, first]
        exact asked
      · have none : words.filter (·.length = n) = [] :=
          filter_length_eq_nil fun w hw same => first (same.symm.trans (asked.sound w hw).1)
        rw [none, List.nil_append]
        exact asked' n (by omega) (by omega)

theorem samplesFrom_of_not_feasible {start k : Nat} (least : start ≤ n) (most : n < start + k)
    (h : ¬ plan.Feasible atoms n) (g : Generator) :
    samplesFrom plan atoms start k g = .error .outOfRange := by
  induction k generalizing start g with
  | zero => omega
  | succ k ih =>
    by_cases first : plan.Feasible atoms start
    · obtain ⟨words, g', given, -⟩ := sampleOf_of_feasible first g
      have later : start + 1 ≤ n := Nat.lt_of_le_of_ne least fun same => h (same ▸ first)
      rw [samplesFrom_succ given, ih later (by omega)]
      rfl
    · rw [samplesFrom, sampleOf_of_not_feasible first]
      rfl

theorem generate_of_not_feasible (least : plan.minLength ≤ n) (most : n ≤ plan.maxLength)
    (h : ¬ plan.Feasible atoms n) (test : Word → Bool) :
    generate plan atoms test = .error .outOfRange := by
  rw [generate, samplesFrom_of_not_feasible least (by omega) h]
  rfl

end

/-- A plan that is feasible for all its lengths gives the words that it asks for, sorted by the test.
    Other plans are refused. -/
theorem generate_sorts_words (plan : Plan) (atoms : Nat) (test : Word → Bool) :
    ((∀ n, plan.minLength ≤ n → n ≤ plan.maxLength → plan.Feasible atoms n) →
      ∃ accepted rejected, generate plan atoms test = .ok (accepted, rejected) ∧
        (∀ w ∈ accepted, test w = true) ∧ (∀ w ∈ rejected, test w = false) ∧
        (∀ w ∈ accepted ++ rejected, plan.minLength ≤ w.length ∧ w.length ≤ plan.maxLength) ∧
        ∀ n, plan.minLength ≤ n → n ≤ plan.maxLength →
          plan.Asks atoms n ((accepted ++ rejected).filter (·.length = n))) ∧
    ((∃ n, plan.minLength ≤ n ∧ n ≤ plan.maxLength ∧ ¬ plan.Feasible atoms n) →
      generate plan atoms test = .error .outOfRange) := by
  refine ⟨fun feasible => ?_, fun ⟨n, least, most, h⟩ => generate_of_not_feasible least most h test⟩
  obtain ⟨words, given, lengths, asked⟩ :=
    samplesFrom_of_feasible (k := plan.maxLength + 1 - plan.minLength)
      (fun n least most => feasible n least (by omega)) (.ofSeed plan.seed)
  have sorted : (words.filter test ++ words.filter (!test ·)).Perm words :=
    List.filter_append_perm test words
  refine ⟨words.filter test, words.filter (!test ·), ?_, ?_, ?_, fun w hw => ?_, fun n least most => ?_⟩
  · rw [generate, given]
    rfl
  · exact fun w hw => (List.mem_filter.mp hw).2
  · exact fun w hw => by simpa using (List.mem_filter.mp hw).2
  · have bounds := lengths w (sorted.mem_iff.mp hw)
    omega
  · exact (asked n least (by omega)).of_perm (sorted.symm.filter _)

/-- With one atom, the words of one letter are listed and longer ones are drawn.  With 46 atoms even the
    empty word is out of reach. -/
theorem generate_sorts_words_of_few_atoms :
    let plan : Plan := ⟨0, 2, 3, 2, 7⟩
    let test : Word → Bool := fun w => w.all (·.holds 0)
    (∀ n ≤ 2, plan.Feasible 1 n) ∧ plan.Lists 1 1 ∧ ¬ plan.Lists 1 2 ∧ ¬ plan.Feasible 46 0 ∧
      (∃ accepted rejected, generate plan 1 test = .ok (accepted, rejected) ∧
        ((accepted ++ rejected).filter (·.length = 1)).count [.ofList [0]] = 1 ∧
        ((accepted ++ rejected).filter (·.length = 2)).length = 3) ∧
      generate plan 46 test = .error .outOfRange := by
  intro plan test
  have feasible : ∀ n ≤ 2, plan.Feasible 1 n := by decide
  have lists : plan.Lists 1 1 := by decide
  have draws : ¬ plan.Lists 1 2 := by decide
  have refused : ¬ plan.Feasible 46 0 := by decide
  obtain ⟨accepted, rejected, given, -, -, -, asked⟩ :=
    (generate_sorts_words plan 1 test).1 fun n _ most => feasible n most
  have letter : IsOver 1 [.ofList [0]] :=
    List.forall_mem_singleton.mpr (Letter.isOver_ofList.mpr (by simp))
  have one := (asked 1 (by decide) (by decide)).complete lists [.ofList [0]] rfl letter
  have two := (asked 2 (by decide) (by decide)).counted draws
  exact ⟨feasible, lists, draws, refused, ⟨accepted, rejected, given, one, two⟩,
    (generate_sorts_words plan 46 test).2 ⟨0, by decide, by decide, refused⟩⟩

/-- Not all plans are carried out: one that asks for the empty word over 46 atoms, one that asks for no
    more than the words of one letter over 64 atoms, and one that asks for a single long word. -/
theorem generate_refuses :
    generate ⟨0, 0, 64, 4096, 0⟩ 46 (fun _ => true) = .error .outOfRange ∧
      generate ⟨1, 1, 0, 4096, 0⟩ 64 (fun _ => true) = .error .outOfRange ∧
      generate ⟨2 ^ 46, 2 ^ 46, 1, 4096, 0⟩ 1 (fun _ => true) = .error .outOfRange := by
  refine ⟨generate_of_not_feasible (n := 0) (by decide) (by decide) (by decide) _,
    generate_of_not_feasible (n := 1) (by decide) (by decide) (by decide) _,
    generate_of_not_feasible (n := 2 ^ 46) (Nat.le_refl _) (Nat.le_refl _) (fun feasible => ?_) _⟩
  have short := feasible.drawable (fun lists => absurd lists.mul_le (by decide)) (by decide)
  exact absurd short (by decide)

end Word

end TraceRegex
