import TraceRegex.Proofs.HashConsing
import TraceRegex.Proofs.UndeclaredAtoms

/-! # Decisions, and how often they need the solver

Satisfiability, validity and equivalence are decided for what they are, and a letter is found if
there is one, whatever the context remembers.  The solver is called once for each letter that is asked
for and once for each formula whose satisfiability is asked for, unless the formula is a constant or
a literal.

`Context.Accounts` ties the number of calls to the formulas that were asked about.  What a question
does to it is said once (`Accounts.ask`), each operation is described by the questions that it asks,
and the number of calls in the course of any operations follows.
-/

namespace TraceRegex

open Formula

/-! ## Counting calls -/

/-- The formulas that need the solver, each of them once. -/
def questions (asked : List Formula) : List Formula :=
  (asked.filter (·.plainly? = none)).eraseDups

theorem mem_questions {asked : List Formula} {f : Formula} :
    f ∈ questions asked ↔ f.plainly? = none ∧ f ∈ asked := by
  simp [questions, and_comm]

theorem questions_concat (asked : List Formula) (f : Formula) :
    questions (asked ++ [f]) =
      questions asked ++ if f.plainly? = none ∧ f ∉ asked then [f] else [] := by
  simp only [questions, List.filter_append, List.eraseDups_append]
  congr 1
  -- a plain formula is filtered out, and one that was asked about before is a duplicate
  by_cases other : f.plainly? = none
  · by_cases old : f ∈ asked
    · simp [List.removeAll, other, old]
    · simp [List.removeAll, List.eraseDups_cons, other, old]
  · simp [List.removeAll, other]

/-- The answers that the context remembers are those to the questions, and the solver was called for
    these and for the letters that were asked for. -/
structure Context.Accounts (ctx : Context) (asked : List Formula) (searches : Nat) : Prop where
  solved_iff : ∀ f, ctx.solved[f]? = none ↔ f ∉ questions asked
  solverCalls_eq : ctx.solverCalls = searches + (questions asked).length

/-- A question is put to the solver unless the formula is plain or its answer is remembered. -/
theorem Build.sat_run_snd (f : Formula) (ctx : Context) :
    ((sat f).run ctx).2 = if f.plainly? = none ∧ ctx.solved[f]? = none then
      ctx.countCall.recordSolved f f.satisfiable rfl else ctx := by
  simp only [sat, StateT.run]
  split
  · next plain => simp [plain]
  · next other =>
    split
    · next known => simp [known]
    · next new => simp [other, new]

namespace Context.Accounts

variable {ctx later : Context} {asked : List Formula} {searches : Nat}

theorem empty : Context.empty.Accounts [] 0 where
  solved_iff f := by simp [Context.empty, questions]
  solverCalls_eq := rfl

theorem new_iff (h : ctx.Accounts asked searches) (f : Formula) :
    f.plainly? = none ∧ ctx.solved[f]? = none ↔ f.plainly? = none ∧ f ∉ asked := by
  rw [h.solved_iff, mem_questions]
  tauto

/-- A question that was put to the solver is not put to it again. -/
theorem solverCalls_sat (h : ctx.Accounts asked searches) (f : Formula) :
    ((Build.sat f).run ctx).2.solverCalls =
      ctx.solverCalls + if f.plainly? = none ∧ f ∉ asked then 1 else 0 := by
  simp only [Build.sat_run_snd, h.new_iff]
  split
  · rfl
  · rfl

theorem ask (h : ctx.Accounts asked searches) (f : Formula) :
    ((Build.sat f).run ctx).2.Accounts (asked ++ [f]) searches := by
  refine ⟨fun g => ?_, ?_⟩
  · simp only [Build.sat_run_snd, h.new_iff, questions_concat]
    split
    · -- the answer is remembered, and all others are as before
      show (ctx.solved.insert f f.satisfiable)[g]? = none ↔ _
      rw [Std.HashMap.getElem?_insert]
      by_cases same : f = g
      · simp [same]
      · simp [same, Ne.symm same, h.solved_iff g]
    · simp [h.solved_iff g]
  · rw [h.solverCalls_sat, h.solverCalls_eq, questions_concat]
    split
    · simp [Nat.add_assoc]
    · simp

theorem seek (h : ctx.Accounts asked searches) (f : Formula) :
    ((Build.witness f).run ctx).2.Accounts asked (searches + 1) where
  solved_iff := h.solved_iff
  solverCalls_eq := by
    show ctx.solverCalls + 1 = _
    rw [h.solverCalls_eq]
    omega

end Context.Accounts

namespace Build

variable {α β ε : Type}

/-! ## What asks nothing -/

/-- The computation neither calls the solver nor changes what is remembered of its answers. -/
def Idle (m : Build α) : Prop :=
  ∀ ctx, (m.run ctx).2.solved = ctx.solved ∧ (m.run ctx).2.solverCalls = ctx.solverCalls

theorem Idle.pure (x : α) : Idle (Pure.pure x) := fun _ => ⟨rfl, rfl⟩

theorem Idle.bind {m : Build α} {k : α → Build β} (hm : Idle m) (hk : ∀ x, Idle (k x)) :
    Idle (m >>= k) := fun ctx =>
  ⟨(hk _ _).1.trans (hm ctx).1, (hk _ _).2.trans (hm ctx).2⟩

theorem Idle.except_bind {m : ExceptT ε Build α} {k : α → ExceptT ε Build β} (hm : Idle m.run)
    (hk : ∀ x, Idle (k x).run) : Idle (m >>= k).run := by
  show Idle (m.run >>= ExceptT.bindCont k)
  apply hm.bind
  intro r
  cases r with
  | ok x => exact hk x
  | error e => exact Idle.pure _

theorem idle_cons (f : Formula) : Idle (cons f) := by
  intro ctx
  simp only [cons, StateT.run]
  split
  · exact ⟨rfl, rfl⟩
  · exact ⟨rfl, rfl⟩

theorem idle_implies (f g : Formula) : Idle (implies f g) :=
  (idle_cons _).bind fun _ => idle_cons _

theorem idle_conjunction_go (acc : Formula) (fs : List Formula) :
    Idle (conjunction.go acc fs) := by
  fun_induction conjunction.go acc fs with
  | case1 acc => exact Idle.pure _
  | case2 acc fs => exact Idle.pure _
  | case3 acc fs ih => exact ih
  | case4 f fs _ _ ih => exact ih
  | case5 acc f fs _ _ _ ih => exact (idle_cons _).bind ih

theorem idle_disjunction_go (acc : Formula) (fs : List Formula) :
    Idle (disjunction.go acc fs) := by
  fun_induction disjunction.go acc fs with
  | case1 acc => exact Idle.pure _
  | case2 acc fs => exact Idle.pure _
  | case3 acc fs ih => exact ih
  | case4 f fs _ _ ih => exact ih
  | case5 acc f fs _ _ _ ih => exact (idle_cons _).bind ih

theorem idle_settle (f : Formula) : Idle (settle f) := by
  cases f with
  | const b => exact Idle.pure _
  | var i => exact Idle.pure _
  | not f => exact idle_cons _
  | and f g => exact idle_cons _
  | or f g => exact idle_cons _

theorem idle_nnfNot (f : Formula) : Idle (nnfNot f) := by
  induction f with
  | const b => exact Idle.pure _
  | var i => exact idle_cons _
  | not f _ => exact Idle.pure _
  | and f g ihf ihg => exact ihf.bind fun _ => ihg.bind fun _ => idle_settle _
  | or f g ihf ihg => exact ihf.bind fun _ => ihg.bind fun _ => idle_settle _

theorem idle_remembered {f : Formula} {compute : Context → NormalFormOf f}
    (h : Idle fun ctx => (compute ctx).val) : Idle fun ctx => (remembered f compute ctx).val := by
  intro ctx
  have computed := h ctx
  -- recording a normal form touches neither the answers nor the number of calls
  simp only [StateT.run, remembered] at computed ⊢
  split
  · exact ⟨rfl, rfl⟩
  · exact computed

theorem idle_nnf (f : Formula) : Idle (nnf f) := by
  induction f with
  | const b => exact Idle.pure _
  | var i => exact Idle.pure _
  | not f ih =>
    apply idle_remembered
    show Idle (do nnfNot (← nnf f))
    exact ih.bind fun _ => idle_nnfNot _
  | and f g ihf ihg =>
    apply idle_remembered
    show Idle (do settle (Formula.nnfAnd (← nnf f) (← nnf g)))
    exact ihf.bind fun _ => ihg.bind fun _ => idle_settle _
  | or f g ihf ihg =>
    apply idle_remembered
    show Idle (do settle (Formula.nnfOr (← nnf f) (← nnf g)))
    exact ihf.bind fun _ => ihg.bind fun _ => idle_settle _

theorem idle_plug (path : Path) (pos neg : Formula) : Idle (plug path pos neg) := by
  induction path generalizing pos neg with
  | nil => exact Idle.pure _
  | cons frame path ih => exact (idle_cons _).bind fun _ => (idle_cons _).bind fun _ => ih _ _

theorem idle_build (doc : FormulaDoc) : Idle doc.build.run := by
  fun_induction FormulaDoc.build doc with
  | case1 => exact Idle.pure _
  | case2 => exact Idle.pure _
  | case3 => exact Idle.pure _
  | case4 => exact Idle.pure _
  | case5 => exact Idle.pure _
  | case6 _ _ _ _ _ _ _ ih => exact ih.except_bind fun _ => idle_cons _
  | case7 _ _ _ _ _ _ _ _ ihl ihr =>
    exact ihl.except_bind fun _ => ihr.except_bind fun _ => idle_cons _
  | case8 _ _ _ _ _ _ _ _ _ ihl ihr =>
    exact ihl.except_bind fun _ => ihr.except_bind fun _ => idle_cons _
  | case9 => exact Idle.pure _

theorem idle_decompileFront (steps : Nat) (code : Bytecode) :
    Idle (Bytecode.decompileFront steps code).run := by
  have joined {f : Formula} {rest : Bytecode} :
      Idle (do return (← liftM (cons f), rest) : ExceptT Fault Build (Formula × Bytecode)).run :=
    Idle.except_bind (idle_cons f) fun _ => Idle.pure _
  fun_induction Bytecode.decompileFront steps code with
  | case1 => exact Idle.pure _
  | case2 => exact Idle.pure _
  | case3 => exact Idle.pure _
  | case4 => exact Idle.pure _
  | case5 => exact Idle.pure _
  | case6 => exact Idle.pure _
  | case7 steps code _ _ _ ih => exact ih.except_bind fun _ => joined
  | case8 steps code _ _ _ _ ih ih' =>
    exact ih.except_bind fun r => (ih' r.2).except_bind fun _ => joined
  | case9 steps code _ _ _ _ _ ih ih' =>
    exact ih.except_bind fun r => (ih' r.2).except_bind fun _ => joined
  | case10 => exact Idle.pure _

theorem idle_decompile (code : Bytecode) : Idle code.decompile.run :=
  (idle_decompileFront code.length code).except_bind fun _ => Idle.pure _

/-! ## What asks -/

/-- The computation asks about some formulas in turn, which are as described; it seeks no letter. -/
def Asks (m : Build α) (p : List Formula → Prop) : Prop :=
  ∀ ctx asked searches, ctx.Accounts asked searches →
    ∃ more, p more ∧ (m.run ctx).2.Accounts (asked ++ more) searches

variable {m : Build α} {k : α → Build β} {p q : List Formula → Prop}

theorem Idle.asks (h : Idle m) : Asks m (· = []) := by
  intro ctx asked searches accounts
  obtain ⟨solved, calls⟩ := h ctx
  refine ⟨[], rfl, fun f => ?_, ?_⟩
  · rw [solved, List.append_nil]
    exact accounts.solved_iff f
  · rw [calls, List.append_nil]
    exact accounts.solverCalls_eq

theorem Asks.mono (h : Asks m p) (hp : ∀ fs, p fs → q fs) : Asks m q := by
  intro ctx asked searches accounts
  obtain ⟨more, described, accounts'⟩ := h ctx asked searches accounts
  exact ⟨more, hp more described, accounts'⟩

theorem Asks.map (h : Asks m p) (g : α → β) : Asks (g <$> m) p := h

/-- What the second computation asks may depend on what the first one returns. -/
theorem Asks.bind {r : List Formula → Prop} (hm : Asks m p) (hk : ∀ ctx, Asks (k (m.run ctx).1) q)
    (hr : ∀ fs gs, p fs → q gs → r (fs ++ gs)) : Asks (m >>= k) r := by
  intro ctx asked searches accounts
  obtain ⟨first, hfirst, accounts'⟩ := hm ctx asked searches accounts
  obtain ⟨second, hsecond, accounts''⟩ := hk ctx _ _ _ accounts'
  refine ⟨first ++ second, hr first second hfirst hsecond, ?_⟩
  rw [← List.append_assoc]
  exact accounts''

theorem Idle.asks_bind {x : α} (hm : Idle m) (returned : Returns m x) (hk : Asks (k x) p) :
    Asks (m >>= k) p := by
  apply hm.asks.bind (q := p)
  · intro ctx
    rw [returned ctx]
    exact hk
  · rintro _ fs rfl described
    exact described

theorem asks_sat (f : Formula) : Asks (sat f) (· = [f]) :=
  fun _ _ _ accounts => ⟨[f], rfl, accounts.ask f⟩

theorem asks_prove (f : Formula) : Asks (prove f) (· = [.not f]) :=
  (idle_cons _).asks_bind (cons_returns _) ((asks_sat _).map _)

theorem asks_prove_implies (f g : Formula) :
    Asks (do prove (← implies f g)) (· = [.not (.or (.not f) g)]) :=
  (idle_implies f g).asks_bind (implies_returns f g) (asks_prove _)

/-- The other direction is asked about only if the first one holds. -/
theorem asks_equivalent (f g : Formula) :
    Asks (equivalent f g) fun fs => fs = .not (.or (.not f) g) ::
      if (prove (.or (.not f) g)).result then [.not (.or (.not g) f)] else [] := by
  apply (idle_implies f g).asks_bind (implies_returns f g)
  apply (asks_prove _).bind (q := fun fs =>
    fs = if (prove (.or (.not f) g)).result then [.not (.or (.not g) f)] else [])
  · intro ctx
    rw [(prove_returns _).steady ctx]
    split
    · exact asks_prove_implies g f
    · exact (Idle.pure false).asks
  · rintro _ _ rfl rfl
    rfl

/-! ## Simplification -/

/-- All questions are whether one formula implies another. -/
def Implications (fs : List Formula) : Prop := ∀ q ∈ fs, ∃ f g : Formula, q = .not (.or (.not f) g)

theorem Idle.asks_implications (h : Idle m) : Asks m Implications :=
  h.asks.mono fun fs none => by simp [none, Implications]

theorem Asks.bind_implications (hm : Asks m Implications) (hk : ∀ x, Asks (k x) Implications) :
    Asks (m >>= k) Implications :=
  hm.bind (fun _ => hk _) fun _ _ left right => List.forall_mem_append.mpr ⟨left, right⟩

theorem Asks.orElse_implications {m n : Build (Option Formula)} (hm : Asks m Implications)
    (hn : Asks n Implications) :
    Asks (do match ← m with | .some f => return .some f | .none => n) Implications := by
  apply hm.bind_implications
  intro r
  cases r with
  | some f => exact (Idle.pure _).asks_implications
  | none => exact hn

theorem asks_reduceLeaf (top : Formula) (path : Path) :
    Asks (reduceLeaf top path) Implications := by
  have question {c : Prop} [Decidable c] (f g : Formula) :
      Asks (if c then Pure.pure false else do prove (← implies f g)) Implications := by
    split
    · exact (Idle.pure false).asks_implications
    · exact (asks_prove_implies f g).mono fun fs one => by simp [one, Implications]
  apply (idle_plug path _ _).asks_implications.bind_implications
  intro plugged
  apply (idle_nnf plugged.1).asks_implications.bind_implications
  intro weaker
  apply (idle_nnf plugged.2).asks_implications.bind_implications
  intro stronger
  apply (question weaker top).bind_implications
  intro proved
  cases proved with
  | true => exact (Idle.pure _).asks_implications
  | false =>
    apply (question top stronger).bind_implications
    intro proved
    cases proved with
    | true => exact (Idle.pure _).asks_implications
    | false => exact (Idle.pure _).asks_implications

theorem asks_reduceFirst (top : Formula) (room : Nat) (path : Path) (f : Formula) :
    Asks (reduceFirst top room path f) Implications := by
  fun_induction reduceFirst top room path f with
  | case1 _ _ _ _ left right => exact left.orElse_implications right
  | case2 _ _ _ _ left right => exact left.orElse_implications right
  | case3 => exact (Idle.pure _).asks_implications
  | case4 => exact asks_reduceLeaf _ _

theorem asks_reduceAll (rounds : Nat) (top : Formula) :
    Asks (reduceAll rounds top) Implications := by
  induction rounds generalizing top with
  | zero => exact (Idle.pure _).asks_implications
  | succ rounds ih =>
    apply (asks_reduceFirst top simplifyDepth [] top).bind_implications
    intro r
    cases r with
    | some f => exact ih f
    | none => exact (Idle.pure _).asks_implications

theorem asks_simplify (f : Formula) : Asks (simplify f) Implications :=
  (idle_nnf f).asks_implications.bind_implications fun _ => asks_reduceAll _ _

end Build

/-! ## Requests to a context -/

/-- What an operation may ask about, in turn.  Only simplification finds out as it goes. -/
def Operation.Asks : Operation → List Formula → Prop
  | .sat f, asked => asked = [f]
  | .prove f, asked => asked = [.not f]
  | .equivalent f g, asked => asked = .not (.or (.not f) g) ::
      if (Build.prove (.or (.not f) g)).result then [.not (.or (.not g) f)] else []
  | .simplify _, asked => Build.Implications asked
  | _, asked => asked = []

theorem Operation.asks_run (op : Operation) : Build.Asks op.run op.Asks := by
  open Build in
  cases op with
  | value b => exact (Idle.pure _).asks
  | var i => exact (Idle.pure _).asks
  | not f => exact (idle_cons _).asks.map _
  | and f g => exact (idle_cons _).asks.map _
  | or f g => exact (idle_cons _).asks.map _
  | implies f g => exact (idle_implies f g).asks.map _
  | conjunction fs => exact (idle_conjunction_go _ fs).asks.map _
  | disjunction fs => exact (idle_disjunction_go _ fs).asks.map _
  | nnf f => exact (idle_nnf f).asks.map _
  | sat f => exact (asks_sat f).map _
  | prove f => exact (asks_prove f).map _
  | equivalent f g => exact (asks_equivalent f g).map _
  | simplify f => exact (asks_simplify f).map _
  | read doc => exact (idle_build doc).asks.map _
  | decompile code => exact (idle_decompile code).asks.map _

/-- What is done with a context: an operation, or a search for a letter. -/
inductive Request where
  | operation (op : Operation)
  | witness (f : Formula)

namespace Request

/-- The context after the request. -/
def apply (ctx : Context) : Request → Context
  | .operation op => (op.run.run ctx).2
  | .witness f => ((Build.witness f).run ctx).2

def Asks : Request → List Formula → Prop
  | .operation op, asked => op.Asks asked
  | .witness _, asked => asked = []

def isWitness : Request → Bool
  | .operation _ => false
  | .witness _ => true

end Request

namespace Context

/-- The context after the requests. -/
def after (ctx : Context) (requests : List Request) : Context := requests.foldl Request.apply ctx

variable {ctx : Context} {asked : List Formula} {searches : Nat}

theorem Accounts.request (h : ctx.Accounts asked searches) (request : Request) :
    ∃ more, request.Asks more ∧
      (request.apply ctx).Accounts (asked ++ more)
        (searches + [request].countP Request.isWitness) := by
  cases request with
  | operation op => exact op.asks_run ctx asked searches h
  | witness f =>
    refine ⟨[], rfl, ?_⟩
    rw [List.append_nil]
    exact h.seek f

/-- What holds of one request holds of any number of them. -/
theorem Accounts.requests (h : ctx.Accounts asked searches) (requests : List Request) :
    ∃ more, List.Forall₂ Request.Asks requests more ∧
      (ctx.after requests).Accounts (asked ++ more.flatten)
        (searches + requests.countP Request.isWitness) := by
  induction requests generalizing ctx asked searches with
  | nil =>
    refine ⟨[], .nil, ?_⟩
    rw [List.flatten_nil, List.append_nil]
    exact h
  | cons request requests ih =>
    obtain ⟨first, described, accounts⟩ := h.request request
    obtain ⟨more, described', accounts'⟩ := ih accounts
    refine ⟨first :: more, .cons described described', ?_⟩
    rw [List.flatten_cons, ← List.append_assoc, ← List.singleton_append, List.countP_append,
      ← Nat.add_assoc]
    exact accounts'

end Context

/-! ## Decisions -/

namespace Build

theorem prove_run_iff (f : Formula) (ctx : Context) :
    ((prove f).run ctx).1 = true ↔ ∀ l, f.eval l = true := by
  rw [(prove_returns f).steady ctx]
  exact prove_result_iff f

theorem prove_implies_returns (f g : Formula) : ∃ b, Returns (prove (.or (.not f) g)) b ∧
    (b = true ↔ ∀ l, f.eval l = true → g.eval l = true) := by
  refine ⟨_, prove_returns _, ?_⟩
  rw [← prove_returns _ Context.empty, prove_run_iff]
  apply forall_congr'
  intro l
  cases hf : f.eval l <;> simp [eval, hf]

theorem equivalent_run_iff (f g : Formula) (ctx : Context) :
    ((equivalent f g).run ctx).1 = true ↔ ∀ l, f.eval l = g.eval l := by
  obtain ⟨forth, proved, hforth⟩ := prove_implies_returns f g
  obtain ⟨back, proved', hback⟩ := prove_implies_returns g f
  have both : Returns (equivalent f g) (forth && back) := by
    apply (implies_returns f g).bind
    apply proved.bind
    cases forth with
    | true => exact (implies_returns g f).bind proved'
    | false => exact Returns.pure false
  -- equal truth values are implications in both directions
  rw [both ctx, Bool.and_eq_true, hforth, hback]
  refine ⟨fun ⟨forward, backward⟩ l => ?_, fun same => ?_⟩
  · exact Bool.eq_iff_iff.mpr ⟨forward l, backward l⟩
  · exact ⟨fun l hf => same l ▸ hf, fun l hg => (same l).symm ▸ hg⟩

theorem witness_isSome_iff (f : Formula) (ctx : Context) :
    ((witness f).run ctx).1.isSome = true ↔ ∃ l, f.eval l = true := by
  show f.model?.isSome = true ↔ _
  rw [isSome_model?]
  exact satisfiable_iff

/-- The letter that is found fits into a row with a place for each atom up to the largest one that
    the formula has. -/
theorem lt_varCount_of_witness {f : Formula} {ctx : Context}
    {found : { l : Letter // f.eval l = true }} (h : ((witness f).run ctx).1 = some found) {n : Nat}
    (holds : found.1.holds n = true) : n < f.varCount := by
  obtain ⟨i, rfl, mentioned⟩ := mentions_of_model? h holds
  exact varCount_le_iff.mp (Nat.le_refl _) i mentioned

/-- The decisions are exact in every context: a formula is found to be satisfiable if some letter
    satisfies it, and proved if all letters do; two formulas are found to be equivalent if they have
    the same value under every letter; a letter is found if there is one, and it satisfies the
    formula whatever it is taken to say about atoms beyond those of the formula.

    In the course of any requests to a context that is empty at first, the solver is called once for
    each letter that was to be found and once for each formula that was asked about and is neither a
    constant nor a literal, however often it was asked about; so a further question costs a call if
    it is new. -/
theorem decisions_exact :
    (∀ (ctx : Context) (f g : Formula),
      (((sat f).run ctx).1 = true ↔ ∃ l, f.eval l = true) ∧
        (((prove f).run ctx).1 = true ↔ ∀ l, f.eval l = true) ∧
        (((equivalent f g).run ctx).1 = true ↔ ∀ l, f.eval l = g.eval l) ∧
        (((witness f).run ctx).1.isSome = true ↔ ∃ l, f.eval l = true) ∧
        ∀ found ∈ ((witness f).run ctx).1, ∀ l : Letter, l.AgreeBelow f.varCount found.1 →
          f.eval l = true) ∧
      ∀ requests : List Request, ∃ asked, List.Forall₂ Request.Asks requests asked ∧
        (Context.empty.after requests).solverCalls =
          requests.countP Request.isWitness + (questions asked.flatten).length ∧
        ∀ f, ((sat f).run (Context.empty.after requests)).2.solverCalls =
          (Context.empty.after requests).solverCalls +
            if f.plainly? = none ∧ f ∉ asked.flatten then 1 else 0 := by
  refine ⟨fun ctx f g => ⟨?_, prove_run_iff f ctx, equivalent_run_iff f g ctx,
    witness_isSome_iff f ctx, fun found _ l agree => ?_⟩, fun requests => ?_⟩
  · rw [sat_run_fst]
    exact satisfiable_iff
  · rw [eval_eq_of_agreeBelow agree (Nat.le_refl _)]
    exact found.2
  · obtain ⟨asked, described, accounts⟩ := Context.Accounts.empty.requests requests
    refine ⟨asked, described, ?_, fun f => accounts.solverCalls_sat f⟩
    rw [accounts.solverCalls_eq, Nat.zero_add, List.nil_append]

/-- The formula `x0 ∧ ¬x1` is asked about twice and a letter for it is sought once: the solver is
    called twice, and the letter that is found satisfies it. -/
theorem decisions_exact_of_repetition :
    let f := Formula.and (.var 0) (.not (.var 1))
    (∃ found ∈ ((witness f).run Context.empty).1, found.1.AgreeBelow f.varCount found.1 ∧
      f.eval found.1 = true) ∧
      (Context.empty.after
        [.operation (.sat f), .operation (.sat f), .witness f]).solverCalls = 2 := by
  intro f
  have satisfied : f.eval (Letter.empty.put 0 true) = true := by
    simp [f, eval, Letter.holds_put]
  obtain ⟨decided, counted⟩ := decisions_exact
  obtain ⟨-, -, -, possible, letter⟩ := decided Context.empty f f
  obtain ⟨found, answer⟩ := Option.isSome_iff_exists.mp (possible.mpr ⟨_, satisfied⟩)
  have same : found.1.AgreeBelow f.varCount found.1 := fun _ _ => rfl
  refine ⟨⟨found, answer, same, letter found answer found.1 same⟩, ?_⟩
  obtain ⟨asked, described, calls, -⟩ :=
    counted [.operation (.sat f), .operation (.sat f), .witness f]
  cases described with | cons first described =>
  cases described with | cons second described =>
  cases described with | cons third described =>
  cases described
  cases first; cases second; cases third
  rw [calls]
  decide

end Build

end TraceRegex
