import RelSmt.Proofs.Evaluation.Folding
import RelSmt.Proofs.Evaluation.Scope
import RelSmt.Proofs.Model.Meaning

/-!
# What evaluation comes to

Evaluation goes through the operands of an operator, through the condition of a choice and the
branch that is taken, and through the arguments of a call and the body of its definition: it
*demands* these parts. Evaluating a term ends in a value that represents the meaning of the term, or
in the fault of an integer operator that it demands (`Outcome`). One lemma for each way of forming
an evaluable term shows that this carries over from its parts; together they give the step that
evaluation takes from calls to terms (`outcome_evaluateWith`).
-/

namespace RelSmt

variable {E : Type}

namespace Term

/-! ## Demanded parts -/

/-- Does evaluating a term go through the other one? Each stands under the values of its names. -/
inductive Demands (I : Interpretation E) (m : Model) :
    Assignment E → Term → Assignment E → Term → Prop
  | refl {ρ : Assignment E} {t : Term} : Demands I m ρ t ρ t
  | operand {ρ σ : Assignment E} {op : UnaryOp} {t u : Term} (h : Demands I m ρ t σ u) :
      Demands I m ρ (.unary op t) σ u
  | left {ρ σ : Assignment E} {op : BinaryOp} {l r u : Term} (h : Demands I m ρ l σ u) :
      Demands I m ρ (.binary op l r) σ u
  | right {ρ σ : Assignment E} {op : BinaryOp} {l r u : Term} (h : Demands I m ρ r σ u) :
      Demands I m ρ (.binary op l r) σ u
  | condition {ρ σ : Assignment E} {c y n u : Term} (h : Demands I m ρ c σ u) :
      Demands I m ρ (.ite c y n) σ u
  | yes {ρ σ : Assignment E} {c y n u : Term} (hc : (c.eval I ρ).Holds) (h : Demands I m ρ y σ u) :
      Demands I m ρ (.ite c y n) σ u
  | no {ρ σ : Assignment E} {c y n u : Term} (hc : ¬(c.eval I ρ).Holds) (h : Demands I m ρ n σ u) :
      Demands I m ρ (.ite c y n) σ u
  | item {ρ σ : Assignment E} {op : NaryOp} {ts : List Term} {t u : Term} (ht : t ∈ ts)
      (h : Demands I m ρ t σ u) : Demands I m ρ (.nary op ts) σ u
  | argument {ρ σ : Assignment E} {f : FunctionSymbol} {ts : List Term} {t u : Term} (ht : t ∈ ts)
      (h : Demands I m ρ t σ u) : Demands I m ρ (.call f ts) σ u
  | body {ρ σ : Assignment E} {d : FunctionDefinition} {ts : List Term} {u : Term}
      (hd : d ∈ m.functions) (h : Demands I m (ρ.bindAll d.inputs (evalAll I ts ρ)) d.body σ u) :
      Demands I m ρ (.call d.symbol ts) σ u
  | value {ρ σ : Assignment E} {d : FunctionDefinition} {u : Term} (hd : d ∈ m.functions)
      (h : Demands I m ρ d.body σ u) : Demands I m ρ (.symbol d.symbol) σ u

/-- Does evaluation demand an integer operator, on operands with values at which it fails so? -/
def Fails (I : Interpretation E) (m : Model) (ρ : Assignment E) (t : Term) (e : EvaluationFault) :
    Prop :=
  ∃ σ op l r a b, Demands I m ρ t σ (.binary (.arithmetic op) l r) ∧
    l.eval I σ = .int a ∧ r.eval I σ = .int b ∧ op.Fails a b e

/-- The result is a value that represents the term, or the fault of a part that is demanded. -/
inductive Outcome (I : Interpretation E) (m : Model) (ρ : Assignment E) (t : Term) :
    Checked Term → Prop
  | value {v : Term} (h : Represents I t.sort (t.eval I ρ) v) : Outcome I m ρ t (.ok v)
  | fault {e : EvaluationFault} (h : Fails I m ρ t e) : Outcome I m ρ t (.error (.evaluation e))

variable {I : Interpretation E} {m : Model} {ρ σ : Assignment E} {t u : Term}

theorem Fails.of_demands {e : EvaluationFault} (h : Fails I m ρ t e)
    (hsub : ∀ {τ w}, Demands I m ρ t τ w → Demands I m σ u τ w) : Fails I m σ u e := by
  obtain ⟨τ, op, l, r, a, b, hdemands, hl, hr, hfails⟩ := h
  exact ⟨τ, op, l, r, a, b, hsub hdemands, hl, hr, hfails⟩

/-- What is done with the value of a demanded part decides the outcome. -/
theorem Outcome.bind {r : Checked Term} {f : Term → Checked Term} (h : Outcome I m ρ t r)
    (hsub : ∀ {τ w}, Demands I m ρ t τ w → Demands I m σ u τ w)
    (hf : ∀ v, Represents I t.sort (t.eval I ρ) v → Outcome I m σ u (f v)) :
    Outcome I m σ u (r >>= f) := by
  cases h with
  | value hv => exact hf _ hv
  | fault he => exact .fault (he.of_demands hsub)

/-- Several results, one for each term, or the fault of a part that one of them demands. -/
inductive Outcomes (I : Interpretation E) (m : Model) (ρ : Assignment E) (ts : List Term) :
    Checked (List Term) → Prop
  | values {vs : List Term}
      (h : List.Forall₂ (fun t v => Represents I t.sort (t.eval I ρ) v) ts vs) :
      Outcomes I m ρ ts (.ok vs)
  | fault {t : Term} {e : EvaluationFault} (ht : t ∈ ts) (h : Fails I m ρ t e) :
      Outcomes I m ρ ts (.error (.evaluation e))

theorem Outcomes.bind {ts : List Term} {r : Checked (List Term)} {f : List Term → Checked Term}
    (h : Outcomes I m ρ ts r)
    (hsub : ∀ t ∈ ts, ∀ {τ w}, Demands I m ρ t τ w → Demands I m σ u τ w)
    (hf : ∀ vs, List.Forall₂ (fun t v => Represents I t.sort (t.eval I ρ) v) ts vs →
      Outcome I m σ u (f vs)) : Outcome I m σ u (r >>= f) := by
  cases h with
  | values hvs => exact hf _ hvs
  | fault ht he => exact .fault (he.of_demands (hsub _ ht))

section Steps

variable {call : Caller} {scope : Scope}

theorem outcomes_evaluateAll : ∀ {ts : List Term},
    (∀ t ∈ ts, Outcome I m ρ t (evaluateWith call scope t)) →
    Outcomes I m ρ ts (evaluateAll call scope ts)
  | [], _ => by
    rw [evaluateAll]
    exact .values .nil
  | t :: ts, h => by
    obtain ⟨ht, hts⟩ := List.forall_mem_cons.1 h
    have ih := outcomes_evaluateAll hts
    rw [evaluateAll]
    generalize evaluateWith call scope t = r at ht
    generalize evaluateAll call scope ts = rs at ih
    cases ht with
    | fault he => exact .fault List.mem_cons_self he
    | value hv =>
      cases ih with
      | fault hmem he => exact .fault (List.mem_cons_of_mem _ hmem) he
      | values hvs => exact .values (.cons hv hvs)

/-! ## Operators -/

theorem Outcome.unary (hI : I.Distinct) {op : UnaryOp} {r : Checked Term}
    (ht : Outcome I m ρ t r) (hop : op.IsFolded) (hrule : ∃ s, unarySort op t.sort = .ok s) :
    Outcome I m ρ (.unary op t) (r >>= foldUnary op) := by
  refine ht.bind .operand fun v hv => ?_
  obtain ⟨w, hw, hrepresents⟩ := exists_foldUnary hI hop hrule hv
  rw [hw]
  exact .value hrepresents

/-- Integer operators are where evaluation may fail. -/
theorem Outcome.arithmetic {op : Arithmetic} {l r : Term} {v w : Term}
    (hrule : ∃ s, binarySort (.arithmetic op) l.sort r.sort = .ok s)
    (hv : Represents I l.sort (l.eval I ρ) v) (hw : Represents I r.sort (r.eval I ρ) w) :
    Outcome I m ρ (.binary (.arithmetic op) l r) (foldBinary (.arithmetic op) v w) := by
  obtain ⟨hl, hr⟩ := binarySort_arithmetic.1 hrule
  obtain ⟨a, rfl, ha⟩ := (hl ▸ hv).exists_int
  obtain ⟨b, rfl, hb⟩ := (hr ▸ hw).exists_int
  rcases foldArithmetic_cases (I := I) op a b with hok | ⟨e, herror, hfails⟩
  · have heval : (Term.binary (.arithmetic op) l r).eval I ρ = .int (I.arithmetic op a b) := by
      rw [Term.eval, ha, hb]
      rfl
    change Outcome I m ρ _ (foldArithmetic op a b)
    rw [hok]
    exact .value (heval ▸ represents_int _)
  · change Outcome I m ρ _ (foldArithmetic op a b)
    rw [herror]
    exact .fault ⟨ρ, op, l, r, a, b, .refl, ha, hb, hfails⟩

theorem Outcome.binary (hI : I.Distinct) {op : BinaryOp} {l r : Term} {x y : Checked Term}
    (hl : Outcome I m ρ l x) (hr : Outcome I m ρ r y) (hop : op.IsFolded)
    (hrule : ∃ s, binarySort op l.sort r.sort = .ok s) :
    Outcome I m ρ (.binary op l r) (x >>= fun v => y >>= fun w => foldBinary op v w) := by
  refine hl.bind .left fun v hv => hr.bind .right fun w hw => ?_
  by_cases harithmetic : ∃ o, op = .arithmetic o
  · obtain ⟨o, rfl⟩ := harithmetic
    exact .arithmetic hrule hv hw
  · obtain ⟨z, hz, hrepresents⟩ := exists_foldBinary hI hop
      (fun o ho => harithmetic ⟨o, ho⟩) hrule hv hw
    rw [hz]
    exact .value hrepresents

/-- A choice has the outcome of the branch that its condition takes. -/
theorem Outcome.ite {c y n : Term} {r : Checked Term} (hc : Outcome I m ρ c r)
    (hy : Outcome I m ρ y (evaluateWith call scope y))
    (hn : Outcome I m ρ n (evaluateWith call scope n)) (hcondition : c.sort = .bool)
    (hbranches : y.sort = n.sort) :
    Outcome I m ρ (.ite c y n) (r >>= fun c => match c.bool? with
      | some true => evaluateWith call scope y
      | some false => evaluateWith call scope n
      | none => do mkIte c (← evaluateWith call scope y) (← evaluateWith call scope n)) := by
  refine hc.bind .condition fun v hv => ?_
  -- the condition comes to a truth value, and the other branch is not evaluated
  obtain ⟨b, rfl, hb⟩ := (hcondition ▸ hv).exists_bool
  cases b with
  | true =>
    have hholds : (c.eval I ρ).Holds := by
      rw [hb]
      rfl
    have heval : (Term.ite c y n).eval I ρ = y.eval I ρ := by rw [Term.eval, if_pos hholds]
    change Outcome I m ρ _ (evaluateWith call scope y)
    generalize evaluateWith call scope y = r at hy
    cases hy with
    | value hy => exact .value (heval ▸ hy)
    | fault he => exact .fault (he.of_demands (.yes hholds))
  | false =>
    have hholds : ¬(c.eval I ρ).Holds := by
      rw [hb]
      exact Bool.false_ne_true
    have heval : (Term.ite c y n).eval I ρ = n.eval I ρ := by rw [Term.eval, if_neg hholds]
    change Outcome I m ρ _ (evaluateWith call scope n)
    generalize evaluateWith call scope n = r at hn
    cases hn with
    | value hn => exact .value (heval ▸ hbranches ▸ hn)
    | fault he => exact .fault (he.of_demands (.no hholds))

theorem Outcomes.nary {op : NaryOp} {ts : List Term} {r : Checked (List Term)}
    (hts : Outcomes I m ρ ts r) (hne : ts ≠ []) (hfit : ∀ t ∈ ts, fitsNary op t.sort = true) :
    Outcome I m ρ (.nary op ts) (r >>= foldNary op) := by
  refine hts.bind (fun _ ht _ _ => .item ht) fun vs hvs => ?_
  obtain ⟨w, hw, hrepresents⟩ := exists_foldNary hne hfit hvs
  rw [hw]
  refine .value ?_
  rwa [Term.eval, evalAll_eq_map]

/-! ## Calls -/

/-- Are calls of the definition, on arguments that represent values, carried out by evaluating its
body? -/
def Carries (I : Interpretation E) (m : Model) (call : Caller) (d : FunctionDefinition) : Prop :=
  ∀ (ps : List (Term × RelSmt.Value E)) (ρ : Assignment E),
    List.Forall₂ (fun v p => Represents I v.sort p.2 p.1) d.inputs ps →
    Outcome I m (ρ.bindAll d.inputs (ps.map Prod.snd)) d.body (call d (ps.map Prod.fst))

/-- Evaluated arguments as values for parameters of their sorts. -/
theorem exists_arguments {ts vs : List Term} {inputs : List Variable}
    (h : List.Forall₂ (fun t v => Represents I t.sort (t.eval I ρ) v) ts vs)
    (hsorts : sorts ts = inputs.map Variable.sort) :
    ∃ ps : List (Term × RelSmt.Value E), vs = ps.map Prod.fst ∧ evalAll I ts ρ = ps.map Prod.snd ∧
      List.Forall₂ (fun x p => Represents I x.sort p.2 p.1) inputs ps := by
  induction h generalizing inputs with
  | nil =>
    obtain rfl := List.map_eq_nil_iff.1 hsorts.symm
    exact ⟨[], rfl, rfl, .nil⟩
  | @cons t v ts vs hv _ ih =>
    cases inputs with
    | nil => cases hsorts
    | cons x inputs =>
      obtain ⟨hsort, hsorts⟩ := List.cons.inj hsorts
      obtain ⟨ps, rfl, hvalues, hps⟩ := ih hsorts
      exact ⟨(v, t.eval I ρ) :: ps, rfl, congrArg _ hvalues, .cons (hsort ▸ hv) hps⟩

/-- Is this a definition of the model whose calls are carried out, and does the interpretation
satisfy it? -/
structure Follows (I : Interpretation E) (m : Model) (call : Caller) (d : FunctionDefinition) :
    Prop where
  mem : d ∈ m.functions
  sort : d.body.sort = d.output
  satisfied : ∀ as, I.HasSorts d.inputs as → ∀ ρ : Assignment E,
    I.function d.symbol as = d.body.eval I (ρ.bindAll d.inputs as)
  carried : Carries I m call d

variable {d : FunctionDefinition}

/-- A call with arguments of the declared sorts has the outcome of the body. -/
theorem Follows.apply (hd : Follows I m call d) {ts vs : List Term}
    (h : List.Forall₂ (fun t v => Represents I t.sort (t.eval I ρ) v) ts vs)
    (hsorts : sorts ts = d.inputs.map Variable.sort) :
    I.function d.symbol (evalAll I ts ρ) = d.body.eval I (ρ.bindAll d.inputs (evalAll I ts ρ)) ∧
      Outcome I m (ρ.bindAll d.inputs (evalAll I ts ρ)) d.body (call.apply d vs) := by
  obtain ⟨ps, rfl, hvalues, hps⟩ := exists_arguments h hsorts
  have hlength : d.inputs.length = (ps.map Prod.fst).length := by
    rw [List.length_map]
    exact hps.length_eq
  rw [hvalues, Caller.apply, if_pos hlength]
  refine ⟨hd.satisfied _ ?_ ρ, hd.carried ps ρ hps⟩
  exact List.forall₂_map_right_iff.2 (hps.imp fun _ _ hp => hp.hasSort)

theorem Outcome.application (hd : Follows I m call d) {ts : List Term} {r : Checked (List Term)}
    (hts : Outcomes I m ρ ts r) (hsorts : sorts ts = d.symbol.inputs) :
    Outcome I m ρ (.call d.symbol ts) (r >>= call.apply d) := by
  refine hts.bind (fun _ ht _ _ => .argument ht) fun vs hvs => ?_
  obtain ⟨heval, houtcome⟩ := hd.apply hvs hsorts
  generalize call.apply d vs = r at houtcome
  cases houtcome with
  | value hv =>
    refine .value ?_
    rw [Term.eval, heval]
    exact (hd.sort ▸ hv : Represents I d.output _ _)
  | fault he => exact .fault (he.of_demands (.body hd.mem))

/-- A function without parameters is called where its name stands. -/
theorem Outcome.constant (hd : Follows I m call d) (hin : d.symbol.inputs = []) :
    Outcome I m ρ (.symbol d.symbol) (call.apply d []) := by
  have hinputs : d.inputs = [] := List.map_eq_nil_iff.1 hin
  obtain ⟨heval, houtcome⟩ := (hd.apply .nil hin.symm :
    _ = _ ∧ Outcome I m (ρ.bindAll d.inputs (evalAll I [] ρ)) d.body _)
  rw [hinputs] at heval houtcome
  generalize call.apply d [] = r at houtcome
  cases houtcome with
  | value hv =>
    refine .value ?_
    rw [Term.eval, show I.function d.symbol [] = _ from heval]
    exact (hd.sort ▸ hv : Represents I d.output _ _)
  | fault he => exact .fault (he.of_demands (.value hd.mem))

/-! ## The step from calls to terms -/

variable {V : Variable → Prop} {F : FunctionSymbol → Prop}

/-- **Evaluation comes to the meaning of an evaluable term**, or to the fault of a part that it
demands, if names stand for values of the variables and calls are carried out as definitions say. -/
theorem outcome_evaluateWith (hI : I.Distinct)
    (hV : ∀ v, V v → ∃ u, scope.get? v.name = some (.value u) ∧
      Represents I v.sort (ρ.get v) u)
    (hF : ∀ f, F f → ∃ d, d.symbol = f ∧ scope.get? f.name = some (.definition d) ∧
      Follows I m call d)
    (h : EvaluableOver V F t) : Outcome I m ρ t (evaluateWith call scope t) := by
  induction h with
  | literal hc =>
    rw [evaluateWith]
    refine .value ?_
    rw [eval, literalValue_eq_scalar]
    exact represents_literal hc
  | var hv =>
    obtain ⟨u, hget, hu⟩ := hV _ hv
    rw [evaluateWith, evaluateName, hget]
    exact .value hu
  | symbol hf hin =>
    obtain ⟨d, rfl, hget, hd⟩ := hF _ hf
    -- without inputs a symbol stands for a value, and the definition is called at once
    have hvalue : d.isValue = true := by
      rw [FunctionDefinition.isValue, List.map_eq_nil_iff.1 hin]
      rfl
    rw [evaluateWith, evaluateName, hget]
    dsimp only
    rw [if_pos hvalue]
    exact .constant hd hin
  | emptySet hs =>
    rw [evaluateWith]
    refine .value ?_
    rw [eval, ← rowsOf_nil (I := I)]
    exact (Lists.empty hs).represents
  | unary ht hop hrule iht =>
    rw [evaluateWith]
    exact iht.unary hI hop hrule
  | binary hl hr hop hrule ihl ihr =>
    rw [evaluateWith]
    exact ihl.binary hI ihr hop hrule
  | ite hc hy hn hcondition hbranches ihc ihy ihn =>
    rw [evaluateWith]
    exact ihc.ite ihy ihn hcondition hbranches
  | nary hts hne hfit ihts =>
    rw [evaluateWith]
    exact (outcomes_evaluateAll ihts).nary hne hfit
  | call hf hts hsorts ihts =>
    obtain ⟨d, rfl, hget, hd⟩ := hF _ hf
    rw [evaluateWith, Scope.definition?, hget]
    exact .application hd (outcomes_evaluateAll ihts) hsorts

end Steps

end Term

end RelSmt
