import RelSmt.Proofs.Term.Sorting

/-!
# Terms that can be evaluated

Evaluation has a rule for every form of term except full sets, joins, products, transposes,
closures, quantifiers and functions that stand alone although they have parameters. A term without
these is *evaluable*.

Evaluable terms over some variables and functions are also described by the ways in which they are
formed (`EvaluableOver`). What the value of such a term is depends on these functions alone, and the
value has the sort of the term wherever the values of these functions do.
-/

namespace RelSmt

variable {E : Type}

/-- Is the operator folded on values? -/
def UnaryOp.IsFolded : UnaryOp → Prop
  | .transpose => False
  | .closure => False
  | _ => True

/-- Is the operator folded on values? -/
def BinaryOp.IsFolded : BinaryOp → Prop
  | .join => False
  | .product => False
  | _ => True

namespace Term

/-! ## Symbols -/

mutual

/-- The function symbols that a term mentions, be they applied or not. -/
def symbols : Term → List FunctionSymbol
  | .symbol f => [f]
  | .unary _ t => t.symbols
  | .binary _ l r => l.symbols ++ r.symbols
  | .ite c y n => c.symbols ++ y.symbols ++ n.symbols
  | .nary _ ts => symbolsList ts
  | .quantified _ _ body => body.symbols
  | .call f ts => f :: symbolsList ts
  | _ => []

/-- The function symbols that several terms mention. -/
def symbolsList : List Term → List FunctionSymbol
  | [] => []
  | t :: ts => t.symbols ++ symbolsList ts

end

theorem mem_symbolsList {f : FunctionSymbol} {ts : List Term} :
    f ∈ symbolsList ts ↔ ∃ t ∈ ts, f ∈ t.symbols := by
  induction ts with
  | nil => simp [symbolsList]
  | cons t ts ih => simp [symbolsList, ih]

mutual

/-- The value of a term depends on the functions that it mentions alone. -/
theorem eval_congr_function {I J : Interpretation E} (hcarrier : I.carrier = J.carrier)
    (helement : I.element = J.element) (harithmetic : I.arithmetic = J.arithmetic) :
    ∀ (t : Term) (ρ : Assignment E), (∀ f ∈ t.symbols, I.function f = J.function f) →
      t.eval I ρ = t.eval J ρ
  | .literal (.element _ _), _, _ => by simp only [eval, literalValue, helement]
  | .literal (.bool _), _, _ => rfl
  | .literal (.int _), _, _ => rfl
  | .variable _, _, _ => rfl
  | .symbol f, _, h => by simp only [eval, h f (by simp [symbols])]
  | .emptySet _, _, _ => rfl
  | .fullSet _, _, _ => by simp only [eval, hcarrier]
  | .unary op t, ρ, h => by
    simp only [eval, eval_congr_function hcarrier helement harithmetic t ρ h]
  | .binary op l r, ρ, h => by
    simp only [symbols, List.mem_append] at h
    simp only [eval, eval_congr_function hcarrier helement harithmetic l ρ fun f hf => h f (.inl hf),
      eval_congr_function hcarrier helement harithmetic r ρ fun f hf => h f (.inr hf)]
    cases op <;> simp only [binaryValue, harithmetic]
  | .ite c y n, ρ, h => by
    simp only [symbols, List.mem_append] at h
    simp only [eval]
    rw [eval_congr_function hcarrier helement harithmetic c ρ fun f hf => h f (.inl (.inl hf)),
      eval_congr_function hcarrier helement harithmetic y ρ fun f hf => h f (.inl (.inr hf)),
      eval_congr_function hcarrier helement harithmetic n ρ fun f hf => h f (.inr hf)]
  | .nary op ts, ρ, h => by
    simp only [eval, evalAll_congr_function hcarrier helement harithmetic ts ρ h]
  | .quantified .all vs body, ρ, h => by
    simp only [eval, Interpretation.HasSorts, hcarrier,
      fun σ => eval_congr_function hcarrier helement harithmetic body σ h]
  | .quantified .ex vs body, ρ, h => by
    simp only [eval, Interpretation.HasSorts, hcarrier,
      fun σ => eval_congr_function hcarrier helement harithmetic body σ h]
  | .call f ts, ρ, h => by
    simp only [symbols, List.forall_mem_cons] at h
    simp only [eval, h.1, evalAll_congr_function hcarrier helement harithmetic ts ρ h.2]

theorem evalAll_congr_function {I J : Interpretation E} (hcarrier : I.carrier = J.carrier)
    (helement : I.element = J.element) (harithmetic : I.arithmetic = J.arithmetic) :
    ∀ (ts : List Term) (ρ : Assignment E), (∀ f ∈ symbolsList ts, I.function f = J.function f) →
      evalAll I ts ρ = evalAll J ts ρ
  | [], _, _ => rfl
  | t :: ts, ρ, h => by
    simp only [symbolsList, List.mem_append] at h
    simp only [evalAll,
      eval_congr_function hcarrier helement harithmetic t ρ fun f hf => h f (.inl hf),
      evalAll_congr_function hcarrier helement harithmetic ts ρ fun f hf => h f (.inr hf)]

end

/-! ## Evaluable terms -/

mutual

/-- Does evaluation have a rule for every part of the term? -/
def IsEvaluable : Term → Prop
  | .symbol f => f.inputs = []
  | .fullSet _ => False
  | .unary op t => op.IsFolded ∧ t.IsEvaluable
  | .binary op l r => op.IsFolded ∧ l.IsEvaluable ∧ r.IsEvaluable
  | .ite c y n => c.IsEvaluable ∧ y.IsEvaluable ∧ n.IsEvaluable
  | .nary _ ts => AreEvaluable ts
  | .quantified _ _ _ => False
  | .call _ ts => AreEvaluable ts
  | _ => True

/-- Does evaluation have a rule for every part of these terms? -/
def AreEvaluable : List Term → Prop
  | [] => True
  | t :: ts => t.IsEvaluable ∧ AreEvaluable ts

end

/-- An evaluable term that is built from these variables and functions. -/
inductive EvaluableOver (V : Variable → Prop) (F : FunctionSymbol → Prop) : Term → Prop
  | literal {c : Literal} (h : (Term.literal c).WellSorted) : EvaluableOver V F (.literal c)
  | var {v : Variable} (hv : V v) : EvaluableOver V F (.variable v)
  | symbol {f : FunctionSymbol} (hf : F f) (hin : f.inputs = []) : EvaluableOver V F (.symbol f)
  | emptySet {s : SmtSort} (hs : s.isSet = true) : EvaluableOver V F (.emptySet s)
  | unary {op : UnaryOp} {t : Term} (ht : EvaluableOver V F t) (hop : op.IsFolded)
      (hrule : ∃ s, unarySort op t.sort = .ok s) : EvaluableOver V F (.unary op t)
  | binary {op : BinaryOp} {l r : Term} (hl : EvaluableOver V F l) (hr : EvaluableOver V F r)
      (hop : op.IsFolded) (hrule : ∃ s, binarySort op l.sort r.sort = .ok s) :
      EvaluableOver V F (.binary op l r)
  | ite {c y n : Term} (hc : EvaluableOver V F c) (hy : EvaluableOver V F y)
      (hn : EvaluableOver V F n) (hcondition : c.sort = .bool) (hbranches : y.sort = n.sort) :
      EvaluableOver V F (.ite c y n)
  | nary {op : NaryOp} {ts : List Term} (hts : ∀ t ∈ ts, EvaluableOver V F t) (hne : ts ≠ [])
      (hfit : ∀ t ∈ ts, fitsNary op t.sort = true) : EvaluableOver V F (.nary op ts)
  | call {f : FunctionSymbol} {ts : List Term} (hf : F f) (hts : ∀ t ∈ ts, EvaluableOver V F t)
      (hsorts : sorts ts = f.inputs) : EvaluableOver V F (.call f ts)

variable {V : Variable → Prop} {F : FunctionSymbol → Prop}

mutual

theorem evaluableOver_of_built : ∀ {t : Term}, t.Built → t.IsEvaluable →
    (∀ v ∈ t.freeOccurrences, V v) → (∀ f ∈ t.symbols, F f) → EvaluableOver V F t
  | .literal (.bool _), _, _, _, _ => .literal trivial
  | .literal (.int _), _, _, _, _ => .literal trivial
  | .literal (.element _ _), h, _, _, _ => .literal h
  | .variable v, _, _, hV, _ => .var (hV v (by simp [freeOccurrences]))
  | .symbol f, _, hin, _, hF => .symbol (hF f (by simp [symbols])) hin
  | .emptySet _, hs, _, _, _ => .emptySet hs
  | .unary _ t, ⟨ht, hrule⟩, ⟨hop, he⟩, hV, hF =>
    .unary (evaluableOver_of_built ht he hV hF) hop hrule
  | .binary _ l r, ⟨hl, hr, hrule⟩, ⟨hop, hel, her⟩, hV, hF => by
    simp only [freeOccurrences, List.forall_mem_append] at hV
    simp only [symbols, List.forall_mem_append] at hF
    exact .binary (evaluableOver_of_built hl hel hV.1 hF.1)
      (evaluableOver_of_built hr her hV.2 hF.2) hop hrule
  | .ite c y n, ⟨hc, hy, hn, hcondition, hbranches⟩, ⟨hec, hey, hen⟩, hV, hF => by
    simp only [freeOccurrences, List.forall_mem_append] at hV
    simp only [symbols, List.forall_mem_append] at hF
    exact .ite (evaluableOver_of_built hc hec hV.1.1 hF.1.1)
      (evaluableOver_of_built hy hey hV.1.2 hF.1.2) (evaluableOver_of_built hn hen hV.2 hF.2)
      hcondition hbranches
  | .nary _ ts, ⟨hne, hts, hfit⟩, he, hV, hF =>
    .nary (evaluableOver_of_builtAll hts he hV hF) hne hfit
  | .call f ts, ⟨hts, hsorts, _⟩, he, hV, hF => by
    simp only [symbols, List.forall_mem_cons] at hF
    exact .call hF.1 (evaluableOver_of_builtAll hts he hV hF.2) hsorts

theorem evaluableOver_of_builtAll : ∀ {ts : List Term}, BuiltAll ts → AreEvaluable ts →
    (∀ v ∈ freeOccurrencesList ts, V v) → (∀ f ∈ symbolsList ts, F f) →
    ∀ t ∈ ts, EvaluableOver V F t
  | [], _, _, _, _ => by simp
  | t :: ts, ⟨ht, hts⟩, ⟨he, hes⟩, hV, hF => by
    simp only [freeOccurrencesList, List.forall_mem_append] at hV
    simp only [symbolsList, List.forall_mem_append] at hF
    exact List.forall_mem_cons.2 ⟨evaluableOver_of_built ht he hV.1 hF.1,
      evaluableOver_of_builtAll hts hes hV.2 hF.2⟩

end

/-- **The value of an evaluable term has the sort of the term**, if the values of its variables and
functions have theirs. -/
theorem EvaluableOver.hasSort {I : Interpretation E} {ρ : Assignment E}
    (hV : ∀ v, V v → (ρ.get v).HasSort I.carrier v.sort)
    (hF : ∀ f, F f → ∀ as, List.Forall₂ (Value.HasSort I.carrier) as f.inputs →
      (I.function f as).HasSort I.carrier f.output)
    {t : Term} (h : EvaluableOver V F t) : (t.eval I ρ).HasSort I.carrier t.sort := by
  have hall : ∀ ts : List Term, (∀ t ∈ ts, (t.eval I ρ).HasSort I.carrier t.sort) →
      List.Forall₂ (Value.HasSort I.carrier) (evalAll I ts ρ) (sorts ts) := fun ts hts => by
    rw [evalAll_eq_map, sorts_eq_map, List.forall₂_map_left_iff, List.forall₂_map_right_iff,
      List.forall₂_same]
    exact hts
  -- the fragment has no binder, so one assignment serves the whole term
  induction h with
  | @literal c h => exact eval_hasSort I h (by simp [freeOccurrences])
  | var hv => exact hV _ hv
  | symbol hf hin => exact hF _ hf [] (hin ▸ .nil)
  | @emptySet s hs => exact eval_hasSort I (t := .emptySet s) hs (by simp [freeOccurrences])
  | unary ht hop hrule iht => exact unaryValue_hasSort iht hrule
  | binary hl hr hop hrule ihl ihr => exact binaryValue_hasSort I ihl ihr hrule
  | ite hc hy hn hcondition hbranches ihc ihy ihn =>
    rw [eval, sort]
    split
    · exact ihy
    · exact hbranches ▸ ihn
  | @nary op ts hts hne hfit ihts =>
    cases op with
    | and => trivial
    | or => trivial
    | mkTuple =>
      rw [eval, naryValue, sort, evalAll_eq_map, sorts_eq_map, Value.hasSort_tuple, List.map_map,
        Tuple.HasSorts, List.forall₂_map_left_iff, List.forall₂_map_right_iff, List.forall₂_same]
      exact fun t ht => Scalar.hasSort_column (ihts t ht) (hfit t ht)
  | @call f ts hf hts hsorts ihts => exact hF f hf _ (hsorts ▸ hall ts ihts)

end Term

end RelSmt
