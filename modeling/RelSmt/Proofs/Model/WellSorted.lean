import RelSmt.Proofs.Model.Resolved

/-!
# When a model that is read is well sorted

A term is judged in a scope, the variables of the binders around it from the outermost to the
innermost. A name in it refers to the innermost variable of that name, or to a function that no
variable hides. Every body that is read is sorted in the scope of its parameters, with functions of
the model in it, and has the declared sort (`isWellSorted_iff_of_model`). Applications are checked,
but the environment of a body binds every function to its bare symbol, whatever its parameters. A
name that stands alone may thus be a function with parameters, which passes for a value of the
function's output sort. This is the one way in which a model that is read is ill sorted.
-/

namespace RelSmt

/-- The last variable of a name stands before binders that do not bind the name. -/
theorem Variable.IsLastIn.of_append {v : Variable} {vs ws : List Variable}
    (h : v.IsLastIn (vs ++ ws)) (hws : ∀ w ∈ ws, w.name ≠ v.name) : v.IsLastIn vs := by
  obtain ⟨front, back, heq, hback⟩ := h
  rcases List.append_eq_append_iff.1 heq with ⟨middle, _, rfl⟩ | ⟨_ | ⟨w, middle⟩, rfl, hrest⟩
  · exact absurd rfl (hws v (by simp))
  · rw [List.nil_append] at hrest
    exact absurd rfl (hws v (hrest ▸ List.mem_cons_self))
  · obtain ⟨rfl, rfl⟩ := List.cons.inj hrest
    exact ⟨front, middle, rfl, fun u hu => hback u (by simp [hu])⟩

namespace Term

/-! ## Symbols without arguments -/

mutual

/-- The function symbols that stand in a term without arguments. -/
def standalone : Term → List FunctionSymbol
  | .symbol f => [f]
  | .unary _ t => t.standalone
  | .binary _ l r => l.standalone ++ r.standalone
  | .ite c y n => c.standalone ++ y.standalone ++ n.standalone
  | .nary _ ts => standaloneList ts
  | .quantified _ _ body => body.standalone
  | .call _ ts => standaloneList ts
  | _ => []

/-- The function symbols that stand in several terms without arguments. -/
def standaloneList : List Term → List FunctionSymbol
  | [] => []
  | t :: ts => t.standalone ++ standaloneList ts

end

theorem mem_standaloneList {f : FunctionSymbol} {ts : List Term} :
    f ∈ standaloneList ts ↔ ∃ t ∈ ts, f ∈ t.standalone := by
  induction ts with
  | nil => simp [standaloneList]
  | cons t ts ih => simp [standaloneList, ih]

mutual

/-- What stands without arguments is mentioned. -/
theorem mem_symbols_of_mem_standalone {f : FunctionSymbol} : ∀ {t : Term}, f ∈ t.standalone →
    f ∈ t.symbols
  | .symbol _, h => h
  | .unary _ t, h => mem_symbols_of_mem_standalone (t := t) h
  | .binary _ l r, h => by
    rw [symbols, List.mem_append]
    exact (List.mem_append.1 h).imp mem_symbols_of_mem_standalone mem_symbols_of_mem_standalone
  | .ite c y n, h => by
    rw [symbols, List.mem_append, List.mem_append]
    refine (List.mem_append.1 h).imp (fun h => ?_) mem_symbols_of_mem_standalone
    exact (List.mem_append.1 h).imp mem_symbols_of_mem_standalone mem_symbols_of_mem_standalone
  | .nary _ ts, h => mem_symbolsList_of_mem_standaloneList (l := ts) h
  | .quantified _ _ body, h => mem_symbols_of_mem_standalone (t := body) h
  | .call _ ts, h => List.mem_cons_of_mem _ (mem_symbolsList_of_mem_standaloneList (l := ts) h)

theorem mem_symbolsList_of_mem_standaloneList {f : FunctionSymbol} : ∀ {l : List Term},
    f ∈ standaloneList l → f ∈ symbolsList l
  | t :: ts, h => by
    rw [symbolsList, List.mem_append]
    exact (List.mem_append.1 h).imp mem_symbols_of_mem_standalone
      mem_symbolsList_of_mem_standaloneList

end

/-! ## Sorting in a scope -/

/-- Is the term well sorted in the scope of some variables? The functions of `F` may be applied in
it, to arguments of their parameters' sorts, and those of `A` may stand alone. -/
inductive SortedIn (F A : FunctionSymbol → Prop) : List Variable → Term → Prop
  | literal {vs : List Variable} {c : Literal} (h : (Term.literal c).WellSorted) :
      SortedIn F A vs (.literal c)
  | var {vs : List Variable} {v : Variable} (hv : v.IsLastIn vs) : SortedIn F A vs (.variable v)
  | symbol {vs : List Variable} {f : FunctionSymbol} (hf : A f) (hvs : ∀ v ∈ vs, v.name ≠ f.name) :
      SortedIn F A vs (.symbol f)
  | emptySet {vs : List Variable} {s : SmtSort} (hs : s.isSet = true) : SortedIn F A vs (.emptySet s)
  | fullSet {vs : List Variable} {s : SmtSort} (hs : s.isSet = true) : SortedIn F A vs (.fullSet s)
  | unary {vs : List Variable} {op : UnaryOp} {t : Term} (ht : SortedIn F A vs t)
      (hrule : ∃ s, unarySort op t.sort = .ok s) : SortedIn F A vs (.unary op t)
  | binary {vs : List Variable} {op : BinaryOp} {l r : Term} (hl : SortedIn F A vs l)
      (hr : SortedIn F A vs r) (hrule : ∃ s, binarySort op l.sort r.sort = .ok s) :
      SortedIn F A vs (.binary op l r)
  | ite {vs : List Variable} {c y n : Term} (hc : SortedIn F A vs c) (hy : SortedIn F A vs y)
      (hn : SortedIn F A vs n) (hcondition : c.sort = .bool) (hbranches : y.sort = n.sort) :
      SortedIn F A vs (.ite c y n)
  | nary {vs : List Variable} {op : NaryOp} {ts : List Term} (hts : ∀ t ∈ ts, SortedIn F A vs t)
      (hne : ts ≠ []) (hfit : ∀ t ∈ ts, fitsNary op t.sort = true) : SortedIn F A vs (.nary op ts)
  | quantified {vs : List Variable} {q : Quantifier} {ws : List Variable} {body : Term}
      (hbody : SortedIn F A (vs ++ ws) body) (hne : ws ≠ []) (hsort : body.sort = .bool) :
      SortedIn F A vs (.quantified q ws body)
  | call {vs : List Variable} {f : FunctionSymbol} {ts : List Term} (hf : F f)
      (hvs : ∀ v ∈ vs, v.name ≠ f.name) (hts : ∀ t ∈ ts, SortedIn F A vs t)
      (hsorts : sorts ts = f.inputs) : SortedIn F A vs (.call f ts)

variable {F A B : FunctionSymbol → Prop} {vs : List Variable} {t : Term}

/-- What stands alone in a term is what may. -/
theorem SortedIn.alone (h : SortedIn F A vs t) : ∀ f ∈ t.standalone, A f := by
  induction h with
  | symbol hf _ => exact List.forall_mem_singleton.2 hf
  | unary _ _ ih => exact ih
  | binary _ _ _ ihl ihr => exact List.forall_mem_append.2 ⟨ihl, ihr⟩
  | ite _ _ _ _ _ ihc ihy ihn =>
    exact List.forall_mem_append.2 ⟨List.forall_mem_append.2 ⟨ihc, ihy⟩, ihn⟩
  | nary _ _ _ ih | call _ _ _ _ ih =>
    intro f hf
    obtain ⟨t, ht, hf⟩ := mem_standaloneList.1 hf
    exact ih t ht f hf
  | quantified _ _ _ ih => exact ih
  | _ => exact List.forall_mem_nil _

/-- A term stays sorted where other functions may stand alone, if those that do are among them. -/
theorem SortedIn.of_alone (h : SortedIn F A vs t) (halone : ∀ f ∈ t.standalone, B f) :
    SortedIn F B vs t := by
  induction h with
  | literal h => exact .literal h
  | var hv => exact .var hv
  | symbol hf hvs => exact .symbol (halone _ (by simp [standalone])) hvs
  | emptySet hs => exact .emptySet hs
  | fullSet hs => exact .fullSet hs
  | unary _ hrule ih => exact .unary (ih halone) hrule
  | binary _ _ hrule ihl ihr =>
    obtain ⟨hl, hr⟩ := List.forall_mem_append.1 halone
    exact .binary (ihl hl) (ihr hr) hrule
  | ite _ _ _ hcondition hbranches ihc ihy ihn =>
    obtain ⟨hcy, hn⟩ := List.forall_mem_append.1 halone
    obtain ⟨hc, hy⟩ := List.forall_mem_append.1 hcy
    exact .ite (ihc hc) (ihy hy) (ihn hn) hcondition hbranches
  | nary _ hne hfit ih =>
    exact .nary (fun t ht => ih t ht fun f hf => halone f (mem_standaloneList.2 ⟨t, ht, hf⟩)) hne hfit
  | quantified _ hne hsort ih => exact .quantified (ih halone) hne hsort
  | call hf hvs _ hsorts ih =>
    exact .call hf hvs (fun t ht => ih t ht fun f hf => halone f (mem_standaloneList.2 ⟨t, ht, hf⟩))
      hsorts

/-- The free variables of a term are those of its scope. -/
theorem SortedIn.free (h : SortedIn F A vs t) : ∀ v ∈ t.freeOccurrences, v.IsLastIn vs := by
  induction h with
  | var hv => exact List.forall_mem_singleton.2 hv
  | unary _ _ ih => exact ih
  | binary _ _ _ ihl ihr => exact List.forall_mem_append.2 ⟨ihl, ihr⟩
  | ite _ _ _ _ _ ihc ihy ihn =>
    exact List.forall_mem_append.2 ⟨List.forall_mem_append.2 ⟨ihc, ihy⟩, ihn⟩
  | nary _ _ _ ih | call _ _ _ _ ih =>
    intro v hv
    rw [freeOccurrences, freeOccurrencesList_eq_flatMap] at hv
    obtain ⟨t, ht, hv⟩ := List.mem_flatMap.1 hv
    exact ih t ht v hv
  | quantified _ _ _ ih =>
    intro v hv
    obtain ⟨hv, hunbound⟩ := mem_freeOccurrences_quantified.1 hv
    exact (ih v hv).of_append fun w hw => (hunbound w hw).symm
  | _ => exact List.forall_mem_nil _

end Term

/-! ## Models -/

/-- Does the model define this function? -/
def Model.Defines (m : Model) (f : FunctionSymbol) : Prop := ∃ d ∈ m.functions, d.symbol = f

/-- Does the model define this function, and has it no parameters? -/
def Model.DefinesConstant (m : Model) (f : FunctionSymbol) : Prop := m.Defines f ∧ f.inputs = []

/-- Is the definition well sorted? Its body has the declared sort and is well sorted in the scope of
the parameters, with functions of the model applied in it and constants of the model alone. -/
structure FunctionDefinition.IsWellSorted (m : Model) (d : FunctionDefinition) : Prop where
  body : d.body.SortedIn m.Defines m.DefinesConstant d.inputs
  sort : d.body.sort = d.output

namespace Reply

variable {F : FunctionSymbol → Prop} {vs : List Variable} {env : Environment}

/-- What a name stands for in the scope of some variables: the innermost variable of the name, or a
function that none of them hides. -/
inductive Refers (F : FunctionSymbol → Prop) (vs : List Variable) (name : String) : Term → Prop
  | var {v : Variable} (hv : v.IsLastIn vs) (hname : v.name = name) : Refers F vs name (.variable v)
  | symbol {f : FunctionSymbol} (hf : F f) (hname : f.name = name) (hvs : ∀ v ∈ vs, v.name ≠ name) :
      Refers F vs name (.symbol f)

/-- Inside a binder names refer to its variables first. -/
theorem refers_bindVariables (henv : env.Resolves (Refers F vs)) (ws : List Variable) :
    (bindVariables env ws).Resolves (Refers F (vs ++ ws)) := by
  intro name t ht
  rcases get?_bindVariables env ws name with ⟨w, ⟨front, back, rfl, hback⟩, hname, hw⟩ | ⟨hne, heq⟩
  · obtain rfl := Option.some.inj (hw.symm.trans ht)
    exact .var ⟨vs ++ front, back, by simp, hback⟩ hname
  · rw [heq] at ht
    cases henv name t ht with
    | var hv hname =>
      obtain ⟨front, back, rfl, hback⟩ := hv
      refine .var ⟨front, back ++ ws, by simp, List.forall_mem_append.2 ⟨hback, ?_⟩⟩ hname
      exact fun w hw => hname ▸ hne w hw
    | symbol hf hname hvs => exact .symbol hf hname (List.forall_mem_append.2 ⟨hvs, hne⟩)

theorem sortedIn_of_atom {name : String} {t : Term} (henv : env.Resolves (Refers F vs))
    (h : atom name env = .ok t) : t.SortedIn F F vs := by
  rcases atom_eq_ok.1 h with ⟨_, rfl⟩ | ⟨_, rfl⟩ | ⟨_, hget | ⟨_, s, ⟨_, _, hs⟩, rfl⟩⟩
  · exact .literal trivial
  · exact .literal trivial
  · cases henv _ _ hget with
    | var hv _ => exact .var hv
    | symbol hf hname hvs => exact .symbol hf (hname ▸ hvs)
  · rcases constantSort_eq_ok.1 hs with ⟨_, rfl⟩ | ⟨_, rfl⟩ <;> exact .literal rfl

theorem sortedIn_of_applies {head : String} {args : List SExpr} {t : Term}
    (henv : env.Resolves (Refers F vs))
    (ih : ∀ x ∈ args, ∀ {vs : List Variable} {env : Environment} {t : Term},
      env.Resolves (Refers F vs) → term x env = .ok t → t.SortedIn F F vs)
    (h : Applies env head args t) : t.SortedIn F F vs := by
  cases h with
  | emptySet _ hset => exact .emptySet hset
  | fullSet _ hset => exact .fullSet hset
  | negated _ => exact .literal trivial
  | opposite hx _ hsort =>
    exact .binary (.literal trivial) (ih _ (by simp) henv hx)
      (Term.binarySort_arithmetic.2 ⟨rfl, hsort⟩)
  | unary _ hx hrule => exact .unary (ih _ (by simp) henv hx) hrule
  | binary _ hx hy hrule => exact .binary (ih _ (by simp) henv hx) (ih _ (by simp) henv hy) hrule
  | nary _ hxs hne hfit => exact .nary (forall_of_terms (fun x hx _ => ih x hx henv) hxs) hne hfit
  | quantified _ _ hy hne hsort =>
    exact .quantified (ih _ (by simp) (refers_bindVariables henv _) hy) hne hsort
  | ite hx hy hz hcondition hbranches =>
    exact .ite (ih _ (by simp) henv hx) (ih _ (by simp) henv hy) (ih _ (by simp) henv hz) hcondition
      hbranches
  | call _ _ hf hxs hsorts =>
    cases henv _ _ hf with
    | symbol hdefined hname hvs =>
      exact .call hdefined (hname ▸ hvs) (forall_of_terms (fun x hx _ => ih x hx henv) hxs) hsorts

/-- **A term that is read is sorted in its scope**, with bare symbols of any functions. -/
theorem sortedIn_of_term (x : SExpr) {vs : List Variable} {env : Environment} {t : Term}
    (henv : env.Resolves (Refers F vs)) (h : term x env = .ok t) : t.SortedIn F F vs := by
  refine term_induction
    (P := fun _ env t => ∀ vs, env.Resolves (Refers F vs) → t.SortedIn F F vs) ?_ ?_ ?_ h vs henv
  · exact fun n env _ vs _ => .literal trivial
  · exact fun name env t h vs henv => sortedIn_of_atom henv h
  · exact fun head args env t ih h vs henv =>
      sortedIn_of_applies henv (fun x hx vs _ _ henv h => ih x hx _ _ h vs henv) h

/-- Outside all binders the names of a model refer to its functions. -/
theorem refers_modelScope (m : Model) : (modelScope m).Resolves (Refers m.Defines []) :=
  exists_of_get?_modelScope.mono fun _ _ ⟨d, hd, ht, hname⟩ =>
    ht ▸ .symbol ⟨d, hd, rfl⟩ hname (List.forall_mem_nil _)

/-- **A definition that is read is well sorted, unless a function with parameters stands alone in
its body.** Its body is sorted in the scope of its parameters in any case. -/
theorem isWellSorted_iff_of_model {text : String} {m : Model} (h : model text = .ok m)
    {d : FunctionDefinition} (hd : d ∈ m.functions) :
    d.body.SortedIn m.Defines m.Defines d.inputs ∧ d.body.sort = d.output ∧
      (∀ v ∈ d.body.freeOccurrences, v ∈ d.inputs) ∧
      (d.IsWellSorted m ↔ ∀ f ∈ d.body.standalone, f.inputs = []) := by
  obtain ⟨header, hdefine⟩ := exists_define_of_model h d hd
  obtain ⟨body, hbody, hsort, rfl⟩ := define_eq_ok.1 hdefine
  have hsorted : body.SortedIn m.Defines m.Defines header.inputs :=
    sortedIn_of_term header.body (refers_bindVariables (refers_modelScope m) header.inputs) hbody
  refine ⟨hsorted, hsort, fun v hv => ?_, fun hwell f hf => (hwell.body.alone f hf).2, fun hconstants =>
    ⟨hsorted.of_alone fun f hf => ⟨hsorted.alone f hf, hconstants f hf⟩, hsort⟩⟩
  obtain ⟨front, back, heq, _⟩ := hsorted.free v hv
  rw [heq]
  simp

/-- A function with a parameter, and a constant whose body is the function's bare name. -/
def bareNameText : String := "((define-fun f ((x Int)) Int x)(define-fun g () Int f))"

/-- What is read from that text. -/
def bareNameModel : Model :=
  ⟨[], [⟨"f", [.plain "x" .int], .int, .variable (.plain "x" .int)⟩,
    ⟨"g", [], .int, .symbol ⟨"f", [.int], .int⟩⟩]⟩

theorem model_bareNameText : model bareNameText = .ok bareNameModel := by
  have hitems : SExpr.readAll bareNameText = .ok [.list
      [.list [.symbol "define-fun", .symbol "f", .list [.list [.symbol "x", .symbol "Int"]], .symbol "Int",
          .symbol "x"],
        .list [.symbol "define-fun", .symbol "g", .list [], .symbol "Int", .symbol "f"]]] := rfl
  have hx : Reply.term (.symbol "x") (bindVariables (modelScope bareNameModel) [.plain "x" .int])
      = .ok (.variable (.plain "x" .int)) := by
    rw [term_symbol]
    rfl
  have hf : Reply.term (.symbol "f") (bindVariables (modelScope bareNameModel) [])
      = .ok (.symbol ⟨"f", [.int], .int⟩) := by
    rw [term_symbol]
    rfl
  exact model_eq_ok.2 ⟨_, [.function ⟨⟨"f", [.int], .int⟩, [.plain "x" .int], .symbol "x"⟩,
      .function ⟨⟨"g", [], .int⟩, [], .symbol "f"⟩],
    hitems, .cons rfl (.cons rfl .nil), rfl,
    .cons (define_eq_ok.2 ⟨_, hx, rfl, rfl⟩) (.cons (define_eq_ok.2 ⟨_, hf, rfl, rfl⟩) .nil)⟩

/-- The constant of that model is accepted, but not well sorted. -/
theorem isWellSorted_iff_of_model_bareName : ∃ d ∈ bareNameModel.functions,
    model bareNameText = .ok bareNameModel ∧ d.name = "g" ∧ ¬ d.IsWellSorted bareNameModel := by
  let g : FunctionDefinition := ⟨"g", [], .int, .symbol ⟨"f", [.int], .int⟩⟩
  have hg : g ∈ bareNameModel.functions := by simp [bareNameModel, g]
  refine ⟨g, hg, model_bareNameText, rfl, fun hwell => ?_⟩
  obtain ⟨_, _, _, hiff⟩ := isWellSorted_iff_of_model model_bareNameText hg
  have hin := hiff.1 hwell ⟨"f", [.int], .int⟩ (by simp [g, Term.standalone])
  simp at hin

end Reply

end RelSmt
