import RelSmt.Proofs.Evaluation.Scope
import RelSmt.Proofs.Model.Meaning
import RelSmt.Proofs.Model.Reading

/-!
# Definitions that are read are resolved

Every term that is read is built by the checked constructors, and its free variables and symbols are
what their names stand for in the environment in which it is read. In the body of a definition the
parameters hide the names of functions, so the body is built from the parameters and from functions
that none of them hides (`isResolved_of_model`).
-/

namespace RelSmt

/-! ## The last variable of a name -/

theorem Variable.exists_isLastIn {name : String} {vs : List Variable}
    (h : ∃ v ∈ vs, v.name = name) : ∃ v : Variable, v.IsLastIn vs ∧ v.name = name := by
  obtain ⟨v, hv, rfl⟩ := h
  exact exists_isLastOf Variable.name hv

namespace Reply

variable {env : Environment}

/-- Inside a binder a name stands for the last variable of that name, or for what it stood for. -/
theorem get?_bindVariables (env : Environment) (vs : List Variable) (name : String) :
    (∃ v : Variable, v.IsLastIn vs ∧ v.name = name ∧
        (bindVariables env vs).get? name = some v.term) ∨
      ((∀ v ∈ vs, v.name ≠ name) ∧ (bindVariables env vs).get? name = env.get? name) := by
  by_cases hbound : ∃ v ∈ vs, v.name = name
  · left
    obtain ⟨v, hv, rfl⟩ := Variable.exists_isLastIn hbound
    refine ⟨v, hv, rfl, ?_⟩
    obtain ⟨front, back, rfl, hback⟩ := hv
    rw [bindVariables, List.map_append, List.map_cons]
    refine Scoped.get?_putAll_append ?_
    rw [List.map_map, List.mem_map]
    rintro ⟨w, hw, hname⟩
    exact hback w hw hname
  · right
    have hne : ∀ v ∈ vs, v.name ≠ name := fun v hv hname => hbound ⟨v, hv, hname⟩
    refine ⟨hne, ?_⟩
    rw [bindVariables, Scoped.get?_putAll_of_notMem, Scoped.get?_enter]
    rw [List.map_map, List.mem_map]
    rintro ⟨v, hv, hname⟩
    exact hne v hv hname

/-! ## Terms -/

/-- Is this a variable or a symbol of the name? -/
inductive Stands (name : String) : Term → Prop
  | var {v : Variable} (h : v.name = name) : Stands name (.variable v)
  | symbol {f : FunctionSymbol} (h : f.name = name) : Stands name (.symbol f)

/-- Is the term built from what names stand for? -/
structure ResolvedIn (env : Environment) (t : Term) : Prop where
  built : t.Built
  free : ∀ v ∈ t.freeOccurrences, env.get? v.name = some v.term
  mentioned : ∀ f ∈ t.symbols, env.get? f.name = some f.term

theorem resolves_bindVariables_stands {vs : List Variable} (h : env.Resolves Stands) :
    (bindVariables env vs).Resolves Stands := by
  refine h.enter.putAll ?_
  rw [List.forall_mem_map]
  exact fun v _ => .var rfl

theorem resolvedIn_int (n : Int) : ResolvedIn env (.int n) :=
  ⟨trivial, List.forall_mem_nil _, List.forall_mem_nil _⟩

theorem resolvedIn_of_atom {name : String} {t : Term} (henv : env.Resolves Stands)
    (h : atom name env = .ok t) : ResolvedIn env t := by
  rcases atom_eq_ok.1 h with ⟨_, rfl⟩ | ⟨_, rfl⟩ | ⟨_, hget | ⟨_, s, ⟨_, _, hs⟩, rfl⟩⟩
  · exact ⟨trivial, List.forall_mem_nil _, List.forall_mem_nil _⟩
  · exact ⟨trivial, List.forall_mem_nil _, List.forall_mem_nil _⟩
  · cases henv _ _ hget with
    | @var v hname =>
      exact ⟨trivial, List.forall_mem_singleton.2 (hname ▸ hget), List.forall_mem_nil _⟩
    | @symbol f hname =>
      exact ⟨trivial, List.forall_mem_nil _, List.forall_mem_singleton.2 (hname ▸ hget)⟩
  · refine ⟨?_, List.forall_mem_nil _, List.forall_mem_nil _⟩
    rcases constantSort_eq_ok.1 hs with ⟨_, rfl⟩ | ⟨_, rfl⟩ <;> rfl

theorem resolvedIn_nary {op : NaryOp} {ts : List Term} (hts : ∀ t ∈ ts, ResolvedIn env t)
    (hne : ts ≠ []) (hfit : ∀ t ∈ ts, Term.fitsNary op t.sort = true) :
    ResolvedIn env (.nary op ts) where
  built := ⟨hne, Term.builtAll_iff.2 fun t ht => (hts t ht).built, hfit⟩
  free v hv := by
    rw [Term.freeOccurrences, Term.freeOccurrencesList_eq_flatMap] at hv
    obtain ⟨t, ht, hv⟩ := List.mem_flatMap.1 hv
    exact (hts t ht).free v hv
  mentioned f hf := by
    obtain ⟨t, ht, hf⟩ := Term.mem_symbolsList.1 hf
    exact (hts t ht).mentioned f hf

/-- A quantified formula mentions what its body does, its own variables apart. -/
theorem resolvedIn_quantified {q : Quantifier} {vs : List Variable} {body : Term}
    (hbody : ResolvedIn (bindVariables env vs) body) (hne : vs ≠ []) (hsort : body.sort = .bool) :
    ResolvedIn env (.quantified q vs body) where
  built := ⟨hne, hbody.built, hsort⟩
  free v hv := by
    obtain ⟨hv, hunbound⟩ := Term.mem_freeOccurrences_quantified.1 hv
    have hget := hbody.free v hv
    rcases get?_bindVariables env vs v.name with ⟨w, ⟨front, back, rfl, _⟩, hname, _⟩ | ⟨_, heq⟩
    · exact absurd hname.symm (hunbound w (by simp))
    · rwa [heq] at hget
  mentioned f hf := by
    have hget := hbody.mentioned f hf
    rcases get?_bindVariables env vs f.name with ⟨w, _, _, hw⟩ | ⟨_, heq⟩
    · rw [hw] at hget
      cases hget
    · rwa [heq] at hget

theorem resolvedIn_of_applies {head : String} {args : List SExpr} {t : Term}
    (henv : env.Resolves Stands)
    (ih : ∀ x ∈ args, ∀ {env : Environment} {t : Term}, env.Resolves Stands →
      term x env = .ok t → ResolvedIn env t)
    (h : Applies env head args t) : ResolvedIn env t := by
  cases h with
  | emptySet hs hset => exact ⟨hset, List.forall_mem_nil _, List.forall_mem_nil _⟩
  | fullSet hs hset => exact ⟨hset, List.forall_mem_nil _, List.forall_mem_nil _⟩
  | negated hx => exact resolvedIn_int _
  | opposite hx ht hsort =>
    have hr := ih _ (by simp) henv hx
    exact ⟨⟨trivial, hr.built, Term.binarySort_arithmetic.2 ⟨rfl, hsort⟩⟩, hr.free, hr.mentioned⟩
  | unary hop hx hsort =>
    have ht := ih _ (by simp) henv hx
    exact ⟨⟨ht.built, hsort⟩, ht.free, ht.mentioned⟩
  | binary hop hx hy hsort =>
    have hl := ih _ (by simp) henv hx
    have hr := ih _ (by simp) henv hy
    exact ⟨⟨hl.built, hr.built, hsort⟩, List.forall_mem_append.2 ⟨hl.free, hr.free⟩,
      List.forall_mem_append.2 ⟨hl.mentioned, hr.mentioned⟩⟩
  | nary hop hxs hne hfit =>
    exact resolvedIn_nary (forall_of_terms (fun x hx _ => ih x hx henv) hxs) hne hfit
  | quantified hop hx hy hne hsort =>
    exact resolvedIn_quantified (ih _ (by simp) (resolves_bindVariables_stands henv) hy) hne hsort
  | ite hx hy hz hc hsort =>
    have hc' := ih _ (by simp) henv hx
    have hy' := ih _ (by simp) henv hy
    have hz' := ih _ (by simp) henv hz
    exact ⟨⟨hc'.built, hy'.built, hz'.built, hc, hsort⟩,
      List.forall_mem_append.2 ⟨List.forall_mem_append.2 ⟨hc'.free, hy'.free⟩, hz'.free⟩,
      List.forall_mem_append.2
        ⟨List.forall_mem_append.2 ⟨hc'.mentioned, hy'.mentioned⟩, hz'.mentioned⟩⟩
  | call has hop hf hxs hsort =>
    have hts := forall_of_terms (fun x hx _ => ih x hx henv) hxs
    refine ⟨⟨Term.builtAll_iff.2 fun t ht => (hts t ht).built, hsort, trivial⟩, fun v hv => ?_, ?_⟩
    · rw [Term.freeOccurrences, Term.freeOccurrencesList_eq_flatMap] at hv
      obtain ⟨t, ht, hv⟩ := List.mem_flatMap.1 hv
      exact (hts t ht).free v hv
    -- the symbol that is called is the one found under the head, and the others are in the operands
    · refine List.forall_mem_cons.2 ⟨?_, fun g hg => ?_⟩
      · cases henv _ _ hf with
        | symbol hname => exact hname ▸ hf
      · obtain ⟨t, ht, hg⟩ := Term.mem_symbolsList.1 hg
        exact (hts t ht).mentioned g hg

/-- **A term that is read is built from what names stand for.** -/
theorem resolvedIn_of_term (x : SExpr) {env : Environment} {t : Term}
    (henv : env.Resolves Stands) (h : term x env = .ok t) : ResolvedIn env t := by
  refine term_induction (P := fun _ env t => env.Resolves Stands → ResolvedIn env t)
    ?_ ?_ ?_ h henv
  · exact fun n env _ _ => resolvedIn_int n
  · exact fun name env t h henv => resolvedIn_of_atom henv h
  · exact fun head args env t ih h henv =>
      resolvedIn_of_applies henv (fun x hx _ _ henv h => ih x hx _ _ h henv) h

/-! ## Definitions -/

/-- A definition has the symbol of its header. -/
theorem symbol_of_define {x : SExpr} {h : Header} {d : FunctionDefinition}
    (hx : item x = .ok (.function h)) (hd : h.define env = .ok d) : d.symbol = h.symbol := by
  obtain ⟨name, y, z, body, vs, s, rfl, _, _, _, rfl⟩ := item_eq_function hx
  obtain ⟨t, _, _, rfl⟩ := define_eq_ok.1 hd
  rfl

/-- Each definition of a model is read among the symbols of all. -/
theorem exists_define_of_model {text : String} {m : Model} (h : model text = .ok m) :
    ∀ d ∈ m.functions, ∃ h : Header, h.define (modelScope m) = .ok d := by
  obtain ⟨xs, items, _, hitems, _, hds⟩ := model_eq_ok.1 h
  have hread : ∀ h ∈ items.filterMap Item.header?, ∃ x, item x = .ok (.function h) := by
    intro h hh
    obtain ⟨i, hi, hih⟩ := List.mem_filterMap.1 hh
    obtain ⟨x, _, hxi⟩ := exists_mem_of_forall₂ hitems hi
    cases i with
    | function h' =>
      obtain rfl := Option.some.inj hih
      exact ⟨x, hxi⟩
    | _ => simp [Item.header?] at hih
  have hsymbols : (items.filterMap Item.header?).map Header.symbol
      = m.functions.map FunctionDefinition.symbol := by
    rw [← List.forall₂_eq_eq_eq, List.forall₂_map_left_iff, List.forall₂_map_right_iff]
    refine ((List.forall₂_and_left _ _).2 ⟨hread, hds⟩).imp ?_
    rintro h d ⟨⟨x, hx⟩, hd⟩
    exact (symbol_of_define hx hd).symm
  rw [hsymbols] at hds
  intro d hd
  obtain ⟨h, _, hdefine⟩ := exists_mem_of_forall₂ hds hd
  exact ⟨h, hdefine⟩

/-- The names of a model's functions stand for their symbols. -/
theorem exists_of_get?_modelScope {m : Model} : (modelScope m).Resolves fun name t =>
    ∃ d ∈ m.functions, t = .symbol d.symbol ∧ d.name = name := by
  refine Scoped.resolves_empty.putAll ?_
  rw [List.forall_mem_map, List.forall_mem_map]
  exact fun d hd => ⟨d, hd, rfl, rfl⟩

theorem get?_modelScope_eq (m : Model) (name : String) :
    (modelScope m).get? name = (m.last? name).map fun d => d.symbol.term := by
  rw [modelScope, symbolScope, List.map_map]
  exact Scoped.get?_putAll_map FunctionDefinition.name (fun d => d.symbol.term) m.functions name

/-- Bodies are read inside their parameters, and have the sorts declared. -/
theorem resolvedIn_body {text : String} {m : Model} (h : model text = .ok m)
    {d : FunctionDefinition} (hd : d ∈ m.functions) :
    ResolvedIn (bindVariables (modelScope m) d.inputs) d.body ∧ d.body.sort = d.output := by
  obtain ⟨h, hdefine⟩ := exists_define_of_model h d hd
  obtain ⟨body, hbody, hsort, rfl⟩ := define_eq_ok.1 hdefine
  have hroot : (modelScope m).Resolves Stands :=
    exists_of_get?_modelScope.mono fun _ _ ⟨e, _, ht, hname⟩ => ht ▸ .symbol hname
  exact ⟨resolvedIn_of_term h.body (resolves_bindVariables_stands hroot) hbody, hsort⟩

/-- A function that a body mentions is the one whose definition counts. -/
theorem last?_of_mentioned {text : String} {m : Model} (h : model text = .ok m)
    {d : FunctionDefinition} (hd : d ∈ m.functions) {f : FunctionSymbol} (hf : f ∈ d.body.symbols) :
    ∃ e, m.last? f.name = some e ∧ e.symbol = f ∧ ∀ v ∈ d.inputs, v.name ≠ f.name := by
  have hget := (resolvedIn_body h hd).1.mentioned f hf
  rcases get?_bindVariables (modelScope m) d.inputs f.name with ⟨w, _, _, hw⟩ | ⟨hne, heq⟩
  · rw [hw] at hget
    cases hget
  · rw [heq, get?_modelScope_eq] at hget
    obtain ⟨e, he, hsymbol⟩ := Option.map_eq_some_iff.1 hget
    exact ⟨e, he, Term.symbol.inj hsymbol, hne⟩

/-- Around the body that mentions it, the function stands for that definition. -/
theorem get?_ofCall_of_mentioned {text : String} {m : Model} (h : model text = .ok m)
    {d : FunctionDefinition} (hd : d ∈ m.functions) {f : FunctionSymbol} (hf : f ∈ d.body.symbols)
    {s : Scope} (hroot : s.root = Scope.ofModel m) (args : List Term) : ∃ e,
      m.last? f.name = some e ∧ e.symbol = f ∧
        (s.ofCall d args).get? f.name = some (.definition e) := by
  obtain ⟨e, he, hsymbol, hne⟩ := last?_of_mentioned h hd hf
  refine ⟨e, he, hsymbol, ?_⟩
  rw [Scope.get?_ofCall_of_ne hne, hroot, Scope.get?_ofModel_eq, he, Option.map_some]

/-- **Every definition of a model that is read is resolved.** -/
theorem isResolved_of_model {text : String} {m : Model} (h : model text = .ok m) :
    ∀ d ∈ m.functions, d.IsResolved m := by
  intro d hd
  obtain ⟨hresolved, hsort⟩ := resolvedIn_body h hd
  refine ⟨hresolved.built, hsort, fun v hv => ?_, fun f hf => ?_⟩
  · have hget := hresolved.free v hv
    rcases get?_bindVariables (modelScope m) d.inputs v.name with ⟨w, hw, _, hwget⟩ | ⟨_, heq⟩
    · rw [hwget] at hget
      obtain rfl := Term.variable.inj (Option.some.inj hget)
      exact hw
    · rw [heq] at hget
      obtain ⟨e, _, he, _⟩ := exists_of_get?_modelScope _ _ hget
      cases he
  · obtain ⟨e, he, hsymbol, hne⟩ := last?_of_mentioned h hd hf
    exact ⟨e, (Model.mem_of_last? he).1, hsymbol, hne⟩

end Reply

end RelSmt
