import RelSmt.Proofs.Evaluation.Scope
import RelSmt.Proofs.Evaluation.Value
import RelSmt.Proofs.Model.WellSorted
import RelSmt.Proofs.Term.Replacement

/-!
# Evaluation keeps sorts

A term that is built evaluates to a built term of its sort, or fails with a fault of evaluation,
where the names that stand alone in it have the sorts that they are used at and the functions that
it mentions have the declarations that it mentions (`yields_evaluateWith`). So no node is refused
for the sorts of its operands on the way up. Every operator is treated on its own: what it folds to
has the sort that the operator gives the operands, and where it is rebuilt it passes the check that
it passed before.

Names are looked up by name alone, and inside a body the parameters hide the definitions. That the
declarations agree is therefore not enough (`not_sort_of_evaluate_hidden`): a symbol in a body may
be hidden by a parameter of another sort.
-/

namespace RelSmt.Term

/-- Is this a built term of the sort? -/
structure OfSort (s : SmtSort) (t : Term) : Prop where
  built : t.Built
  sort : t.sort = s

theorem ofSort_bool (b : Bool) : OfSort .bool (.bool b) := ⟨trivial, rfl⟩

theorem ofSort_int (n : Int) : OfSort .int (.int n) := ⟨trivial, rfl⟩

section Folding

variable {t l r : Term} {s : SmtSort}

/-! ## Sets -/

/-- What a built set lists are tuples of its element sort. -/
theorem forall_of_listed {us : List Term} (ht : t.Built) (h : t.listed = .ok us) :
    ∀ u ∈ us, u.Built ∧ u.sort.isTuple = true ∧ t.sort = .set u.sort := by
  fun_induction Term.listed t generalizing us with
  | case1 s => exact Except.ok.inj h ▸ List.forall_mem_nil _
  | case2 t =>
    exact Except.ok.inj h ▸ List.forall_mem_singleton.2 ⟨ht.1, unarySort_singleton.1 ht.2, rfl⟩
  | case3 l r ihl ihr =>
    obtain ⟨ls, hls, h⟩ := Checked.bind_eq_ok.1 h
    obtain ⟨rs, hrs, h⟩ := Checked.bind_eq_ok.1 h
    have hsort := (binarySort_set.1 ht.2.2).2
    rw [← Checked.pure_eq_ok.1 h]
    refine List.forall_mem_append.2 ⟨ihl ht.1 hls, fun u hu => ?_⟩
    obtain ⟨hbuilt, htuple, hr⟩ := ihr ht.2.1 hrs u hu
    exact ⟨hbuilt, htuple, hsort.trans hr⟩
  | case4 t => cases h

theorem forall_of_elements {us : List Term} (ht : t.Built) (h : t.elements = .ok us) :
    ∀ u ∈ us, u.Built ∧ u.sort.isTuple = true ∧ t.sort = .set u.sort := by
  obtain ⟨vs, hvs, h⟩ := Checked.bind_eq_ok.1 h
  rw [← Checked.pure_eq_ok.1 h]
  exact fun u hu => forall_of_listed ht hvs u (mem_of_mem_eraseDups hu)

theorem yields_single (ht : t.Built) (htuple : t.sort.isTuple = true) :
    Yields (OfSort (.set t.sort)) t.single := by
  rw [single_eq_ok.2 ⟨htuple, rfl⟩]
  exact .value ⟨⟨ht, unarySort_singleton.2 htuple⟩, rfl⟩

theorem yields_union (hl : l.OfSort s) (hr : r.OfSort s) (hs : s.isSet = true) :
    Yields (OfSort s) (l.union r) := by
  have hrule := And.intro (hl.sort ▸ hs) (hl.sort.trans hr.sort.symm)
  rw [show l.union r = _ from setOp_eq_ok.2 ⟨hrule, rfl⟩]
  exact .value ⟨⟨hl.built, hr.built, binarySort_set.2 hrule⟩, hl.sort⟩

theorem yields_ofElements {ts : List Term} (hs : s.isSet = true)
    (hts : ∀ u ∈ ts, u.Built ∧ u.sort.isTuple = true ∧ s = .set u.sort) :
    Yields (OfSort s) (ofElements s ts) := by
  have hsingle : ∀ u ∈ ts, Yields (OfSort s) u.single := fun u hu => by
    obtain ⟨hbuilt, htuple, hsort⟩ := hts u hu
    rw [hsort]
    exact yields_single hbuilt htuple
  cases ts with
  | nil =>
    rw [ofElements, emptyOf_eq_ok.2 ⟨hs, rfl⟩]
    exact .value ⟨hs, rfl⟩
  | cons u us =>
    obtain ⟨hu, hus⟩ := List.forall_mem_cons.1 hsingle
    refine hu.bind fun set hset => Meets.foldlM (fun t ht set hset => ?_) hset
    exact (hus t ht).bind fun one hone => yields_union hset hone hs

theorem yields_foldFilter (hl : l.Built) (hs : l.sort.isSet = true) (r : Term) (keep : Bool) :
    Yields (OfSort l.sort) (foldFilter l r keep) := by
  have helements := (yields_elements l).of_forall_ok fun _ h => forall_of_elements hl h
  exact (yields_elements r).bind fun _ _ => helements.bind fun _ hus =>
    yields_ofElements hs fun u hu => hus u (List.mem_filter.1 hu).1

/-! ## Operators -/

theorem yields_foldUnary {op : UnaryOp} (ht : t.Built) (hop : ∃ s, unarySort op t.sort = .ok s) :
    Yields (OfSort (Term.unary op t).sort) (foldUnary op t) := by
  have hfolds := foldsUnary op t
  generalize foldUnary op t = x at hfolds
  cases hfolds with
  | truth b => exact .value (ofSort_bool b)
  | number n => exact .value (ofSort_int n)
  | rebuilt =>
    rw [mkUnary_eq_ok.2 ⟨hop, rfl⟩]
    exact .value ⟨⟨ht, hop⟩, rfl⟩
  | fault he => exact .fault he

theorem yields_foldBinary {op : BinaryOp} (hl : l.Built) (hr : r.Built)
    (hop : ∃ s, binarySort op l.sort r.sort = .ok s) :
    Yields (OfSort (Term.binary op l r).sort) (foldBinary op l r) := by
  have hfolds := foldsBinary op l r
  generalize foldBinary op l r = x at hfolds
  cases hfolds with
  | truth htest b => exact .value (htest l r ▸ ofSort_bool b)
  | number o n => exact .value (ofSort_int n)
  | left => exact .value ⟨hl, (binarySort_connective.1 hop).1⟩
  | right => exact .value ⟨hr, (binarySort_connective.1 hop).2⟩
  | filter o keep => exact yields_foldFilter hl (binarySort_set.1 hop).1 r keep
  | rebuilt =>
    rw [mkBinary_eq_ok.2 ⟨hop, rfl⟩]
    exact .value ⟨⟨hl, hr, hop⟩, rfl⟩
  | fault he => exact .fault he

theorem yields_foldNary {op : NaryOp} {ts : List Term} (hne : ts ≠ []) (hts : ∀ t ∈ ts, t.Built)
    (hfit : ∀ t ∈ ts, fitsNary op t.sort = true) :
    Yields (OfSort (Term.nary op ts).sort) (foldNary op ts) := by
  have hbool : op ≠ .mkTuple → (Term.nary op ts).sort = .bool ∧ ∀ t ∈ ts, t.sort = .bool := by
    cases op with
    | mkTuple => exact fun h => absurd rfl h
    | _ => exact fun _ => ⟨rfl, fun t ht => beq_iff_eq.1 (hfit t ht)⟩
  have hfolds := foldsNary op ts
  generalize foldNary op ts = x at hfolds
  cases hfolds with
  | truth hop b => exact .value ((hbool hop).1 ▸ ofSort_bool b)
  | operand hop ht => exact .value ⟨hts _ ht, ((hbool hop).2 _ ht).trans (hbool hop).1.symm⟩
  | rebuilt hus hsort hne' _ =>
    have hfit' := fun u hu => hfit u (hus u hu)
    rw [mkNary_eq_ok.2 ⟨hne' hne, hfit', rfl⟩]
    exact .value ⟨⟨hne' hne, builtAll_iff.2 fun u hu => hts u (hus u hu), hfit'⟩, hsort⟩

end Folding

/-! ## Evaluation -/

/-- Do calls of the definition keep to its sorts? -/
def KeepsSorts (call : Caller) (d : FunctionDefinition) : Prop :=
  ∀ args : List Term, (∀ a ∈ args, a.Built) → sorts args = d.symbol.inputs →
    Yields (OfSort d.output) (call d args)

/-- Is this a value of the sort, or a definition that gives one? -/
def Provides (call : Caller) (s : SmtSort) : Binding → Prop
  | .value t => t.OfSort s
  | .definition d => d.output = s ∧ KeepsSorts call d

/-- Does the scope give a term what it needs? Names that stand alone provide the sorts that they are
used at, and functions have the declarations that the term mentions. -/
structure Serves (call : Caller) (scope : Scope) (t : Term) : Prop where
  free : ∀ v ∈ t.freeOccurrences, ∀ b, scope.get? v.name = some b → Provides call v.sort b
  alone : ∀ f ∈ t.standalone, ∀ b, scope.get? f.name = some b → Provides call f.output b
  mentioned : ∀ f ∈ t.symbols, ∀ d, scope.definition? f.name = some d →
    d.symbol = f ∧ KeepsSorts call d

section Evaluation

variable {call : Caller} {scope : Scope}

theorem Serves.binary {op : BinaryOp} {l r : Term} (h : Serves call scope (.binary op l r)) :
    Serves call scope l ∧ Serves call scope r := by
  obtain ⟨hfl, hfr⟩ := List.forall_mem_append.1 h.free
  obtain ⟨hal, har⟩ := List.forall_mem_append.1 h.alone
  obtain ⟨hml, hmr⟩ := List.forall_mem_append.1 h.mentioned
  exact ⟨⟨hfl, hal, hml⟩, ⟨hfr, har, hmr⟩⟩

theorem Serves.ite {c y n : Term} (h : Serves call scope (.ite c y n)) :
    Serves call scope c ∧ Serves call scope y ∧ Serves call scope n := by
  obtain ⟨hf, hfn⟩ := List.forall_mem_append.1 h.free
  obtain ⟨ha, han⟩ := List.forall_mem_append.1 h.alone
  obtain ⟨hm, hmn⟩ := List.forall_mem_append.1 h.mentioned
  obtain ⟨hfc, hfy⟩ := List.forall_mem_append.1 hf
  obtain ⟨hac, hay⟩ := List.forall_mem_append.1 ha
  obtain ⟨hmc, hmy⟩ := List.forall_mem_append.1 hm
  exact ⟨⟨hfc, hac, hmc⟩, ⟨hfy, hay, hmy⟩, ⟨hfn, han, hmn⟩⟩

theorem Serves.operands {op : NaryOp} {ts : List Term} (h : Serves call scope (.nary op ts)) :
    ∀ t ∈ ts, Serves call scope t := fun t ht => by
  refine ⟨fun v hv => h.free v ?_, fun f hf => h.alone f ?_, fun f hf => h.mentioned f ?_⟩
  · rw [freeOccurrences, freeOccurrencesList_eq_flatMap]
    exact List.mem_flatMap.2 ⟨t, ht, hv⟩
  · exact mem_standaloneList.2 ⟨t, ht, hf⟩
  · exact mem_symbolsList.2 ⟨t, ht, hf⟩

theorem Serves.arguments {f : FunctionSymbol} {ts : List Term} (h : Serves call scope (.call f ts)) :
    ∀ t ∈ ts, Serves call scope t :=
  have hts : Serves call scope (.nary .mkTuple ts) :=
    ⟨h.free, h.alone, fun g hg => h.mentioned g (List.mem_cons_of_mem _ hg)⟩
  hts.operands

theorem yields_apply {d : FunctionDefinition} (hd : KeepsSorts call d) {args : List Term}
    (hargs : ∀ a ∈ args, a.Built) (hsorts : sorts args = d.symbol.inputs) :
    Yields (OfSort d.output) (call.apply d args) := by
  have hlength : d.inputs.length = args.length := by
    have := congrArg List.length hsorts
    rw [sorts_eq_map, List.length_map, FunctionDefinition.symbol, List.length_map] at this
    exact this.symm
  rw [Caller.apply, if_pos hlength]
  exact hd args hargs hsorts

/-- A name that stands alone has a value of its sort, or none. -/
theorem yields_evaluateName {name : String} {s : SmtSort}
    (h : ∀ b, scope.get? name = some b → Provides call s b) :
    Yields (OfSort s) (evaluateName call scope name) := by
  rcases hget : scope.get? name with _ | d | t
  · rw [evaluateName, hget]
    exact .fault rfl
  · obtain ⟨rfl, hd⟩ := h _ hget
    rw [evaluateName_definition hget]
    split
    · rename_i hvalue
      refine yields_apply hd (List.forall_mem_nil _) ?_
      rw [FunctionDefinition.symbol, List.isEmpty_iff.1 hvalue]
      rfl
    · exact .fault rfl
  · rw [evaluateName, hget]
    exact .value (h _ hget)

mutual

/-- **Evaluation keeps sorts.** A built term evaluates to a built term of its sort or fails with a
fault of evaluation, in a scope that serves it. -/
theorem yields_evaluateWith : ∀ {t : Term}, t.Built → Serves call scope t →
    Yields (OfSort t.sort) (evaluateWith call scope t)
  | .literal c, ht, _ => by
    rw [evaluateWith]
    exact .value ⟨ht, rfl⟩
  | .emptySet s, ht, _ => by
    rw [evaluateWith]
    exact .value ⟨ht, rfl⟩
  | .fullSet s, ht, _ => by
    rw [evaluateWith]
    exact .value ⟨ht, rfl⟩
  | .variable v, _, h => by
    rw [evaluateWith]
    exact yields_evaluateName (List.forall_mem_singleton.1 h.free)
  | .symbol f, _, h => by
    rw [evaluateWith]
    exact yields_evaluateName (List.forall_mem_singleton.1 h.alone)
  | .unary op t, ⟨ht, hop⟩, h => by
    rw [evaluateWith]
    refine (yields_evaluateWith ht ⟨h.free, h.alone, h.mentioned⟩).bind fun u hu => ?_
    -- folding sees the operand's value, which has the operand's sort
    rw [← sort_unary_congr hu.sort]
    exact yields_foldUnary hu.built (hu.sort ▸ hop)
  | .binary op l r, ⟨hl, hr, hop⟩, h => by
    rw [evaluateWith]
    refine (yields_evaluateWith hl h.binary.1).bind fun x hx =>
      (yields_evaluateWith hr h.binary.2).bind fun y hy => ?_
    rw [← sort_binary_congr hx.sort hy.sort]
    exact yields_foldBinary hx.built hy.built (hx.sort ▸ hy.sort ▸ hop)
  | .ite c y n, ⟨hc, hy, hn, hcs, hsort⟩, h => by
    obtain ⟨hsc, hsy, hsn⟩ := h.ite
    have hyes := yields_evaluateWith hy hsy
    have hno := yields_evaluateWith hn hsn
    rw [evaluateWith]
    refine (yields_evaluateWith hc hsc).bind fun x hx => ?_
    rcases x.bool? with _ | _ | _
    · refine hyes.bind fun z hz => hno.bind fun w hw => ?_
      -- what is built again has parts of the sorts that it had, so that it is not refused
      have hrule := And.intro (hx.sort.trans hcs) (hz.sort.trans (hsort.trans hw.sort.symm))
      rw [mkIte_eq_ok.2 ⟨hrule.1, hrule.2, rfl⟩]
      exact .value ⟨⟨hx.built, hz.built, hw.built, hrule⟩, hz.sort⟩
    · exact hsort ▸ hno
    · exact hyes
  | .nary op ts, ⟨hne, hts, hfit⟩, h => by
    rw [evaluateWith]
    refine (yields_evaluateAll hts h.operands).bind fun us ⟨hus, hsorts⟩ => ?_
    obtain ⟨hne', hfit'⟩ := fitsNary_congr hsorts hne hfit
    rw [← sort_nary_congr hsorts]
    exact yields_foldNary hne' hus hfit'
  | .quantified q vs body, _, _ => by
    rw [evaluateWith]
    exact .fault rfl
  | .call f ts, ⟨hts, hsorts, _⟩, h => by
    rw [evaluateWith]
    rcases hget : scope.definition? f.name with _ | d
    · exact .fault rfl
    -- the definition found is the one that the symbol names
    · obtain ⟨rfl, hd⟩ := h.mentioned f List.mem_cons_self d hget
      exact (yields_evaluateAll hts h.arguments).bind fun us ⟨hus, hsorts'⟩ =>
        yields_apply hd hus (hsorts'.trans hsorts)

theorem yields_evaluateAll : ∀ {ts : List Term}, BuiltAll ts → (∀ t ∈ ts, Serves call scope t) →
    Yields (fun us => (∀ u ∈ us, u.Built) ∧ sorts us = sorts ts) (evaluateAll call scope ts)
  | [], _, _ => by
    rw [evaluateAll]
    exact .value ⟨List.forall_mem_nil _, rfl⟩
  | t :: ts, ⟨ht, hts⟩, h => by
    obtain ⟨hst, hsts⟩ := List.forall_mem_cons.1 h
    rw [evaluateAll]
    refine (yields_evaluateWith ht hst).bind fun u hu =>
      (yields_evaluateAll hts hsts).bind fun us ⟨hus, hsorts⟩ => .value ⟨?_, ?_⟩
    · exact List.forall_mem_cons.2 ⟨hu.built, hus⟩
    · rw [sorts, sorts, hu.sort, hsorts]

end

end Evaluation

end Term

/-! ## Scopes of definitions -/

/-- The sort that a name has, standing alone. -/
def Binding.sort : Binding → SmtSort
  | .definition d => d.output
  | .value t => t.sort

/-- Is the term used in the way in which the names are declared? What stands alone has the sort that
its name has here, and the definitions in sight have the declarations that the term mentions. -/
structure Scope.Agrees (s : Scope) (t : Term) : Prop where
  free : ∀ v ∈ t.freeOccurrences, ∀ b, s.get? v.name = some b → b.sort = v.sort
  alone : ∀ f ∈ t.standalone, ∀ b, s.get? f.name = some b → b.sort = f.output
  mentioned : ∀ f ∈ t.symbols, ∀ d, s.definition? f.name = some d → d.symbol = f

/-- Is the body well sorted, of the sort declared, and in agreement with the scopes of calls? -/
structure FunctionDefinition.Fits (root : Scope) (d : FunctionDefinition) : Prop where
  built : d.body.Built
  sort : d.body.sort = d.output
  agrees : ∀ args, Term.sorts args = d.symbol.inputs → (root.ofCall d args).Agrees d.body

/-- Is this a well-sorted value, or a definition that fits the outermost scope? -/
inductive Binding.Fits (root : Scope) : Binding → Prop
  | value {t : Term} (ht : t.Built) : Fits root (.value t)
  | definition {d : FunctionDefinition} (hd : d.Fits root) : Fits root (.definition d)

/-- Does everything in sight, here and from the bodies of definitions, fit? -/
structure Scope.IsSorted (s : Scope) : Prop where
  here : s.Resolves fun _ b => b.Fits s.root
  outermost : s.root.Resolves fun _ b => b.Fits s.root

namespace Term

variable {scope : Scope} {t : Term}

/-- A scope in which everything fits serves the terms that agree with it, as far as calls of what
fits keep sorts. -/
theorem serves_of_agrees {call : Caller} {root : Scope} (hscope : scope.Resolves fun _ b => b.Fits root)
    (ht : scope.Agrees t) (hcall : ∀ d : FunctionDefinition, d.Fits root → KeepsSorts call d) :
    Serves call scope t := by
  have hprovides : ∀ name b, scope.get? name = some b → Provides call b.sort b := fun name b hget => by
    cases hscope name b hget with
    | value hu => exact ⟨hu, rfl⟩
    | definition hd => exact ⟨rfl, hcall _ hd⟩
  refine ⟨fun v hv b hget => ?_, fun f hf b hget => ?_, fun f hf d hd => ⟨ht.mentioned f hf d hd, ?_⟩⟩
  · exact ht.free v hv b hget ▸ hprovides _ b hget
  · exact ht.alone f hf b hget ▸ hprovides _ b hget
  · cases hscope f.name _ (Scope.definition?_eq_some.1 hd) with
    | definition hd => exact hcall d hd

/-- **Calls keep sorts** where everything outermost fits, however many may be in progress. The
induction is on the number of calls that are left; a call sees built arguments and what is
outermost. -/
theorem keepsSorts_callerWithin : ∀ (depth : Nat) {scope : Scope},
    scope.root.Resolves (fun _ b => b.Fits scope.root) →
    ∀ d : FunctionDefinition, d.Fits scope.root → KeepsSorts (callerWithin depth scope) d
  | 0, _, _, _, _ => fun _ _ _ => .fault rfl
  | depth + 1, scope, hroot, d, hd => by
    intro args hargs hsorts
    have hargs' : ∀ b ∈ (d.inputs.zip args).map fun p => (p.1.name, Binding.value p.2),
        b.2.Fits scope.root := by
      refine List.forall_mem_map.2 fun p hp => .value (hargs p.2 ?_)
      exact (List.of_mem_zip (a := p.1) (b := p.2) hp).2
    have hroot' := Scope.root_ofCall scope d args
    have hroot : (scope.ofCall d args).root.Resolves fun _ b => b.Fits (scope.ofCall d args).root :=
      hroot' ▸ hroot
    have hcall := keepsSorts_callerWithin depth hroot
    rw [hroot'] at hroot hcall
    change Yields _ (evaluateWithin depth (scope.ofCall d args) d.body)
    rw [evaluateWithin_eq, ← hd.sort]
    exact yields_evaluateWith hd.built
      (serves_of_agrees (hroot.enter.putAll hargs') (hd.agrees args hsorts) hcall)

/-- **Evaluation keeps sorts** in a scope in which everything fits. -/
theorem yields_evaluate (hscope : scope.IsSorted) (ht : t.Built) (hagrees : scope.Agrees t) :
    Yields (OfSort t.sort) (evaluate scope t) := by
  rw [evaluate, evaluateWithin_eq]
  exact yields_evaluateWith ht
    (serves_of_agrees hscope.here hagrees (keepsSorts_callerWithin _ hscope.outermost))

/-- **Rewriting keeps terms well sorted.** Replacement by a term of the same sort always succeeds,
and returns a well-sorted term of the sort of the original. What evaluation returns is so as well,
in a scope in which everything fits and which the term agrees with, and all its faults are faults of
evaluation. -/
theorem rewriting_keeps_sorts {e : Term} (he : e.Built) :
    (∀ {old new : Term}, old.Built → new.Built → old.sort = new.sort →
      ∃ r, e.replace old new = .ok r ∧ r.Built ∧ r.sort = e.sort) ∧
    ∀ {scope : Scope}, scope.IsSorted → scope.Agrees e →
      (∀ r, evaluate scope e = .ok r → r.Built ∧ r.sort = e.sort) ∧
      ∀ fault, evaluate scope e = .error fault → fault.kind = .evaluation := by
  refine ⟨fun _ hnew hsort => retains_replace hsort.symm hnew he, fun hscope hagrees => ?_⟩
  have hyields := yields_evaluate hscope he hagrees
  refine ⟨fun r hr => ?_, fun fault hfault => ?_⟩
  · rw [hr] at hyields
    exact ⟨hyields.of_ok.built, hyields.of_ok.sort⟩
  · rw [hfault] at hyields
    exact hyields.of_error

/-- A function that doubles its parameter. -/
def doubling : FunctionDefinition :=
  ⟨"double", [.plain "n" .int], .int,
    .binary (.arithmetic .plus) (.variable (.plain "n" .int)) (.variable (.plain "n" .int))⟩

/-- The function, and a number of its parameter's name. -/
def doublingScope : Scope := (Scope.define {} (.constant "n" (.int 2))).define doubling

/-- Twice the number. -/
def doubled : Term := .call doubling.symbol [.symbol ⟨"n", [], .int⟩]

/-- Inside the function the number is hidden by the argument, which has the number's sort. -/
theorem fits_doubling (root : Scope) : doubling.Fits root := by
  refine ⟨⟨trivial, trivial, _, rfl⟩, rfl, fun args hargs =>
    ⟨fun v hv b hget => ?_, List.forall_mem_nil _, List.forall_mem_nil _⟩⟩
  obtain ⟨a, rfl, ha⟩ : ∃ a : Term, args = [a] ∧ a.sort = .int := by
    rw [sorts_eq_map] at hargs
    exact List.map_eq_singleton_iff.1 hargs
  obtain rfl : v = .plain "n" .int := by
    simpa [doubling, freeOccurrences] using hv
  have hargument : (root.ofCall doubling [a]).get? "n" = some (.value a) := Scoped.get?_put_self _ _ _
  obtain rfl := Option.some.inj (hget.symm.trans hargument)
  exact ha

theorem isSorted_doublingScope : doublingScope.IsSorted := by
  have hnumber : Binding.Fits doublingScope (.definition (.constant "n" (.int 2))) :=
    .definition ⟨trivial, rfl, fun _ _ =>
      ⟨List.forall_mem_nil _, List.forall_mem_nil _, List.forall_mem_nil _⟩⟩
  have hresolves : doublingScope.Resolves fun _ b => b.Fits doublingScope :=
    (Scoped.resolves_empty.put hnumber).put (.definition (fits_doubling _))
  exact ⟨hresolves, hresolves⟩

/-- The number doubled is a well-sorted integer, whatever integer takes the number's place. -/
theorem rewriting_keeps_sorts_doubled :
    (∃ r, doubled.replace (.symbol ⟨"n", [], .int⟩) (.int 5) = .ok r ∧ r.Built ∧ r.sort = .int) ∧
    evaluate doublingScope doubled = .ok (.int 4) ∧ (Term.int 4).Built ∧ (Term.int 4).sort = .int := by
  have hbuilt : doubled.Built := ⟨⟨trivial, trivial⟩, rfl, trivial⟩
  have hagrees : doublingScope.Agrees doubled := by
    refine ⟨List.forall_mem_nil _, List.forall_mem_singleton.2 fun b hget => ?_,
      List.forall_mem_cons.2 ⟨fun d hget => ?_, List.forall_mem_singleton.2 fun d hget => ?_⟩⟩ <;>
    · cases hget
      rfl
  have hvalue : evaluate doublingScope doubled = .ok (.int 4) := rfl
  obtain ⟨hreplace, hevaluate⟩ := rewriting_keeps_sorts hbuilt
  exact ⟨hreplace trivial trivial rfl, hvalue,
    (hevaluate isSorted_doublingScope hagrees).1 _ hvalue⟩

/-- A number, and a function whose body is the number's symbol but whose parameter has its name. -/
def hidingModel : Model where
  functions := [.constant "g" (.int 3),
    ⟨"f", [.plain "g" .bool], .int, .symbol ⟨"g", [], .int⟩⟩]

/-- The function applied to a truth value. -/
def hidden : Term := .call ⟨"f", [.bool], .int⟩ [.bool true]

/-- **Agreeing declarations are not enough.** Every symbol that the term and the bodies mention is
declared as the scope defines it, all are well sorted, and still the term, an integer, evaluates to
a truth value: the parameter hides the number. So a sum with it is refused for its sorts. -/
theorem not_sort_of_evaluate_hidden :
    hidden.Built ∧ hidden.sort = .int ∧
    (∀ d ∈ hidingModel.functions, d.body.Built ∧ d.body.sort = d.output) ∧
    (∀ t ∈ hidden :: hidingModel.functions.map FunctionDefinition.body, ∀ f ∈ t.symbols,
      ∃ d, (Scope.ofModel hidingModel).definition? f.name = some d ∧ d.symbol = f) ∧
    evaluate (Scope.ofModel hidingModel) hidden = .ok (.bool true) ∧
    ∃ cause, evaluate (Scope.ofModel hidingModel) (.binary (.arithmetic .plus) hidden (.int 1))
      = .error (.sortMismatch cause) := by
  refine ⟨⟨⟨trivial, trivial⟩, rfl, trivial⟩, rfl, ?_, ?_, rfl, _, rfl⟩
  · simp [hidingModel, FunctionDefinition.constant, Built, Obeys, sort, int]
  · intro t ht f hf
    have hf : f = ⟨"f", [.bool], .int⟩ ∨ f = ⟨"g", [], .int⟩ := by
      simp only [hidingModel, FunctionDefinition.constant, List.map_cons, List.map_nil,
        List.mem_cons, List.not_mem_nil, or_false] at ht
      rcases ht with rfl | rfl | rfl <;> simp_all [hidden, symbols, symbolsList, int, bool]
    rcases hf with rfl | rfl
    · exact ⟨_, rfl, rfl⟩
    · exact ⟨_, rfl, rfl⟩

end Term

end RelSmt
