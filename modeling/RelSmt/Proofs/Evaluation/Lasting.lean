import RelSmt.Proofs.Evaluation.Scope
import RelSmt.Proofs.Evaluation.Value

/-!
# What lasts through evaluation

Evaluation ends in literals, in sets of everything, and in what folding makes of results: one of
them, a set of elements that one of them lists, or the node over them where there is nothing more to
fold. A property that these ways to make results keep (`Lasting`) holds of all results, through
calls of definitions as well (`lasts_evaluate`). The inductions, on terms and on the calls that are
left, are carried out here once for all such properties.
-/

namespace RelSmt.Term

/-- The terms that evaluation of a term goes into. -/
def operands : Term → List Term
  | .unary _ t => [t]
  | .binary _ l r => [l, r]
  | .ite c y n => [c, y, n]
  | .nary _ ts => ts
  | .call _ ts => ts
  | _ => []

/-- A property of results that evaluation keeps. A node is made of results only where its operands
have sorts that fit and folding finds nothing to do. -/
structure Lasting where
  /-- What is asked of terms that are evaluated, and so of the bodies of definitions. -/
  Source : Term → Prop
  /-- What holds of results. -/
  Result : Term → Prop
  operands {t : Term} (h : Source t) : ∀ u ∈ t.operands, Source u
  literal {c : Literal} (h : Source (.literal c)) : Result (.literal c)
  emptySet {s : SmtSort} (h : Source (.emptySet s)) : Result (.emptySet s)
  fullSet {s : SmtSort} (h : Source (.fullSet s)) : Result (.fullSet s)
  bool (b : Bool) : Result (.bool b)
  int (n : Int) : Result (.int n)
  unary {op : UnaryOp} {t : Term} (ht : Result t) (hsort : ∃ s, unarySort op t.sort = .ok s)
    (hfold : foldUnary op t = .ok (.unary op t)) : Result (.unary op t)
  binary {op : BinaryOp} {l r : Term} (hl : Result l) (hr : Result r)
    (hsort : ∃ s, binarySort op l.sort r.sort = .ok s)
    (hfold : foldBinary op l r = .ok (.binary op l r)) : Result (.binary op l r)
  ite {c y n : Term} (hc : Result c) (hy : Result y) (hn : Result n) (hopen : c.bool? = none)
    (hmk : mkIte c y n = .ok (.ite c y n)) : Result (.ite c y n)
  nary {op : NaryOp} {ts : List Term} (hts : ∀ t ∈ ts, Result t) (hne : ts ≠ [])
    (hfit : ∀ t ∈ ts, fitsNary op t.sort = true) (hfold : foldNary op ts = .ok (.nary op ts)) :
    Result (.nary op ts)
  /-- Unions are taken apart. -/
  united {l r : Term} (h : Result (.binary (.set .union) l r)) : Result l ∧ Result r
  /-- What is left of a set may be nothing. -/
  emptied {t : Term} (ht : Result t) (hvalue : t.isValue = true) (hset : t.sort.isSet = true) :
    Result (.emptySet t.sort)

variable {L : Lasting}

/-! ## Folding -/

section Folding

variable {t l r v : Term}

theorem lasts_union (hl : L.Result l) (hr : L.Result r) (h : l.union r = .ok v) : L.Result v := by
  obtain ⟨hsort, rfl⟩ := setOp_eq_ok.1 h
  exact L.binary hl hr (binarySort_set.2 hsort) ((foldBinary_union l r).trans h)

/-- Each element of a set stands there as a singleton. -/
theorem lasts_listed {ts : List Term} (ht : L.Result t) (h : t.listed = .ok ts) :
    ∀ u ∈ ts, L.Result (.unary .singleton u) := by
  fun_induction Term.listed t generalizing ts with
  | case1 s => exact Except.ok.inj h ▸ List.forall_mem_nil _
  | case2 t => exact Except.ok.inj h ▸ List.forall_mem_singleton.2 ht
  | case3 l r ihl ihr =>
    obtain ⟨ls, hls, h⟩ := Checked.bind_eq_ok.1 h
    obtain ⟨rs, hrs, h⟩ := Checked.bind_eq_ok.1 h
    rw [← Checked.pure_eq_ok.1 h]
    exact List.forall_mem_append.2 ⟨ihl (L.united ht).1 hls, ihr (L.united ht).2 hrs⟩
  | case4 t => cases h

theorem lasts_single (ht : L.Result (.unary .singleton t)) (h : t.single = .ok v) : L.Result v :=
  (single_eq_ok.1 h).2 ▸ ht

theorem lasts_foldlM_union : ∀ {us : List Term} {set : Term},
    (∀ u ∈ us, L.Result (.unary .singleton u)) → L.Result set →
    us.foldlM (fun set t => do set.union (← t.single)) set = .ok v → L.Result v
  | [], _, _, hset, h => Checked.pure_eq_ok.1 h ▸ hset
  | u :: us, set, hus, hset, h => by
    obtain ⟨hu, hus⟩ := List.forall_mem_cons.1 hus
    rw [List.foldlM_cons] at h
    obtain ⟨set', hset', h⟩ := Checked.bind_eq_ok.1 h
    obtain ⟨w, hw, hunion⟩ := Checked.bind_eq_ok.1 hset'
    exact lasts_foldlM_union hus (lasts_union hset (lasts_single hu hw) hunion) h

theorem lasts_ofElements {s : SmtSort} {ts : List Term} (hs : s.isSet = true → L.Result (.emptySet s))
    (hts : ∀ u ∈ ts, L.Result (.unary .singleton u)) (h : ofElements s ts = .ok v) :
    L.Result v := by
  cases ts with
  | nil =>
    obtain ⟨hset, rfl⟩ := emptyOf_eq_ok.1 h
    exact hs hset
  | cons u us =>
    obtain ⟨hu, hus⟩ := List.forall_mem_cons.1 hts
    obtain ⟨w, hw, h⟩ := Checked.bind_eq_ok.1 h
    exact lasts_foldlM_union hus (lasts_single hu hw) h

theorem lasts_foldFilter (hl : L.Result l) (hvalue : l.isValue = true) {keep : Bool}
    (h : foldFilter l r keep = .ok v) : L.Result v := by
  obtain ⟨other, _, h⟩ := Checked.bind_eq_ok.1 h
  obtain ⟨ts, hts, h⟩ := Checked.bind_eq_ok.1 h
  obtain ⟨us, hus, hdups⟩ := Checked.bind_eq_ok.1 hts
  obtain rfl := Checked.pure_eq_ok.1 hdups
  refine lasts_ofElements (L.emptied hl hvalue) (fun u hu => ?_) h
  exact lasts_listed hl hus u (mem_of_mem_eraseDups (List.mem_filter.1 hu).1)

theorem lasts_foldUnary {op : UnaryOp} (ht : L.Result t) (h : foldUnary op t = .ok v) :
    L.Result v := by
  have hfolds := foldsUnary op t
  generalize hx : foldUnary op t = x at h hfolds
  cases hfolds with
  | truth b => exact Except.ok.inj h ▸ L.bool b
  | number n => exact Except.ok.inj h ▸ L.int n
  | rebuilt =>
    obtain ⟨hsort, rfl⟩ := mkUnary_eq_ok.1 h
    exact L.unary ht hsort (hx.trans h)
  | fault _ => cases h

theorem lasts_foldBinary {op : BinaryOp} (hl : L.Result l) (hr : L.Result r)
    (h : foldBinary op l r = .ok v) : L.Result v := by
  have hfolds := foldsBinary op l r
  have hrebuilt (hmk : mkBinary op l r = .ok v) : L.Result v := by
    obtain ⟨hsort, rfl⟩ := mkBinary_eq_ok.1 hmk
    exact L.binary hl hr hsort h
  generalize hx : foldBinary op l r = x at h hfolds
  cases hfolds with
  | truth _ b => exact Except.ok.inj h ▸ L.bool b
  | number _ n => exact Except.ok.inj h ▸ L.int n
  | left => exact Except.ok.inj h ▸ hl
  | right => exact Except.ok.inj h ▸ hr
  | filter o keep =>
    -- only sets that are written out are taken apart
    by_cases hvalues : (l.isValue && r.isValue) = true
    · exact lasts_foldFilter hl (Bool.and_eq_true_iff.1 hvalues).1 h
    · have hmk : foldBinary (.set o) l r = mkBinary (.set o) l r := by simp [foldBinary, hvalues]
      exact hrebuilt (hmk.symm.trans (hx.trans h))
  | rebuilt => exact hrebuilt h
  | fault _ => cases h

theorem lasts_foldNary {op : NaryOp} {ts : List Term} (hts : ∀ t ∈ ts, L.Result t)
    (h : foldNary op ts = .ok v) : L.Result v := by
  have hfolds := foldsNary op ts
  generalize foldNary op ts = x at h hfolds
  cases hfolds with
  | truth _ b => exact Except.ok.inj h ▸ L.bool b
  | operand _ ht => exact Except.ok.inj h ▸ hts _ ht
  | rebuilt hus _ _ hagain =>
    obtain ⟨hne, hfit, rfl⟩ := mkNary_eq_ok.1 h
    exact L.nary (fun u hu => hts u (hus u hu)) hne hfit (hagain.trans h)

end Folding

/-! ## Evaluation -/

/-- Has a value the property, or a definition's body what the property asks for? -/
def Lasting.Holds (L : Lasting) : Binding → Prop
  | .definition d => L.Source d.body
  | .value t => L.Result t

/-- Do calls give results with the property, when they are made with arguments that have it? -/
def Lasting.Keeps (L : Lasting) (call : Caller) : Prop :=
  ∀ d args v, L.Source d.body → (∀ a ∈ args, L.Result a) → call d args = .ok v → L.Result v

section Evaluation

variable {call : Caller} {scope : Scope}

theorem lasts_apply (hcall : L.Keeps call) {d : FunctionDefinition} {args : List Term} {v : Term}
    (hd : L.Source d.body) (hargs : ∀ a ∈ args, L.Result a) (h : call.apply d args = .ok v) :
    L.Result v := by
  rw [Caller.apply] at h
  split at h
  · exact hcall d args v hd hargs h
  · cases h

theorem lasts_evaluateName (hcall : L.Keeps call) (hscope : scope.Resolves fun _ b => L.Holds b)
    {name : String} {v : Term} (h : evaluateName call scope name = .ok v) : L.Result v := by
  rw [evaluateName] at h
  split at h
  · next t hget => exact Except.ok.inj h ▸ hscope name _ hget
  · next d hget =>
    split at h
    · exact lasts_apply hcall (hscope name _ hget) (List.forall_mem_nil _) h
    · cases h
  · cases h

mutual

/-- **What a term evaluates to has the property**, if all in sight has it and calls keep it. -/
theorem lasts_evaluateWith (hcall : L.Keeps call) (hscope : scope.Resolves fun _ b => L.Holds b) :
    ∀ {t v : Term}, L.Source t → evaluateWith call scope t = .ok v → L.Result v
  | .literal c, v, ht, h => by
    rw [evaluateWith, Except.ok.injEq] at h
    exact h ▸ L.literal ht
  | .emptySet s, v, ht, h => by
    rw [evaluateWith, Except.ok.injEq] at h
    exact h ▸ L.emptySet ht
  | .fullSet s, v, ht, h => by
    rw [evaluateWith, Except.ok.injEq] at h
    exact h ▸ L.fullSet ht
  | .variable x, v, _, h => by
    rw [evaluateWith] at h
    -- a name stands for what its definition comes to
    exact lasts_evaluateName hcall hscope h
  | .symbol f, v, _, h => by
    rw [evaluateWith] at h
    exact lasts_evaluateName hcall hscope h
  | .unary op t, v, ht, h => by
    have ht := List.forall_mem_singleton.1 (L.operands ht)
    rw [evaluateWith] at h
    obtain ⟨u, hu, h⟩ := Checked.bind_eq_ok.1 h
    exact lasts_foldUnary (lasts_evaluateWith hcall hscope ht hu) h
  | .binary op l r, v, ht, h => by
    obtain ⟨hl, hr⟩ := List.forall_mem_cons.1 (L.operands ht)
    have hr := List.forall_mem_singleton.1 hr
    rw [evaluateWith] at h
    obtain ⟨x, hx, h⟩ := Checked.bind_eq_ok.1 h
    obtain ⟨y, hy, h⟩ := Checked.bind_eq_ok.1 h
    exact lasts_foldBinary (lasts_evaluateWith hcall hscope hl hx)
      (lasts_evaluateWith hcall hscope hr hy) h
  | .ite c y n, v, ht, h => by
    obtain ⟨hc, hbranches⟩ := List.forall_mem_cons.1 (L.operands ht)
    obtain ⟨hy, hn⟩ := List.forall_mem_cons.1 hbranches
    have hn := List.forall_mem_singleton.1 hn
    rw [evaluateWith] at h
    obtain ⟨x, hx, h⟩ := Checked.bind_eq_ok.1 h
    -- without a truth value for its condition the whole conditional stays, else one branch does
    rcases hb : x.bool? with _ | _ | _ <;> rw [hb] at h
    · obtain ⟨z, hz, h⟩ := Checked.bind_eq_ok.1 h
      obtain ⟨w, hw, h⟩ := Checked.bind_eq_ok.1 h
      obtain ⟨_, _, rfl⟩ := mkIte_eq_ok.1 h
      exact L.ite (lasts_evaluateWith hcall hscope hc hx) (lasts_evaluateWith hcall hscope hy hz)
        (lasts_evaluateWith hcall hscope hn hw) hb h
    · exact lasts_evaluateWith hcall hscope hn h
    · exact lasts_evaluateWith hcall hscope hy h
  | .nary op ts, v, ht, h => by
    rw [evaluateWith] at h
    obtain ⟨us, hus, h⟩ := Checked.bind_eq_ok.1 h
    exact lasts_foldNary (lasts_evaluateAll hcall hscope (L.operands ht) hus) h
  | .quantified q vs body, v, _, h => by
    rw [evaluateWith] at h
    cases h
  | .call f ts, v, ht, h => by
    rw [evaluateWith] at h
    split at h
    · cases h
    · next d hd =>
      obtain ⟨us, hus, h⟩ := Checked.bind_eq_ok.1 h
      exact lasts_apply hcall (hscope f.name _ (Scope.definition?_eq_some.1 hd))
        (lasts_evaluateAll hcall hscope (L.operands ht) hus) h

theorem lasts_evaluateAll (hcall : L.Keeps call) (hscope : scope.Resolves fun _ b => L.Holds b) :
    ∀ {ts vs : List Term}, (∀ t ∈ ts, L.Source t) → evaluateAll call scope ts = .ok vs →
      ∀ v ∈ vs, L.Result v
  | [], vs, _, h => by
    rw [evaluateAll, Except.ok.injEq] at h
    exact h ▸ List.forall_mem_nil _
  | t :: ts, vs, hts, h => by
    obtain ⟨ht, hts⟩ := List.forall_mem_cons.1 hts
    rw [evaluateAll] at h
    obtain ⟨u, hu, h⟩ := Checked.bind_eq_ok.1 h
    obtain ⟨us, hus, h⟩ := Checked.bind_eq_ok.1 h
    rw [← Checked.pure_eq_ok.1 h]
    exact List.forall_mem_cons.2 ⟨lasts_evaluateWith hcall hscope ht hu,
      lasts_evaluateAll hcall hscope hts hus⟩

end

/-! ## Calls -/

theorem resolves_ofCall (hroot : scope.root.Resolves fun _ b => L.Holds b) (d : FunctionDefinition)
    {args : List Term} (hargs : ∀ a ∈ args, L.Result a) :
    (scope.ofCall d args).Resolves fun _ b => L.Holds b :=
  hroot.enter.putAll (List.forall_mem_map.2 fun p hp => hargs p.2 (List.of_mem_zip hp).2)

/-- Calls keep the property, however many may be in progress: what a body sees besides the arguments
is outermost. -/
theorem keeps_callerWithin : ∀ (depth : Nat) {scope : Scope},
    (scope.root.Resolves fun _ b => L.Holds b) → L.Keeps (callerWithin depth scope)
  | 0, _, _ => fun _ _ _ _ _ h => nomatch h
  | depth + 1, scope, hroot => by
    intro d args v hd hargs h
    change evaluateWithin depth (scope.ofCall d args) d.body = _ at h
    rw [evaluateWithin_eq] at h
    have hroot' : (scope.ofCall d args).root.Resolves fun _ b => L.Holds b := by
      rwa [Scope.root_ofCall]
    exact lasts_evaluateWith (keeps_callerWithin depth hroot') (resolves_ofCall hroot d hargs) hd h

/-- **What a term evaluates to has the property**, if all in sight has it, here and from the bodies
of definitions. -/
theorem lasts_evaluate {t v : Term} (hscope : scope.Resolves fun _ b => L.Holds b)
    (hroot : scope.root.Resolves fun _ b => L.Holds b) (ht : L.Source t)
    (h : evaluate scope t = .ok v) : L.Result v := by
  rw [evaluate, evaluateWithin_eq] at h
  exact lasts_evaluateWith (keeps_callerWithin _ hroot) hscope ht h

end Evaluation

end RelSmt.Term
