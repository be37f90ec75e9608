import RelSmt.Proofs.Lowering.Meaning

/-!
# Sorts of lowered expressions

Whatever an expression is lowered to has a value of its sort, as long as the terms of the
environment and their variables have. This asks nothing of the expression. Results of comprehensions
and of operations on integers have their sorts because the functions that stand for them do, and a
quantified formula is true or false whatever its body is.
-/

namespace RelSmt

variable {E : Type} {I : Interpretation E} {ρ : Assignment E} {t : Term}

/-! ## Sorted terms and environments -/

/-- Does the term have a value of its sort? -/
def Term.Sorted (I : Interpretation E) (ρ : Assignment E) (t : Term) : Prop :=
  (t.eval I ρ).HasSort I.carrier t.sort

theorem Term.Sorted.denotes (h : t.Sorted I ρ) : t.Denotes I ρ (t.eval I ρ) :=
  Term.denotes_of_eval h rfl

theorem Term.Denotes.sorted {v : Value E} (h : t.Denotes I ρ v) : t.Sorted I ρ := by
  rw [Term.Sorted, h.eval]
  exact h.hasSort

/-- A function that is applied to variables of its argument sorts gives a value of its own sort. -/
theorem sorted_apply {f : FunctionSymbol} {vs : List Variable}
    (h : f.apply (vs.map Variable.term) = .ok t) (hout : f.output.IsProper)
    (hvs : ∀ v ∈ vs, (ρ.get v).HasSort I.carrier v.sort) : t.Sorted I ρ := by
  rw [Term.Sorted, Term.sort_apply h]
  exact Term.hasSort_apply h hout hvs

namespace Environment

variable {env : Environment} {V : Set Variable}

/-- Do the terms that names stand for and the variables of these terms have values of their sorts?
-/
structure Sorted (I : Interpretation E) (ρ : Assignment E) (env : Environment) : Prop where
  terms : ∀ name t, env.get? name = some t → t.Sorted I ρ
  occurrences : ∀ v, env.Has v → (ρ.get v).HasSort I.carrier v.sort

theorem sorted_empty : Sorted I ρ {} where
  terms name t h := by simp [Scoped.get?, List.findSome?] at h
  occurrences v hv := absurd hv has_empty

theorem Sorted.enter (h : env.Sorted I ρ) : Environment.Sorted I ρ env.enter where
  terms name t ht := h.terms name t (by rwa [Scoped.get?_enter] at ht)
  occurrences v hv := h.occurrences v (has_enter.1 hv)

theorem Sorted.put (h : env.Sorted I ρ) {name : String} (ht : t.Sorted I ρ)
    (hfree : ∀ v ∈ t.freeOccurrences, (ρ.get v).HasSort I.carrier v.sort) :
    Environment.Sorted I ρ (env.put name t) where
  terms other u hu := by
    by_cases hname : other = name
    · rw [hname, Scoped.get?_put_self] at hu
      exact Option.some.inj hu ▸ ht
    · rw [Scoped.get?_put_of_ne env t hname] at hu
      exact h.terms other u hu
  occurrences v hv := (has_put hv).elim (h.occurrences v) (hfree v)

theorem Sorted.putAll : ∀ {bs : List (String × Term)} {env : Environment}, env.Sorted I ρ →
    (∀ b ∈ bs, b.2.Sorted I ρ) →
    (∀ b ∈ bs, ∀ v ∈ b.2.freeOccurrences, (ρ.get v).HasSort I.carrier v.sort) →
    Environment.Sorted I ρ (env.putAll bs)
  | [], _, h, _, _ => h
  | b :: bs, env, h, hb, hfree => by
    rw [List.forall_mem_cons] at hb hfree
    have hput : Environment.Sorted I ρ (env.put b.1 b.2) := h.put hb.1 hfree.1
    exact (Sorted.putAll hput hb.2 hfree.2 :)

/-- A variable that the environment mentions has a value of its sort. -/
theorem Sorted.of_covers (h : env.Sorted I ρ) (ht : env.Covers V t) :
    ∀ v ∈ t.freeOccurrences, (ρ.get v).HasSort I.carrier v.sort := by
  intro v hv
  obtain ⟨w, hw, he⟩ := mentions_iff.1 (ht v hv).2
  obtain ⟨hname, hsort⟩ := Variable.beq_iff.1 he
  have := h.occurrences w hw
  rwa [Assignment.get, hname, hsort] at this

end Environment

namespace Lowering

variable {s s' m : Session} {env : Environment} {V : Set Variable}

/-! ## Binders and operations -/

theorem sorted_quantify {q : Relational.Quantifier} {b : Bound} {body : Term}
    (h : Runs (quantify q b body) s t s') : t.Sorted I ρ := by
  obtain ⟨_, _, _, _, h⟩ := runs_quantify h
  cases h <;> exact trivial

/-- A comprehension has a value of its sort, whatever its definition says. -/
theorem sorted_comprehend {columns : List Relational.Column} {b : Bound} {body : Term}
    (henv : env.Sorted I ρ) (ht : env.Covers V t) (h : Runs (comprehend columns b body) s t s') :
    t.Sorted I ρ := by
  obtain ⟨_, _, f, _, _, _, _, hf, happly, _⟩ := runs_comprehend h
  refine sorted_apply happly (by rw [hf]; trivial) fun v hv => ?_
  exact henv.of_covers ht v ((mem_free_apply happly).2 hv)

/-- An operation on integers has a value of its sort, whatever its axioms say. -/
theorem sorted_arithmetic {op : Arithmetic} {x y : Term} (henv : env.Sorted I ρ)
    (ht : env.Covers V t) (h : Runs (arithmetic op x y env) s t s') : t.Sorted I ρ := by
  obtain ⟨o, m, ho, hasserts⟩ := runs_arithmetic h
  have hproper : o.function.output.IsProper := by
    rw [ho.function]
    dsimp only
    split
    · rintro c hc
      rw [List.mem_singleton.1 hc]
      rfl
    · trivial
  have hcall : ∀ {u : Term}, o.function.apply (o.parameters.map Variable.term) = .ok u →
      (∀ v, v ∈ u.freeOccurrences → v ∈ t.freeOccurrences) → u.Sorted I ρ :=
    fun happly hsub => sorted_apply happly hproper fun v hv =>
      henv.of_covers ht v (hsub v ((mem_free_apply happly).2 hv))
  split at hasserts
  · rename_i hsingle
    obtain ⟨_, _, _, _, call, _, _, _, _, happly, rfl, _⟩ := hasserts
    have hsort : call.sort = .tuple [.uint] := by
      rw [Term.sort_apply happly, ho.function]
      exact if_pos hsingle
    have := hcall happly fun v hv => by simpa [Term.freeOccurrences] using hv
    exact (this.denotes.unary (o := .singleton)
      (Term.unarySort_singleton.2 (by rw [hsort]; rfl))).sorted
  · obtain ⟨_, _, _, _, _, _, _, _, happly, _⟩ := hasserts
    exact hcall happly fun _ => id

/-! ## Expressions -/

/-- Does inlining give values of their sorts? -/
structure Inliner.Sorts (inline : Inliner) (I : Interpretation E) : Prop where
  sorted : ∀ {name : String} {body : Relational.Expr} {env : Environment} {V : Set Variable}
    {ρ : Assignment E} {s s' : Session} {t : Term}, Runs (inline name body env) s t s' →
    s.Proper → I.Supports s'.onDemand → Hygienic s.fresh V → env.Within V → env.Sorted I ρ →
    t.Sorted I ρ

section Expressions

variable {inline : Inliner} {active : List String}

theorem forall₂_denotes : ∀ {ts : List Term}, (∀ t ∈ ts, t.Sorted I ρ) →
    List.Forall₂ (fun t v => t.Denotes I ρ v) ts (ts.map fun t => t.eval I ρ)
  | [], _ => List.Forall₂.nil
  | t :: ts, h => by
    rw [List.forall_mem_cons] at h
    exact List.Forall₂.cons h.1.denotes (forall₂_denotes h.2)

mutual

/-- **A lowered expression has a value of its sort.** -/
theorem sorted_exprWith (hinj : I.IntInjective) (hkeeps : inline.Keeps)
    (hsorts : inline.Sorts I) : ∀ (e : Relational.Expr) {env : Environment} {V : Set Variable}
    {ρ : Assignment E} {s s' : Session} {t : Term}, Runs (exprWith inline active e env) s t s' →
    s.Proper → I.Supports s'.onDemand → Hygienic s.fresh V → env.Within V → env.Sorted I ρ →
    t.Sorted I ρ
  | .constant c, env, V, ρ, s, s', t, h, _, hI, _, _, _ => by
    rw [exprWith] at h
    exact (denotes_builtin h hI).sorted
  | .number n, env, V, ρ, s, s', t, h, _, hI, _, _, _ => by
    rw [exprWith] at h
    exact (denotes_intRelation hinj h hI).sorted
  | .sig r, env, V, ρ, s, s', t, h, hs, hI, _, _, _ => by
    rw [exprWith] at h
    split at h
    · exact (denotes_integers h hI).sorted
    · exact (denotes_signature hs h).sorted
  | .field f, env, V, ρ, s, s', t, h, hs, _, _, _, _ => by
    rw [exprWith] at h
    exact (denotes_field hs h).sorted
  | .var v, env, V, ρ, s, s', t, h, _, _, _, _, henv => by
    rw [exprWith] at h
    split at h
    · rename_i u hu
      obtain ⟨rfl, rfl⟩ := runs_pure.1 h
      exact henv.terms _ _ hu
    · exact absurd h runs_throw
  | .unary op e, env, V, ρ, s, s', t, h, hs, hI, hV, hin, henv => by
    rw [exprWith, runs_bind] at h
    obtain ⟨u, m, hu, h⟩ := h
    have hcovers := covers_exprWith hkeeps e hu hV hin
    -- a sorted operand denotes its own value, so that the operator can be read by its meaning
    have ih := sorted_exprWith hinj hkeeps hsorts e hu hs
      (supports_of_extends hI (extends_unary h)) hV hin henv
    have hsettled := hcovers.1.settledAt hV hcovers.2.fresh
    exact (denotes_unaryOp ih.denotes hsettled h hI).sorted
  | .binary op l r, env, V, ρ, s, s', t, h, hs, hI, hV, hin, henv => by
    simp only [exprWith, runs_bind] at h
    obtain ⟨a, m, ha, b, m', hb, h⟩ := h
    have hl := covers_exprWith hkeeps l ha hV hin
    have hVm := hV.mono hl.2.fresh
    have hr := covers_exprWith hkeeps r hb hVm hin
    have hVm' := hVm.mono hr.2.fresh
    have hIm' := supports_of_extends hI (extends_binary h)
    have iha := sorted_exprWith hinj hkeeps hsorts l ha hs (supports_of_extends hIm' hr.2) hV hin
      henv
    have ihb := sorted_exprWith hinj hkeeps hsorts r hb (proper_of_extends hs hl.2) hIm' hVm hin
      henv
    exact (denotes_binaryOp hinj iha.denotes ihb.denotes (hl.1.settledAt hVm' le_rfl)
      (hr.1.settledAt hVm' le_rfl) h).sorted
  | .list op es, env, V, ρ, s, s', t, h, hs, hI, hV, hin, henv => by
    obtain ⟨ts, hts, hjoined⟩ := runs_list h
    have ih := sorted_exprsWith hinj hkeeps hsorts es hts hs hI hV hin henv
    exact (denotes_joined (forall₂_denotes ih) hjoined).sorted
  | .ite c y n, env, V, ρ, s, s', t, h, hs, hI, hV, hin, henv => by
    simp only [exprWith, runs_bind, runs_lift, Term.mkIte_eq_ok] at h
    obtain ⟨tc, m₁, hc, ty, m₂, hy, tn, _, hn, ⟨_, hsort, rfl⟩, rfl⟩ := h
    have hextc := (covers_exprWith hkeeps c hc hV hin).2
    have hV₁ := hV.mono hextc.fresh
    have hexty := (covers_exprWith hkeeps y hy hV₁ hin).2
    have hV₂ := hV₁.mono hexty.fresh
    have hI₂ := supports_of_extends hI (covers_exprWith hkeeps n hn hV₂ hin).2
    have hs₁ := proper_of_extends hs hextc
    have ihc := sorted_exprWith hinj hkeeps hsorts c hc hs (supports_of_extends hI₂ hexty) hV hin
      henv
    have ihy := sorted_exprWith hinj hkeeps hsorts y hy hs₁ hI₂ hV₁ hin henv
    have ihn := sorted_exprWith hinj hkeeps hsorts n hn (proper_of_extends hs₁ hexty) hI hV₂ hin henv
    exact (ihc.denotes.ite ihy.denotes ihn.denotes hsort).sorted
  | .letIn v value body, env, V, ρ, s, s', t, h, hs, hI, hV, hin, henv => by
    simp only [exprWith, runs_bind] at h
    obtain ⟨u, m, hu, h⟩ := h
    have hcovers := covers_exprWith hkeeps value hu hV hin
    have hVm := hV.mono hcovers.2.fresh
    have hin' : Environment.Within (env.enter.put v.name u) V :=
      Environment.within_enter_put hin hcovers.1
    have hextb := (covers_exprWith hkeeps body h hVm hin').2
    have ihu := sorted_exprWith hinj hkeeps hsorts value hu hs (supports_of_extends hI hextb) hV hin
      henv
    exact sorted_exprWith hinj hkeeps hsorts body h (proper_of_extends hs hcovers.2) hI hVm hin'
      (henv.enter.put ihu (henv.of_covers hcovers.1))
  | .quantified q ds body, env, V, ρ, s, s', t, h, hs, hI, hV, hin, henv => by
    have hcovers := (covers_exprWith hkeeps (.quantified q ds body) h hV hin).1
    cases q <;> simp only [exprWith, runs_bind] at h <;> obtain ⟨b, m, hb, u, m', hu, h⟩ := h
    case comprehension => exact sorted_comprehend henv hcovers h
    -- every other quantifier gives a truth, whatever it binds
    all_goals exact sorted_quantify h
  | .call name args c, env, V, ρ, s, s', t, h, hs, hI, hV, hin, henv => by
    have hcovers := (covers_exprWith hkeeps (.call name args c) h hV hin).1
    rcases runs_call h with ⟨op, x, y, m, _, _, hts, h⟩ | ⟨f, body, ts, m, _, _, _, _, hts, h⟩
    · exact sorted_arithmetic henv hcovers h
    -- the body is lowered over the arguments, which are sorted and covered by what is around
    · have hargs := covers_exprsWith hkeeps args hts hV hin
      have hVm := hV.mono hargs.2.fresh
      have hin' := within_call (f.params.map Relational.Var.name) hargs.1
      have ih := sorted_exprsWith hinj hkeeps hsorts args hts hs
        (supports_of_extends hI (hkeeps.covers h hVm hin').2) hV hin henv
      refine hsorts.sorted h (proper_of_extends hs hargs.2) hI hVm hin'
        (Environment.sorted_empty.putAll (fun b hb => ?_) fun b hb => ?_)
      · exact ih b.2 (List.of_mem_zip hb).2
      · exact henv.of_covers (hargs.1 b.2 (List.of_mem_zip hb).2)

theorem sorted_exprsWith (hinj : I.IntInjective) (hkeeps : inline.Keeps)
    (hsorts : inline.Sorts I) : ∀ (es : List Relational.Expr) {env : Environment}
    {V : Set Variable} {ρ : Assignment E} {s s' : Session} {ts : List Term},
    Runs (exprsWith inline active es env) s ts s' → s.Proper → I.Supports s'.onDemand →
    Hygienic s.fresh V → env.Within V → env.Sorted I ρ → ∀ t ∈ ts, t.Sorted I ρ
  | [], env, V, ρ, s, s', ts, h, _, _, _, _, _ => by
    rw [exprsWith] at h
    obtain ⟨rfl, rfl⟩ := runs_pure.1 h
    simp
  | e :: es, env, V, ρ, s, s', ts, h, hs, hI, hV, hin, henv => by
    simp only [exprsWith, runs_bind, runs_pure] at h
    obtain ⟨t, m, ht, ts, _, hts, rfl, rfl⟩ := h
    have hext := (covers_exprWith hkeeps e ht hV hin).2
    have hVm := hV.mono hext.fresh
    have hexts := (covers_exprsWith hkeeps es hts hVm hin).2
    exact List.forall_mem_cons.2
      ⟨sorted_exprWith hinj hkeeps hsorts e ht hs (supports_of_extends hI hexts) hV hin henv,
        sorted_exprsWith hinj hkeeps hsorts es hts (proper_of_extends hs hext) hI hVm hin henv⟩

end

end Expressions

theorem sorted_exprWithin (hinj : I.IntInjective) : ∀ (depth : Nat) {active : List String}
    {e : Relational.Expr} {env : Environment} {V : Set Variable} {ρ : Assignment E}
    {s s' : Session} {t : Term}, Runs (exprWithin depth active e env) s t s' → s.Proper →
    I.Supports s'.onDemand → Hygienic s.fresh V → env.Within V → env.Sorted I ρ → t.Sorted I ρ
  | 0, _, e, _, _, _, _, _, _, h, hs, hI, hV, hin, henv =>
    sorted_exprWith hinj keeps_throw ⟨fun h => absurd h runs_throw⟩ e h hs hI hV hin henv
  | depth + 1, _, e, _, _, _, _, _, _, h, hs, hI, hV, hin, henv =>
    sorted_exprWith hinj ⟨covers_exprWithin depth⟩ ⟨sorted_exprWithin hinj depth⟩ e h hs hI hV hin
      henv

end Lowering

end RelSmt
