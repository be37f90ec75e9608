import RelSmt.Proofs.Lowering.Comprehension
import RelSmt.Proofs.Lowering.Operation
import RelSmt.Proofs.Lowering.Quantifier
import RelSmt.Proofs.Relational.Shadowing

/-!
# Lowering preserves meaning

A lowered expression denotes the meaning of the expression, in every interpretation that gives the
symbols declared on first use their intended values. This is shown by induction on expressions: an
environment maps every variable in scope to a term that denotes its value, declarations choose the
values that they allow, and a call has the meaning of the function's body because the body is lowered
in an environment that holds the arguments alone. The induction is over a family of sites that is
closed under going in, where names lead to their variables. Once for comprehensions and operations on
integers, whose axioms are among the assertions, and once for formulas in which neither occurs.
-/

namespace RelSmt

variable {E : Type}

namespace Lowering

variable {s s' m : Session} {I : Interpretation E} {ρ : Assignment E} {t u : Term}
  {env : Environment} {V : Set Variable} {M : Relational.Structure E}

/-- Do the session's symbols make up the structure? -/
structure Session.Models (s : Session) (I : Interpretation E) (M : Relational.Structure E) :
    Prop where
  proper : s.Proper
  relations : s.relations I = M

theorem Session.Models.extend (h : s.Models I M) (hext : Extends s s') : s'.Models I M :=
  ⟨proper_of_extends h.proper hext, (relations_of_extends hext).trans h.relations⟩

theorem supports_of_extends (h : I.Supports s'.onDemand) (hext : Extends s s') :
    I.Supports s.onDemand :=
  supports_of_within h hext.onDemand

/-! ## Lists of formulas -/

theorem evalAll_of_denotes {ts : List Term} {vs : List (RelSmt.Value E)}
    (h : List.Forall₂ (fun t v => t.Denotes I ρ v) ts vs) : Term.evalAll I ts ρ = vs := by
  induction h with
  | nil => rfl
  | cons ht _ ih => rw [Term.evalAll, ht.eval, ih]

theorem apply_of_ne_single {op : Relational.ListOp} {vs : List (RelSmt.Value E)}
    (h : ∀ v, vs ≠ [v]) : op.apply vs = match op with
      | .and => .truth (∀ v ∈ vs, v.Holds)
      | .or => .truth (∃ v ∈ vs, v.Holds) := by
  match op, vs, h with
  | _, [v], h => exact absurd rfl (h v)
  | .and, [], _ => rfl
  | .or, [], _ => rfl
  | .and, _ :: _ :: _, _ => rfl
  | .or, _ :: _ :: _, _ => rfl

theorem ne_single_of_forall₂ {ts : List Term} {vs : List (RelSmt.Value E)}
    (h : List.Forall₂ (fun t v => t.Denotes I ρ v) ts vs) (hts : ∀ t, ts ≠ [t]) (v) : vs ≠ [v] := by
  rintro rfl
  obtain ⟨t, rest, _, hrest, rfl⟩ := List.forall₂_cons_right_iff.1 h
  obtain rfl := List.forall₂_nil_right_iff.1 hrest
  exact hts t rfl

theorem denotes_joined {op : Relational.ListOp} {ts : List Term} {vs : List (RelSmt.Value E)}
    (hts : List.Forall₂ (fun t v => t.Denotes I ρ v) ts vs) (h : Term.Joined (joinsAll op) ts t) :
    t.Denotes I ρ (op.apply vs) := by
  cases h with
  | none =>
    obtain rfl := List.forall₂_nil_left_iff.1 hts
    cases op <;> exact
      ⟨by simp [Term.bool, Term.eval, Term.literalValue, joinsAll, Relational.ListOp.apply], trivial⟩
  | one =>
    obtain ⟨v, rest, ht, hrest, rfl⟩ := List.forall₂_cons_left_iff.1 hts
    obtain rfl := List.forall₂_nil_left_iff.1 hrest
    cases op <;> exact ht
  | several hne =>
    rw [apply_of_ne_single (ne_single_of_forall₂ hts hne)]
    cases op <;> exact ⟨by rw [Term.eval, evalAll_of_denotes hts]; rfl, trivial⟩

/-! ## What is asked of an interpretation -/

/-- Does the interpretation satisfy what lowering adds to a session, where all assertions that are
added have a property? Symbols that are declared on first use have their intended values. -/
structure Upholds (I : Interpretation E) (A : Assertion → Prop) (s s' : Session) : Prop where
  supports : I.Supports s'.onDemand
  satisfies : I.Satisfies (added s s')
  permitted : ∀ a ∈ added s s', A a

section Steps

variable {A : Assertion → Prop}

theorem Upholds.first (h : Upholds I A s s') (hfirst : Extends s m) (hlast : Extends m s') :
    Upholds I A s m := by
  have hadded := added_trans hfirst hlast
  exact ⟨supports_of_extends h.supports hlast,
    fun a ha => h.satisfies a (hadded ▸ List.mem_append_left _ ha),
    fun a ha => h.permitted a (hadded ▸ List.mem_append_left _ ha)⟩

theorem Upholds.last (h : Upholds I A s s') (hfirst : Extends s m) (hlast : Extends m s') :
    Upholds I A m s' := by
  have hadded := added_trans hfirst hlast
  exact ⟨h.supports, fun a ha => h.satisfies a (hadded ▸ List.mem_append_right _ ha),
    fun a ha => h.permitted a (hadded ▸ List.mem_append_right _ ha)⟩

end Steps

/-- What it takes for lowered expressions to denote the meanings of the expressions, at some sites
and where what is asserted has a property: names lead to their variables, operations on integers are
called only where no axiom of theirs is about a set, and inlining the body of a function gives the
value of the body. -/
structure Inliner.Means (inline : Inliner) (I : Interpretation E) (M : Relational.Structure E)
    (S : Relational.Site → Prop) (A : Assertion → Prop)
    (value : Relational.Expr → Relational.Valuation E → RelSmt.Value E) : Prop where
  injective : I.IntInjective
  keeps : inline.Keeps
  resolving : Relational.Resolving S
  elements : ∀ {scope : List Relational.Var} {name : String} {args : List Relational.Expr}
    {columns : List Relational.Column}, S ⟨scope, .call name args columns⟩ →
    M.function? name = none → ∀ a, A a → ¬SetAxiom a
  denotes : ∀ {scope : List Relational.Var} {name : String} {args : List Relational.Expr}
    {columns : List Relational.Column} {f : Relational.Function} {body : Relational.Expr}
    {ts : List Term} {as : List (RelSmt.Value E)} {ρ : Assignment E} {V : Set Variable}
    {s s' : Session} {t : Term}, S ⟨scope, .call name args columns⟩ →
    M.function? name = some f → f.body = some body → f.params.length = ts.length →
    List.Forall₂ (fun t a => t.Denotes I ρ a) ts as →
    Runs (inline name body
      (({} : Environment).putAll ((f.params.map Relational.Var.name).zip ts))) s t s' →
    s.Models I M → Upholds I A s s' → Hygienic s.fresh V →
    Environment.Within (({} : Environment).putAll ((f.params.map Relational.Var.name).zip ts)) V →
    Conforms I ρ V →
    t.Denotes I ρ (value body (Relational.Valuation.bindAll (fun _ => default) f.params as))

/-! ## Expressions -/

theorem length_meaningsWith {call : Relational.Callee E} {δ : Relational.Valuation E}
    (es : List Relational.Expr) : (Relational.meaningsWith M call es δ).length = es.length := by
  induction es with
  | nil => rw [Relational.meaningsWith, List.length_nil, List.length_nil]
  | cons e es ih => rw [Relational.meaningsWith, List.length_cons, List.length_cons, ih]

/-- The names of operations on integers call the operations. -/
theorem operation?_of_integerOperator? {name : String} {op : Arithmetic}
    (h : integerOperator? name = some op) : Relational.operation? name = some op := by
  unfold integerOperator? at h
  split at h <;> cases h <;> rfl

section Expressions

variable {inline : Inliner} {active : List String} {S : Relational.Site → Prop}
  {A : Assertion → Prop} {value : Relational.Expr → Relational.Valuation E → RelSmt.Value E}

mutual

/-- **A lowered expression denotes the meaning of the expression**, as long as inlined calls do. -/
theorem denotes_exprWith (hmeans : inline.Means I M S A value) : ∀ (e : Relational.Expr)
    {env : Environment} {V : Set Variable} {scope : List Relational.Var}
    {δ : Relational.Valuation E} {ρ : Assignment E} {s s' : Session} {t : Term},
    Runs (exprWith inline active e env) s t s' → s.Models I M → Upholds I A s s' →
    Hygienic s.fresh V → env.Within V → Conforms I ρ V → Sees I ρ env δ scope → S ⟨scope, e⟩ →
    t.Denotes I ρ (Relational.meaningWith M (M.callee value) e δ)
  | .constant c, env, V, scope, δ, ρ, s, s', t, h, hM, hI, _, _, _, _, _ => by
    rw [exprWith] at h
    rw [Relational.meaningWith, ← hM.relations]
    exact denotes_builtin h hI.supports
  | .number n, env, V, scope, δ, ρ, s, s', t, h, hM, hI, _, _, _, _, _ => by
    rw [exprWith] at h
    rw [Relational.meaningWith, ← hM.relations]
    exact denotes_intRelation hmeans.injective h hI.supports
  | .sig r, env, V, scope, δ, ρ, s, s', t, h, hM, hI, _, _, _, _, _ => by
    rw [exprWith] at h
    rw [Relational.meaningWith, ← hM.relations]
    split at h
    · rename_i hint
      rw [if_pos hint]
      exact denotes_integers h hI.supports
    · rename_i hint
      rw [if_neg hint]
      exact denotes_signature hM.proper h
  | .field f, env, V, scope, δ, ρ, s, s', t, h, hM, hI, _, _, _, _, _ => by
    rw [exprWith] at h
    rw [Relational.meaningWith, ← hM.relations]
    exact denotes_field hM.proper h
  | .var v, env, V, scope, δ, ρ, s, s', t, h, _, _, _, _, _, hsees, hsite => by
    rw [exprWith] at h
    rw [Relational.meaningWith]
    split at h
    · rename_i u hu
      obtain ⟨rfl, rfl⟩ := runs_pure.1 h
      -- the name leads to the innermost variable, which is the very one
      obtain ⟨w, hw, hden⟩ := hsees v.name u hu
      obtain rfl := hmeans.resolving.unshadowed hsite w hw
      exact hden
    · exact absurd h runs_throw
  | .unary op e, env, V, scope, δ, ρ, s, s', t, h, hM, hI, hV, hin, hρ, hsees, hsite => by
    rw [exprWith, runs_bind] at h
    obtain ⟨u, m, hu, h⟩ := h
    have hext := extends_unary h
    have hcovers := covers_exprWith hmeans.keeps e hu hV hin
    have hMm := hM.extend hcovers.2
    have ih := denotes_exprWith hmeans e hu hM (hI.first hcovers.2 hext) hV hin hρ hsees
      (hmeans.resolving.step hsite .operand)
    -- the operator may draw names of its own, so the operand must not speak of a name to come
    have hsettled := hcovers.1.settledAt hV hcovers.2.fresh
    rw [Relational.meaningWith, ← hMm.relations]
    rw [← hMm.relations] at ih
    exact denotes_unaryOp ih hsettled h hI.supports
  | .binary op l r, env, V, scope, δ, ρ, s, s', t, h, hM, hI, hV, hin, hρ, hsees, hsite => by
    simp only [exprWith, runs_bind] at h
    obtain ⟨a, m, ha, b, m', hb, h⟩ := h
    have hl := covers_exprWith hmeans.keeps l ha hV hin
    have hVm := hV.mono hl.2.fresh
    have hr := covers_exprWith hmeans.keeps r hb hVm hin
    have hext := extends_binary h
    -- the right operand is lowered in a session that extends the one of the left: the model carries
    -- over to it, and what it supports was supported before
    have iha := denotes_exprWith hmeans l ha hM (hI.first hl.2 (hr.2.trans hext)) hV hin hρ hsees
      (hmeans.resolving.step hsite .left)
    have ihb := denotes_exprWith hmeans r hb (hM.extend hl.2)
      ((hI.last hl.2 (hr.2.trans hext)).first hr.2 hext) hVm hin hρ hsees
      (hmeans.resolving.step hsite .right)
    have hVm' := hVm.mono hr.2.fresh
    rw [Relational.meaningWith, ← (hM.extend (hl.2.trans hr.2)).relations]
    rw [← (hM.extend (hl.2.trans hr.2)).relations] at iha ihb
    exact denotes_binaryOp hmeans.injective iha ihb (hl.1.settledAt hVm' le_rfl)
      (hr.1.settledAt hVm' le_rfl) h
  | .list op es, env, V, scope, δ, ρ, s, s', t, h, hM, hI, hV, hin, hρ, hsees, hsite => by
    obtain ⟨ts, hts, hjoined⟩ := runs_list h
    rw [Relational.meaningWith]
    exact denotes_joined (denotes_exprsWith hmeans es hts hM hI hV hin hρ hsees fun e he =>
      hmeans.resolving.step hsite (.member he)) hjoined
  | .ite c y n, env, V, scope, δ, ρ, s, s', t, h, hM, hI, hV, hin, hρ, hsees, hsite => by
    simp only [exprWith, runs_bind, runs_lift, Term.mkIte_eq_ok] at h
    obtain ⟨tc, m₁, hc, ty, m₂, hy, tn, _, hn, ⟨_, hsort, rfl⟩, rfl⟩ := h
    have hextc := (covers_exprWith hmeans.keeps c hc hV hin).2
    have hV₁ := hV.mono hextc.fresh
    have hexty := (covers_exprWith hmeans.keeps y hy hV₁ hin).2
    have hV₂ := hV₁.mono hexty.fresh
    have hextn := (covers_exprWith hmeans.keeps n hn hV₂ hin).2
    have hI₁ := hI.last hextc (hexty.trans hextn)
    have ihc := denotes_exprWith hmeans c hc hM (hI.first hextc (hexty.trans hextn)) hV hin hρ hsees
      (hmeans.resolving.step hsite .condition)
    have ihy := denotes_exprWith hmeans y hy (hM.extend hextc) (hI₁.first hexty hextn) hV₁ hin hρ
      hsees (hmeans.resolving.step hsite .yes)
    have ihn := denotes_exprWith hmeans n hn (hM.extend (hextc.trans hexty)) (hI₁.last hexty hextn)
      hV₂ hin hρ hsees (hmeans.resolving.step hsite .no)
    rw [Relational.meaningWith]
    exact ihc.ite ihy ihn hsort
  | .letIn v value body, env, V, scope, δ, ρ, s, s', t, h, hM, hI, hV, hin, hρ, hsees, hsite => by
    simp only [exprWith, runs_bind] at h
    obtain ⟨u, m, hu, h⟩ := h
    have hcovers := covers_exprWith hmeans.keeps value hu hV hin
    have hVm := hV.mono hcovers.2.fresh
    have hin' : Environment.Within (env.enter.put v.name u) V :=
      Environment.within_enter_put hin hcovers.1
    have hextb := (covers_exprWith hmeans.keeps body h hVm hin').2
    have ihu := denotes_exprWith hmeans value hu hM (hI.first hcovers.2 hextb) hV hin hρ hsees
      (hmeans.resolving.step hsite .value)
    rw [Relational.meaningWith]
    exact denotes_exprWith hmeans body h (hM.extend hcovers.2) (hI.last hcovers.2 hextb) hVm hin' hρ
      (hsees.enter.put v ihu) (hmeans.resolving.step hsite .letBody)
  | .quantified q ds body, env, V, scope, δ, ρ, s, s', t, h, hM, hI, hV, hin, hρ, hsees, hsite => by
    obtain ⟨b, u, m, m', hb, hu, hclose⟩ := runs_quantified h
    have hextd := (boundWithin_declsWith hmeans.keeps ds hb hV (boundWithin_enter hin)).1
    have hlast : Extends m' s' :=
      hclose.elim (fun h => extends_comprehend h.2) fun h => extends_quantify h.2
    have hextu : Extends m m' := by
      obtain ⟨_, V', hV', hb'⟩ :=
        boundWithin_declsWith hmeans.keeps ds hb hV (boundWithin_enter hin)
      exact (covers_exprWith hmeans.keeps body hu hV'.hygienic hb'.within).2
    obtain ⟨V', ms, hV', hb', hchooses⟩ := chooses_declsWith hmeans ds hb hM
      (hI.first hextd (hextu.trans hlast)) hV (boundWithin_enter hin) (chooses_enter hsees hρ)
      fun hds => hmeans.resolving.step hsite (.bound hds)
    have hcovers := covers_exprWith hmeans.keeps body hu hV'.hygienic hb'.within
    have hI₁ := hI.last hextd (hextu.trans hlast)
    have ih := fun as has hguard =>
      denotes_exprWith
        (δ := δ.bindAll (ds.flatMap Relational.Decl.vars) (List.zipWith seen ms as))
        hmeans body hu (hM.extend hextd) (hI₁.first hextu hlast) hV'.hygienic hb'.within
        (hchooses.conforms as has hguard) (hchooses.sees as has)
        (hmeans.resolving.step hsite .body)
    have hVm := hV'.hygienic.mono hcovers.2.fresh
    rw [Relational.allowedAfter_empty] at hchooses
    rcases hclose with ⟨rfl, hclose⟩ | ⟨hq, hclose⟩
    · rw [Relational.meaningWith]
      -- the application is given variables from around the comprehension only
      have hcovered := hV'.covers hV hin (covers_comprehend hVm hb' (hb'.covers hcovers.1) hclose)
      exact denotes_comprehend (P := fun as => Relational.meaningWith M (M.callee value) body
        (δ.bindAll (ds.flatMap Relational.Decl.vars) as)) hchooses hVm hb' (hb'.covers hcovers.1) ih
        (fun x hx => hρ.sorts x (hcovered x hx).1) (hI₁.last hextu hlast).satisfies hclose
    · have hden := denotes_quantify (P := fun as => Relational.meaningWith M (M.callee value) body
        (δ.bindAll (ds.flatMap Relational.Decl.vars) as)) hchooses hVm hb' (hb'.covers hcovers.1) ih
        hclose
      cases q with
      | comprehension => exact absurd rfl hq
      | _ =>
        rw [Relational.meaningWith]
        exact hden
        all_goals simp
  | .call name args c, env, V, scope, δ, ρ, s, s', t, h, hM, hI, hV, hin, hρ, hsees, hsite => by
    -- the session looks the function up where the structure of its model does
    have hfind : s.functions.reverse.find? (fun f => f.name == name) = M.function? name := by
      rw [← hM.relations]
      rfl
    have hargs := fun e he => hmeans.resolving.step hsite (.argument (e := e) he)
    rw [Relational.meaningWith]
    rcases runs_call h with
      ⟨op, x, y, m, hnone, hop, hts, h⟩ | ⟨f, body, ts, m, hf, hbody, _, hlen, hts, h⟩
    · have hcovers := covers_exprsWith hmeans.keeps args hts hV hin
      have hVm := hV.mono hcovers.2.fresh
      have hx := hcovers.1 x (by simp)
      have hy := hcovers.1 y (by simp)
      have hext := extends_arithmetic h hVm hx hy hin
      have hIm := hI.last hcovers.2 hext
      have ih := denotes_exprsWith hmeans args hts hM (hI.first hcovers.2 hext) hV hin hρ hsees
        hargs
      generalize Relational.meaningsWith M (M.callee value) args δ = vs at ih
      obtain ⟨v, _, hxv, hrest, rfl⟩ := List.forall₂_cons_left_iff.1 ih
      obtain ⟨w, _, hyw, hnil, rfl⟩ := List.forall₂_cons_left_iff.1 hrest
      obtain rfl := List.forall₂_nil_left_iff.1 hnil
      rw [hfind] at hnone
      rw [Relational.Structure.callee_of_operation hnone (operation?_of_integerOperator? hop),
        ← (hM.extend hcovers.2).relations]
      exact denotes_arithmetic h hmeans.injective hIm.satisfies
        (fun a ha => hmeans.elements hsite hnone a (hIm.permitted a ha)) hVm hρ hx hy hxv hyw
    · have hcovers := covers_exprsWith hmeans.keeps args hts hV hin
      have hVm := hV.mono hcovers.2.fresh
      have hin' := within_call (f.params.map Relational.Var.name) hcovers.1
      have hext := (hmeans.keeps.covers h hVm hin').2
      have ih := denotes_exprsWith hmeans args hts hM (hI.first hcovers.2 hext) hV hin hρ hsees
        hargs
      have hlen' : f.params.length = ts.length := by
        rw [hlen, ih.length_eq, length_meaningsWith]
      rw [hfind] at hf
      rw [Relational.Structure.callee_of_function hf hbody]
      exact hmeans.denotes hsite hf hbody hlen' ih h (hM.extend hcovers.2) (hI.last hcovers.2 hext)
        hVm hin' hρ

theorem denotes_exprsWith (hmeans : inline.Means I M S A value) : ∀ (es : List Relational.Expr)
    {env : Environment} {V : Set Variable} {scope : List Relational.Var}
    {δ : Relational.Valuation E} {ρ : Assignment E} {s s' : Session} {ts : List Term},
    Runs (exprsWith inline active es env) s ts s' → s.Models I M → Upholds I A s s' →
    Hygienic s.fresh V → env.Within V → Conforms I ρ V → Sees I ρ env δ scope →
    (∀ e ∈ es, S ⟨scope, e⟩) →
    List.Forall₂ (fun t v => t.Denotes I ρ v) ts
      (Relational.meaningsWith M (M.callee value) es δ)
  | [], env, V, scope, δ, ρ, s, s', ts, h, _, _, _, _, _, _, _ => by
    rw [exprsWith] at h
    obtain ⟨rfl, rfl⟩ := runs_pure.1 h
    exact List.Forall₂.nil
  | e :: es, env, V, scope, δ, ρ, s, s', ts, h, hM, hI, hV, hin, hρ, hsees, hsites => by
    simp only [exprsWith, runs_bind, runs_pure] at h
    obtain ⟨t, m, ht, ts, _, hts, rfl, rfl⟩ := h
    rw [List.forall_mem_cons] at hsites
    have hext := (covers_exprWith hmeans.keeps e ht hV hin).2
    have hVm := hV.mono hext.fresh
    have hexts := (covers_exprsWith hmeans.keeps es hts hVm hin).2
    rw [Relational.meaningsWith]
    exact List.Forall₂.cons
      (denotes_exprWith hmeans e ht hM (hI.first hext hexts) hV hin hρ hsees hsites.1)
      (denotes_exprsWith hmeans es hts (hM.extend hext) (hI.last hext hexts) hVm hin hρ hsees
        hsites.2)

theorem chooses_declsWith (hmeans : inline.Means I M S A value) : ∀ (ds : List Relational.Decl)
    {comprehension : Bool} {env : Environment} {V : Set Variable} {scope vs : List Relational.Var}
    {ms : List Relational.Multiplicity} {allowed : Set (List (RelSmt.Value E))}
    {δ : Relational.Valuation E} {ρ : Assignment E} {s s' : Session} {b b' : Bound},
    Runs (declsWith inline active ds comprehension b) s b' s' → s.Models I M →
    Upholds I A s s' → Hygienic s.fresh V → BoundWithin env V b →
    Chooses I ρ δ scope b V vs ms allowed →
    (∀ {before d after}, ds = before ++ d :: after →
      S ⟨Relational.declaredBy before (vs.reverse ++ scope), d.bound⟩) →
    ∃ V' ms', Enlarges s V s' V' ∧ BoundWithin env V' b' ∧
      Chooses I ρ δ scope b' V' (vs ++ ds.flatMap Relational.Decl.vars) ms'
        (Relational.allowedAfter M (M.callee value) vs allowed ds δ)
  | [], c, env, V, scope, vs, ms, allowed, δ, ρ, s, s', b, b', h, _, _, hV, hb, hchooses, _ => by
    rw [declsWith] at h
    obtain ⟨rfl, rfl⟩ := runs_pure.1 h
    exact ⟨V, ms, .refl hV, hb, by simpa [Relational.allowedAfter_nil] using hchooses⟩
  | .mk ws q bound disjoint :: ds, c, env, V, scope, vs, ms, allowed, δ, ρ, s, s', b, b', h, hM, hI,
      hV, hb, hchooses, hsites => by
    obtain ⟨u, m₁, b₁, m₂, hu, hdecl, hrest⟩ := runs_declsWith_cons h
    have hsite : S ⟨vs.reverse ++ scope, bound⟩ := @hsites [] _ _ rfl
    have hcovers := covers_exprWith hmeans.keeps bound hu hV hb.within
    have hV₁ := hV.mono hcovers.2.fresh
    obtain ⟨hext, V₁, hV', hb₁, hgrows⟩ := boundWithin_bindDecl hdecl hV₁ hb hcovers.1
    have hextds := (boundWithin_declsWith hmeans.keeps ds hrest hV'.hygienic hb₁).1
    obtain ⟨element, xs, cs, hsort, hdeclares⟩ := declares_bindDecl hdecl
    have hI₁ := hI.first hcovers.2 (hext.trans hextds)
    have hstep := hchooses.declare
      (fun as => Relational.meaningWith M (M.callee value) bound (δ.bindAll vs as)) hdeclares hsort
      hV₁ hb hcovers.1 hb₁ hgrows fun as has hguard =>
        denotes_exprWith hmeans bound hu hM hI₁ hV hb.within (hchooses.conforms as has hguard)
          (hchooses.sees as has) hsite
    -- the declarations that follow are read under the values that this one has chosen
    obtain ⟨V', ms', hV'', hb', hchooses'⟩ := chooses_declsWith hmeans ds hrest
      (hM.extend (hcovers.2.trans hext)) (hI.last (hcovers.2.trans hext) hextds) hV'.hygienic hb₁
      hstep fun {before d after} hds => by
        have hafter := @hsites (.mk ws q bound disjoint :: before) d after (by rw [hds]; rfl)
        rw [Relational.declaredBy_cons] at hafter
        rw [List.reverse_append, List.append_assoc]
        exact hafter
    refine ⟨V', ms', (((Enlarges.refl hV).fresher hcovers.2.fresh).trans hV').trans hV'', hb', ?_⟩
    rw [Relational.allowedAfter_cons fun as has => hchooses.length_of_mem has, List.flatMap_cons,
      ← List.append_assoc]
    exact hchooses'

end

end Expressions

/-! ## Calls that nest -/

/-- Sites by the room that is left for calls to nest: the body of a function that is called at a site
has one call less. -/
structure Nesting (M : Relational.Structure E) (S : Nat → Relational.Site → Prop) : Prop where
  resolving : ∀ depth, Relational.Resolving (S depth)
  callee : ∀ {depth : Nat} {scope : List Relational.Var} {name : String}
    {args : List Relational.Expr} {columns : List Relational.Column} {f : Relational.Function}
    {body : Relational.Expr}, S (depth + 1) ⟨scope, .call name args columns⟩ →
    M.function? name = some f → f.body = some body → S depth ⟨f.params.reverse, body⟩

section Calls

variable {S : Nat → Relational.Site → Prop} {A : Assertion → Prop}

/-- **A lowered expression denotes the meaning of the expression**, where the meaning has as much
room for calls to nest as inlining has, or where no function is called any more when room runs out.
-/
theorem denotes_exprWithin (hinj : I.IntInjective) (hS : Nesting M S)
    (helements : ∀ {depth scope name args columns}, S depth ⟨scope, .call name args columns⟩ →
      M.function? name = none → ∀ a, A a → ¬SetAxiom a) : ∀ {depth room : Nat},
    (room ≤ depth ∨ ∀ {scope name args columns}, S 0 ⟨scope, .call name args columns⟩ →
      M.function? name = none) →
    ∀ {active : List String} {e : Relational.Expr} {env : Environment} {V : Set Variable}
      {scope : List Relational.Var} {δ : Relational.Valuation E} {ρ : Assignment E}
      {s s' : Session} {t : Term}, Runs (exprWithin room active e env) s t s' → s.Models I M →
    Upholds I A s s' → Hygienic s.fresh V → env.Within V → Conforms I ρ V → Sees I ρ env δ scope →
    S depth ⟨scope, e⟩ → t.Denotes I ρ (Relational.meaningWithin M depth e δ)
  | 0, room, hroom, active, e, env, V, scope, δ, ρ, s, s', t, h, hM, hI, hV, hin, hρ, hsees,
      hsite => by
    cases room with
    | zero =>
      exact denotes_exprWith ⟨hinj, keeps_throw, hS.resolving 0, helements,
        fun _ _ _ _ _ h => absurd h runs_throw⟩ e h hM hI hV hin hρ hsees hsite
    | succ room =>
      -- there is room for calls, but none of a function is left
      refine denotes_exprWith ⟨hinj, ⟨covers_exprWithin room⟩, hS.resolving 0, helements,
        fun hcall hf => ?_⟩ e h hM hI hV hin hρ hsees hsite
      rw [hroom.resolve_left (by omega) hcall] at hf
      cases hf
  | depth + 1, room, hroom, active, e, env, V, scope, δ, ρ, s, s', t, h, hM, hI, hV, hin, hρ, hsees,
      hsite => by
    cases room with
    | zero =>
      exact denotes_exprWith ⟨hinj, keeps_throw, hS.resolving _, helements,
        fun _ _ _ _ _ h => absurd h runs_throw⟩ e h hM hI hV hin hρ hsees hsite
    | succ room =>
      refine denotes_exprWith ⟨hinj, ⟨covers_exprWithin room⟩, hS.resolving _, helements,
        fun hcall hf hbody hlen hts h hM hI hV hin hρ => ?_⟩ e h hM hI hV hin hρ hsees hsite
      -- a body is lowered where its parameters are all that is in scope
      have hnone : ∀ ρ, Sees I ρ {} (fun _ => default) [] := fun _ => sees_empty
      have hparams := (hnone _).putAll hlen hts
      rw [List.append_nil] at hparams
      exact denotes_exprWithin hinj hS helements (hroom.imp_left Nat.le_of_succ_le_succ) h hM hI hV
        hin hρ hparams (hS.callee hcall hf hbody)

end Calls

/-- The functions that may be called with room for calls in their bodies to nest. -/
def Callable (M : Relational.Structure E) : Nat → String → Prop
  | 0, _ => False
  | depth + 1, name => ∃ f body, M.function? name = some f ∧ f.body = some body ∧
      Relational.FreshIn [] f.params ∧ body.ScopedWithin M depth f.params

theorem scopedWith_callable {e : Relational.Expr} {scope : List Relational.Var} {depth : Nat} :
    e.ScopedWith (Callable M depth) scope ↔ e.ScopedWithin M depth scope := by
  cases depth <;> rfl

/-- Scoped expressions call functions whose bodies are scoped. -/
theorem nesting_scoped (M : Relational.Structure E) :
    Nesting M fun depth => Relational.ScopedSite (Callable M depth) where
  resolving _ := Relational.resolving_scoped
  callee := by
    rintro depth scope name args columns f body ⟨_, ⟨g, gbody, hg, hgbody, hfresh, hscoped⟩, _⟩ hf
      hbody
    obtain rfl : g = f := Option.some.inj (hg.symm.trans hf)
    obtain rfl : gbody = body := Option.some.inj (hgbody.symm.trans hbody)
    refine ⟨by rw [List.map_reverse]; exact List.nodup_reverse.2 hfresh.1, ?_⟩
    rw [List.reverse_reverse]
    exact scopedWith_callable.2 hscoped

theorem Callable.found : ∀ {depth : Nat} {name : String}, Callable M depth name →
    M.function? name ≠ none
  | _ + 1, _, ⟨_, _, hf, _⟩, hnone => nomatch hnone.symm.trans hf

/-- Where no hidden variable is reached none is reached in the bodies of functions. -/
theorem nesting_unshadowed (M : Relational.Structure E) :
    Nesting M fun _ a => a.Occurrences M.functions Relational.Unshadowed where
  resolving _ := Relational.Site.resolving_unshadowed _
  callee h hf hbody := h.step (.callee hf hbody)

/-! ## Formulas -/

/-- The formula of the preamble: different elements do not have one value. -/
def injectivityFormula : Term :=
  .quantified .all [.plain "x" .uint, .plain "y" .uint] (.binary (.connective .implies)
    (.unary .not (.binary .eq (.variable (.plain "x" .uint)) (.variable (.plain "y" .uint))))
    (.unary .not (.binary .eq (.call intValue [.variable (.plain "x" .uint)])
      (.call intValue [.variable (.plain "y" .uint)]))))

theorem injectivity_eq : injectivity = .ok ⟨"intValue is injective", injectivityFormula, none⟩ :=
  rfl

/-- The formula of the preamble says that different elements stand for different integers. -/
theorem valid_injectivityFormula : injectivityFormula.Valid I ↔ I.IntInjective := by
  -- under values for both variables the formula is the implication it stands for
  have hbody : ∀ (ρ : Assignment E) (d e : E), d ∈ I.carrier .uint → e ∈ I.carrier .uint →
      (((Term.binary (.connective .implies)
        (.unary .not (.binary .eq (.variable (.plain "x" .uint)) (.variable (.plain "y" .uint))))
        (.unary .not (.binary .eq (.call intValue [.variable (.plain "x" .uint)])
          (.call intValue [.variable (.plain "y" .uint)])))).eval I
        (ρ.bindAll [.plain "x" .uint, .plain "y" .uint] [.element d, .element e])).Holds ↔
        (I.intOf d = I.intOf e → d = e)) := by
    intro ρ d e hd he
    have hx : ((ρ.bind (.plain "x" .uint) (.element d)).bind (.plain "y" .uint) (.element e)).get
        (.plain "x" .uint) = .element d := by
      rw [Assignment.get_bind_of_ne _ _ (by decide), Assignment.get_bind_self]
    simp only [Term.eval, Term.evalAll, Term.binaryValue, Term.unaryValue, Connective.Holds,
      Assignment.bindAll_cons, Assignment.bindAll_nil, hx, Assignment.get_bind_self,
      function_intValue hd, function_intValue he, Value.holds_truth, Value.element_inj,
      Value.int_inj]
    exact not_imp_not
  constructor
  · intro h d hd e he hde
    exact (hbody default d e hd he).1 (h default _ (.cons hd (.cons he .nil))) hde
  · intro h ρ as has
    obtain ⟨a, rest, hd, hrest, rfl⟩ := List.forall₂_cons_left_iff.1 has
    obtain ⟨b, none, he, hnone, rfl⟩ := List.forall₂_cons_left_iff.1 hrest
    obtain rfl := List.forall₂_nil_left_iff.1 hnone
    obtain ⟨d, hd, rfl⟩ := Value.exists_element_of_hasSort hd
    obtain ⟨e, he, rfl⟩ := Value.exists_element_of_hasSort he
    exact (hbody ρ d e hd he).2 (h d hd e he)

/-- A lowered formula is true exactly when the formula is true of the relations that its symbols
stand for, where what is asserted on the way is upheld. -/
theorem holds_formula_of_upholds {e : Relational.Expr} (h : Runs (formula e) s t s')
    (hs : s.Proper) (hinj : I.IntInjective) (hI : Upholds I (fun _ => True) s s') {depth : Nat}
    (hscoped : e.ScopedWithin (s.relations I) depth []) (ρ : Assignment E)
    (δ : Relational.Valuation E) :
    (t.eval I ρ).Holds ↔ (Relational.meaningWithin (s.relations I) depth e δ).Holds := by
  obtain ⟨ht, _⟩ := runs_formula.1 h
  have hin : Environment.Within {} ∅ := Environment.within_empty
  have hsees : Sees I ρ {} δ [] := sees_empty
  have hden := denotes_exprWithin hinj (nesting_scoped _)
    (fun hcall hnone => absurd hnone (Callable.found hcall.expr.1))
    (Or.inr fun hcall => hcall.expr.1.elim) ht ⟨hs, rfl⟩ hI (hygienic_empty _) hin conforms_empty
    hsees ⟨List.nodup_nil, scopedWith_callable.2 hscoped⟩
  rw [hden.eval]

end Lowering

end RelSmt
