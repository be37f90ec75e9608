import RelSmt.Proofs.Lowering.Declaration
import RelSmt.Proofs.Lowering.Expr

/-!
# Quantifiers over declared variables

Under the constraints of a binder the values of its variables are the same as the values that its
declarations allow: every allowed choice of values is seen under values of the variables, and under
one choice of these only. A quantifier over the variables of terms therefore says what the quantifier
over the declared variables says, and a copy of the formula speaks of a second choice.
-/

namespace RelSmt

variable {E : Type}

namespace Lowering

variable {s s' m : Session} {I : Interpretation E} {ρ : Assignment E} {t u : Term}
  {env : Environment} {V : Set Variable}

/-! ## Variables in scope -/

variable {δ : Relational.Valuation E} {scope : List Relational.Var}

/-- Every name in the environment is that of a variable in scope, and stands for a term that denotes
the value of the innermost one. -/
def Sees (I : Interpretation E) (ρ : Assignment E) (env : Environment)
    (δ : Relational.Valuation E) (scope : List Relational.Var) : Prop :=
  ∀ name t, env.get? name = some t →
    ∃ v, scope.find? (fun v => v.name == name) = some v ∧ t.Denotes I ρ (δ v)

theorem sees_empty : Sees I ρ {} δ scope := fun _ _ h => nomatch h

theorem Sees.put (h : Sees I ρ env δ scope) (v : Relational.Var) {a : RelSmt.Value E}
    (ht : t.Denotes I ρ a) : Sees I ρ (env.put v.name t) (δ.bind v a) (v :: scope) := by
  intro name u hu
  by_cases hname : v.name = name
  · subst hname
    rw [Scoped.get?_put_self, Option.some.injEq] at hu
    exact ⟨v, by simp, by rw [Relational.Valuation.bind_self]; exact hu ▸ ht⟩
  -- another name is not hidden by the new variable
  · rw [Scoped.get?_put_of_ne env t (Ne.symm hname)] at hu
    obtain ⟨w, hw, hden⟩ := h name u hu
    have hne : w ≠ v := by
      rintro rfl
      exact hname (by simpa using List.find?_some hw)
    exact ⟨w, by simp [hname, hw],
      by rw [Relational.Valuation.bind_of_ne δ a hne]; exact hden⟩

/-- Of several names that are bound one after the other, the last ones are the innermost. -/
theorem Sees.putAll : ∀ {vs : List Relational.Var} {ts : List Term} {as : List (RelSmt.Value E)}
    {env : Environment} {δ : Relational.Valuation E} {scope : List Relational.Var},
    Sees I ρ env δ scope → vs.length = ts.length →
    List.Forall₂ (fun t a => t.Denotes I ρ a) ts as →
    Sees I ρ (env.putAll ((vs.map Relational.Var.name).zip ts)) (δ.bindAll vs as)
      (vs.reverse ++ scope)
  | [], [], [], _, _, _, h, _, _ => h
  | v :: vs, t :: ts, a :: as, env, δ, scope, h, hlen, .cons ht hts => by
    have ih := Sees.putAll (h.put v ht) (by simpa using hlen) hts
    rw [List.reverse_cons, List.append_assoc]
    exact ih

theorem Sees.enter (h : Sees I ρ env δ scope) : Sees I ρ env.enter δ scope :=
  fun name t ht => h name t (by rwa [Scoped.get?_enter] at ht)

/-- What is seen does not depend on variables that are bound later. -/
theorem Sees.bindAll (h : Sees I ρ env δ scope) {n : Nat} (hV : Hygienic n V) (hin : env.Within V)
    {xs : List Variable} (as : List (RelSmt.Value E))
    (hxs : ∀ x ∈ xs, ∃ hint k, n < k ∧ x.name = numbered hint k) :
    Sees I (ρ.bindAll xs as) env δ scope := by
  intro name t ht
  obtain ⟨v, hv, hden⟩ := h name t ht
  exact ⟨v, hv, hden.bindAll as fun w hw x hx =>
    hV.ne_drawn (Environment.covers_of_get? hin ht w hw).1 (hxs x hx)⟩

/-! ## What a binder chooses -/

/-- Values of the variables of a binder under which its constraints hold are the same as values that
are allowed: `ms` says how each value is seen. Under them the known variables conform to their
constraints. -/
structure Chooses (I : Interpretation E) (ρ : Assignment E) (δ : Relational.Valuation E)
    (scope : List Relational.Var) (b : Bound) (V : Set Variable) (vs : List Relational.Var)
    (ms : List Relational.Multiplicity) (allowed : Set (List (RelSmt.Value E))) : Prop where
  length : vs.length = b.vars.length
  tuples : List.Forall₂ (fun m x => m = .one ↔ x.sort.isTuple = true) ms b.vars
  sees : ∀ as, I.HasSorts b.vars as →
    Sees I (ρ.bindAll b.vars as) b.scope (δ.bindAll vs (List.zipWith seen ms as))
      (vs.reverse ++ scope)
  conforms : ∀ as, I.HasSorts b.vars as →
    (∀ c ∈ b.constraints, (c.eval I (ρ.bindAll b.vars as)).Holds) → Conforms I (ρ.bindAll b.vars as) V
  mem_allowed : ∀ ds, ds ∈ allowed ↔ ∃ as, I.HasSorts b.vars as ∧
    (∀ c ∈ b.constraints, (c.eval I (ρ.bindAll b.vars as)).Holds) ∧ List.zipWith seen ms as = ds

/-- Before any declaration nothing is chosen. -/
theorem chooses_enter (h : Sees I ρ env δ scope) (hρ : Conforms I ρ V) :
    Chooses I ρ δ scope { scope := env.enter } V [] [] {[]} where
  length := rfl
  tuples := List.Forall₂.nil
  sees as _ := by simpa using h.enter
  conforms as _ _ := by simpa using hρ
  mem_allowed ds := by
    simp only [Set.mem_singleton_iff, List.not_mem_nil, false_implies, implies_true, true_and]
    constructor
    · rintro rfl
      exact ⟨[], List.Forall₂.nil, rfl⟩
    · rintro ⟨_, _, rfl⟩
      rfl

theorem zipWith_replicate {m : Relational.Multiplicity} : ∀ {n : Nat} {bs : List (RelSmt.Value E)},
    n = bs.length → List.zipWith seen (List.replicate n m) bs = bs.map (seen m)
  | 0, [], _ => rfl
  | n + 1, b :: bs, h => by
    rw [List.replicate_succ, List.zipWith_cons_cons, List.map_cons,
      zipWith_replicate (by simpa using h)]

/-- Values that a declaration admits are seen of values of its variables. -/
theorem exists_seen_all {m : Relational.Multiplicity} {element : SmtSort} {r : Set (Tuple E)}
    (hr : (RelSmt.Value.set r).HasSort I.carrier (.set element)) : ∀ {xs : List Variable}
      {ds : List (RelSmt.Value E)}, xs.length = ds.length → (∀ d ∈ ds, m.Admits r d) →
      (∀ x ∈ xs, x.sort = boundSort m (.set element) element ∧
        (m = .one → element.isTuple = true)) →
      ∃ bs, I.HasSorts xs bs ∧ bs.map (seen m) = ds
  | [], [], _, _, _ => ⟨[], List.Forall₂.nil, rfl⟩
  | x :: xs, d :: ds, hlen, hall, hsorts => by
    rw [List.forall_mem_cons] at hall hsorts
    obtain ⟨bs, hbs, rfl⟩ := exists_seen_all hr (by simpa using hlen) hall.2 hsorts.2
    obtain ⟨a, ha, rfl⟩ := exists_seen hsorts.1.2 hr hall.1
    exact ⟨a :: bs, List.Forall₂.cons (by rw [hsorts.1.1]; exact ha) hbs, rfl⟩

section Chosen

variable {b : Bound} {W : Set Variable} {vs : List Relational.Var}
  {ms : List Relational.Multiplicity} {allowed : Set (List (RelSmt.Value E))}

theorem Chooses.length_seen (h : Chooses I ρ δ scope b W vs ms allowed)
    {as : List (RelSmt.Value E)} (has : I.HasSorts b.vars as) :
    vs.length = (List.zipWith seen ms as).length := by
  rw [List.length_zipWith, h.tuples.length_eq, ← has.length, Nat.min_self, h.length]

theorem Chooses.length_of_mem (h : Chooses I ρ δ scope b W vs ms allowed)
    {ds : List (RelSmt.Value E)} (hds : ds ∈ allowed) : vs.length = ds.length := by
  obtain ⟨as, has, _, rfl⟩ := (h.mem_allowed ds).1 hds
  exact h.length_seen has

/-- Values for the variables of a further declaration are seen on top of those chosen before. -/
theorem Chooses.seen_append (h : Chooses I ρ δ scope b W vs ms allowed)
    {ws : List Relational.Var} {m : Relational.Multiplicity} {as bs : List (RelSmt.Value E)}
    (has : I.HasSorts b.vars as) (hlen : ws.length = bs.length) :
    List.zipWith seen (ms ++ List.replicate ws.length m) (as ++ bs)
      = List.zipWith seen ms as ++ bs.map (seen m) := by
  rw [List.zipWith_append (h.tuples.length_eq.trans has.length), zipWith_replicate hlen]

/-- The constraints of a binder do not speak of variables that are drawn later. -/
theorem BoundWithin.eval_constraint {n : Nat} (hV : Hygienic n V) (hb : BoundWithin env V b)
    {xs : List Variable} (hxs : ∀ x ∈ xs, ∃ hint k, n < k ∧ x.name = numbered hint k) {c : Term}
    (hc : c ∈ b.constraints) (σ : Assignment E) (bs : List (RelSmt.Value E)) :
    c.eval I (σ.bindAll xs bs) = c.eval I σ :=
  Term.eval_bindAll_of_fresh I bs σ fun w hw x hx =>
    hV.ne_drawn (hb.constraints c hc w hw).1 (hxs x hx)

/-- Variables that are drawn later leave known variables with values that conform. -/
theorem Conforms.bindAll {n : Nat} (hρ : Conforms I ρ V) (hV : Hygienic n V) {xs : List Variable}
    (hxs : ∀ x ∈ xs, ∃ hint k, n < k ∧ x.name = numbered hint k) (bs : List (RelSmt.Value E)) :
    Conforms I (ρ.bindAll xs bs) V := by
  have hne : ∀ w ∈ V, ∀ x ∈ xs, w.name ≠ x.name := fun w hw x hx => hV.ne_drawn hw (hxs x hx)
  refine ⟨fun w hw => ?_, fun w hw c hc => ?_⟩
  · rw [Assignment.get_bindAll_of_not_mem xs bs ρ (hne w hw)]
    exact hρ.sorts w hw
  · rw [Term.eval_bindAll_of_fresh I bs ρ fun u hu => hne u
      (hV.closed w hw u (by simpa [constraintVariables, hc] using hu))]
    exact hρ.constraints w hw c hc

/-- Known variables conform inside a binder where they did before it has grown, as long as all its
constraints hold. -/
theorem Conforms.grow {b b' : Bound} {V' : Set Variable} {σ : Assignment E} (hσ : Conforms I σ V)
    (hgrow : b.Grows V b' V') (hsorts : ∀ x ∈ b'.vars, (σ.get x).HasSort I.carrier x.sort)
    (hguard : ∀ c ∈ b'.constraints, (c.eval I σ).Holds) : Conforms I σ V' := by
  refine ⟨fun w hw => ?_, fun w hw c hc => ?_⟩
  · rcases hgrow.known w hw with hw | ⟨x, hx, hname, hsort, _⟩
    · exact hσ.sorts w hw
    · have := hsorts x hx
      rwa [Assignment.get, ← hname, ← hsort] at this
  · rcases hgrow.known w hw with hw | ⟨_, _, _, _, hlimits⟩
    · exact hσ.constraints w hw c hc
    · exact hguard c (hlimits c hc)

/-- **A declaration chooses values that it admits, on top of those chosen before.** Its bound has to
denote something only where what was chosen before is allowed. -/
theorem Chooses.declare {b' : Bound} {V' : Set Variable} {ws : List Relational.Var}
    {m : Relational.Multiplicity} {bound : Term} {element : SmtSort} {disjoint : Bool}
    {xs : List Variable} {cs : List Term} (h : Chooses I ρ δ scope b V vs ms allowed)
    (value : List (RelSmt.Value E) → RelSmt.Value E)
    (hdecl : Declares m bound element disjoint s b ws xs cs b' s')
    (hsort : bound.sort = .set element) (hV : Hygienic s.fresh V) (hb : BoundWithin env V b)
    (hcovers : b.scope.Covers V bound) (hb' : BoundWithin env V' b') (hgrow : b.Grows V b' V')
    (hbound : ∀ as, I.HasSorts b.vars as →
      (∀ c ∈ b.constraints, (c.eval I (ρ.bindAll b.vars as)).Holds) →
      bound.Denotes I (ρ.bindAll b.vars as) (value (List.zipWith seen ms as))) :
    Chooses I ρ δ scope b' V' (vs ++ ws) (ms ++ List.replicate ws.length m)
      {es | ∃ cs ∈ allowed, ∃ ds, Relational.Admitted m (value cs).rows disjoint ws ds ∧
        es = cs ++ ds} := by
  have hsettled : bound.SettledAt s.fresh := fun v hv => hV.settled v (hcovers v hv).1
  have hnew : ∀ x ∈ xs, ∃ hint k, s.fresh < k ∧ x.name = numbered hint k := by
    intro x hx
    obtain ⟨hint, k, hk, _, hname⟩ := hdecl.fresh x hx
    exact ⟨hint, k, hk, hname⟩
  have hseen : ∀ {as bs : List (RelSmt.Value E)}, I.HasSorts b.vars as → I.HasSorts xs bs →
      List.zipWith seen (ms ++ List.replicate ws.length m) (as ++ bs)
        = List.zipWith seen ms as ++ bs.map (seen m) :=
    fun has hbs => h.seen_append has (hdecl.length.trans hbs.length)
  -- where all constraints hold, those from before do
  have hearlier : ∀ {as bs : List (RelSmt.Value E)}, I.HasSorts b.vars as →
      (∀ c ∈ b.constraints ++ cs, (c.eval I (ρ.bindAll (b.vars ++ xs) (as ++ bs))).Holds) →
      ∀ c ∈ b.constraints, (c.eval I (ρ.bindAll b.vars as)).Holds := by
    intro as bs has hguard c hc
    have := hguard c (List.mem_append_left _ hc)
    rwa [Assignment.bindAll_append _ _ _ _ _ has.length, hb.eval_constraint hV hnew hc] at this
  refine ⟨?_, ?_, ?_, ?_, ?_⟩
  · rw [hdecl.result]
    simp [h.length, hdecl.length]
  · rw [hdecl.result]
    refine List.rel_append h.tuples ?_
    rw [hdecl.length]
    refine List.forall₂_iff_get.2 ⟨by simp, fun i _ hi => ?_⟩
    have hx := hdecl.sorts _ (List.get_mem xs ⟨i, hi⟩)
    simp only [List.get_eq_getElem, List.getElem_replicate] at hx ⊢
    rw [hx.1, hsort]
    exact isTuple_boundSort_iff hx.2
  -- what was seen before is seen still, and the new variables on top of it
  · intro as' has'
    rw [hdecl.result] at has' ⊢
    obtain ⟨as, bs, rfl, has, hbs⟩ := I.hasSorts_append.1 has'
    rw [hseen has hbs, Relational.Valuation.bindAll_append _ _ _ _ _ (h.length_seen has),
      Assignment.bindAll_append _ _ _ _ _ has.length, List.reverse_append, List.append_assoc]
    refine Sees.putAll ?_ (by simp [hdecl.length]) ?_
    · exact (h.sees as has).bindAll hV hb.within bs hnew
    · refine denotes_images hbs hdecl.names fun x hx => ?_
      rw [(hdecl.sorts x hx).1]
      exact isTuple_boundSort (hdecl.sorts x hx).2
  · intro as' has' hguard
    refine Conforms.grow ?_ hgrow (hasSort_get_bindAll has' hb'.distinct) hguard
    rw [hdecl.result] at has' hguard ⊢
    obtain ⟨as, bs, rfl, has, hbs⟩ := I.hasSorts_append.1 has'
    rw [Assignment.bindAll_append _ _ _ _ _ has.length]
    exact (h.conforms as has (hearlier has hguard)).bindAll hV hnew bs
  -- values are allowed that the declaration admits under those chosen before
  · intro es
    rw [hdecl.result]
    constructor
    · rintro ⟨cs, hcs, ds, hds, rfl⟩
      obtain ⟨as, has, hguard, rfl⟩ := (h.mem_allowed cs).1 hcs
      have hu := hbound as has hguard
      obtain ⟨bs, hbs, rfl⟩ := exists_seen_all (hu.eq_set (by rw [hsort]; rfl) ▸ hsort ▸ hu.hasSort)
        (hdecl.length.symm.trans hds.length) hds.admits (by rw [← hsort]; exact hdecl.sorts)
      refine ⟨as ++ bs, I.hasSorts_append.2 ⟨as, bs, rfl, has, hbs⟩, ?_, ?_⟩
      · intro c hc
        rw [Assignment.bindAll_append _ _ _ _ _ has.length]
        rcases List.mem_append.1 hc with hc | hc
        · rw [hb.eval_constraint hV hnew hc]
          exact hguard c hc
        · exact (hdecl.admits hu hsettled bs hbs).2 hds c hc
      · exact hseen has hbs
    · rintro ⟨_, has', hguard, rfl⟩
      obtain ⟨as, bs, rfl, has, hbs⟩ := I.hasSorts_append.1 has'
      have hbefore := hearlier has hguard
      simp only [Assignment.bindAll_append _ _ _ _ _ has.length] at hguard
      refine ⟨_, (h.mem_allowed _).2 ⟨as, has, hbefore, rfl⟩, bs.map (seen m), ?_, ?_⟩
      · exact (hdecl.admits (hbound as has hbefore) hsettled bs hbs).1
          fun c hc => hguard c (List.mem_append_right _ hc)
      · exact hseen has hbs

theorem zipWith_seen_injective {xs : List Variable}
    (hxs : List.Forall₂ (fun m x => m = .one ↔ x.sort.isTuple = true) ms xs) :
    ∀ {as bs : List (RelSmt.Value E)}, I.HasSorts xs as → I.HasSorts xs bs →
      List.zipWith seen ms as = List.zipWith seen ms bs → as = bs := by
  induction hxs with
  | nil =>
    intro as bs has hbs _
    rw [List.forall₂_nil_left_iff.1 has, List.forall₂_nil_left_iff.1 hbs]
  | cons hx _ ih =>
    intro as bs has hbs he
    obtain ⟨a, as', ha, has', rfl⟩ := List.forall₂_cons_left_iff.1 has
    obtain ⟨b, bs', hb, hbs', rfl⟩ := List.forall₂_cons_left_iff.1 hbs
    rw [List.zipWith_cons_cons, List.zipWith_cons_cons, List.cons.injEq] at he
    rw [seen_injective hx.1 ha hb he.1, ih has' hbs' he.2]

end Chosen

/-! ## Copies of a formula -/

/-- A copy says of the copies what the formula says of the variables. -/
theorem eval_freshCopy : ∀ {vs copies : List Variable} {t copy : Term} {s s' : Session}
    {τ : Assignment E}, Runs (freshCopy t vs) s (copies, copy) s' →
    (∀ v ∈ vs, Settled s.fresh v.name) →
    copy.eval I τ = t.eval I (τ.setAll vs (copies.map τ.get))
  | [], copies, t, copy, s, s', τ, h, _ => by
    simp only [freshCopy, runs_pure, Prod.mk.injEq] at h
    obtain ⟨⟨rfl, rfl⟩, rfl⟩ := h
    rfl
  | v :: vs, copies, t, copy, s, s', τ, h, hset => by
    obtain ⟨c, t', rest, hc, ht', hrest, rfl⟩ := runs_freshCopy_cons h
    have ih := eval_freshCopy (τ := τ) hrest fun u hu =>
      (hset u (List.mem_cons_of_mem _ hu)).mono (Nat.le_succ _)
    have hne : ∀ u ∈ vs, c.name ≠ u.name := by
      intro u hu he
      rw [hc] at he
      exact (hset u (List.mem_cons_of_mem _ hu)).ne_numbered (Nat.lt_succ_self _) he.symm
    rw [ih, Term.eval_substitute I ht', Term.eval, Assignment.get_setAll_of_not_mem _ _ _ hne]
    rfl

/-- Under other values for the copies a copy has the value of the formula under these. -/
theorem eval_copy {vs copies : List Variable} {copy : Term} {as bs : List (RelSmt.Value E)}
    (h : Runs (freshCopy t vs) s (copies, copy) s') (hV : Hygienic s.fresh V)
    (hvs : ∀ v ∈ vs, v ∈ V) (ht : ∀ w ∈ t.freeOccurrences, w ∈ V)
    (hnames : (vs.map Variable.name).Nodup)
    (hbs : copies.length = bs.length) :
    copy.eval I ((ρ.bindAll vs as).bindAll copies bs) = t.eval I (ρ.bindAll vs bs) := by
  have hcopies := freshCopies_freshCopy h
  have hlen : vs.length = bs.length := by
    rw [← hbs]
    simpa using congrArg List.length hcopies.sorts.symm
  rw [eval_freshCopy h fun v hv => hV.settled v (hvs v hv),
    Assignment.map_get_bindAll copies bs _ hbs hcopies.distinct]
  refine Term.eval_congr I t fun w hw => ?_
  -- a variable is copied or untouched by both lists
  by_cases hmem : ∃ v ∈ vs, w.name = v.name
  · obtain ⟨v, hv, he⟩ := hmem
    have hsort := hV.consistent w (ht w hw) v (hvs v hv) he
    have hget : ∀ σ : Assignment E, σ.get w = σ.get v := fun σ => by
      rw [Assignment.get, Assignment.get, he, hsort]
    rw [hget, hget]
    exact Assignment.get_setAll_eq_get_bindAll vs bs _ ρ hlen hnames hv
  · have hne : ∀ v ∈ vs, w.name ≠ v.name := fun v hv he => hmem ⟨v, hv, he⟩
    have hfresh : ∀ c ∈ copies, w.name ≠ c.name := fun c hc =>
      hV.ne_drawn (ht w hw) (hcopies.drawn c hc)
    rw [Assignment.get_setAll_of_not_mem vs bs _ hne,
      Assignment.get_bindAll_of_not_mem copies bs _ hfresh,
      Assignment.get_bindAll_of_not_mem vs as _ hne,
      Assignment.get_bindAll_of_not_mem vs bs _ hne]

/-- Both lists of variables have the same values exactly when all the values are the same. -/
theorem holds_sameValues {vs ws : List Variable} (h : sameValues vs ws = .ok t)
    (hlen : vs.length = ws.length) :
    (t.eval I ρ).Holds ↔ vs.map ρ.get = ws.map ρ.get := by
  simp only [sameValues, Checked.bind_eq_ok, Checked.mapM_eq_ok] at h
  obtain ⟨ts, hts, h⟩ := h
  rw [Term.holds_allOf h]
  clear h
  induction vs generalizing ws ts with
  | nil =>
    obtain rfl := List.length_eq_zero_iff.1 hlen.symm
    obtain rfl := List.forall₂_nil_left_iff.1 hts
    simp
  | cons v vs ih =>
    match ws, hlen with
    | w :: ws, hlen =>
      rw [List.zip_cons_cons] at hts
      obtain ⟨e, rest, he, hrest, rfl⟩ := List.forall₂_cons_left_iff.1 hts
      obtain ⟨_, rfl⟩ := Term.eqTo_eq_ok.1 he
      rw [List.forall_mem_cons, ih (by simpa using hlen) rest hrest]
      simp [Variable.term, Term.eval, Term.binaryValue]

/-! ## Closing over a binder -/

theorem hasSorts_congr {vs ws : List Variable} {as : List (RelSmt.Value E)}
    (h : ws.map Variable.sort = vs.map Variable.sort) : I.HasSorts ws as ↔ I.HasSorts vs as := by
  unfold Interpretation.HasSorts
  rw [← List.forall₂_map_left_iff (R := fun s (a : RelSmt.Value E) => a.HasSort I.carrier s), h,
    List.forall₂_map_left_iff]

/-- Under values for both, a copy says of the copies what the formula says of the variables, and the
values are compared. -/
theorem holds_copied {b : Bound} {witness copy same : Term} {copies : List Variable}
    (hV : Hygienic s.fresh V) (hb : BoundWithin env V b)
    (hfree : ∀ w ∈ witness.freeOccurrences, w ∈ V)
    (hcopy : Runs (freshCopy witness b.vars) s (copies, copy) s')
    (hsame : sameValues b.vars copies = .ok same) (as bs : List (RelSmt.Value E))
    (has : I.HasSorts b.vars as) (hbs : I.HasSorts b.vars bs) :
    ((copy.eval I ((ρ.bindAll b.vars as).bindAll copies bs)).Holds ↔
      (witness.eval I (ρ.bindAll b.vars bs)).Holds) ∧
    ((witness.eval I ((ρ.bindAll b.vars as).bindAll copies bs)).Holds ↔
      (witness.eval I (ρ.bindAll b.vars as)).Holds) ∧
    ((same.eval I ((ρ.bindAll b.vars as).bindAll copies bs)).Holds ↔ as = bs) := by
  have hcopies := freshCopies_freshCopy hcopy
  have hlen : copies.length = bs.length := by
    rw [← hbs.length]
    simpa using congrArg List.length hcopies.sorts
  have hfresh : ∀ w ∈ V, ∀ c ∈ copies, w.name ≠ c.name := fun w hw c hc =>
    hV.ne_drawn hw (hcopies.drawn c hc)
  refine ⟨?_, ?_, ?_⟩
  -- what the copy says of its own variables, the witness says of the original ones
  · rw [eval_copy hcopy hV hb.binders hfree hb.distinct hlen]
  · rw [Term.eval_bindAll_of_fresh I bs _ fun w hw => hfresh w (hfree w hw)]
  · rw [holds_sameValues hsame (by rw [hlen, hbs.length]),
      Assignment.map_get_bindAll copies bs _ hlen hcopies.distinct]
    have hget : b.vars.map ((ρ.bindAll b.vars as).bindAll copies bs).get
        = b.vars.map (ρ.bindAll b.vars as).get :=
      List.map_congr_left fun x hx =>
        Assignment.get_bindAll_of_not_mem copies bs _ (hfresh x (hb.binders x hx))
    rw [hget, Assignment.map_get_bindAll b.vars as ρ has.length hb.distinct]

/-- A conjunction of the constraints with the body speaks of what was in scope. -/
theorem BoundWithin.free_guarded {b : Bound} {guard body : Term} (hb : BoundWithin env V b)
    (hguard : Term.allOf b.constraints = .ok guard) (hcovers : CoversWith env V b.vars body) :
    ∀ w ∈ (Term.binary (.connective .and) guard body).freeOccurrences, w ∈ V := by
  intro w hw
  rw [Term.freeOccurrences, List.mem_append] at hw
  rcases hw with hw | hw
  · obtain ⟨c, hc, hw⟩ := (Term.mem_free_allOf hguard).1 hw
    exact (hb.constraints c hc w hw).1
  · exact (hcovers w hw).1

section Closing

variable {b : Bound} {W : Set Variable} {vs : List Relational.Var}
  {ms : List Relational.Multiplicity} {allowed : Set (List (RelSmt.Value E))}
  {P : List (RelSmt.Value E) → RelSmt.Value E} {guard witness copy same : Term}
  {copies : List Variable}

/-- The constraints of a binder, joined to a guard, pick the allowed values. -/
theorem Chooses.mem_guarded (h : Chooses I ρ δ scope b W vs ms allowed)
    (hguard : Term.allOf b.constraints = .ok guard) (ds : List (RelSmt.Value E)) :
    ds ∈ allowed ↔ ∃ as, I.HasSorts b.vars as ∧
      (guard.eval I (ρ.bindAll b.vars as)).Holds ∧ List.zipWith seen ms as = ds := by
  rw [h.mem_allowed]
  exact exists_congr fun as => and_congr_right fun _ => and_congr_left fun _ =>
    (Term.holds_allOf hguard).symm

/-- A formula that holds for just those values that pass the guard and satisfy the body picks the
allowed values of which the body holds. -/
theorem Chooses.mem_witnessed (h : Chooses I ρ δ scope b W vs ms allowed)
    (hguard : Term.allOf b.constraints = .ok guard)
    (hwitness : ∀ as, I.HasSorts b.vars as →
      ((witness.eval I (ρ.bindAll b.vars as)).Holds ↔
        (guard.eval I (ρ.bindAll b.vars as)).Holds ∧
          (P (List.zipWith seen ms as)).Holds)) (ds : List (RelSmt.Value E)) :
    (ds ∈ allowed ∧ (P ds).Holds) ↔ ∃ as, I.HasSorts b.vars as ∧
      (witness.eval I (ρ.bindAll b.vars as)).Holds ∧ List.zipWith seen ms as = ds := by
  rw [h.mem_guarded hguard]
  constructor
  · rintro ⟨⟨as, has, hg, rfl⟩, hp⟩
    exact ⟨as, has, (hwitness as has).2 ⟨hg, hp⟩, rfl⟩
  · rintro ⟨as, has, hw, rfl⟩
    exact ⟨⟨as, has, ((hwitness as has).1 hw).1, rfl⟩, ((hwitness as has).1 hw).2⟩

/-- The formula for a single witness says that the values satisfy it and that others that do are
the same. -/
theorem holds_one (hV : Hygienic s.fresh V) (hb : BoundWithin env V b)
    (hfree : ∀ w ∈ witness.freeOccurrences, w ∈ V)
    (hcopy : Runs (freshCopy witness b.vars) s (copies, copy) s')
    (hsame : sameValues b.vars copies = .ok same) {as : List (RelSmt.Value E)}
    (has : I.HasSorts b.vars as) :
    ((Term.binary (.connective .and) witness (.quantified .all copies
        (.binary (.connective .implies) copy same))).eval I (ρ.bindAll b.vars as)).Holds ↔
      (witness.eval I (ρ.bindAll b.vars as)).Holds ∧ ∀ bs, I.HasSorts b.vars bs →
        (witness.eval I (ρ.bindAll b.vars bs)).Holds → as = bs := by
  refine and_congr_right fun _ => ?_
  rw [Term.eval, Value.holds_truth]
  refine forall_congr' fun bs => ?_
  rw [hasSorts_congr (freshCopies_freshCopy hcopy).sorts]
  refine forall_congr' fun hbs => ?_
  obtain ⟨hc, _, hs⟩ := holds_copied (I := I) (ρ := ρ) hV hb hfree hcopy hsame as bs has hbs
  rw [← hc, ← hs]
  rfl

/-- The formula for at most one witness says of two choices of values that they are the same when
both satisfy it. -/
theorem holds_lone (hV : Hygienic s.fresh V) (hb : BoundWithin env V b)
    (hfree : ∀ w ∈ witness.freeOccurrences, w ∈ V)
    (hcopy : Runs (freshCopy witness b.vars) s (copies, copy) s')
    (hsame : sameValues b.vars copies = .ok same) {as bs : List (RelSmt.Value E)}
    (has : I.HasSorts b.vars as) (hbs : I.HasSorts b.vars bs) :
    ((Term.binary (.connective .implies) (.binary (.connective .and) witness copy) same).eval I
        (ρ.bindAll (b.vars ++ copies) (as ++ bs))).Holds ↔
      ((witness.eval I (ρ.bindAll b.vars as)).Holds ∧
        (witness.eval I (ρ.bindAll b.vars bs)).Holds → as = bs) := by
  obtain ⟨hc, hw, hs⟩ := holds_copied (I := I) (ρ := ρ) hV hb hfree hcopy hsame as bs has hbs
  rw [Assignment.bindAll_append _ _ _ _ _ has.length, Term.eval, Term.eval, ← hc, ← hw, ← hs]
  rfl

/-- **A quantified formula says of the values of its variables what the quantifier says of the
values that are allowed.** The body has to denote something only where the constraints hold. -/
theorem denotes_quantify {q : Relational.Quantifier} {body : Term}
    (h : Chooses I ρ δ scope b W vs ms allowed) (hV : Hygienic s.fresh V) (hb : BoundWithin env V b)
    (hcovers : CoversWith env V b.vars body)
    (hbody : ∀ as, I.HasSorts b.vars as →
      (∀ c ∈ b.constraints, (c.eval I (ρ.bindAll b.vars as)).Holds) →
      body.Denotes I (ρ.bindAll b.vars as) (P (List.zipWith seen ms as)))
    (hrun : Runs (quantify q b body) s t s') :
    t.Denotes I ρ (.truth (q.Holds allowed fun ds => (P ds).Holds)) := by
  obtain ⟨guard, hguard, hgsort, hbsort, hrun⟩ := runs_quantify hrun
  have hchosen := h.mem_guarded hguard
  have hfree := hb.free_guarded hguard hcovers
  have hguarded := fun as has (hg : (guard.eval I (ρ.bindAll b.vars as)).Holds) =>
    hbody as has ((Term.holds_allOf hguard).1 hg)
  -- all quantifiers but `all` speak of the guard and the body together
  generalize hwit : Term.binary (.connective .and) guard body = witness at hrun hfree
  have hwitness : ∀ as, I.HasSorts b.vars as →
      ((witness.eval I (ρ.bindAll b.vars as)).Holds ↔
        (guard.eval I (ρ.bindAll b.vars as)).Holds ∧
          (P (List.zipWith seen ms as)).Holds) := by
    intro as has
    rw [← hwit, Term.eval]
    refine and_congr_right fun hg => ?_
    rw [(hguarded as has hg).eval]
  have hsome := h.mem_witnessed (P := P) hguard hwitness
  have hexists : (∃ as, I.HasSorts b.vars as ∧
      (witness.eval I (ρ.bindAll b.vars as)).Holds) ↔ ∃ ds ∈ allowed, (P ds).Holds := by
    simp only [hsome]
    exact ⟨fun ⟨as, has, hw⟩ => ⟨_, as, has, hw, rfl⟩, fun ⟨_, as, has, hw, _⟩ => ⟨as, has, hw⟩⟩
  cases hrun with
  | all =>
    refine ⟨?_, trivial⟩
    rw [Term.eval, Value.truth_inj]
    have himp : ∀ as, I.HasSorts b.vars as →
        (((Term.binary (.connective .implies) guard body).eval I
          (ρ.bindAll b.vars as)).Holds ↔
          ((guard.eval I (ρ.bindAll b.vars as)).Holds →
            (P (List.zipWith seen ms as)).Holds)) := by
      intro as has
      rw [Term.eval]
      refine imp_congr_right fun hg => ?_
      rw [(hguarded as has hg).eval]
    constructor
    · intro hall ds hds
      obtain ⟨as, has, hg, rfl⟩ := (hchosen ds).1 hds
      exact (himp as has).1 (hall as has) hg
    · intro hall as has
      exact (himp as has).2 fun hg => hall _ ((hchosen _).2 ⟨as, has, hg, rfl⟩)
  | some =>
    refine ⟨?_, trivial⟩
    rw [Term.eval, Value.truth_inj, hexists]
    rfl
  | no =>
    refine ⟨?_, trivial⟩
    rw [Term.eval, Term.eval, hexists]
    rfl
  | @one copies copy same _ hcopy hsame =>
    refine ⟨?_, trivial⟩
    rw [Term.eval, Value.truth_inj]
    constructor
    · rintro ⟨as, has, hone⟩
      obtain ⟨hw, hall⟩ := (holds_one hV hb hfree hcopy hsame has).1 hone
      refine ⟨_, (hsome _).2 ⟨as, has, hw, rfl⟩, fun ds hds => ?_⟩
      obtain ⟨bs, hbs, hw', rfl⟩ := (hsome ds).1 hds
      rw [hall bs hbs hw']
    · rintro ⟨ds, hds, hall⟩
      obtain ⟨as, has, hw, rfl⟩ := (hsome ds).1 hds
      refine ⟨as, has, (holds_one hV hb hfree hcopy hsame has).2 ⟨hw, fun bs hbs hw' => ?_⟩⟩
      -- values that are seen alike are the same
      exact zipWith_seen_injective h.tuples has hbs (hall _ ((hsome _).2 ⟨bs, hbs, hw', rfl⟩)).symm
  | @lone copies copy same _ hcopy hsame =>
    refine ⟨?_, trivial⟩
    rw [Term.eval, Value.truth_inj]
    -- the quantifier ranges over the variables and their copies at once
    have hsorts := (freshCopies_freshCopy hcopy).sorts
    constructor
    · intro hall cs hcs ds hds hp hp'
      obtain ⟨as, has, hw, rfl⟩ := (hsome cs).1 ⟨hcs, hp⟩
      obtain ⟨bs, hbs, hw', rfl⟩ := (hsome ds).1 ⟨hds, hp'⟩
      have hpair := hall (as ++ bs)
        (I.hasSorts_append.2 ⟨as, bs, rfl, has, (hasSorts_congr hsorts).2 hbs⟩)
      rw [(holds_lone hV hb hfree hcopy hsame has hbs).1 hpair ⟨hw, hw'⟩]
    · intro hall as' has'
      obtain ⟨as, bs, rfl, has, hbs'⟩ := I.hasSorts_append.1 has'
      have hbs := (hasSorts_congr hsorts).1 hbs'
      refine (holds_lone hV hb hfree hcopy hsame has hbs).2 fun ⟨hw, hw'⟩ => ?_
      obtain ⟨ha, hp⟩ := (hsome _).2 ⟨as, has, hw, rfl⟩
      obtain ⟨ha', hp'⟩ := (hsome _).2 ⟨bs, hbs, hw', rfl⟩
      exact zipWith_seen_injective h.tuples has hbs (hall _ ha _ ha' hp hp')

end Closing

end Lowering

end RelSmt
