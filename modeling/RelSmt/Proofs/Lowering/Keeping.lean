import RelSmt.Proofs.Lowering.Naming
import RelSmt.Proofs.Lowering.Operating
import RelSmt.Proofs.Lowering.Specification
import RelSmt.Proofs.Relational.Declared

/-!
# What specifications keep

All that is asserted about signatures, fields, facts and commands is a formula of the specification,
a test of the size of a set, or put together from sets by operators. A property of sessions that
formulas and tests keep (`Keeping`) is therefore kept throughout. What such a property has to see to
by itself is how signatures and fields are declared (`kept_signatures`, `kept_fields`).
-/

namespace RelSmt.Lowering

/-- What the formulas of a specification keep, over what operators do, and what names their
variables may be made from. -/
structure Keeping extends Operating where
  Hinted : String → Prop
  asserting {s : Session} {a : Assertion} (hlabel : a.label = none) (h : Fits s a.formula) :
    Leads s (s.asserting a)
  own {h : String} (hh : h ∈ ownHints) : Hinted h
  signature {s : Session} {r : Relational.SigRef} {f : FunctionSymbol} (hs : Fine s)
    (hf : s.signatures.lookup r = some f) : Fits s (.symbol f)
  field {s : Session} {r : Relational.FieldRef} {f : FunctionSymbol} (hs : Fine s)
    (hf : s.fields.lookup r = some f) : Fits s (.symbol f)
  formula {s s' : Session} {e : Relational.Expr} {t : Term} (hs : Fine s)
    (hV : ∀ v ∈ e.declared, Hinted v.name) (h : Runs (formula e) s t s') : Leads s s' ∧ Fits s' t

/-- May assertions have any labels as well? Those of facts and commands have some. -/
class Keeping.AllowsLabels (K : Keeping) : Prop where
  labelled {s : Session} {a : Assertion} (labels : List String) (h : K.Fits s a.formula) :
    K.Leads s { s.asserting a with labels := labels }

variable {K : Keeping} {s m s' : Session} {t : Term}

/-! ## Steps on lists -/

/-- Steps that keep to the discipline one by one do so together. -/
theorem kept_forM {α : Type} {f : α → Lower Unit} {as : List α}
    (hf : ∀ a ∈ as, ∀ {s s' : Session}, K.Fine s → Runs (f a) s () s' → K.Leads s s')
    (hs : K.Fine s) (h : Runs (as.forM f) s () s') : K.Leads s s' :=
  h.forM (P := fun s s' => K.Fine s → K.Leads s s') (fun s _ => K.refl s)
    (fun h h' hs => K.trans (h hs) (h' (K.fine (h hs) hs))) (fun a ha _ _ h hs => hf a ha hs h) hs

theorem kept_assert {comment : String} (ht : K.Fits s t) (h : Runs (assert comment t) s () s') :
    K.Leads s s' := by
  obtain ⟨_, rfl⟩ := runs_assert.1 h
  exact K.asserting rfl ht

/-! ## Signatures -/

theorem kept_signature {r : Relational.SigRef} (hs : K.Fine s) (h : Runs (signature r) s t s') :
    K.Fits s t ∧ s' = s := by
  obtain ⟨f, hf, rfl, rfl⟩ := runs_signature.1 h
  exact ⟨K.signature hs hf, rfl⟩

theorem kept_field {r : Relational.FieldRef} (hs : K.Fine s) (h : Runs (field r) s t s') :
    K.Fits s t ∧ s' = s := by
  obtain ⟨f, hf, rfl, rfl⟩ := runs_field.1 h
  exact ⟨K.field hs hf, rfl⟩

theorem kept_assertDisjoint {rs : List Relational.Signature} (hs : K.Fine s)
    (h : Runs (assertDisjoint rs) s () s') : K.Leads s s' := by
  refine kept_forM (fun p _ {s s'} hs h => ?_) hs h
  simp only [runs_bind, runs_lift] at h
  obtain ⟨a, _, ha, b, _, hb, f, _, ⟨hf, rfl⟩, hassert⟩ := h
  obtain ⟨hwa, rfl⟩ := kept_signature hs ha
  obtain ⟨hwb, rfl⟩ := kept_signature hs hb
  exact kept_assert (composed_disjointSets hf hwa hwb) hassert

theorem kept_unionOf {first : Relational.SigRef} {others : List Relational.SigRef} (hs : K.Fine s)
    (h : Runs (unionOf first others) s t s') : K.Fits s t ∧ s' = s := by
  have hfold : ∀ (others : List Relational.SigRef) {s s' : Session} {t u : Term},
      K.Fine s → K.Fits s u →
      Runs (others.foldlM (fun t r => do t.union (← signature r)) u) s t s' →
      K.Fits s t ∧ s' = s := by
    intro others
    induction others with
    | nil =>
      intro s s' t u hs hu h
      obtain ⟨rfl, rfl⟩ := runs_pure.1 h
      exact ⟨hu, rfl⟩
    | cons r others ih =>
      intro s s' t u hs hu h
      simp only [List.foldlM_cons, runs_bind, runs_lift] at h
      obtain ⟨v, _, ⟨w, _, hw, hv, rfl⟩, h⟩ := h
      obtain ⟨hw, rfl⟩ := kept_signature hs hw
      exact ih hs (Composes.mkBinary hv hu hw) h
  obtain ⟨u, m, hu, hothers⟩ := runs_bind.1 h
  obtain ⟨hu, rfl⟩ := kept_signature hs hu
  exact hfold others hs hu hothers

theorem kept_assertParents {r : Relational.Signature} (hs : K.Fine s)
    (h : Runs (assertParents r) s () s') : K.Leads s s' := by
  unfold assertParents at h
  split at h
  · simp only [runs_bind, runs_lift] at h
    obtain ⟨a, _, ha, b, _, hb, f, _, ⟨hf, rfl⟩, hassert⟩ := h
    obtain ⟨ha, rfl⟩ := kept_signature hs ha
    obtain ⟨hb, rfl⟩ := kept_signature hs hb
    exact kept_assert (Composes.mkBinary hf ha hb) hassert
  · simp only [runs_bind, runs_lift] at h
    obtain ⟨b, _, hb, a, _, ha, f, _, ⟨hf, rfl⟩, hassert⟩ := h
    obtain ⟨hb, rfl⟩ := kept_unionOf hs hb
    obtain ⟨ha, rfl⟩ := kept_signature hs ha
    exact kept_assert (Composes.mkBinary hf ha hb) hassert
  · obtain ⟨_, rfl⟩ := runs_pure.1 h
    exact K.refl _

theorem kept_assertChildren {all : List Relational.Signature} {r : Relational.Signature}
    (hs : K.Fine s) (h : Runs (assertChildren all r) s () s') : K.Leads s s' := by
  obtain ⟨_, m, hdisjoint, h⟩ := runs_bind.1 h
  have hm := kept_assertDisjoint hs hdisjoint
  have hs := K.fine hm hs
  refine K.trans hm ?_
  -- an abstract signature that has children is their union, of others nothing is said
  split at h
  · simp only [runs_bind, runs_lift] at h
    obtain ⟨b, _, hb, a, _, ha, f, _, ⟨hf, rfl⟩, hassert⟩ := h
    obtain ⟨hb, rfl⟩ := kept_unionOf hs hb
    obtain ⟨ha, rfl⟩ := kept_signature hs ha
    exact kept_assert (Composes.mkBinary hf ha hb) hassert
  · obtain ⟨_, rfl⟩ := runs_pure.1 h
    exact K.refl _

theorem kept_assertMultiplicity {r : Relational.Signature} (hs : K.Fine s)
    (h : Runs (assertMultiplicity r) s () s') : K.Leads s s' := by
  unfold assertMultiplicity at h
  split at h
  · rename_i q demand hdemand
    simp only [runs_bind] at h
    obtain ⟨a, _, ha, f, m, hf, hassert⟩ := h
    obtain ⟨ha, rfl⟩ := kept_signature hs ha
    obtain ⟨q', _, hq'⟩ := Option.bind_eq_some_iff.1 hdemand
    obtain ⟨demand', hdemand', he⟩ := Option.map_eq_some_iff.1 hq'
    obtain ⟨rfl, rfl⟩ := Prod.mk.inj he
    cases q' <;> simp only [multiplicityFormula?, Option.some.injEq, reduceCtorEq] at hdemand'
    case one =>
      subst hdemand'
      obtain ⟨hm, hf⟩ := K.exactlyOne hs ha hf
      exact K.trans hm (kept_assert hf hassert)
    case lone =>
      subst hdemand'
      obtain ⟨hm, hf⟩ := kept_atMostOne hs ha hf
      exact K.trans hm (kept_assert hf hassert)
    case some =>
      subst hdemand'
      obtain ⟨hnonEmpty, rfl⟩ := runs_lift.1 hf
      exact kept_assert (composed_nonEmpty hnonEmpty ha) hassert
  · obtain ⟨_, rfl⟩ := runs_pure.1 h
    exact K.refl _

/-- How signatures are declared is all that a discipline has to look at: what is asserted of them
keeps to it. -/
theorem kept_signatures {all : List Relational.Signature} (h : Runs (signatures all) s () s') :
    ∃ m, Runs (all.forM declareSignature) s () m ∧ (K.Fine m → K.Leads m s') := by
  simp only [signatures, runs_bind] at h
  obtain ⟨_, m, hdeclare, _, _, hdisjoint, hrest⟩ := h
  refine ⟨m, hdeclare, fun hm => ?_⟩
  have htop := kept_assertDisjoint hm hdisjoint
  refine K.trans htop (kept_forM (fun r _ {s s'} hs h => ?_) (K.fine htop hm) hrest)
  simp only [runs_bind] at h
  obtain ⟨_, _, hparents, _, _, hchildren, hmultiplicity⟩ := h
  have hp := kept_assertParents hs hparents
  have hc := kept_assertChildren (K.fine hp hs) hchildren
  have hleads := K.trans hp hc
  exact K.trans hleads (kept_assertMultiplicity (K.fine hleads hs) hmultiplicity)

/-! ## Fields -/

theorem kept_assertField {f : Relational.Field} {what : String} {e : Relational.Expr}
    (hV : ∀ v ∈ e.declared, K.Hinted v.name) (hs : K.Fine s)
    (h : Runs (assertField f what e) s () s') : K.Leads s s' := by
  obtain ⟨t, m, ht, hassert⟩ := runs_bind.1 h
  obtain ⟨hm, ht⟩ := K.formula hs hV ht
  exact K.trans hm (kept_assert ht hassert)

/-- The formulas about a field declare variables of its bound and of the session's own names. -/
theorem hinted_valuesFormula {f : Relational.Field} (hV : ∀ v ∈ f.bound.declared, K.Hinted v.name) :
    ∀ v ∈ (valuesFormula f).declared, K.Hinted v.name := by
  intro v hv
  simp only [valuesFormula, Relational.Expr.declared, Relational.Expr.declaredDecls,
    List.append_nil, List.mem_append, List.mem_singleton,
    Relational.Expr.declared_splitMarker] at hv
  rcases hv with rfl | rfl | hv
  · exact K.own (h := "this") (by decide)
  · exact K.own (h := "s") (by decide)
  · exact hV v hv

theorem hinted_rangeFormula {f : Relational.Field} (hV : ∀ v ∈ f.bound.declared, K.Hinted v.name) :
    ∀ v ∈ (rangeFormula f).declared, K.Hinted v.name := by
  intro v hv
  rcases Relational.Expr.mem_declared_substitute hv with hv | hv
  · rw [Relational.Expr.declared_splitMarker] at hv
    exact hV v hv
  · simp [Relational.Expr.declared] at hv

theorem hinted_disjointValuesFormula (f : Relational.Field) :
    ∀ v ∈ (disjointValuesFormula f).declared, K.Hinted v.name := by
  intro v hv
  simp only [disjointValuesFormula, Relational.Expr.declared, Relational.Expr.declaredDecls,
    List.append_nil, List.mem_cons, List.not_mem_nil, or_false] at hv
  rcases hv with rfl | rfl
  · exact K.own (h := "a") (by decide)
  · exact K.own (h := "b") (by decide)

theorem kept_assertGroup {g : Relational.FieldGroup}
    (hV : ∀ f ∈ g.fields, ∀ v ∈ f.bound.declared, K.Hinted v.name) (hs : K.Fine s)
    (h : Runs (assertGroup g) s () s') : K.Leads s s' := by
  obtain ⟨_, m, hbounds, hrest⟩ := runs_bind.1 h
  -- first each field's bound, then that fields are disjoint, then that their values are
  have hm : K.Leads s m := by
    refine kept_forM (fun f hf {s s'} hs h => ?_) hs hbounds
    obtain ⟨_, m, hvalues, hrange⟩ := runs_bind.1 h
    have hfirst := kept_assertField (hinted_valuesFormula (hV f hf)) hs hvalues
    exact K.trans hfirst
      (kept_assertField (hinted_rangeFormula (hV f hf)) (K.fine hfirst hs) hrange)
  have hdisjoint : ∀ {k : Session}, K.Fine m →
      Runs ((pairs g.fields).forM fun p => assertDisjointFields p.1 p.2) m () k →
      K.Leads m k := by
    refine fun hs h => kept_forM (fun p _ {s s'} hs h => ?_) hs h
    simp only [assertDisjointFields, runs_bind, runs_lift] at h
    obtain ⟨a, _, ha, b, _, hb, f, _, ⟨hf, rfl⟩, hassert⟩ := h
    obtain ⟨ha, rfl⟩ := kept_field hs ha
    obtain ⟨hb, rfl⟩ := kept_field hs hb
    exact kept_assert (composed_disjointSets hf ha hb) hassert
  have hvalues : ∀ {k : Session}, K.Fine k →
      Runs (if g.disjointValues then g.fields.forM fun f =>
        assertField f "has disjoint values" (disjointValuesFormula f) else pure ()) k () s' →
      K.Leads k s' := by
    intro k hk h
    split at h
    · exact kept_forM
        (fun f _ {s s'} hs h => kept_assertField (hinted_disjointValuesFormula f) hs h) hk h
    · obtain ⟨_, rfl⟩ := runs_pure.1 h
      exact K.refl _
  refine K.trans hm ?_
  dsimp only at hrest
  split at hrest
  · obtain ⟨_, k, hpairs, hrest⟩ := runs_bind.1 hrest
    have hk := hdisjoint (K.fine hm hs) hpairs
    exact K.trans hk (hvalues (K.fine hk (K.fine hm hs)) hrest)
  · exact hvalues (K.fine hm hs) hrest

/-- How fields are declared is all that a discipline has to look at: what is asserted of them keeps
to it. -/
theorem kept_fields {groups : List Relational.FieldGroup}
    (hV : ∀ g ∈ groups, ∀ f ∈ g.fields, ∀ v ∈ f.bound.declared, K.Hinted v.name)
    (h : Runs (fields groups) s () s') :
    ∃ m, Runs (groups.forM fun g => g.fields.forM declareField) s () m ∧
      (K.Fine m → K.Leads m s') := by
  obtain ⟨_, m, hdeclare, hassert⟩ := runs_bind.1 h
  exact ⟨m, hdeclare, fun hm =>
    kept_forM (fun g hg {s s'} hs h => kept_assertGroup (hV g hg) hs h) hm hassert⟩

/-! ## Facts and commands -/

section Labels

variable [K.AllowsLabels]

theorem kept_fact {f : Relational.Fact} (hV : ∀ v ∈ f.formula.declared, K.Hinted v.name)
    (hs : K.Fine s) (h : Runs (fact f) s () s') : K.Leads s s' := by
  simp only [fact, Assertion.make, runs_bind, runs_lift, runs_get, runs_modify] at h
  obtain ⟨t, m, ht, a, _, ⟨ha, rfl⟩, _, _, ⟨rfl, rfl⟩, rfl⟩ := h
  obtain ⟨hm, ht⟩ := K.formula hs hV ht
  split at ha
  · obtain rfl := Except.ok.inj ha
    exact K.trans hm (Keeping.AllowsLabels.labelled _ ht)
  · simp at ha

/-- What a command adds is the program of a session that an empty one has led to. -/
theorem kept_command {c : Relational.Command} {delta : Program}
    (hV : ∀ v ∈ c.formula.declared, K.Hinted v.name) (hs : K.Fine { s with program := {} })
    (h : Runs (command c) s delta s') :
    ∃ m, K.Leads { s with program := {} } m ∧ m.program = delta := by
  obtain ⟨t, k, u, label, ht, hu, rfl, _⟩ := runs_command h
  obtain ⟨hk, ht⟩ := K.formula hs hV ht
  have hu : K.Fits k u := by
    rw [← hu]
    split
    · exact Composes.unary ht
    · exact ht
  have hasserted := Keeping.AllowsLabels.labelled (a := ⟨c.label, u, label⟩) k.labels hu
  exact ⟨_, K.trans hk hasserted, rfl⟩

end Labels

end RelSmt.Lowering
