import RelSmt.Proofs.Lowering.Arithmetic
import RelSmt.Proofs.Term.Parts

/-!
# Operators that bring in no parts

Tests, restrictions and tuples are put together from operators alone. What holds of operators on
terms (`Composes`) holds of them: they bring in no binder, no variable and no function.
-/

namespace RelSmt.Lowering

variable {P : Term → Prop} [Composes P] {t u l r : Term}

theorem composed_isEmpty (h : t.isEmpty = .ok u) (ht : P t) : P u := by
  obtain ⟨_, rfl⟩ := Term.isEmpty_eq_ok.1 h
  exact Composes.binary ht (Composes.emptySet _)

theorem composed_nonEmpty (h : nonEmpty t = .ok u) (ht : P t) : P u := by
  obtain ⟨_, rfl⟩ := nonEmpty_eq_ok.1 h
  exact Composes.unary (Composes.binary ht (Composes.emptySet _))

theorem composed_firstColumns : ∀ (dropped : List SmtSort) {t u : Term},
    dropped.foldlM (fun r c => do r.join (← fullRelation [c])) t = .ok u → P t → P u
  | [], t, u, h, ht => by
    simp only [List.foldlM_nil, Checked.pure_eq_ok] at h
    exact h ▸ ht
  | c :: cs, t, u, h, ht => by
    simp only [List.foldlM_cons, Checked.bind_eq_ok, fullRelation_eq_ok, Term.join_eq_ok] at h
    obtain ⟨_, ⟨_, ⟨_, rfl⟩, _, rfl⟩, h⟩ := h
    exact composed_firstColumns cs h (Composes.binary ht (Composes.fullSet _))

theorem composed_restrictDomain (h : restrictDomain l r = .ok u) (hl : P l) (hr : P r) : P u := by
  obtain ⟨p, hcut, rfl | ⟨s, hp⟩⟩ := restrictDomain_cases h
  · exact Composes.mkBinary hcut hr hl
  · exact Composes.mkBinary hcut hr (Composes.mkBinary hp hl (Composes.fullSet s))

theorem composed_restrictRange (h : restrictRange l r = .ok u) (hl : P l) (hr : P r) : P u := by
  obtain ⟨p, hcut, rfl | ⟨s, hp⟩⟩ := restrictRange_cases h
  · exact Composes.mkBinary hcut hl hr
  · exact Composes.mkBinary hcut hl (Composes.mkBinary hp (Composes.fullSet s) hr)

theorem composed_overrideBy (h : overrideBy l r = .ok u) (hl : P l) (hr : P r) : P u := by
  simp only [overrideBy, Checked.bind_eq_ok] at h
  obtain ⟨f, hf, d, hd, k, hk, h⟩ := h
  have hd := composed_restrictDomain hd (composed_firstColumns _ hf hr) hl
  exact Composes.mkBinary h (Composes.mkBinary hk hl hd) hr

theorem composed_disjointSets (h : disjointSets l r = .ok u) (hl : P l) (hr : P r) : P u := by
  simp only [disjointSets, Checked.bind_eq_ok, Term.emptyOf_eq_ok] at h
  obtain ⟨i, hi, _, ⟨_, rfl⟩, h⟩ := h
  exact Composes.mkBinary h (Composes.mkBinary hi hl hr) (Composes.emptySet _)

/-! ## Several variables -/

theorem composed_sameValues {vs ws : List Variable} (h : sameValues vs ws = .ok u)
    (hvs : ∀ v ∈ vs, P (.variable v)) (hws : ∀ w ∈ ws, P (.variable w)) : P u := by
  simp only [sameValues, Checked.bind_eq_ok, Checked.mapM_eq_ok] at h
  obtain ⟨ts, hts, h⟩ := h
  refine Composes.allOf h fun t ht => ?_
  obtain ⟨pair, hpair, heq⟩ := exists_mem_of_forall₂ hts ht
  have hmem := List.of_mem_zip hpair
  exact Composes.mkBinary heq (hvs _ hmem.1) (hws _ hmem.2)

theorem composed_tupleOf {vs : List Variable} (h : tupleOf vs = .ok u)
    (hvs : ∀ v ∈ vs, P (.variable v)) : P u := by
  revert hvs
  refine tupleOf_induction (P := fun vs t => (∀ v ∈ vs, P (.variable v)) → P t)
    (fun v _ hv => ?_) (fun vs w t ih _ hvs => ?_) h
  · exact Composes.unary (hv v List.mem_cons_self)
  · obtain ⟨hvs, hw⟩ := List.forall_mem_append.1 hvs
    exact Composes.binary (ih hvs) (Composes.unary (hw w List.mem_cons_self))

/-! ## Conditions on an element -/

/-- Are the parts of a condition parts of what it is about? -/
def KeepsParts (condition : Term → Term → Checked Term) : Prop :=
  ∀ {P : Term → Prop} [Composes P] {t r c : Term}, condition t r = .ok c → P t → P r → P c

theorem keepsParts_isIn : KeepsParts Term.isIn := fun h ht hr => Composes.mkBinary h ht hr

theorem keepsParts_isAllOf : KeepsParts isAllOf := by
  intro P _ t r c h ht hr
  obtain ⟨_, _, rfl⟩ := isAllOf_eq_ok.1 h
  exact Composes.binary hr (Composes.unary ht)

end RelSmt.Lowering
