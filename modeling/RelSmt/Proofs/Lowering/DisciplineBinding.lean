import RelSmt.Proofs.Lowering.Discipline
import RelSmt.Proofs.Scoped

/-!
# Binders and operations on integers under a discipline

Binders, comprehensions and operations on integers bring in variables, and the last two declare a
function each and assert what it means. All of this keeps to a discipline. The environment has to
hold terms that fit, too, since a name is replaced by the term that it stands for, and constraints
of variables have to fit because they turn up in guards and axioms.
-/

namespace RelSmt.Lowering

section

variable {D : Discipline} {s m s' : Session} {t u l r : Term}

/-! ## Binders -/

/-- Does every name stand for a term that fits the session? -/
abbrev Discipline.FitsScope (D : Discipline) (s : Session) (env : Environment) : Prop :=
  env.Resolves fun _ t => D.Fits s t

/-- Is all that declarations have led to made of names and functions that fit the session? -/
structure Bound.Fits (D : Discipline) (s : Session) (b : Bound) : Prop where
  scope : D.FitsScope s b.scope
  vars : ∀ x ∈ b.vars, D.FitsVariable s x
  constraints : ∀ c ∈ b.constraints, D.Fits s c

theorem Bound.Fits.mono {b : Bound} (hb : b.Fits D s) (h : D.Leads s s') : b.Fits D s' :=
  ⟨hb.scope.mono fun _ _ => D.fits h, fun x hx => D.fitsVariable h (hb.vars x hx),
    fun c hc => D.fits h (hb.constraints c hc)⟩

theorem kept_bindVar (hs : D.Fine s) {mult : Relational.Multiplicity} {bound : Term}
    {element : SmtSort} {b b' : Bound} {v : Relational.Var} {image : Term} (hv : D.Hinted v.name)
    (hb : b.Fits D s) (hbound : D.Fits s bound)
    (h : Runs (bindVar mult bound element b v) s (b', image) s') :
    D.Leads s s' ∧ b'.Fits D s' ∧ D.Fits s' image := by
  obtain ⟨c, x, hx, hc, _, _, _, rfl, rfl⟩ := runs_bindVar h
  have hnext : D.Leads s s.next := D.next s
  have hname : D.Named s.next x.name := hx ▸ D.fresh hs hv
  -- the constraint is stated of the variable before the variable carries it
  obtain ⟨hleads, hc⟩ :=
    kept_boundConstraint (K := D.operating) (t := .variable (.plain x.name x.sort))
      (D.fine hnext hs) hname (D.fits hnext hbound) hc
  have hx : D.FitsVariable s' x := by
    rw [hx] at hname ⊢
    exact ⟨D.named hleads hname, hc⟩
  have himage : D.Fits s' (imageOf mult x) := by
    unfold imageOf
    split <;> exact hx
  have hb := hb.mono (D.trans hnext hleads)
  refine ⟨D.trans hnext hleads, ⟨hb.scope.put himage, fun y hy => ?_, fun d hd => ?_⟩, himage⟩
  · rcases List.mem_append.1 hy with hy | hy
    · exact hb.vars y hy
    · exact List.mem_singleton.1 hy ▸ hx
  · rcases List.mem_append.1 hd with hd | hd
    · exact hb.constraints d hd
    · exact List.mem_singleton.1 hd ▸ hc

theorem kept_bindVars {mult : Relational.Multiplicity} {bound : Term} {element : SmtSort} :
    ∀ {vs : List Relational.Var} {b b' : Bound} {images : List Term} {s s' : Session},
      D.Fine s → (∀ v ∈ vs, D.Hinted v.name) → b.Fits D s → D.Fits s bound →
      Runs (bindVars mult bound element b vs) s (b', images) s' →
      D.Leads s s' ∧ b'.Fits D s' ∧ ∀ image ∈ images, D.Fits s' image
  | [], b, b', images, s, s', _, _, hb, _, h => by
    simp only [bindVars, runs_pure, Prod.mk.injEq] at h
    obtain ⟨⟨rfl, rfl⟩, rfl⟩ := h
    exact ⟨D.refl _, hb, by simp⟩
  | v :: vs, b, b', images, s, s', hs, hvs, hb, hbound, h => by
    obtain ⟨b₁, s₁, image, rest, h₁, h₂, rfl⟩ := runs_bindVars_cons h
    obtain ⟨hv, hvs⟩ := List.forall_mem_cons.1 hvs
    obtain ⟨hleads, hb₁, himage⟩ := kept_bindVar hs hv hb hbound h₁
    obtain ⟨hleads', hb', himages⟩ :=
      kept_bindVars (D.fine hleads hs) hvs hb₁ (D.fits hleads hbound) h₂
    exact ⟨D.trans hleads hleads', hb',
      List.forall_mem_cons.2 ⟨D.fits hleads' himage, himages⟩⟩

theorem kept_bindDecl (hs : D.Fine s) {vs : List Relational.Var}
    {mult : Relational.Multiplicity} {bound : Term} {disjoint : Bool} {b b' : Bound}
    (hvs : ∀ v ∈ vs, D.Hinted v.name) (hb : b.Fits D s) (hbound : D.Fits s bound)
    (h : Runs (bindDecl vs mult bound disjoint b) s b' s') :
    D.Leads s s' ∧ b'.Fits D s' := by
  obtain ⟨element, b₁, images, apart, _, h₁, hapart, rfl⟩ := runs_bindDecl h
  obtain ⟨hleads, hb₁, himages⟩ := kept_bindVars hs hvs hb hbound h₁
  refine ⟨hleads, hb₁.scope, hb₁.vars, fun c hc => ?_⟩
  rcases List.mem_append.1 hc with hc | hc
  · exact hb₁.constraints c hc
  · split at hapart
    · obtain ⟨p, hp, hdisjoint⟩ := exists_mem_of_forall₂ hapart hc
      obtain ⟨hleft, hright⟩ := mem_of_mem_pairs hp
      exact composed_disjointSets hdisjoint (himages _ hleft) (himages _ hright)
    · simp [hapart] at hc

/-! ## Quantifiers and comprehensions -/

theorem kept_freshCopy : ∀ {vs copies : List Variable} {t copy : Term} {s s' : Session},
    D.Fine s → (∀ v ∈ vs, D.FitsVariable s v) → D.Fits s t →
    Runs (freshCopy t vs) s (copies, copy) s' →
    D.Leads s s' ∧ (∀ c ∈ copies, D.FitsVariable s' c) ∧ D.Fits s' copy
  | [], copies, t, copy, s, s', _, _, ht, h => by
    simp only [freshCopy, runs_pure, Prod.mk.injEq] at h
    obtain ⟨⟨rfl, rfl⟩, rfl⟩ := h
    exact ⟨D.refl _, by simp, ht⟩
  | v :: vs, copies, t, copy, s, s', hs, hvs, ht, h => by
    obtain ⟨c, t', rest, rfl, ht', hrest, rfl⟩ := runs_freshCopy_cons h
    obtain ⟨hv, hvs⟩ := List.forall_mem_cons.1 hvs
    have hnext : D.Leads s s.next := D.next s
    have hc : D.Named s.next (numbered v.name (s.fresh + 1)) :=
      D.fresh hs (D.copy (Variable.madeOf_iff.1 hv).1)
    have hnew : D.Fits s.next (.variable (.plain (numbered v.name (s.fresh + 1)) v.sort)) := hc
    have ht' : D.Fits s.next t' :=
      Term.MadeOf.exchanged hnew (Term.exchanged_substitute ht') (D.fits hnext ht)
    obtain ⟨hleads, hrest, hcopy⟩ := kept_freshCopy (D.fine hnext hs)
      (fun w hw => D.fitsVariable hnext (hvs w hw)) ht' hrest
    refine ⟨D.trans hnext hleads, List.forall_mem_cons.2 ⟨?_, hrest⟩, hcopy⟩
    exact (Variable.madeOf_plain _ _).2 (D.named hleads hc)

theorem kept_quantify (hs : D.Fine s) {q : Relational.Quantifier} {b : Bound} {body : Term}
    (hb : b.Fits D s) (hbody : D.Fits s body)
    (h : Runs (quantify q b body) s t s') : D.Leads s s' ∧ D.Fits s' t := by
  obtain ⟨guard, hguard, _, _, h⟩ := runs_quantify h
  have hguard : D.Fits s guard := Composes.allOf hguard hb.constraints
  have hnames : ∀ {m : Session}, D.Leads s m → ∀ x ∈ b.vars, D.Named m x.name :=
    fun hm x hx => D.named hm (Variable.madeOf_iff.1 (hb.vars x hx)).1
  -- `one` and `lone` say that a copy of the formula holds of the same values only
  have hcopied : ∀ {copies : List Variable} {copy same : Term},
      Runs (freshCopy (.binary (.connective .and) guard body) b.vars) s (copies, copy) s' →
      sameValues b.vars copies = .ok same → D.Leads s s' ∧
        (∀ c ∈ copies, D.Named s' c.name) ∧ D.Fits s' copy ∧ D.Fits s' same := by
    intro copies copy same hcopy hsame
    obtain ⟨hleads, hcopies, hcopy⟩ :=
      kept_freshCopy (t := .binary _ guard body) hs hb.vars ⟨hguard, hbody⟩ hcopy
    exact ⟨hleads, fun c hc => (Variable.madeOf_iff.1 (hcopies c hc)).1, hcopy,
      composed_sameValues hsame (hb.mono hleads).vars hcopies⟩
  cases h with
  | all => exact ⟨D.refl _, hnames (D.refl _), hguard, hbody⟩
  | some => exact ⟨D.refl _, hnames (D.refl _), hguard, hbody⟩
  | no => exact ⟨D.refl _, hnames (D.refl _), hguard, hbody⟩
  | one hcopy hsame =>
    obtain ⟨hleads, hcopies, hcopy, hsame⟩ := hcopied hcopy hsame
    exact ⟨hleads, hnames hleads, ⟨D.fits hleads hguard, D.fits hleads hbody⟩, hcopies,
      hcopy, hsame⟩
  | lone hcopy hsame =>
    obtain ⟨hleads, hcopies, hcopy, hsame⟩ := hcopied hcopy hsame
    refine ⟨hleads, fun x hx => ?_, ⟨⟨D.fits hleads hguard, D.fits hleads hbody⟩, hcopy⟩,
      hsame⟩
    exact (List.mem_append.1 hx).elim (hnames hleads x) (hcopies x)

theorem kept_comprehend {columns : List Relational.Column} {b : Bound}
    {body : Term} (hb : b.Fits D s) (hbody : D.Fits s body)
    (h : Runs (comprehend columns b body) s t s') : D.Leads s s' ∧ D.Fits s' t := by
  obtain ⟨guard, definition, f, tuple, comment, hguard, rfl, hf, happly, htuple, _, _, rfl⟩ :=
    runs_comprehend h
  have hdefinition : D.Fits s (.binary (.connective .and) guard body) :=
    ⟨Composes.allOf hguard hb.constraints, hbody⟩
  have houter : ∀ x ∈ outerVariables b (.binary (.connective .and) guard body),
      D.FitsVariable s x :=
    fun x hx => hdefinition.of_mem_free (mem_outerVariables hx).1
  obtain ⟨hdeclare, hknown⟩ :=
    D.counted (s := s) (f := f) (h := "comprehension") (by decide) (by rw [hf])
  -- the call fits only once the function has been declared
  have ht : D.Fits (s.next.declaring f) t :=
    madeOf_apply happly hknown fun x hx => D.fitsVariable hdeclare (houter x hx)
  have hvars : ∀ x ∈ outerVariables b (.binary (.connective .and) guard body) ++ b.vars,
      D.Named (s.next.declaring f) x.name := fun x hx => D.named hdeclare
    (Variable.madeOf_iff.1 ((List.mem_append.1 hx).elim (houter x) (hb.vars x))).1
  have htuple : D.Fits (s.next.declaring f) tuple :=
    D.fits hdeclare (composed_tupleOf htuple hb.vars)
  have hassert := D.asserting (a := ⟨comment, .quantified .all
      (outerVariables b (.binary (.connective .and) guard body) ++ b.vars)
      (.binary .eq (.binary .subset tuple t) (.binary (.connective .and) guard body)), none⟩) rfl
    ⟨hvars, ⟨htuple, ht⟩, D.fits hdeclare hdefinition⟩
  exact ⟨D.trans hdeclare hassert, D.fits hassert ht⟩

/-! ## Operations on integers -/

/-- Is all that the axioms of an operation are stated over made of names and functions that fit the
session? -/
structure Narrowed.Fits (D : Discipline) (s : Session) (n : Narrowed) : Prop where
  terms : ∀ t ∈ n.terms, D.Fits s t
  vars : ∀ v ∈ n.vars, D.FitsVariable s v
  arguments : ∀ t ∈ n.arguments, D.Fits s t

theorem Narrowed.Fits.mono {n : Narrowed} (hn : n.Fits D s) (h : D.Leads s s') : n.Fits D s' :=
  ⟨fun t ht => D.fits h (hn.terms t ht), fun v hv => D.fitsVariable h (hn.vars v hv),
    fun t ht => D.fits h (hn.arguments t ht)⟩

theorem kept_narrows {n n' : Narrowed} {ps : List Variable} (h : Narrows s n ps n' s') :
    D.Fine s → (∀ p ∈ ps, D.FitsVariable s p) → n.Fits D s →
    D.Leads s s' ∧ n'.Fits D s' := by
  induction h with
  | nil => exact fun _ _ hn => ⟨D.refl _, hn⟩
  | @keep s s' n n' p ps _ _ ih =>
    intro hs hps hn
    obtain ⟨hp, hps⟩ := List.forall_mem_cons.1 hps
    refine ih hs hps ⟨hn.terms, fun v hv => ?_, fun t ht => ?_⟩
    · rcases List.mem_append.1 hv with hv | hv
      · exact hn.vars v hv
      · exact List.mem_singleton.1 hv ▸ hp
    · rcases List.mem_append.1 ht with ht | ht
      · exact hn.arguments t ht
      · exact List.mem_singleton.1 ht ▸ hp
  | @element s s' n m n' p e ps he hstep _ ih =>
    intro hs hps hn
    have hnext : D.Leads s s.next := D.next s
    have he : D.FitsVariable s.next e := by
      rw [he]
      exact (Variable.madeOf_plain _ _).2 (D.ownFresh hs (by decide))
    have hn := hn.mono hnext
    -- the element takes the place of the parameter in all terms, and it is an argument now
    have hm : m.Fits D s.next := by
      refine ⟨fun t ht => ?_, fun v hv => ?_, fun t ht => ?_⟩
      · obtain ⟨t₀, ht₀, hreplace⟩ := exists_mem_of_forall₂ hstep.terms ht
        have hnew : D.Fits s.next (.unary .singleton (.variable e)) := he
        exact Term.MadeOf.exchanged hnew (Term.exchanged_replace hreplace) (hn.terms t₀ ht₀)
      · rw [hstep.binders] at hv
        rcases List.mem_append.1 hv with hv | hv
        · exact hn.vars v hv
        · exact List.mem_singleton.1 hv ▸ he
      · rw [hstep.arguments] at ht
        rcases List.mem_append.1 ht with ht | ht
        · exact hn.arguments t ht
        · exact List.mem_singleton.1 ht ▸ he
    obtain ⟨hleads, hn'⟩ := ih (D.fine hnext hs)
      (fun q hq => D.fitsVariable hnext (hps q (List.mem_cons_of_mem _ hq))) hm
    exact ⟨D.trans hnext hleads, hn'⟩

theorem kept_operandValue (hs : D.Fine s) {condition : Term → Term → Checked Term}
    (hcond : KeepsParts condition) {o : Operand} {a : Value} (ho : D.Fits s o.term)
    (h : Runs (operandValue condition o) s a s') : D.Leads s s' ∧ a.Fits D s' := by
  rcases runs_operandValue h with ⟨_, rfl, rfl⟩ | ⟨_, ⟨x, c, rfl, hc, rfl⟩, rfl⟩
  · exact ⟨D.refl _, ho, by simp, by simp⟩
  · have hnext : D.Leads s s.next := D.next s
    have hx : D.Named s.next (numbered "x" (s.fresh + 1)) := D.ownFresh hs (by decide)
    exact ⟨hnext, ⟨D.value (D.fine hnext hs), hx, trivial⟩, List.forall_mem_singleton.2 hx,
      List.forall_mem_singleton.2 (hcond hc ⟨hx, trivial⟩ (D.fits hnext ho))⟩

/-- Both operands are read, one after the other. -/
theorem kept_readings (hs : D.Fine s) {condition : Term → Term → Checked Term}
    (hcond : KeepsParts condition) {a b : Operand} {x y : Value} {m : Session}
    (ha : D.Fits s a.term) (hb : D.Fits s b.term) (hx : Runs (operandValue condition a) s x m)
    (hy : Runs (operandValue condition b) m y s') :
    D.Leads s s' ∧ x.Fits D s' ∧ y.Fits D s' := by
  obtain ⟨hm, hx⟩ := kept_operandValue hs hcond ha hx
  obtain ⟨hlast, hy⟩ := kept_operandValue (D.fine hm hs) hcond (D.fits hm hb) hy
  exact ⟨D.trans hm hlast, hx.mono hlast, hy⟩

/-- A closure over variables fits where they do. -/
theorem kept_closure {q : Quantifier} {vs : List Variable}
    (h : (if vs.isEmpty then .ok t else Term.mkQuantified q vs t) = .ok u)
    (hvs : ∀ v ∈ vs, D.Named s v.name) (ht : D.Fits s t) : D.Fits s u := by
  split at h
  · exact Except.ok.inj h ▸ ht
  · obtain ⟨_, _, rfl⟩ := Term.mkQuantified_eq_ok.1 h
    exact ⟨hvs, ht⟩

theorem kept_allOver {vs : List Variable} (h : allOver vs t = .ok u)
    (hvs : ∀ v ∈ vs, D.Named s v.name) (ht : D.Fits s t) : D.Fits s u :=
  kept_closure (q := .all) h hvs ht

theorem kept_exOver {vs : List Variable} (h : exOver vs t = .ok u)
    (hvs : ∀ v ∈ vs, D.Named s v.name) (ht : D.Fits s t) : D.Fits s u :=
  kept_closure (q := .ex) h hvs ht

section Axioms

variable {op : Arithmetic} {n : Narrowed} {guard result : Term}

theorem kept_hasResult (hs : D.Fine s) {a b : Value} {z : Variable} (ha : a.Fits D s)
    (hb : b.Fits D s) (hz : D.FitsVariable s z) : D.Fits s (hasResult op a b z) :=
  ⟨⟨ha.term, hb.term⟩, D.value hs, hz, trivial⟩

theorem kept_soundAxiom (hs : D.Fine s) (hn : n.Fits D s)
    (hguard : D.Fits s guard) (hresult : D.Fits s result)
    (h : Runs (soundAxiom op n guard result) s u s') :
    D.Leads s s' ∧ D.Fits s' u := by
  obtain ⟨z, x, y, body, witness, m, rfl, hx, hy, hbody, hwitness, hall⟩ := runs_soundAxiom h
  have hnext : D.Leads s s.next := D.next s
  have hz : D.Named s.next (numbered "z" (s.fresh + 1)) := D.ownFresh hs (by decide)
  obtain ⟨hlast, hx, hy⟩ := kept_readings (D.fine hnext hs) keepsParts_isIn
    (D.fits hnext (hn.terms _ List.mem_cons_self))
    (D.fits hnext (hn.terms _ (List.mem_cons_of_mem _ List.mem_cons_self))) hx hy
  have hleads := D.trans hnext hlast
  have hz := D.named hlast hz
  have hn := hn.mono hleads
  refine ⟨hleads, kept_allOver hall (fun v hv => ?_)
    ⟨⟨D.fits hleads hguard, ⟨hz, trivial⟩, D.fits hleads hresult⟩, ?_⟩⟩
  · rcases List.mem_append.1 hv with hv | hv
    · exact (Variable.madeOf_iff.1 (hn.vars v hv)).1
    · exact List.mem_singleton.1 hv ▸ hz
  · refine kept_exOver hwitness (named_both hx hy) (Composes.allOf hbody fun c hc => ?_)
    simp only [List.mem_append, List.mem_singleton] at hc
    rcases hc with (hc | hc) | rfl
    · exact hx.conditions c hc
    · exact hy.conditions c hc
    · exact kept_hasResult (D.fine hleads hs) hx hy hz

theorem kept_completeAxiom (hs : D.Fine s) (hn : n.Fits D s)
    (hguard : D.Fits s guard) (hresult : D.Fits s result)
    (h : Runs (completeAxiom op n guard result) s u s') :
    D.Leads s s' ∧ D.Fits s' u := by
  obtain ⟨z, x, y, body, k, m, rfl, hx, hy, rfl, hbody, hall⟩ := runs_completeAxiom h
  obtain ⟨hm, hx, hy⟩ := kept_readings hs keepsParts_isIn (hn.terms _ List.mem_cons_self)
    (hn.terms _ (List.mem_cons_of_mem _ List.mem_cons_self)) hx hy
  have hnext : D.Leads m m.next := D.next m
  have hleads := D.trans hm hnext
  have hz : D.Named m.next (numbered "z" (m.fresh + 1)) := D.ownFresh (D.fine hm hs) (by decide)
  have hx := hx.mono hnext
  have hy := hy.mono hnext
  have hn := hn.mono hleads
  refine ⟨hleads, kept_allOver hall (fun v hv => ?_) ⟨Composes.allOf hbody fun c hc => ?_,
    List.forall_mem_singleton.2 hz, ⟨⟨hz, trivial⟩, D.fits hleads hresult⟩,
    kept_hasResult (D.fine hleads hs) hx hy hz⟩⟩
  · rw [List.append_assoc, List.mem_append] at hv
    exact hv.elim (fun hv => (Variable.madeOf_iff.1 (hn.vars v hv)).1) (named_both hx hy v)
  · simp only [List.cons_append, List.mem_cons, List.mem_append] at hc
    rcases hc with rfl | hc | hc
    · exact D.fits hleads hguard
    · exact hx.conditions c hc
    · exact hy.conditions c hc

theorem kept_singletonAxiom (hs : D.Fine s) {a b : Operand} (ha : D.Fits s a.term)
    (hb : D.Fits s b.term) (hresult : D.Fits s result)
    (h : Runs (singletonAxiom op a b result) s u s') :
    D.Leads s s' ∧ D.Fits s' u := by
  obtain ⟨z, x, y, body, k, m, rfl, hx, hy, rfl, hbody, hex⟩ := runs_singletonAxiom h
  obtain ⟨hm, hx, hy⟩ := kept_readings hs keepsParts_isAllOf ha hb hx hy
  have hnext : D.Leads m m.next := D.next m
  have hleads := D.trans hm hnext
  have hz : D.Named m.next (numbered "z" (m.fresh + 1)) := D.ownFresh (D.fine hm hs) (by decide)
  have hx := hx.mono hnext
  have hy := hy.mono hnext
  refine ⟨hleads, kept_exOver hex (fun v hv => ?_) (Composes.allOf hbody fun c hc => ?_)⟩
  · rcases List.mem_append.1 hv with hv | hv
    · exact named_both hx hy v hv
    · exact List.mem_singleton.1 hv ▸ hz
  · simp only [List.mem_append, List.mem_cons, List.not_mem_nil, or_false] at hc
    rcases hc with (hc | hc) | rfl | rfl
    · exact hx.conditions c hc
    · exact hy.conditions c hc
    · exact ⟨D.fits hleads hresult, hz, trivial⟩
    · exact kept_hasResult (D.fine hleads hs) hx hy hz

end Axioms

/-- Parameters are variables of the operands or of constraints that these lead to. -/
theorem madeOf_parameters {x y : Term} {env : Environment} {p : String → Prop}
    {q : FunctionSymbol → Prop} (hx : x.MadeOf p q) (hy : y.MadeOf p q) :
    ∀ v ∈ parametersOf x y env, v.MadeOf p q := by
  intro v hv
  refine ((mem_enclosingFrom (p := fun w => w.MadeOf p q) (fun w hw u hu => ?_) ?_ v
    hv).resolve_left (by simp)).2
  · unfold constraintVariables at hu
    split at hu
    · rename_i c hc
      exact ((Variable.madeOf_iff.1 hw).2 c hc).of_mem_free hu
    · simp at hu
  · intro w hw
    exact (List.mem_append.1 hw).elim hx.of_mem_free hy.of_mem_free

theorem kept_arithmetic (hs : D.Fine s) {op : Arithmetic} {x y : Term} {env : Environment}
    (hx : D.Fits s x) (hy : D.Fits s y) (h : Runs (arithmetic op x y env) s t s') :
    D.Leads s s' ∧ D.Fits s' t := by
  obtain ⟨o, m, ho, h⟩ := runs_arithmetic h
  have hps : ∀ p ∈ o.parameters, D.FitsVariable s p := by
    rw [parameters_eq ho]
    exact madeOf_parameters hx hy
  have hstart : Narrowed.Fits D s
      ⟨o.left, o.right, o.parameters.filterMap Variable.constraint, [], []⟩ := by
    refine ⟨fun t ht => ?_, by simp, by simp⟩
    rcases mem_operands ho ht with rfl | rfl | ⟨p, hp, hc⟩
    · exact hx
    · exact hy
    · exact (Variable.madeOf_iff.1 (hps p hp)).2 t hc
  obtain ⟨hm, hn⟩ := kept_narrows ho.narrows hs hps hstart
  -- the axioms mention the function, so it is declared before they are made
  obtain ⟨hdeclare, hknown⟩ := D.counted (s := m) (f := o.function) (functionHint_mem op)
    (by rw [ho.function])
  have hbegin := D.trans hm hdeclare
  have hk := D.fine hbegin hs
  have hn := hn.mono hdeclare
  have ha := hn.terms _ List.mem_cons_self
  have hb := hn.terms _ (List.mem_cons_of_mem _ List.mem_cons_self)
  have hguard : D.Fits (m.next.declaring o.function) o.guard := Composes.allOf ho.guard fun c hc =>
    hn.terms c (List.mem_cons_of_mem _ (List.mem_cons_of_mem _ hc))
  have hresult : D.Fits (m.next.declaring o.function) o.result :=
    .apply ho.result hknown hn.arguments
  have hps : ∀ p ∈ o.parameters, D.FitsVariable (m.next.declaring o.function) p :=
    fun p hp => D.fitsVariable hbegin (hps p hp)
  split at h
  · obtain ⟨body, guarded, formula, comment, call, k, hbody, hguarded, hall, hcall, rfl, rfl⟩ := h
    obtain ⟨hleads, hbody⟩ := kept_singletonAxiom hk ha hb hresult hbody
    have hassert : D.Leads k (k.asserting ⟨comment, formula, none⟩) :=
      D.asserting rfl (kept_allOver hall (fun v hv => ?_) ?_)
    · have hcall := D.fits (D.trans hleads hassert) (madeOf_apply hcall hknown hps)
      exact ⟨D.trans (D.trans hbegin hleads) hassert, hcall⟩
    · exact D.named hleads (Variable.madeOf_iff.1 (hn.vars v hv)).1
    · rcases hguarded with ⟨_, rfl⟩ | rfl
      · exact hbody
      · exact ⟨D.fits hleads hguard, hbody⟩
  · obtain ⟨sound, complete, comment, comment', k, k', hsound, hcomplete, hcall, rfl⟩ := h
    obtain ⟨hleads, hsound⟩ := kept_soundAxiom hk hn hguard hresult hsound
    obtain ⟨hleads', hcomplete⟩ := kept_completeAxiom (D.fine hleads hk) (hn.mono hleads)
      (D.fits hleads hguard) (D.fits hleads hresult) hcomplete
    have hfirst : D.Leads k' (k'.asserting ⟨comment, sound, none⟩) :=
      D.asserting rfl (D.fits hleads' hsound)
    have hsecond := D.trans hfirst (D.asserting (a := ⟨comment', complete, none⟩) rfl
      (D.fits hfirst hcomplete))
    have hrest := D.trans (D.trans hleads hleads') hsecond
    exact ⟨D.trans hbegin hrest, D.fits hrest (madeOf_apply hcall hknown hps)⟩

end

end RelSmt.Lowering
