import RelSmt.Proofs.Lowering.Arithmetic
import RelSmt.Proofs.Lowering.Nesting
import RelSmt.Proofs.Scoped

/-!
# Binders and operations on integers bind no name again

Below a binder its variables are known, so nothing that is lowered there binds their names. Further
out the names are unused again, because they were taken after all that is known there. The axioms of
comprehensions and of operations on integers stand alone, with quantifiers over known variables
outermost. Constraints of variables turn up as guards in these axioms, so they have to be clear,
too.
-/

namespace RelSmt.Lowering

variable {U V W : Set Variable} {k n : Nat} {env : Environment} {s s' : Session} {t u l r : Term}

/-! ## Environments -/

/-- Is all that can be seen from the environment clear: the terms that names stand for, and the
constraints of known variables? -/
structure AllClear (V : Set Variable) (n : Nat) (env : Environment) : Prop where
  hygienic : Hygienic n V
  limits : ∀ v ∈ V, ∀ c, v.constraint = some c → Clear V n c
  within : env.Within V
  resolves : env.Resolves fun _ t => Clear V n t

theorem AllClear.mono {m : Nat} (h : AllClear V m env) (hmn : m ≤ n) : AllClear V n env :=
  ⟨h.hygienic.mono hmn, fun v hv c hc => (h.limits v hv c hc).later hmn, h.within,
    h.resolves.mono fun _ _ ht => ht.later hmn⟩

theorem AllClear.enter (h : AllClear V n env) : AllClear V n env.enter :=
  ⟨h.hygienic, h.limits, fun v hv => h.within v (Environment.has_enter.1 hv), h.resolves.enter⟩

/-! ## Binders -/

/-- Is all that declarations have led to clear, and were their variables born after the binder was
entered? -/
structure Bound.AllClear (env : Environment) (k : Nat) (V : Set Variable) (n : Nat) (b : Bound) :
    Prop where
  scope : Lowering.AllClear V n b.scope
  bound : BoundWithin env V b
  constraints : ∀ c ∈ b.constraints, Clear V n c
  born : ∀ x ∈ b.vars, Born k n x

theorem Bound.AllClear.mono {m : Nat} {b : Bound} (h : b.AllClear env k V m) (hmn : m ≤ n) :
    b.AllClear env k V n :=
  ⟨h.scope.mono hmn, h.bound, fun c hc => (h.constraints c hc).later hmn,
    fun x hx => (h.born x hx).mono (Nat.le_refl _) hmn⟩

theorem clear_imageOf (m : Relational.Multiplicity) (x : Variable) : Clear V n (imageOf m x) := by
  unfold imageOf
  split
  · exact Composes.unary (Term.unshadowed_variable x)
  · exact Term.unshadowed_variable x

theorem allClear_bindVar {mult : Relational.Multiplicity} {bound : Term} {element : SmtSort}
    {b b' : Bound} {v : Relational.Var} {image : Term}
    (h : Runs (bindVar mult bound element b v) s (b', image) s') (hk : k ≤ s.fresh)
    (hb : b.AllClear env k V s.fresh) (hcovers : CoversWith env V b.vars bound)
    (hbound : Clear V s.fresh bound) :
    Nests s s' ∧ ∃ V', Enlarges s V s' V' ∧ b'.AllClear env k V' s'.fresh ∧
      (∀ x ∈ b.vars, x ∈ b'.vars) ∧ (∀ w ∈ image.freeOccurrences, w ∈ b'.vars) ∧
      Clear V' s'.fresh image := by
  obtain ⟨_, V', hV', hb', hgrow, himage⟩ :=
    boundWithin_bindVar h hb.scope.hygienic hb.bound hcovers
  obtain ⟨c, x, hx, hc, _, _, _, rfl, rfl⟩ := runs_bindVar h
  -- the constraint is stated where the new variable is known
  obtain ⟨hnests, hc⟩ := kept_boundConstraint (K := nesting V') hV'.hygienic.settled
    (Term.unshadowed_variable _) (hbound.widen hV'.fresh hV'.new) hc
  have hlater : ∀ {t : Term}, Clear V s.fresh t → Clear V' s'.fresh t := fun ht =>
    (ht.widen hV'.fresh hV'.new).later hnests.fresh
  have hgrows := (nests_next s).trans hnests
  have hconstraints : ∀ d ∈ b.constraints ++ [c], Clear V' s'.fresh d := by
    intro d hd
    rcases List.mem_append.1 hd with hd | hd
    · exact hlater (hb.constraints d hd)
    · exact List.mem_singleton.1 hd ▸ hc
  refine ⟨hgrows, V', hV'.fresher hnests.fresh, ⟨⟨hV'.hygienic.mono hnests.fresh,
    fun w hw d hd => ?_, hb'.within, (hb.scope.resolves.mono fun _ _ => hlater).put (clear_imageOf _ _)⟩, hb',
    hconstraints, fun y hy => ?_⟩, hgrow.vars, himage, clear_imageOf _ _⟩
  · rcases hgrow.known w hw with hw | ⟨_, _, _, _, hlimits⟩
    · exact hlater (hb.scope.limits w hw d hd)
    · exact hconstraints d (hlimits d hd)
  · rcases List.mem_append.1 hy with hy | hy
    · exact (hb.born y hy).mono (Nat.le_refl _) hgrows.fresh
    · rw [List.mem_singleton.1 hy, hx]
      exact ⟨v.name, s.fresh + 1, Nat.lt_succ_of_le hk, hnests.fresh, rfl⟩

theorem allClear_bindVars {mult : Relational.Multiplicity} {bound : Term} {element : SmtSort} :
    ∀ {vs : List Relational.Var} {b b' : Bound} {images : List Term} {s s' : Session}
      {V : Set Variable}, Runs (bindVars mult bound element b vs) s (b', images) s' →
      k ≤ s.fresh → b.AllClear env k V s.fresh → CoversWith env V b.vars bound →
      Clear V s.fresh bound →
      Nests s s' ∧ ∃ V', Enlarges s V s' V' ∧ b'.AllClear env k V' s'.fresh ∧
        (∀ x ∈ b.vars, x ∈ b'.vars) ∧
        ∀ image ∈ images, (∀ w ∈ image.freeOccurrences, w ∈ b'.vars) ∧ Clear V' s'.fresh image
  | [], b, b', images, s, s', V, h, _, hb, _, _ => by
    simp only [bindVars, runs_pure, Prod.mk.injEq] at h
    obtain ⟨⟨rfl, rfl⟩, rfl⟩ := h
    exact ⟨.refl _, V, .refl hb.scope.hygienic, hb, fun x hx => hx, by simp⟩
  | v :: vs, b, b', images, s, s', V, h, hk, hb, hcovers, hbound => by
    obtain ⟨b₁, s₁, image, rest, h₁, h₂, rfl⟩ := runs_bindVars_cons h
    obtain ⟨hnests₁, V₁, hV₁, hb₁, hold₁, hfree, himage⟩ := allClear_bindVar h₁ hk hb hcovers hbound
    obtain ⟨hnests₂, V₂, hV₂, hb₂, hold₂, himages⟩ := allClear_bindVars h₂
      (Nat.le_trans hk hnests₁.fresh) hb₁ (hcovers.mono hV₁.subset hold₁)
      (hbound.widen hV₁.fresh hV₁.new)
    refine ⟨hnests₁.trans hnests₂, V₂, hV₁.trans hV₂, hb₂, fun x hx => hold₂ x (hold₁ x hx), ?_⟩
    refine List.forall_mem_cons.2 ⟨⟨fun w hw => hold₂ w (hfree w hw), ?_⟩, himages⟩
    exact himage.widen hV₂.fresh hV₂.new

theorem allClear_bindDecl {vs : List Relational.Var} {mult : Relational.Multiplicity} {bound : Term}
    {disjoint : Bool} {b b' : Bound} (h : Runs (bindDecl vs mult bound disjoint b) s b' s')
    (hk : k ≤ s.fresh) (hb : b.AllClear env k V s.fresh) (hcovers : b.scope.Covers V bound)
    (hbound : Clear V s.fresh bound) :
    Nests s s' ∧ ∃ V', Enlarges s V s' V' ∧ b'.AllClear env k V' s'.fresh := by
  obtain ⟨element, b₁, images, apart, _, h₁, hapart, rfl⟩ := runs_bindDecl h
  obtain ⟨hnests, V', hV', hb₁, _, himages⟩ :=
    allClear_bindVars h₁ hk hb (hb.bound.covers hcovers) hbound
  refine ⟨hnests, V', hV', ?_⟩
  split at hapart
  · refine ⟨hb₁.scope, hb₁.bound.apart (fun i hi => (himages i hi).1) hapart, fun c hc => ?_,
      hb₁.born⟩
    rcases List.mem_append.1 hc with hc | hc
    · exact hb₁.constraints c hc
    · obtain ⟨p, hp, hdisjoint⟩ := exists_mem_of_forall₂ hapart hc
      obtain ⟨hleft, hright⟩ := mem_of_mem_pairs hp
      exact composed_disjointSets hdisjoint (himages _ hleft).2 (himages _ hright).2
  · rw [hapart, List.append_nil]
    exact hb₁

/-! ## Quantifiers and comprehensions -/

/-- A copy has the binders of the formula. -/
theorem unshadowed_freshCopy {p : String → Prop} : ∀ {vs copies : List Variable} {t copy : Term}
    {s s' : Session}, Runs (freshCopy t vs) s (copies, copy) s' → t.Unshadowed p →
    Nests s s' ∧ copy.Unshadowed p
  | [], copies, t, copy, s, s', h, ht => by
    simp only [freshCopy, runs_pure, Prod.mk.injEq] at h
    obtain ⟨⟨rfl, rfl⟩, rfl⟩ := h
    exact ⟨.refl _, ht⟩
  | v :: vs, copies, t, copy, s, s', h, ht => by
    obtain ⟨c, t', rest, _, ht', hrest, rfl⟩ := runs_freshCopy_cons h
    obtain ⟨hnests, hcopy⟩ := unshadowed_freshCopy hrest
      (.exchanged (Term.unshadowed_variable c) (Term.exchanged_substitute ht') ht)
    exact ⟨(nests_next s).trans hnests, hcopy⟩

/-- What `one` and `lone` say of a copy is clear, and the variables of the copy are born after the
formula. -/
theorem clear_copied {vs copies : List Variable} {copy same : Term} (ht : Clear V s.fresh t)
    (hcopy : Runs (freshCopy t vs) s (copies, copy) s') (hsame : sameValues vs copies = .ok same) :
    Nests s s' ∧ (∀ c ∈ copies, Born s.fresh s'.fresh c) ∧ Clear V s.fresh copy ∧
      Clear V s.fresh same := by
  obtain ⟨hnests, hclear⟩ := unshadowed_freshCopy hcopy ht
  exact ⟨hnests, (freshCopies_freshCopy hcopy).fresh, hclear,
    composed_sameValues hsame (fun v _ => Term.unshadowed_variable v)
      fun v _ => Term.unshadowed_variable v⟩

theorem clear_quantify {q : Relational.Quantifier} {b : Bound} {body : Term}
    (hU : AllSettled k U) (hUV : U ⊆ V) (hk : k ≤ s.fresh) (hb : b.AllClear env k V s.fresh)
    (hbody : Clear V s.fresh body) (h : Runs (quantify q b body) s t s') :
    Nests s s' ∧ Clear U s'.fresh t := by
  obtain ⟨guard, hguard, _, _, h⟩ := runs_quantify h
  have hguard : Clear V s.fresh guard := Composes.allOf hguard hb.constraints
  have hunused : ∀ {n : Nat}, s.fresh ≤ n → ∀ x ∈ b.vars, Unused U n x.name := fun hn x hx =>
    ((hb.born x hx).mono (Nat.le_refl _) hn).unused hU
  have hclose : ∀ {q : Quantifier} {t : Term} {n : Nat}, s.fresh ≤ n → Clear V n t →
      Clear U n (.quantified q b.vars t) := fun hn ht =>
    clear_quantified ht hUV hb.bound.binders (hunused hn)
  have hwitness : Clear V s.fresh (.binary (.connective .and) guard body) :=
    Composes.binary hguard hbody
  cases h with
  | all => exact ⟨.refl _, hclose (Nat.le_refl _) (Composes.binary hguard hbody)⟩
  | some => exact ⟨.refl _, hclose (Nat.le_refl _) hwitness⟩
  | no => exact ⟨.refl _, Composes.unary (hclose (Nat.le_refl _) hwitness)⟩
  | one hcopy hsame =>
    obtain ⟨hnests, hborn, hcopy, hsame⟩ := clear_copied hwitness hcopy hsame
    refine ⟨hnests, hclose hnests.fresh (Composes.binary (hwitness.later hnests.fresh) ?_)⟩
    exact Clear.quantified (Composes.binary hcopy hsame) hnests.fresh hb.scope.hygienic.settled
      hborn
  | @lone copies copy same _ hcopy hsame =>
    obtain ⟨hnests, hborn, hcopy, hsame⟩ := clear_copied hwitness hcopy hsame
    have hformula : Clear V s.fresh (.binary (.connective .implies)
        (.binary (.connective .and) (.binary (.connective .and) guard body) copy) same) :=
      Composes.binary (Composes.binary hwitness hcopy) hsame
    -- copies and declared variables are bound by one quantifier
    refine ⟨hnests, clear_quantified (W := V ∪ {c | c ∈ copies})
      (hformula.widen hnests.fresh fun v hv => hv.elim Or.inl fun hv => (hborn v hv).later)
      (hUV.trans Set.subset_union_left) (fun v hv => ?_) fun v hv => ?_⟩
    · exact (List.mem_append.1 hv).imp (hb.bound.binders v) id
    · rcases List.mem_append.1 hv with hv | hv
      · exact hunused hnests.fresh v hv
      · exact (hborn v hv).unused (hU.mono hk)

theorem unshadowed_apply {p : String → Prop} {f : FunctionSymbol} {vs : List Variable}
    (h : f.apply (vs.map Variable.term) = .ok t) : t.Unshadowed p := by
  refine .apply h fun u hu => ?_
  obtain ⟨v, _, rfl⟩ := List.mem_map.1 hu
  exact Term.unshadowed_variable v

theorem clear_comprehend {columns : List Relational.Column} {b : Bound} {body : Term}
    (hb : b.AllClear env k V s.fresh) (hcovers : CoversWith env V b.vars body)
    (hbody : Clear V s.fresh body) (h : Runs (comprehend columns b body) s t s') :
    Nests s s' ∧ Clear U s'.fresh t := by
  obtain ⟨guard, definition, f, tuple, comment, hguard, rfl, hf, happly, htuple, _, _, rfl⟩ :=
    runs_comprehend h
  have hdefinition : Clear V s.fresh (.binary (.connective .and) guard body) :=
    Composes.binary (Composes.allOf hguard hb.constraints) hbody
  have hknown := hb.bound.coversWith_guarded .and hguard hcovers
  have htuple : Clear V s.fresh tuple :=
    composed_tupleOf htuple fun v _ => Term.unshadowed_variable v
  have haxiom : Clear V s.fresh (.binary .eq (.binary .subset tuple t)
      (.binary (.connective .and) guard body)) :=
    Composes.binary (Composes.binary htuple (unshadowed_apply happly)) hdefinition
  refine ⟨((nests_next s).trans (nests_declaring _ f)).trans (nests_asserting ?_),
    unshadowed_apply happly⟩
  refine haxiom.once_quantified fun v hv => ?_
  rcases List.mem_append.1 hv with hv | hv
  · exact (known_of_mem_outerVariables hb.scope.hygienic hb.bound hknown hv).1
  · exact hb.bound.binders v hv

/-! ## Operations on integers -/

/-- An element in the place of a parameter brings in no binder. -/
theorem unshadowed_narrows {p : String → Prop} {n n' : Narrowed} {ps : List Variable}
    (h : Narrows s n ps n' s') : (∀ t ∈ n.terms, t.Unshadowed p) →
    (∀ t ∈ n.arguments, t.Unshadowed p) →
    (∀ t ∈ n'.terms, t.Unshadowed p) ∧ ∀ t ∈ n'.arguments, t.Unshadowed p := by
  induction h with
  | nil => exact fun hterms harguments => ⟨hterms, harguments⟩
  | keep _ _ ih =>
    refine fun hterms harguments => ih hterms (List.forall_mem_append.2 ⟨harguments, ?_⟩)
    exact List.forall_mem_singleton.2 (Term.unshadowed_variable _)
  | @element s s' n m n' p e ps _ hstep _ ih =>
    intro hterms harguments
    have hnew : ∀ {q : String → Prop}, (Term.unary .singleton (.variable e)).Unshadowed q :=
      Composes.unary (Term.unshadowed_variable e)
    refine ih (fun t ht => ?_) ?_
    · obtain ⟨t₀, ht₀, hreplace⟩ := exists_mem_of_forall₂ hstep.terms ht
      exact .exchanged hnew (Term.exchanged_replace hreplace) (hterms t₀ ht₀)
    · rw [hstep.arguments]
      exact List.forall_mem_append.2 ⟨harguments, List.forall_mem_singleton.2 hnew⟩

theorem clear_operandValue {condition : Term → Term → Checked Term} (hcond : KeepsParts condition)
    {o : Operand} {a : Value} (ho : Clear V k o.term) (hk : k ≤ s.fresh)
    (h : Runs (operandValue condition o) s a s') : Nests s s' ∧ a.Clear V k s'.fresh := by
  rcases runs_operandValue h with ⟨_, rfl, rfl⟩ | ⟨_, ⟨x, c, rfl, hc, rfl⟩, rfl⟩
  · exact ⟨.refl _, ho, by simp, by simp⟩
  · have hx := (born_next "x" .uint s).mono hk (Nat.le_refl _)
    exact ⟨nests_next s, clear_call_variable _ _, List.forall_mem_singleton.2 hx,
      List.forall_mem_singleton.2 (hcond hc (clear_tuple_variable _) ho)⟩

/-- Both operands are read, one after the other. -/
theorem clear_readings {condition : Term → Term → Checked Term} (hcond : KeepsParts condition)
    {a b : Operand} {x y : Value} {m : Session} (ha : Clear V k a.term) (hb : Clear V k b.term)
    (hk : k ≤ s.fresh) (hx : Runs (operandValue condition a) s x m)
    (hy : Runs (operandValue condition b) m y s') :
    Nests s s' ∧ x.Clear V k s'.fresh ∧ y.Clear V k s'.fresh := by
  obtain ⟨hm, hx⟩ := clear_operandValue hcond ha hk hx
  obtain ⟨hlast, hy⟩ := clear_operandValue hcond hb (Nat.le_trans hk hm.fresh) hy
  exact ⟨hm.trans hlast, hx.mono hlast.fresh, hy⟩

/-- A closure over new variables keeps names unused, with or without variables. -/
theorem Clear.closure {q : Quantifier} {vs : List Variable} {m : Nat} (ht : Clear V m t)
    (h : (if vs.isEmpty then .ok t else Term.mkQuantified q vs t) = .ok u)
    (hmn : m ≤ n) (hV : AllSettled m V) (hvs : ∀ v ∈ vs, Born m n v) : Clear V n u := by
  split at h
  · exact Except.ok.inj h ▸ ht.later hmn
  · obtain ⟨_, _, rfl⟩ := Term.mkQuantified_eq_ok.1 h
    exact ht.quantified hmn hV hvs

/-- A closure over known variables binds no name again. -/
theorem Clear.once_closure {q : Quantifier} {vs : List Variable} (ht : Clear V n t)
    (h : (if vs.isEmpty then .ok t else Term.mkQuantified q vs t) = .ok u)
    (hvs : ∀ v ∈ vs, v ∈ V) : u.rebinds [] = false := by
  split at h
  · exact Except.ok.inj h ▸ ht.once
  · obtain ⟨_, _, rfl⟩ := Term.mkQuantified_eq_ok.1 h
    exact ht.once_quantified hvs

theorem clear_hasResult {op : Arithmetic} {a b : Value} (ha : Clear V n a.term)
    (hb : Clear V n b.term) (z : Variable) : Clear V n (hasResult op a b z) :=
  Composes.binary (Composes.binary ha hb) (clear_call_variable intValue z)

theorem clear_holdsElement (h : Clear V n t) (z : Variable) : Clear V n (holdsElement t z) :=
  Composes.binary (clear_tuple_variable z) h

section Axioms

variable {op : Arithmetic} {n : Narrowed} {guard result : Term} (hW : AllSettled s.fresh W)
  (hterms : ∀ t ∈ n.terms, Clear W s.fresh t) (hresult : Clear W s.fresh result)

include hW hterms hresult

theorem once_soundAxiom (hvars : ∀ v ∈ n.vars, v ∈ W) (hguard : Clear W s.fresh guard)
    (h : Runs (soundAxiom op n guard result) s u s') : Nests s s' ∧ u.rebinds [] = false := by
  obtain ⟨z, x, y, body, witness, m, hz, hx, hy, hbody, hwitness, hall⟩ := runs_soundAxiom h
  -- the element of the result is known where its operands are read
  have hz : Born s.fresh s.next.fresh z := hz ▸ born_next "z" .uint s
  have hknown : AllSettled s.next.fresh (insert z W) := by
    rintro v (rfl | hv)
    · exact hz.settled
    · exact (hW v hv).mono (Nat.le_succ _)
  have hlater : ∀ {t : Term}, Clear W s.fresh t → Clear (insert z W) s.next.fresh t := fun ht =>
    ht.widen (Nat.le_succ _) fun v hv => hv.elim (fun he => he ▸ hz.later) Or.inl
  obtain ⟨hgrows, hx, hy⟩ := clear_readings keepsParts_isIn (hlater (hterms _ List.mem_cons_self))
    (hlater (hterms _ (List.mem_cons_of_mem _ List.mem_cons_self))) (Nat.le_refl _) hx hy
  have hbody : Clear (insert z W) s.next.fresh body := Composes.allOf hbody fun c hc => by
    simp only [List.mem_append, List.mem_singleton] at hc
    rcases hc with (hc | hc) | rfl
    · exact hx.conditions c hc
    · exact hy.conditions c hc
    · exact clear_hasResult hx.term hy.term z
  have hwitness := hbody.closure hwitness hgrows.fresh hknown (born_both hx hy)
  have hpremise : Clear (insert z W) s.next.fresh
      (.binary (.connective .and) guard (holdsElement result z)) :=
    Composes.binary (hlater hguard) (clear_holdsElement (hlater hresult) z)
  have himplies : Clear (insert z W) s'.fresh (.binary (.connective .implies)
      (.binary (.connective .and) guard (holdsElement result z)) witness) :=
    Composes.binary (hpremise.later hgrows.fresh) hwitness
  refine ⟨(nests_next s).trans hgrows, himplies.once_closure hall fun v hv => ?_⟩
  rcases List.mem_append.1 hv with hv | hv
  · exact Or.inr (hvars v hv)
  · exact Or.inl (List.mem_singleton.1 hv)

theorem once_completeAxiom (hvars : ∀ v ∈ n.vars, v ∈ W) (hguard : Clear W s.fresh guard)
    (h : Runs (completeAxiom op n guard result) s u s') : Nests s s' ∧ u.rebinds [] = false := by
  obtain ⟨z, x, y, body, i, m, hz, hx, hy, rfl, hbody, hall⟩ := runs_completeAxiom h
  obtain ⟨hgrows, hx, hy⟩ := clear_readings keepsParts_isIn (hterms _ List.mem_cons_self)
    (hterms _ (List.mem_cons_of_mem _ List.mem_cons_self)) (Nat.le_refl _) hx hy
  -- what the operands are read by is known where the element of the result is asked for
  have hborn := born_both hx hy
  have hknown : AllSettled m.fresh (W ∪ {v | v ∈ x.vars ++ y.vars}) := fun v hv =>
    hv.elim (hW.mono hgrows.fresh v) fun hv => (hborn v hv).settled
  have hlater : ∀ {t : Term}, Clear W s.fresh t →
      Clear (W ∪ {v | v ∈ x.vars ++ y.vars}) m.fresh t := fun ht =>
    ht.widen hgrows.fresh fun v hv => hv.elim Or.inl fun hv => (hborn v hv).later
  have hbody : Clear W s.fresh body := Composes.allOf hbody fun c hc => by
    simp only [List.cons_append, List.mem_cons, List.mem_append] at hc
    rcases hc with rfl | hc | hc
    · exact hguard
    · exact hx.conditions c hc
    · exact hy.conditions c hc
  have hz : Born m.fresh m.next.fresh z := hz ▸ born_next "z" .uint m
  have hresult : Clear (W ∪ {v | v ∈ x.vars ++ y.vars}) m.fresh
      (.binary (.connective .and) (holdsElement result z) (hasResult op x y z)) :=
    Composes.binary (clear_holdsElement (hlater hresult) z)
      (clear_hasResult (hlater hx.term) (hlater hy.term) z)
  have hexists := hresult.quantified (q := .ex) (Nat.le_succ _) hknown
    (List.forall_mem_singleton.2 hz)
  have himplies : Clear (W ∪ {v | v ∈ x.vars ++ y.vars}) m.next.fresh
      (.binary (.connective .implies) body (.quantified .ex [z]
        (.binary (.connective .and) (holdsElement result z) (hasResult op x y z)))) :=
    Composes.binary ((hlater hbody).later (Nat.le_succ _)) hexists
  refine ⟨hgrows.trans (nests_next m), himplies.once_closure hall fun v hv => ?_⟩
  rw [List.append_assoc, List.mem_append] at hv
  exact hv.imp (hvars v) id

theorem clear_singletonAxiom (h : Runs (singletonAxiom op n.a n.b result) s u s') :
    Nests s s' ∧ Clear W s'.fresh u := by
  obtain ⟨z, x, y, body, i, m, rfl, hx, hy, rfl, hbody, hex⟩ := runs_singletonAxiom h
  obtain ⟨hm, hx, hy⟩ := clear_readings keepsParts_isAllOf (hterms _ List.mem_cons_self)
    (hterms _ (List.mem_cons_of_mem _ List.mem_cons_self)) (Nat.le_refl _) hx hy
  have hgrows := hm.trans (nests_next m)
  have hbody : Clear W s.fresh body := Composes.allOf hbody fun c hc => by
    simp only [List.mem_append, List.mem_cons, List.not_mem_nil, or_false] at hc
    rcases hc with (hc | hc) | rfl | rfl
    · exact hx.conditions c hc
    · exact hy.conditions c hc
    · exact Composes.binary hresult (clear_tuple_variable _)
    · exact clear_hasResult hx.term hy.term _
  refine ⟨hgrows, hbody.closure hex hgrows.fresh hW fun v hv => ?_⟩
  rcases List.mem_append.1 hv with hv | hv
  · exact (born_both hx hy v hv).mono (Nat.le_refl _) (Nat.le_succ _)
  · rw [List.mem_singleton.1 hv]
    exact (born_next "z" .uint m).mono hm.fresh (Nat.le_refl _)

end Axioms

section Operation

variable {op : Arithmetic} {x y : Term} {o : Operation} {m : Session}
  (henv : AllClear V s.fresh env) (hxcovers : env.Covers V x) (hycovers : env.Covers V y)
  (ho : o.Begins op x y env s m)

include henv hxcovers hycovers ho

/-- The axioms close over parameters, which are known, and over elements born in between. -/
theorem known_or_born_narrowed : ∀ v ∈ o.narrowed.vars, v ∈ V ∨ Born s.fresh m.fresh v := by
  intro v hv
  rcases narrowed_variables ho hv with hv | ⟨i, hi, him, hname⟩
  · exact Or.inl (mem_parameters ho henv.hygienic hxcovers hycovers hv).1
  · exact Or.inr ⟨"e", i, hi, him, hname⟩

theorem clear_narrowed (hx : Clear V s.fresh x) (hy : Clear V s.fresh y) :
    (∀ t ∈ o.narrowed.terms, Clear V s.fresh t) ∧
      ∀ t ∈ o.narrowed.arguments, Clear V s.fresh t := by
  refine unshadowed_narrows ho.narrows (fun t ht => ?_) (by simp)
  rcases mem_operands ho ht with rfl | rfl | ⟨p, hp, hc⟩
  · exact hx
  · exact hy
  · exact henv.limits p (mem_parameters ho henv.hygienic hxcovers hycovers hp).1 t hc

end Operation

/-- **Axioms of operations on integers bind no name again.** -/
theorem clear_arithmetic {op : Arithmetic} {x y : Term} (henv : AllClear V s.fresh env)
    (hxcovers : env.Covers V x) (hycovers : env.Covers V y) (hx : Clear V s.fresh x)
    (hy : Clear V s.fresh y) (h : Runs (arithmetic op x y env) s t s') :
    Nests s s' ∧ Clear V s'.fresh t := by
  obtain ⟨o, m, ho, h⟩ := runs_arithmetic h
  have hm : Nests s m := nests_of_eq ho.narrows.adds.fresh
    (by rw [ho.narrows.adds.assertions, List.append_nil])
  have hbegin : Nests s (m.next.declaring o.function) :=
    (hm.trans (nests_next m)).trans (nests_declaring _ _)
  obtain ⟨hterms, harguments⟩ := clear_narrowed henv hxcovers hycovers ho hx hy
  have hvars := known_or_born_narrowed henv hxcovers hycovers ho
  have hknown : AllSettled (m.next.declaring o.function).fresh (V ∪ {v | v ∈ o.narrowed.vars}) := by
    have hV : AllSettled s.fresh V := henv.hygienic.settled
    rintro v (hv | hv)
    · exact hV.mono hbegin.fresh v hv
    · rcases hvars v hv with hv | hv
      · exact hV.mono hbegin.fresh v hv
      · exact hv.settled.mono (Nat.le_succ _)
  have hlater : ∀ {t : Term}, Clear V s.fresh t →
      Clear (V ∪ {v | v ∈ o.narrowed.vars}) (m.next.declaring o.function).fresh t := fun ht =>
    ht.widen hbegin.fresh fun v hv => hv.elim Or.inl fun hv => (hvars v hv).elim Or.inl Born.later
  -- nothing of an axiom is seen further out than the quantifier that closes it
  have hresult := hlater (.apply ho.result harguments)
  have hguard : Clear V s.fresh o.guard := Composes.allOf ho.guard fun c hc =>
    hterms c (List.mem_cons_of_mem _ (List.mem_cons_of_mem _ hc))
  have hterms := fun t ht => hlater (hterms t ht)
  split at h
  · obtain ⟨body, guarded, formula, comment, call, i, hbody, hguarded, hall, hcall, rfl, rfl⟩ := h
    obtain ⟨hi, hbody⟩ := clear_singletonAxiom hknown hterms hresult hbody
    have hguarded : Clear (V ∪ {v | v ∈ o.narrowed.vars}) i.fresh guarded := by
      rcases hguarded with ⟨_, rfl⟩ | rfl
      · exact hbody
      · exact Composes.binary ((hlater hguard).later hi.fresh) hbody
    exact ⟨(hbegin.trans hi).trans (nests_asserting (hguarded.once_closure hall fun v => Or.inr)),
      Composes.unary (unshadowed_apply hcall)⟩
  · obtain ⟨sound, complete, comment, comment', i, j, hsound, hcomplete, hcall, rfl⟩ := h
    obtain ⟨hi, hsound⟩ := once_soundAxiom hknown hterms hresult (fun v hv => Or.inr hv)
      (hlater hguard) hsound
    obtain ⟨hj, hcomplete⟩ := once_completeAxiom (hknown.mono hi.fresh)
      (fun t ht => (hterms t ht).later hi.fresh) (hresult.later hi.fresh) (fun v hv => Or.inr hv)
      ((hlater hguard).later hi.fresh) hcomplete
    exact ⟨(((hbegin.trans hi).trans hj).trans (nests_asserting hsound)).trans
      (nests_asserting hcomplete), unshadowed_apply hcall⟩

end RelSmt.Lowering
