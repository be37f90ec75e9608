import RelSmt.Proofs.Lowering.Forked

/-!
# Whole formulas in two sessions

Binders, operations on integers and, by induction on expressions, formulas: what one of two forked
sessions makes of a formula is what the other makes of it, up to the names that they have made.

Comments may begin with the name of a function, so those of the two sessions differ by a pair of
names there.
-/

namespace RelSmt.Lowering

variable {G : FunctionSymbol → Prop} {C : String → Prop} {k b : Session} {ρ ρ' : Renaming}

/-! ## Binders -/

/-- Declarations have led to the same names in scope, and to renamed variables and constraints. -/
structure Bound.Renamed (G : FunctionSymbol → Prop) (ρ : Renaming) (p q : Bound) : Prop where
  scope : p.scope.Renamed G ρ.Pairs q.scope
  vars : List.Forall₂ (Variables G ρ) p.vars q.vars
  constraints : List.Forall₂ (Terms G ρ) p.constraints q.constraints

/-- What is returned is a bound and something besides. -/
def Bound.RenamedWith {α β : Type} (G : FunctionSymbol → Prop) (R : Renaming → α → β → Prop)
    (ρ : Renaming) (p : Bound × α) (q : Bound × β) : Prop :=
  p.1.Renamed G ρ q.1 ∧ R ρ p.2 q.2

section

variable {p q : Bound} {t t' u u' : Term}

theorem Bound.Renamed.mono (h : p.Renamed G ρ q) (hρ : ρ.Within ρ') : p.Renamed G ρ' q where
  scope := h.scope.mono hρ
  vars := Variable.Renamed.monoAll hρ h.vars
  constraints := Term.Renamed.monoAll hρ h.constraints

/-- One more variable is bound. -/
theorem Bound.Renamed.add {v w : Variable} {name : String} (h : p.Renamed G ρ q)
    (ht : Terms G ρ t t') (hv : Variables G ρ v w) (hu : Terms G ρ u u') :
    Bound.Renamed G ρ ⟨p.scope.put name t, p.vars ++ [v], p.constraints ++ [u]⟩
      ⟨q.scope.put name t', q.vars ++ [w], q.constraints ++ [u']⟩ where
  scope := h.scope.put ht
  vars := List.rel_append h.vars (.cons hv .nil)
  constraints := List.rel_append h.constraints (.cons hu .nil)

theorem follows_boundConstraint (m : Relational.Multiplicity) (ht : Terms G ρ t t')
    (hu : Terms G ρ u u') :
    Follows G C k b ρ (Terms G) (boundConstraint m t u) (boundConstraint m t' u') := by
  cases m with
  | one => exact follows_lift (ht.mkBinary hu)
  | some =>
    exact follows_lift_bind (ht.mkBinary hu) fun _ _ hw =>
      follows_lift_bind (follows_nonEmpty ht) fun _ _ hn => follows_lift (hw.mkBinary hn)
  | lone =>
    exact follows_lift_bind (ht.mkBinary hu) fun _ _ hw =>
      (follows_atMostOne ht).bind fun _ _ _ h hl => follows_lift ((hw.mono h).mkBinary hl)
  | set => exact follows_lift (ht.mkBinary hu)
  | no => exact follows_lift (ht.mkBinary hu)

theorem follows_limited {x y : String} (hname : ρ.Pairs x y) (sort : SmtSort)
    (ht : Terms G ρ t t') :
    Checked.Follows (Variables G ρ) (Variable.limited x sort (some t))
      (Variable.limited y sort (some t')) := by
  unfold Variable.limited
  dsimp only
  rw [ht.sort_eq]
  split
  · exact Checked.follows_ok (.limited hname ht)
  · exact Checked.follows_error

theorem follows_bindVar (m : Relational.Multiplicity) (element : SmtSort) (v : Relational.Var)
    (hu : Terms G ρ u u') (hp : p.Renamed G ρ q) :
    Follows G C k b ρ (Bound.RenamedWith G (Terms G)) (bindVar m u element p v)
      (bindVar m u' element q v) := by
  refine (follows_freshName (.inl rfl)).bind fun ρ₁ x y h₁ hname => ?_
  dsimp only
  refine Follows.guarded fun _ => ?_
  rw [hu.sort_eq]
  refine (follows_boundConstraint m (.variable (.plain hname)) (hu.mono h₁)).bind
    fun ρ₂ c c' h₂ hc => ?_
  refine follows_lift_bind (follows_limited (h₂ _ _ hname) _ hc) fun w w' hw => ?_
  have hp := (hp.mono h₁).mono h₂
  split
  · refine follows_lift_bind hw.term.mkUnary fun i i' hi => ?_
    exact follows_pure ⟨hp.add hi hw hc, hi⟩
  · exact follows_pure ⟨hp.add hw.term hw hc, hw.term⟩

theorem follows_bindVars (m : Relational.Multiplicity) (element : SmtSort) :
    ∀ {vs : List Relational.Var} {ρ : Renaming} {u u' : Term} {p q : Bound}, Terms G ρ u u' →
      p.Renamed G ρ q → Follows G C k b ρ (Bound.RenamedWith G fun ρ => List.Forall₂ (Terms G ρ))
        (bindVars m u element p vs) (bindVars m u' element q vs)
  | [], _, _, _, _, _, _, hp => follows_pure ⟨hp, .nil⟩
  | v :: vs, ρ, u, u', p, q, hu, hp => by
    refine (follows_bindVar m element v hu hp).bind fun ρ₁ ⟨p₁, i⟩ ⟨q₁, i'⟩ h₁ ⟨hp₁, hi⟩ => ?_
    refine (follows_bindVars m element (hu.mono h₁) hp₁).bind
      fun ρ₂ ⟨p₂, is⟩ ⟨q₂, is'⟩ h₂ ⟨hp₂, his⟩ => ?_
    exact follows_pure ⟨hp₂, .cons (hi.mono h₂) his⟩

theorem forall₂_pairs {α β : Type} {R : α → β → Prop} {as : List α} {bs : List β}
    (h : List.Forall₂ R as bs) :
    List.Forall₂ (fun p q => R p.1 q.1 ∧ R p.2 q.2) (pairs as) (pairs bs) := by
  induction h with
  | nil => exact .nil
  | cons h hs ih => exact List.rel_append (List.rel_map (fun _ _ h' => ⟨h, h'⟩) hs) ih

theorem forall₂_zip {α β γ δ : Type} {R : α → β → Prop} {S : γ → δ → Prop} {as : List α}
    {bs : List β} {cs : List γ} {ds : List δ} (h : List.Forall₂ R as bs)
    (h' : List.Forall₂ S cs ds) :
    List.Forall₂ (fun p q => R p.1 q.1 ∧ S p.2 q.2) (as.zip cs) (bs.zip ds) := by
  induction h generalizing cs ds with
  | nil => exact .nil
  | cons h _ ih =>
    cases h' with
    | nil => exact .nil
    | cons h' hs' => exact .cons ⟨h, h'⟩ (ih hs')

theorem follows_bindDecl (vs : List Relational.Var) (m : Relational.Multiplicity) (disjoint : Bool)
    (hu : Terms G ρ u u') (hp : p.Renamed G ρ q) :
    Follows G C k b ρ (Bound.Renamed G) (bindDecl vs m u disjoint p)
      (bindDecl vs m u' disjoint q) := by
  unfold bindDecl
  rw [hu.sort_eq]
  split
  · exact follows_throw
  · refine (follows_bindVars m _ hu hp).bind fun ρ₁ ⟨p₁, is⟩ ⟨q₁, is'⟩ h₁ ⟨hp₁, his⟩ => ?_
    dsimp only
    split
    · refine (follows_mapM_lift (fun _ _ h => follows_disjointSets h.1 h.2)
        (forall₂_pairs his)).bind fun ρ₂ cs cs' h₂ hcs => ?_
      have hp₁ := hp₁.mono h₂
      exact follows_pure ⟨hp₁.scope, hp₁.vars,
        List.rel_append hp₁.constraints (Term.Renamed.monoAll h₂ hcs)⟩
    · exact follows_pure hp₁

/-- The copies are renamed, and so is the copied formula. -/
def CopyRenamed (G : FunctionSymbol → Prop) (ρ : Renaming) (x y : List Variable × Term) : Prop :=
  List.Forall₂ (Variables G ρ) x.1 y.1 ∧ Terms G ρ x.2 y.2

theorem follows_freshCopy : ∀ {vs ws : List Variable} {ρ : Renaming} {t t' : Term},
    List.Forall₂ (Variables G ρ) vs ws → Terms G ρ t t' →
    Follows G C k b ρ (CopyRenamed G) (freshCopy t vs) (freshCopy t' ws)
  | [], _, _, _, _, .nil, ht => follows_pure ⟨.nil, ht⟩
  | v :: vs, w :: ws, ρ, t, t', .cons hv hvs, ht => by
    simp only [freshCopy]
    rw [hv.sort_eq]
    refine (follows_freshVariable (.inr hv.name) _).bind fun ρ₁ c c' h₁ hc => ?_
    refine follows_of_biUnique fun hone => ?_
    refine follows_lift_bind ((ht.mono h₁).substitute hone (hv.mono h₁) hc.term) fun u u' hu => ?_
    refine (follows_freshCopy (Variable.Renamed.monoAll h₁ hvs) hu).bind
      fun ρ₂ ⟨cs, e⟩ ⟨cs', e'⟩ h₂ ⟨hcs, he⟩ => ?_
    exact follows_pure ⟨.cons (hc.mono h₂) hcs, he⟩

theorem follows_sameValues {r : String → String → Prop} {vs vs' ws ws' : List Variable}
    (hv : List.Forall₂ (Variable.Renamed G r) vs vs')
    (hw : List.Forall₂ (Variable.Renamed G r) ws ws') :
    Checked.Follows (Term.Renamed G r) (sameValues vs ws) (sameValues vs' ws') :=
  (Checked.Follows.mapM (fun _ _ h => h.1.term.mkBinary h.2.term) (forall₂_zip hv hw)).bind
    fun _ _ h => Term.Renamed.allOf h

theorem follows_quantify (op : Relational.Quantifier) (hp : p.Renamed G ρ q) (ht : Terms G ρ t t') :
    Follows G C k b ρ (Terms G) (quantify op p t) (quantify op q t') := by
  refine follows_lift_bind (Term.Renamed.allOf hp.constraints) fun c c' hc => ?_
  have hvs := hp.vars
  cases op with
  | all =>
    exact follows_lift_bind (hc.mkBinary ht) fun _ _ hi =>
      follows_lift (Term.Renamed.mkQuantified hvs hi)
  | some =>
    exact follows_lift_bind (hc.mkBinary ht) fun _ _ hi =>
      follows_lift (Term.Renamed.mkQuantified hvs hi)
  | no =>
    exact follows_lift_bind (hc.mkBinary ht) fun _ _ hi =>
      follows_lift_bind (Term.Renamed.mkQuantified hvs hi) fun _ _ he => follows_lift he.mkUnary
  | one =>
    refine follows_lift_bind (hc.mkBinary ht) fun w w' hw => ?_
    refine (follows_freshCopy hvs hw).bind fun ρ₁ ⟨cs, e⟩ ⟨cs', e'⟩ h₁ ⟨hcs, he⟩ => ?_
    -- the copies extend the renaming, and what was renamed before stays so
    have hvs := Variable.Renamed.monoAll h₁ hvs
    refine follows_lift_bind (follows_sameValues hvs hcs) fun s s' hs => ?_
    refine follows_lift_bind (he.mkBinary hs) fun i i' hi => ?_
    refine follows_lift_bind (Term.Renamed.mkQuantified hcs hi) fun o o' ho => ?_
    refine follows_lift_bind ((hw.mono h₁).mkBinary ho) fun j j' hj => ?_
    exact follows_lift (Term.Renamed.mkQuantified hvs hj)
  | lone =>
    refine follows_lift_bind (hc.mkBinary ht) fun w w' hw => ?_
    refine (follows_freshCopy hvs hw).bind fun ρ₁ ⟨cs, e⟩ ⟨cs', e'⟩ h₁ ⟨hcs, he⟩ => ?_
    have hvs := Variable.Renamed.monoAll h₁ hvs
    refine follows_lift_bind (follows_sameValues hvs hcs) fun s s' hs => ?_
    refine follows_lift_bind ((hw.mono h₁).mkBinary he) fun i i' hi => ?_
    refine follows_lift_bind (hi.mkBinary hs) fun j j' hj => ?_
    exact follows_lift (Term.Renamed.mkQuantified (List.rel_append hvs hcs) hj)
  | comprehension => exact follows_throw

theorem follows_tupleOf {r : String → String → Prop} {vs ws : List Variable}
    (h : List.Forall₂ (Variable.Renamed G r) vs ws) :
    Checked.Follows (Term.Renamed G r) (tupleOf vs) (tupleOf ws) := by
  cases h with
  | nil => exact Checked.follows_error
  | cons hv hvs =>
    refine hv.term.mkUnary.bind fun t t' ht => ?_
    exact Checked.Follows.foldlM
      (fun _ _ _ _ ht hw => hw.term.mkUnary.bind fun _ _ hs => ht.mkBinary hs) hvs ht

theorem follows_comprehend (columns : List Relational.Column) (hp : p.Renamed G ρ q)
    (ht : Terms G ρ t t') :
    Follows G C k b ρ (Terms G) (comprehend columns p t) (comprehend columns q t') := by
  refine follows_lift_bind (Term.Renamed.allOf hp.constraints) fun c c' hc => ?_
  refine follows_lift_bind (hc.mkBinary ht) fun d d' hd => ?_
  refine follows_of_biUnique fun hone => ?_
  -- the parameters of the relation
  have houter : List.Forall₂ (Variables G ρ) (d.freeVariables.filter fun v => !p.vars.contains v)
      (d'.freeVariables.filter fun v => !q.vars.contains v) :=
    forall₂_filter (fun _ _ hv => congrArg not (hv.contains_congr hone hp.vars))
      (hd.freeVariables hone)
  dsimp only
  refine (follows_freshName (.inl rfl)).bind fun ρ₁ x y h₁ hname => ?_
  have houter := Variable.Renamed.monoAll h₁ houter
  have hp := hp.mono h₁
  refine follows_lift_bind (Q := Eq) (fun s hs => ⟨s, hs, rfl⟩) fun s s' hs => ?_
  subst hs
  rw [Variable.Renamed.sorts_eq houter]
  have hrelation : ∀ (inputs : List SmtSort) (output : SmtSort),
      FunctionSymbol.Renamed G ρ₁.Pairs ⟨x, inputs, output⟩ ⟨y, inputs, output⟩ :=
    fun _ _ => .made hname
  refine (follows_declare (hrelation _ _)).bind fun ρ₂ _ _ h₂ _ => ?_
  have hterms := List.rel_map (fun _ _ hv => Variable.Renamed.term hv) houter
  refine follows_lift_bind (((hrelation _ _).mono h₂).apply (Term.Renamed.monoAll h₂ hterms))
    fun a a' ha => ?_
  have hp := hp.mono h₂
  refine follows_lift_bind (follows_tupleOf hp.vars) fun u u' hu => ?_
  refine follows_lift_bind (hu.mkBinary ha) fun w w' hw => ?_
  refine follows_lift_bind (hw.mkBinary ((hd.mono h₁).mono h₂)) fun e e' he => ?_
  refine follows_lift_bind (Term.Renamed.mkQuantified
    (List.rel_append (Variable.Renamed.monoAll h₂ houter) hp.vars) he) fun f f' hf => ?_
  refine (follows_assert (.named (h₂ _ _ hname) _) hf).bind fun ρ₃ _ _ h₃ _ => ?_
  exact follows_pure (ha.mono h₃)

end

/-! ## Operations on integers -/

/-- The operands are of one kind, and their terms are renamed. -/
inductive Operand.Renamed (G : FunctionSymbol → Prop) (r : String → String → Prop) :
    Operand → Operand → Prop where
  | value {t t'} (h : t.Renamed G r t') : Operand.Renamed G r (.value t) (.value t')
  | relation {t t'} (h : t.Renamed G r t') : Operand.Renamed G r (.relation t) (.relation t')

/-- The axioms are stated over renamed operands, constraints, variables and arguments. -/
structure Narrowed.Renamed (G : FunctionSymbol → Prop) (ρ : Renaming) (n o : Narrowed) : Prop where
  a : n.a.Renamed G ρ.Pairs o.a
  b : n.b.Renamed G ρ.Pairs o.b
  constraints : List.Forall₂ (Terms G ρ) n.constraints o.constraints
  vars : List.Forall₂ (Variables G ρ) n.vars o.vars
  arguments : List.Forall₂ (Terms G ρ) n.arguments o.arguments

section

variable {r r' : String → String → Prop} {o o' : Operand} {t t' u u' : Term} {n n' : Narrowed}
  {env env' : Environment}

theorem Operand.Renamed.mono (hr : ∀ x y, r x y → r' x y) (h : o.Renamed G r o') :
    o.Renamed G r' o' := by
  cases h with
  | value h => exact .value (h.mono hr)
  | relation h => exact .relation (h.mono hr)

theorem Operand.Renamed.term (h : o.Renamed G r o') : o.term.Renamed G r o'.term := by
  cases h with
  | value h => exact h
  | relation h => exact h

theorem follows_ofTerm (h : t.Renamed G r t') :
    Checked.Follows (Operand.Renamed G r) (Operand.ofTerm t) (Operand.ofTerm t') := by
  unfold Operand.ofTerm
  rw [h.sort_eq]
  split
  · exact Checked.follows_ok (.value h)
  · split
    · exact Checked.follows_ok (.relation h)
    · exact Checked.follows_error

theorem Operand.Renamed.replace {v w : Variable} (hone : Relator.BiUnique r)
    (h : o.Renamed G r o') (hv : v.Renamed G r w) (ht : t.Renamed G r t') :
    Checked.Follows (Operand.Renamed G r) (o.replace v.term t) (o'.replace w.term t') := by
  cases h with
  | value h =>
    exact (Term.Renamed.replace hone hv ht h).bind fun _ _ hu => Checked.follows_ok (.value hu)
  | relation h =>
    exact (Term.Renamed.replace hone hv ht h).bind fun _ _ hu => Checked.follows_ok (.relation hu)

theorem Narrowed.Renamed.mono (h : n.Renamed G ρ n') (hρ : ρ.Within ρ') : n.Renamed G ρ' n' where
  a := h.a.mono hρ
  b := h.b.mono hρ
  constraints := Term.Renamed.monoAll hρ h.constraints
  vars := Variable.Renamed.monoAll hρ h.vars
  arguments := Term.Renamed.monoAll hρ h.arguments

/-! ### Parameters -/

theorem constraintVariables_congr {v w : Variable} (hone : Relator.BiUnique r)
    (h : v.Renamed G r w) :
    List.Forall₂ (Variable.Renamed G r) (constraintVariables v) (constraintVariables w) := by
  cases h with
  | plain _ => exact .nil
  | limited _ hc => exact hc.freeOccurrences hone

theorem enclosingFrom_congr (hone : Relator.BiUnique r) (henv : env.Renamed G r env')
    (found vs : List Variable) {found' vs' : List Variable}
    (hfound : List.Forall₂ (Variable.Renamed G r) found found')
    (hvs : List.Forall₂ (Variable.Renamed G r) vs vs') :
    List.Forall₂ (Variable.Renamed G r) (enclosingFrom env found vs)
      (enclosingFrom env' found' vs') := by
  -- the two walks take the same turns, since they ask the same of each candidate
  induction found, vs using enclosingFrom.induct env generalizing found' vs' with
  | case1 found =>
    cases hvs
    simpa only [enclosingFrom] using hfound
  | case2 found v vs hskip ih =>
    obtain _ | ⟨hv, hvs⟩ := hvs
    have hskip' := hskip
    rw [hv.contains_congr hone hfound, henv.mentions_congr hone hv] at hskip'
    rw [enclosingFrom, enclosingFrom, if_pos hskip, if_pos hskip']
    exact ih hfound hvs
  | case3 found v vs hskip ih =>
    obtain _ | ⟨hv, hvs⟩ := hvs
    have hskip' := hskip
    rw [hv.contains_congr hone hfound, henv.mentions_congr hone hv] at hskip'
    rw [enclosingFrom, enclosingFrom, if_neg hskip, if_neg hskip']
    exact ih (List.rel_append hfound (.cons hv .nil))
      (List.rel_append hvs (constraintVariables_congr hone hv))

theorem enclosingVariables_congr {p p' : Operand} (hone : Relator.BiUnique r)
    (ho : o.Renamed G r o') (hp : p.Renamed G r p') (henv : env.Renamed G r env') :
    List.Forall₂ (Variable.Renamed G r) (enclosingVariables o p env)
      (enclosingVariables o' p' env') :=
  enclosingFrom_congr hone henv _ _ .nil
    (List.rel_append (ho.term.freeOccurrences hone) (hp.term.freeOccurrences hone))

theorem constraint_congr {v w : Variable} (h : v.Renamed G r w) :
    Option.Rel (Term.Renamed G r) v.constraint w.constraint := by
  cases h with
  | plain _ => exact .none
  | limited _ hc => exact .some hc

theorem follows_add {v w : Variable} (hn : n.Renamed G ρ n') (hv : Variables G ρ v w) :
    Follows G C k b ρ (Narrowed.Renamed G) (n.add v) (n'.add w) := by
  unfold Narrowed.add
  rw [hv.sort_eq]
  split
  · exact follows_pure ⟨hn.a, hn.b, hn.constraints, List.rel_append hn.vars (.cons hv .nil),
      List.rel_append hn.arguments (.cons hv.term .nil)⟩
  · refine (follows_freshVariable (.inl rfl) _).bind fun ρ₁ e e' h₁ he => ?_
    refine follows_of_biUnique fun hone => ?_
    have hn := hn.mono h₁
    have hv := hv.mono h₁
    refine follows_lift_bind he.term.mkUnary fun s s' hs => ?_
    refine follows_lift_bind (hn.a.replace hone hv hs) fun a a' ha => ?_
    refine follows_lift_bind (hn.b.replace hone hv hs) fun c c' hc => ?_
    refine (follows_mapM_lift (fun _ _ ht => Term.Renamed.replace hone hv hs ht)
      hn.constraints).bind fun ρ₂ cs cs' h₂ hcs => ?_
    exact follows_pure ⟨ha.mono h₂, hc.mono h₂, Term.Renamed.monoAll h₂ hcs,
      List.rel_append (Variable.Renamed.monoAll h₂ hn.vars) (.cons (he.mono h₂) .nil),
      List.rel_append (Term.Renamed.monoAll h₂ hn.arguments) (.cons (hs.mono h₂) .nil)⟩

/-! ### Axioms -/

theorem follows_allOver {vs ws : List Variable} (hvs : List.Forall₂ (Variable.Renamed G r) vs ws)
    (h : t.Renamed G r t') :
    Checked.Follows (Term.Renamed G r) (allOver vs t) (allOver ws t') := by
  unfold allOver
  rw [isEmpty_congr hvs]
  split
  · exact Checked.follows_ok h
  · exact Term.Renamed.mkQuantified hvs h

theorem follows_exOver {vs ws : List Variable} (hvs : List.Forall₂ (Variable.Renamed G r) vs ws)
    (h : t.Renamed G r t') :
    Checked.Follows (Term.Renamed G r) (exOver vs t) (exOver ws t') := by
  unfold exOver
  rw [isEmpty_congr hvs]
  split
  · exact Checked.follows_ok h
  · exact Term.Renamed.mkQuantified hvs h

theorem follows_isAllOf (ht : t.Renamed G r t') (hu : u.Renamed G r u') :
    Checked.Follows (Term.Renamed G r) (isAllOf t u) (isAllOf t' u') :=
  ht.mkUnary.bind fun _ _ hs => hu.mkBinary hs

theorem follows_operandValue {condition : Term → Term → Checked Term}
    (hcondition : ∀ {r : String → String → Prop} {t t' u u'}, t.Renamed G r t' → u.Renamed G r u' →
      Checked.Follows (Term.Renamed G r) (condition t u) (condition t' u'))
    (h : o.Renamed G ρ.Pairs o') :
    Follows G C k b ρ (Value.Renamed G) (operandValue condition o) (operandValue condition o') := by
  refine follows_of_gives fun hb => ?_
  cases h with
  | value h => exact follows_pure ⟨h, .nil, .nil⟩
  | relation h =>
    refine (follows_freshVariable (.inl rfl) .uint).bind fun ρ₁ x x' h₁ hx => ?_
    refine follows_lift_bind (Term.Renamed.mkNary (.cons hx.term .nil)) fun p p' hp => ?_
    refine follows_lift_bind (hcondition hp (h.mono h₁)) fun c c' hc => ?_
    refine follows_lift_bind (follows_valueOf hb.value hx.term) fun v v' hv => ?_
    exact follows_pure ⟨hv, .cons hx .nil, .cons hc .nil⟩

theorem follows_resultIs (op : Arithmetic) {x x' y y' : Value} (hx : x.Renamed G ρ x')
    (hy : y.Renamed G ρ y') (ht : Terms G ρ t t') :
    Checked.Follows (Terms G ρ) (resultIs op x y t) (resultIs op x' y' t') :=
  (hx.term.mkBinary hy.term).bind fun _ _ h => h.mkBinary ht

theorem follows_isIn {r : String → String → Prop} {t t' u u' : Term} (ht : t.Renamed G r t')
    (hu : u.Renamed G r u') : Checked.Follows (Term.Renamed G r) (t.isIn u) (t'.isIn u') :=
  ht.mkBinary hu

theorem follows_singletonAxiom (op : Arithmetic) {p p' : Operand} (ho : o.Renamed G ρ.Pairs o')
    (hp : p.Renamed G ρ.Pairs p') (ht : Terms G ρ t t') :
    Follows G C k b ρ (Terms G) (singletonAxiom op o p t) (singletonAxiom op o' p' t') := by
  refine follows_of_gives fun hb => ?_
  refine (follows_operandValue follows_isAllOf ho).bind fun ρ₁ x x' h₁ hx => ?_
  refine (follows_operandValue follows_isAllOf (hp.mono h₁)).bind fun ρ₂ y y' h₂ hy => ?_
  refine (follows_freshVariable (.inl rfl) .uint).bind fun ρ₃ z z' h₃ hz => ?_
  have ht := ((ht.mono h₁).mono h₂).mono h₃
  have hx := (hx.mono h₂).mono h₃
  have hy := hy.mono h₃
  refine follows_lift_bind (Term.Renamed.mkNary (.cons hz.term .nil)) fun p p' hp => ?_
  refine follows_lift_bind (ht.mkBinary hp) fun e e' he => ?_
  refine follows_lift_bind (follows_valueOf hb.value hz.term) fun v v' hv => ?_
  refine follows_lift_bind (follows_resultIs op hx hy hv) fun w w' hw => ?_
  refine follows_lift_bind (Term.Renamed.allOf (List.rel_append
    (List.rel_append hx.conditions hy.conditions) (.cons he (.cons hw .nil)))) fun a a' ha => ?_
  exact follows_lift (follows_exOver
    (List.rel_append (List.rel_append hx.vars hy.vars) (.cons hz .nil)) ha)

theorem follows_soundAxiom (op : Arithmetic) (hn : n.Renamed G ρ n') (hu : Terms G ρ u u')
    (ht : Terms G ρ t t') :
    Follows G C k b ρ (Terms G) (soundAxiom op n u t) (soundAxiom op n' u' t') := by
  refine follows_of_gives fun hb => ?_
  refine (follows_freshVariable (.inl rfl) .uint).bind fun ρ₁ z z' h₁ hz => ?_
  refine follows_lift_bind (follows_valueOf hb.value hz.term) fun v v' hv => ?_
  refine follows_lift_bind (Term.Renamed.mkNary (.cons hz.term .nil)) fun p p' hp => ?_
  refine follows_lift_bind (hp.mkBinary (ht.mono h₁)) fun i i' hi => ?_
  have hn := hn.mono h₁
  refine (follows_operandValue follows_isIn hn.a).bind fun ρ₂ x x' h₂ hx => ?_
  refine (follows_operandValue follows_isIn (hn.b.mono h₂)).bind fun ρ₃ y y' h₃ hy => ?_
  have hx := hx.mono h₃
  refine follows_lift_bind (follows_resultIs op hx hy ((hv.mono h₂).mono h₃)) fun w w' hw => ?_
  refine follows_lift_bind (Term.Renamed.allOf (List.rel_append
    (List.rel_append hx.conditions hy.conditions) (.cons hw .nil))) fun a a' ha => ?_
  refine follows_lift_bind (follows_exOver (List.rel_append hx.vars hy.vars) ha) fun e e' he => ?_
  have hu := ((hu.mono h₁).mono h₂).mono h₃
  refine follows_lift_bind (hu.mkBinary ((hi.mono h₂).mono h₃)) fun c c' hc => ?_
  refine follows_lift_bind (hc.mkBinary he) fun f f' hf => ?_
  have hn := (hn.mono h₂).mono h₃
  exact follows_lift (follows_allOver
    (List.rel_append hn.vars (.cons ((hz.mono h₂).mono h₃) .nil)) hf)

theorem follows_completeAxiom (op : Arithmetic) (hn : n.Renamed G ρ n') (hu : Terms G ρ u u')
    (ht : Terms G ρ t t') :
    Follows G C k b ρ (Terms G) (completeAxiom op n u t) (completeAxiom op n' u' t') := by
  refine follows_of_gives fun hb => ?_
  refine (follows_operandValue follows_isIn hn.a).bind fun ρ₁ x x' h₁ hx => ?_
  refine (follows_operandValue follows_isIn (hn.b.mono h₁)).bind fun ρ₂ y y' h₂ hy => ?_
  refine (follows_freshVariable (.inl rfl) .uint).bind fun ρ₃ z z' h₃ hz => ?_
  have hn := ((hn.mono h₁).mono h₂).mono h₃
  have hu := ((hu.mono h₁).mono h₂).mono h₃
  have ht := ((ht.mono h₁).mono h₂).mono h₃
  have hx := (hx.mono h₂).mono h₃
  have hy := hy.mono h₃
  refine follows_lift_bind (follows_valueOf hb.value hz.term) fun v v' hv => ?_
  refine follows_lift_bind (Term.Renamed.mkNary (.cons hz.term .nil)) fun p p' hp => ?_
  refine follows_lift_bind (hp.mkBinary ht) fun i i' hi => ?_
  refine follows_lift_bind (follows_resultIs op hx hy hv) fun w w' hw => ?_
  refine follows_lift_bind (hi.mkBinary hw) fun c c' hc => ?_
  refine follows_lift_bind (Term.Renamed.mkQuantified (.cons hz .nil) hc) fun e e' he => ?_
  refine follows_lift_bind (Term.Renamed.allOf
    (.cons hu (List.rel_append hx.conditions hy.conditions))) fun a a' ha => ?_
  refine follows_lift_bind (ha.mkBinary he) fun f f' hf => ?_
  exact follows_lift (follows_allOver
    (List.rel_append (List.rel_append hn.vars hx.vars) hy.vars) hf)

theorem bool?_congr {r : String → String → Prop} (h : t.Renamed G r t') : t.bool? = t'.bool? := by
  cases h <;> rfl

theorem follows_arithmetic (op : Arithmetic) (ht : Terms G ρ t t') (hu : Terms G ρ u u')
    (henv : env.Renamed G ρ.Pairs env') :
    Follows G C k b ρ (Terms G) (arithmetic op t u env) (arithmetic op t' u' env') := by
  refine follows_lift_bind (follows_ofTerm ht) fun o o' ho => ?_
  refine follows_lift_bind (follows_ofTerm hu) fun p p' hp => ?_
  refine follows_of_biUnique fun hone => ?_
  -- the parameters of the function correspond to each other, and so do the constraints on them
  have hvs := enclosingVariables_congr hone ho hp henv
  dsimp only
  refine (Follows.foldlM (S := Variables G) (fun h hv => hv.mono h) follows_add hvs
    ⟨ho, hp, List.rel_filterMap (fun _ _ h => constraint_congr h) hvs, .nil, .nil⟩).bind
    fun ρ₁ n n' h₁ hn => ?_
  refine follows_get_bind fun s m hs => ?_
  rw [hs.singletonsOnly_eq]
  refine (follows_freshName (.inl rfl)).bind fun ρ₂ x y h₂ hname => ?_
  have hvs := Variable.Renamed.monoAll h₂ (Variable.Renamed.monoAll h₁ hvs)
  rw [Variable.Renamed.sorts_eq hvs]
  have hfunction : ∀ (inputs : List SmtSort) (output : SmtSort),
      FunctionSymbol.Renamed G ρ₂.Pairs ⟨x, inputs, output⟩ ⟨y, inputs, output⟩ :=
    fun _ _ => .made hname
  have hterms := List.rel_map (fun _ _ hv => Variable.Renamed.term hv) hvs
  refine (follows_declare (hfunction _ _)).bind fun ρ₃ _ _ h₃ _ => ?_
  have hn := (hn.mono h₂).mono h₃
  refine follows_lift_bind (((hfunction _ _).mono h₃).apply hn.arguments) fun r r' hr => ?_
  refine follows_lift_bind (Term.Renamed.allOf hn.constraints) fun c c' hc => ?_
  -- the result, once the axioms have been asserted
  have hresult : ∀ {ρ' : Renaming} (inputs : List SmtSort) (output : SmtSort), ρ₂.Within ρ' →
      Checked.Follows (Terms G ρ')
        (FunctionSymbol.apply ⟨x, inputs, output⟩ ((enclosingVariables o p env).map Variable.term))
        (FunctionSymbol.apply ⟨y, inputs, output⟩
          ((enclosingVariables o' p' env').map Variable.term)) :=
    fun _ _ h => ((hfunction _ _).mono h).apply (Term.Renamed.monoAll h hterms)
  split
  · refine (follows_singletonAxiom op hn.a hn.b hr).bind fun ρ₄ d d' h₄ hd => ?_
    have h₂₄ := h₃.trans h₄
    have hrest : ∀ {e e' : Term}, Terms G ρ₄ e e' → Follows G C k b ρ₄ (Terms G)
        (do
          assert s!"{x} axiom" (← allOver n.vars e)
          (← FunctionSymbol.apply ⟨x, (enclosingVariables o' p' env').map Variable.sort,
            .tuple [.uint]⟩ ((enclosingVariables o p env).map Variable.term)).single)
        (do
          assert s!"{y} axiom" (← allOver n'.vars e')
          (← FunctionSymbol.apply ⟨y, (enclosingVariables o' p' env').map Variable.sort,
            .tuple [.uint]⟩ ((enclosingVariables o' p' env').map Variable.term)).single) := by
      intro e e' he
      refine follows_lift_bind (follows_allOver (Variable.Renamed.monoAll h₄ hn.vars) he)
        fun f f' hf => ?_
      refine (follows_assert (.named (h₂₄ _ _ hname) _) hf).bind fun ρ₅ _ _ h₅ _ => ?_
      exact follows_lift_bind (hresult _ _ (h₂₄.trans h₅)) fun _ _ hs => follows_lift hs.mkUnary
    rw [bool?_congr hc]
    split
    · exact hrest hd
    · exact follows_lift_bind ((hc.mono h₄).mkBinary hd) fun _ _ hi => hrest hi
  · refine (follows_soundAxiom op hn hc hr).bind fun ρ₄ d d' h₄ hd => ?_
    refine (follows_completeAxiom op (hn.mono h₄) (hc.mono h₄) (hr.mono h₄)).bind
      fun ρ₅ e e' h₅ he => ?_
    have h₂₅ := (h₃.trans h₄).trans h₅
    refine (follows_assert (.named (h₂₅ _ _ hname) _) (hd.mono h₅)).bind fun ρ₆ _ _ h₆ _ => ?_
    refine (follows_assert (.named (h₆ _ _ (h₂₅ _ _ hname)) _) (he.mono h₆)).bind
      fun ρ₇ _ _ h₇ _ => ?_
    exact follows_lift (hresult _ _ ((h₂₅.trans h₆).trans h₇))

end

/-! ## Expressions -/

/-- Whatever is inlined in one session is inlined in the other. -/
def InlinerFollows (G : FunctionSymbol → Prop) (C : String → Prop) (k b : Session)
    (inline : Inliner) : Prop :=
  ∀ (name : String) (body : Relational.Expr) (ρ : Renaming) (env env' : Environment),
    env.Renamed G ρ.Pairs env' →
    Follows G C k b ρ (Terms G) (inline name body env) (inline name body env')

section

variable {inline : Inliner} {active : List String} {t t' : Term} {env env' : Environment}

mutual

/-- An expression becomes renamed terms in the two sessions. -/
theorem follows_exprWith (hinline : InlinerFollows G C k b inline) : ∀ (e : Relational.Expr)
    {ρ : Renaming} {env env' : Environment}, env.Renamed G ρ.Pairs env' →
    Follows G C k b ρ (Terms G) (exprWith inline active e env) (exprWith inline active e env')
  | .constant c, _, _, _, _ => by
    rw [exprWith, exprWith]
    exact follows_constant c
  | .number n, _, _, _, _ => by
    rw [exprWith, exprWith]
    exact follows_intRelation n
  | .sig r, _, _, _, _ => by
    rw [exprWith, exprWith]
    split
    · exact follows_integers
    · exact follows_signature r
  | .field f, _, _, _, _ => by
    rw [exprWith, exprWith]
    exact follows_field f
  | .var v, ρ, env, env', henv => by
    rw [exprWith, exprWith]
    have hfound := henv.get? v.name
    cases h : env.get? v.name <;> cases h' : env'.get? v.name <;> rw [h, h'] at hfound
    case none.none => exact follows_throw
    case some.some =>
      obtain ⟨hfound⟩ := hfound
      exact follows_pure hfound
    all_goals cases hfound
  | .unary op e, _, _, _, henv => by
    rw [exprWith, exprWith]
    exact (follows_exprWith hinline e henv).bind fun _ _ _ _ ht => follows_unary op ht
  | .binary op l r, _, _, _, henv => by
    rw [exprWith, exprWith]
    refine (follows_exprWith hinline l henv).bind fun ρ₁ t t' h₁ ht => ?_
    refine (follows_exprWith hinline r (henv.mono h₁)).bind fun ρ₂ u u' h₂ hu => ?_
    exact follows_binary op (ht.mono h₂) hu
  | .list op es, _, _, _, henv => by
    rw [exprWith, exprWith]
    refine (follows_exprsWith hinline es henv).bind fun ρ₁ ts us h₁ hts => ?_
    cases op with
    | and => exact follows_lift (Term.Renamed.allOf hts)
    | or => exact follows_lift (Term.Renamed.anyOf hts)
  | .ite c y n, _, _, _, henv => by
    rw [exprWith, exprWith]
    refine (follows_exprWith hinline c henv).bind fun ρ₁ t t' h₁ ht => ?_
    have henv := henv.mono h₁
    refine (follows_exprWith hinline y henv).bind fun ρ₂ u u' h₂ hu => ?_
    refine (follows_exprWith hinline n (henv.mono h₂)).bind fun ρ₃ w w' h₃ hw => ?_
    exact follows_lift (((ht.mono h₂).mono h₃).mkIte (hu.mono h₃) hw)
  | .letIn v value body, _, _, _, henv => by
    rw [exprWith, exprWith]
    refine (follows_exprWith hinline value henv).bind fun ρ₁ t t' h₁ ht => ?_
    exact follows_exprWith hinline body ((henv.mono h₁).enter.put ht)
  | .quantified q ds body, ρ, env, env', henv => by
    have hdecls : ∀ c, Follows G C k b ρ (Bound.Renamed G)
        (declsWith inline active ds c { scope := env.enter })
        (declsWith inline active ds c { scope := env'.enter }) := fun c =>
      follows_declsWith hinline ds c ⟨henv.enter, .nil, .nil⟩
    cases q
    case comprehension =>
      rw [exprWith, exprWith]
      refine (hdecls true).bind fun ρ₁ p q h₁ hp => ?_
      refine (follows_exprWith hinline body hp.scope).bind fun ρ₂ t t' h₂ ht => ?_
      exact follows_comprehend _ (hp.mono h₂) ht
    all_goals
      rw [exprWith, exprWith]
      · refine (hdecls false).bind fun ρ₁ p q h₁ hp => ?_
        refine (follows_exprWith hinline body hp.scope).bind fun ρ₂ t t' h₂ ht => ?_
        exact follows_quantify _ (hp.mono h₂) ht
      all_goals simp
  | .call name args columns, ρ, env, env', henv => by
    rw [exprWith, exprWith]
    refine (follows_function? name).bind ?_
    rintro ρ₁ found _ h₁ rfl
    have henv := henv.mono h₁
    have hargs := follows_exprsWith hinline args henv
    cases found with
    | none =>
      dsimp only
      cases integerOperator? name with
      | none => exact follows_throw
      | some op =>
        refine Follows.guarded fun _ => hargs.bind fun ρ₂ ts us h₂ hts => ?_
        match hts with
        | .cons ht (.cons hu .nil) => exact follows_arithmetic op ht hu (henv.mono h₂)
        | .nil => exact follows_throw
        | .cons _ .nil => exact follows_throw
        | .cons _ (.cons _ (.cons _ _)) => exact follows_throw
    | some f =>
      dsimp only
      cases f.body with
      | none => exact follows_throw
      | some body =>
        refine Follows.guarded fun _ => Follows.guarded fun _ => hargs.bind
          fun ρ₂ ts us h₂ hts => ?_
        -- the body sees the arguments and nothing else
        exact hinline _ _ _ _ _ (Environment.Renamed.empty.putAll hts)

theorem follows_exprsWith (hinline : InlinerFollows G C k b inline) : ∀ (es : List Relational.Expr)
    {ρ : Renaming} {env env' : Environment}, env.Renamed G ρ.Pairs env' →
    Follows G C k b ρ (fun ρ => List.Forall₂ (Terms G ρ)) (exprsWith inline active es env)
      (exprsWith inline active es env')
  | [], _, _, _, _ => by
    rw [exprsWith, exprsWith]
    exact follows_pure .nil
  | e :: es, _, _, _, henv => by
    rw [exprsWith, exprsWith]
    refine (follows_exprWith hinline e henv).bind fun ρ₁ t t' h₁ ht => ?_
    refine (follows_exprsWith hinline es (henv.mono h₁)).bind fun ρ₂ ts us h₂ hts => ?_
    exact follows_pure (.cons (ht.mono h₂) hts)

theorem follows_declsWith (hinline : InlinerFollows G C k b inline) : ∀ (ds : List Relational.Decl)
    (c : Bool) {ρ : Renaming} {p q : Bound}, p.Renamed G ρ q →
    Follows G C k b ρ (Bound.Renamed G) (declsWith inline active ds c p)
      (declsWith inline active ds c q)
  | [], c, _, _, _, hp => by
    rw [declsWith, declsWith]
    exact follows_pure hp
  | .mk vs m bound disjoint :: ds, c, _, _, _, hp => by
    rw [declsWith, declsWith]
    dsimp only
    refine Follows.guarded fun _ => ?_
    refine (follows_exprWith hinline bound hp.scope).bind fun ρ₁ u u' h₁ hu => ?_
    refine (follows_bindDecl vs m disjoint hu (hp.mono h₁)).bind fun ρ₂ p q h₂ hp => ?_
    exact follows_declsWith hinline ds c hp

end

theorem follows_exprWithin : ∀ (depth : Nat) (active : List String) (e : Relational.Expr)
    {ρ : Renaming} {env env' : Environment}, env.Renamed G ρ.Pairs env' →
    Follows G C k b ρ (Terms G) (exprWithin depth active e env) (exprWithin depth active e env')
  | 0, _, e, _, _, _, henv => follows_exprWith (fun _ _ _ _ _ _ => follows_throw) e henv
  | depth + 1, active, e, _, _, _, henv => by
    have hinline : InlinerFollows G C k b fun name body scope =>
        exprWithin depth (name :: active) body scope :=
      fun _ _ _ _ _ h => follows_exprWithin depth _ _ h
    exact follows_exprWith hinline e henv

/-- **A formula becomes renamed terms in the two sessions, and what else they make of it is renamed
as well.** -/
theorem follows_formula (e : Relational.Expr) :
    Follows G C k b ρ (Terms G) (formula e) (formula e) := by
  have hexpr : Follows G C k b ρ (Terms G) (expr e {}) (expr e {}) := by
    refine follows_get_bind fun s m hs => ?_
    rw [hs.functions_eq]
    exact follows_exprWithin _ _ e .empty
  refine hexpr.bind fun ρ₁ t t' h₁ ht => ?_
  rw [ht.sort_eq]
  split
  · exact follows_pure ht
  · exact follows_throw

end

end RelSmt.Lowering
