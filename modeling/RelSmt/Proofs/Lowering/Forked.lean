import RelSmt.Proofs.Lowering.Renaming

/-!
# Lowering in two sessions

Every step of lowering, taken in one of two forked sessions, is followed by the other: first the
symbols declared on first use, then operators, binders and operations on integers, and at last, by
induction on expressions, whole formulas.
-/

namespace RelSmt.Lowering

variable {G : FunctionSymbol → Prop} {C : String → Prop} {k b : Session} {ρ : Renaming}

/-! ## Symbols declared on first use -/

section

variable {r : String → String → Prop} {t t' u u' : Term}

theorem follows_valueOf (hvalue : G intValue) (h : t.Renamed G r t') :
    Checked.Follows (Term.Renamed G r) (valueOf t) (valueOf t') :=
  FunctionSymbol.Renamed.apply (.given hvalue) (.cons h .nil)

theorem follows_onDemand (f : OnDemand → OnDemand) :
    Follows G C k b ρ anyResult (modify fun s => { s with onDemand := f s.onDemand })
      (modify fun s => { s with onDemand := f s.onDemand }) := by
  intro s m _ s' hs hrun
  obtain rfl := runs_modify.1 hrun
  refine ⟨ρ, (), _, .refl ρ, runs_modify.2 rfl, ?_, trivial⟩
  rw [hs.onDemand_eq]
  exact hs.with_onDemand (f m.onDemand)

/-- What the start of the sessions gives may be made use of. -/
theorem follows_of_gives {α β : Type} {R : Renaming → α → β → Prop} {x : Lower α} {y : Lower β}
    (h : b.Gives G C → Follows G C k b ρ R x y) : Follows G C k b ρ R x y :=
  fun s m a s' hs => h hs.gives s m a s' hs

theorem follows_intConstant (n : Int) :
    Follows G C k b ρ (fun ρ => FunctionSymbol.Renamed G ρ.Pairs) (intConstant n)
      (intConstant n) := by
  refine follows_get_bind fun s m hs => ?_
  have hsymbol : (intSymbol n).Renamed G ρ.Pairs (intSymbol n) := .given (hs.gives.int n)
  rw [hs.onDemand_eq]
  split
  · exact follows_pure hsymbol
  · refine (follows_declare hsymbol).bind fun ρ₁ _ _ h₁ _ => ?_
    refine follows_lift_bind (follows_valueOf hs.gives.value (.symbol (hsymbol.mono h₁)))
      fun v w hv => ?_
    refine follows_lift_bind (hv.mkBinary (.literal _)) fun e e' he => ?_
    refine (follows_assert (.given (hs.gives.comment (.int n))) he).bind fun ρ₂ _ _ h₂ _ => ?_
    refine (follows_onDemand fun o => { o with ints := n :: o.ints }).bind fun ρ₃ _ _ h₃ _ => ?_
    exact follows_pure (((hsymbol.mono h₁).mono h₂).mono h₃)

theorem follows_intRelation (n : Int) :
    Follows G C k b ρ (Terms G) (intRelation n) (intRelation n) := by
  refine (follows_intConstant n).bind fun ρ₁ f g _ hf => ?_
  refine follows_lift_bind (Term.Renamed.mkNary (.cons (.symbol hf) .nil)) fun t u ht => ?_
  exact follows_lift ht.mkUnary

theorem follows_atomIden : Follows G C k b ρ (Terms G) atomIden atomIden := by
  refine follows_get_bind fun s m hs => ?_
  have hsymbol : ∀ ρ : Renaming, idenSymbol.Renamed G ρ.Pairs idenSymbol :=
    fun _ => .given hs.gives.iden
  rw [hs.onDemand_eq]
  split
  · exact follows_pure (.symbol (hsymbol ρ))
  · refine (follows_declare (hsymbol ρ)).bind fun ρ₁ _ _ _ _ => ?_
    refine (follows_freshVariable (.inl rfl) .atom).bind fun ρ₂ v v' _ hv => ?_
    refine (follows_freshVariable (.inl rfl) .atom).bind fun ρ₃ w w' h₃ hw => ?_
    have hv := hv.mono h₃
    refine follows_lift_bind (Term.Renamed.mkNary (.cons hv.term (.cons hw.term .nil)))
      fun p p' hp => ?_
    refine follows_lift_bind (hp.mkBinary (.symbol (hsymbol ρ₃))) fun i i' hi => ?_
    refine follows_lift_bind (hv.term.mkBinary hw.term) fun e e' he => ?_
    refine follows_lift_bind (hi.mkBinary he) fun body body' hbody => ?_
    refine follows_lift_bind (Term.Renamed.mkQuantified (.cons hv (.cons hw .nil)) hbody)
      fun a a' ha => ?_
    refine (follows_assert (.given (hs.gives.comment .iden)) ha).bind fun ρ₄ _ _ _ _ => ?_
    refine (follows_onDemand fun o => { o with iden := true }).bind fun ρ₅ _ _ _ _ => ?_
    exact follows_pure (.symbol (hsymbol ρ₅))

theorem follows_integers : Follows G C k b ρ (Terms G) integers integers := by
  refine follows_get_bind fun s m hs => ?_
  have hsymbol : ∀ ρ : Renaming, integersSymbol.Renamed G ρ.Pairs integersSymbol :=
    fun _ => .given hs.gives.integers
  rw [hs.onDemand_eq]
  split
  · exact follows_pure (.symbol (hsymbol ρ))
  · refine (follows_declare (hsymbol ρ)).bind fun ρ₁ _ _ _ _ => ?_
    refine (follows_freshVariable (.inl rfl) .uint).bind fun ρ₂ v v' _ hv => ?_
    refine follows_lift_bind (Term.Renamed.mkNary (.cons hv.term .nil)) fun p p' hp => ?_
    refine follows_lift_bind (hp.mkBinary (.symbol (hsymbol ρ₂))) fun i i' hi => ?_
    refine follows_lift_bind (Term.Renamed.mkQuantified (.cons hv .nil) hi) fun a a' ha => ?_
    refine (follows_assert (.given (hs.gives.comment .integers)) ha).bind fun ρ₄ _ _ _ _ => ?_
    refine (follows_onDemand fun o => { o with integers := true }).bind fun ρ₅ _ _ _ _ => ?_
    exact follows_pure (.symbol (hsymbol ρ₅))

theorem follows_signature (s : Relational.SigRef) :
    Follows G C k b ρ (Terms G) (signature s) (signature s) := by
  refine follows_get_bind fun st m hs => ?_
  rw [hs.signatures_eq.1, hs.signatures_eq.2]
  cases hf : b.signatures.lookup s with
  | none => exact follows_throw
  | some f => exact follows_pure (.symbol (.given (hs.gives.signature hf)))

theorem follows_field (f : Relational.FieldRef) :
    Follows G C k b ρ (Terms G) (field f) (field f) := by
  refine follows_get_bind fun st m hs => ?_
  rw [hs.fields_eq.1, hs.fields_eq.2]
  cases hg : b.fields.lookup f with
  | none => exact follows_throw
  | some g => exact follows_pure (.symbol (.given (hs.gives.field hg)))

theorem follows_function? (name : String) :
    Follows G C k b ρ (fun _ => Eq) (function? name) (function? name) := by
  refine follows_get_bind fun st m hs => ?_
  rw [hs.functions_eq]
  exact follows_pure rfl

end

/-! ## Cardinalities and restrictions -/

section

variable {r : String → String → Prop} {t t' u u' : Term}

theorem follows_isEmpty (h : t.Renamed G r t') :
    Checked.Follows (Term.Renamed G r) t.isEmpty t'.isEmpty := by
  unfold Term.isEmpty
  rw [h.sort_eq]
  exact (follows_emptyOf _).bind fun _ _ he => h.mkBinary he

theorem follows_nonEmpty (h : t.Renamed G r t') :
    Checked.Follows (Term.Renamed G r) (nonEmpty t) (nonEmpty t') :=
  (follows_isEmpty h).bind fun _ _ he => he.mkUnary

theorem follows_exactlyOne (h : Terms G ρ t t') :
    Follows G C k b ρ (Terms G) (exactlyOne t) (exactlyOne t') := by
  unfold exactlyOne
  rw [h.sort_eq]
  split
  · exact follows_throw
  · refine (follows_freshVariable (.inl rfl) _).bind fun ρ₁ x x' h₁ hx => ?_
    refine follows_lift_bind hx.term.mkUnary fun s s' hs => ?_
    refine follows_lift_bind ((h.mono h₁).mkBinary hs) fun e e' he => ?_
    exact follows_lift (Term.Renamed.mkQuantified (.cons hx .nil) he)

theorem follows_atMostOne (h : Terms G ρ t t') :
    Follows G C k b ρ (Terms G) (atMostOne t) (atMostOne t') := by
  refine follows_lift_bind (follows_isEmpty h) fun e e' he => ?_
  refine (follows_exactlyOne h).bind fun ρ₁ o o' h₁ ho => ?_
  exact follows_lift ((he.mono h₁).mkBinary ho)

theorem follows_fullRelation (cs : List SmtSort) :
    Checked.Follows (Term.Renamed G r) (fullRelation cs) (fullRelation cs) := by
  intro t ht
  obtain ⟨s, hs, ht⟩ := Checked.bind_eq_ok.1 ht
  obtain ⟨t', ht', h⟩ := follows_fullOf s t ht
  exact ⟨t', Checked.bind_eq_ok.2 ⟨s, hs, ht'⟩, h⟩

theorem follows_firstColumn (h : t.Renamed G r t') :
    Checked.Follows (Term.Renamed G r) (firstColumn t) (firstColumn t') := by
  unfold firstColumn
  rw [h.sort_eq]
  refine Checked.Follows.foldlM (S := Eq) (fun a a' c c' ha hc => ?_) ?_ h
  · subst hc
    exact (follows_fullRelation _).bind fun _ _ hf => ha.mkBinary hf
  · exact List.forall₂_same.2 fun _ _ => rfl

theorem follows_restrictDomain (ht : t.Renamed G r t') (hu : u.Renamed G r u') :
    Checked.Follows (Term.Renamed G r) (restrictDomain t u) (restrictDomain t' u') := by
  unfold restrictDomain
  rw [hu.sort_eq]
  split
  · exact (follows_fullRelation _).bind fun _ _ hf =>
      (ht.mkBinary hf).bind fun _ _ hp => hu.mkBinary hp
  · exact hu.mkBinary ht

theorem follows_restrictRange (ht : t.Renamed G r t') (hu : u.Renamed G r u') :
    Checked.Follows (Term.Renamed G r) (restrictRange t u) (restrictRange t' u') := by
  unfold restrictRange
  rw [ht.sort_eq]
  split
  · exact (follows_fullRelation _).bind fun _ _ hf =>
      (hf.mkBinary hu).bind fun _ _ hp => ht.mkBinary hp
  · exact ht.mkBinary hu

theorem follows_overrideBy (ht : t.Renamed G r t') (hu : u.Renamed G r u') :
    Checked.Follows (Term.Renamed G r) (overrideBy t u) (overrideBy t' u') :=
  (follows_firstColumn hu).bind fun _ _ hf =>
    (follows_restrictDomain hf ht).bind fun _ _ ho =>
      (ht.mkBinary ho).bind fun _ _ hd => hd.mkBinary hu

theorem follows_disjointSets (ht : t.Renamed G r t') (hu : u.Renamed G r u') :
    Checked.Follows (Term.Renamed G r) (disjointSets t u) (disjointSets t' u') := by
  unfold disjointSets
  rw [ht.sort_eq]
  exact (ht.mkBinary hu).bind fun _ _ hi => (follows_emptyOf _).bind fun _ _ he => hi.mkBinary he

end

/-! ## Integers and operators -/

/-- The values are made of renamed terms, variables and conditions. -/
structure Value.Renamed (G : FunctionSymbol → Prop) (ρ : Renaming) (a c : Value) : Prop where
  term : Terms G ρ a.term c.term
  vars : List.Forall₂ (Variables G ρ) a.vars c.vars
  conditions : List.Forall₂ (Terms G ρ) a.conditions c.conditions

section

variable {t t' u u' : Term}

theorem Value.Renamed.mono {ρ' : Renaming} {a c : Value} (h : a.Renamed G ρ c) (hρ : ρ.Within ρ') :
    a.Renamed G ρ' c where
  term := h.term.mono hρ
  vars := Variable.Renamed.monoAll hρ h.vars
  conditions := Term.Renamed.monoAll hρ h.conditions

theorem soleElement?_congr {r : String → String → Prop} (h : t.Renamed G r t') :
    Option.Rel (Term.Renamed G r) (soleElement? t) (soleElement? t') := by
  cases h with
  | @unary op _ _ h =>
    cases op with
    | singleton =>
      cases h with
      | @nary op _ _ h =>
        match op, h with
        | .mkTuple, .cons ht .nil => exact .some ht
        | .mkTuple, .nil => exact .none
        | .mkTuple, .cons _ (.cons _ _) => exact .none
        | .and, _ => exact .none
        | .or, _ => exact .none
      | _ => exact .none
    | _ => exact .none
  | _ => exact .none

theorem follows_integerValue (h : Terms G ρ t t') :
    Follows G C k b ρ (Value.Renamed G) (integerValue t) (integerValue t') := by
  refine follows_of_gives fun hb => ?_
  unfold integerValue
  rw [h.sort_eq]
  split
  · exact follows_pure ⟨h, .nil, .nil⟩
  · dsimp only
    refine Follows.guarded fun _ => ?_
    have hsole := soleElement?_congr h
    cases ht : soleElement? t <;> cases hu : soleElement? t' <;> rw [ht, hu] at hsole
    case none.none =>
      refine (follows_freshVariable (.inl rfl) .uint).bind fun ρ₁ x x' h₁ hx => ?_
      refine follows_lift_bind (Term.Renamed.mkNary (.cons hx.term .nil)) fun p p' hp => ?_
      refine follows_lift_bind hp.mkUnary fun s s' hs => ?_
      refine follows_lift_bind ((h.mono h₁).mkBinary hs) fun c c' hc => ?_
      refine follows_lift_bind (follows_valueOf hb.value hx.term) fun v v' hv => ?_
      exact follows_pure ⟨hv, .cons hx .nil, .cons hc .nil⟩
    case some.some =>
      obtain ⟨hsole⟩ := hsole
      refine follows_lift_bind (follows_valueOf hb.value hsole) fun v v' hv => ?_
      exact follows_pure ⟨hv, .nil, .nil⟩
    all_goals cases hsole

theorem follows_compareIntegers {op : BinaryOp} (ht : Terms G ρ t t') (hu : Terms G ρ u u') :
    Follows G C k b ρ (Terms G) (compareIntegers op t u) (compareIntegers op t' u') := by
  refine (follows_integerValue ht).bind fun ρ₁ l l' h₁ hl => ?_
  refine (follows_integerValue (hu.mono h₁)).bind fun ρ₂ r r' h₂ hr => ?_
  have hl := hl.mono h₂
  refine follows_lift_bind (hl.term.mkBinary hr.term) fun c c' hc => ?_
  have hvars := List.rel_append hl.vars hr.vars
  dsimp only
  rw [isEmpty_congr hvars]
  split
  · exact follows_pure hc
  · refine follows_lift_bind (Term.Renamed.allOf
      (List.rel_append (List.rel_append hl.conditions hr.conditions) (.cons hc .nil)))
      fun a a' ha => ?_
    exact follows_lift (Term.Renamed.mkQuantified hvars ha)

theorem follows_equality (ht : Terms G ρ t t') (hu : Terms G ρ u u') :
    Follows G C k b ρ (Terms G) (equality t u) (equality t' u') := by
  unfold equality
  rw [ht.sort_eq, hu.sort_eq]
  split
  · exact follows_lift (ht.mkBinary hu)
  · exact follows_compareIntegers ht hu

theorem follows_constant (c : Relational.Constant) :
    Follows G C k b ρ (Terms G) (constant c) (constant c) := by
  cases c with
  | univ => exact follows_lift (follows_fullOf _)
  | none => exact follows_lift (follows_emptyOf _)
  | iden => exact follows_atomIden
  | ints => exact follows_integers
  | true => exact follows_pure (.literal _)
  | false => exact follows_pure (.literal _)

theorem follows_unary (op : Relational.UnaryOp) (h : Terms G ρ t t') :
    Follows G C k b ρ (Terms G) (unary op t) (unary op t') := by
  cases op with
  | not => exact follows_lift h.mkUnary
  | no => exact follows_lift (follows_isEmpty h)
  | some => exact follows_lift (follows_nonEmpty h)
  | one => exact follows_exactlyOne h
  | lone => exact follows_atMostOne h
  | transpose => exact follows_lift h.mkUnary
  | closure => exact follows_lift h.mkUnary
  | reflexiveClosure =>
    refine follows_lift_bind h.mkUnary fun c c' hc => ?_
    refine follows_atomIden.bind fun ρ₁ i i' h₁ hi => ?_
    exact follows_lift ((hc.mono h₁).mkBinary hi)
  | card => exact follows_lift h.mkUnary
  | setOf => exact follows_pure h
  | someOf => exact follows_pure h
  | loneOf => exact follows_pure h
  | oneOf => exact follows_pure h
  | group => exact follows_pure h

theorem follows_binary (op : Relational.BinaryOp) (ht : Terms G ρ t t') (hu : Terms G ρ u u') :
    Follows G C k b ρ (Terms G) (binary op t u) (binary op t' u') := by
  cases op with
  | override => exact follows_lift (follows_overrideBy ht hu)
  | domainRestrict => exact follows_lift (follows_restrictDomain ht hu)
  | rangeRestrict => exact follows_lift (follows_restrictRange ht hu)
  | notIn =>
    exact follows_lift_bind (ht.mkBinary hu) fun _ _ hw => follows_lift hw.mkUnary
  | eq => exact follows_equality ht hu
  | ne => exact (follows_equality ht hu).bind fun _ _ _ _ he => follows_lift he.mkUnary
  | lt => exact follows_compareIntegers ht hu
  | le => exact follows_compareIntegers ht hu
  | gt => exact follows_compareIntegers ht hu
  | ge => exact follows_compareIntegers ht hu
  | _ => exact follows_lift (ht.mkBinary hu)

end

end RelSmt.Lowering
