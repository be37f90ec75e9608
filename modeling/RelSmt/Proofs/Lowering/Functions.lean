import RelSmt.Proofs.Lowering.Blameless
import RelSmt.Proofs.Lowering.Resolution
import RelSmt.Proofs.Lowering.Specification

/-!
# Steps that look at no function

The functions of a specification are looked up where a call is inlined and nowhere else. Any other
step ignores them: begun over other functions it returns the same and leaves the same session, over
those other functions, and it has no fault that checked constructors do not have, such as that a
call is recursive (`Ignores`). There is one lemma for each step of lowering, so that what is said of
two specifications that differ in their functions, or of recursive calls, has to be shown for calls
alone.
-/

namespace RelSmt.Lowering

/-! ## Sessions over other functions -/

/-- The session over other functions. -/
def Session.over (s : Session) (fs : List Relational.Function) : Session :=
  { s with functions := fs }

section

variable {s m : Session} {fs gs : List Relational.Function}

@[simp] theorem Session.over_over : (s.over fs).over gs = s.over gs := rfl

@[simp] theorem Session.over_functions : (s.over fs).functions = fs := rfl

theorem Session.over_self (h : s.functions = fs) : s.over fs = s := by
  subst h
  rfl

/-- Sessions over the same functions are told apart over any functions. -/
theorem Session.eq_of_over_eq (h : s.over gs = m.over gs) (hf : s.functions = m.functions) :
    s = m := by
  calc s = (s.over gs).over m.functions := (Session.over_self hf).symm
    _ = (m.over gs).over m.functions := by rw [h]
    _ = m := Session.over_self (s := m) rfl

end

/-! ## Steps over other functions -/

section

variable {α β : Type} {B : Fault → Prop}

/-- A step that fails ends there. -/
theorem outcome_bind_error {x : Lower α} {f : α → Lower β} {s s' : Session} {e : Fault}
    (h : outcome x s = (.error e, s')) : outcome (x >>= f) s = (.error e, s') := by
  have hbind : outcome (x >>= f) s = ExceptT.bindCont f (outcome x s).1 (outcome x s).2 := rfl
  rw [hbind, h]
  rfl

theorem outcome_bind_ok {x : Lower α} {f : α → Lower β} {s s' : Session} {a : α}
    (h : outcome x s = (.ok a, s')) : outcome (x >>= f) s = outcome (f a) s' := by
  have hbind : outcome (x >>= f) s = ExceptT.bindCont f (outcome x s).1 (outcome x s).2 := rfl
  rw [hbind, h]
  rfl

/-- Begun over other functions, the step does the same. It has none of these faults. -/
structure Ignores (B : Fault → Prop) (x : Lower α) : Prop where
  same : ∀ s gs, outcome x (s.over gs) = ((outcome x s).1, (outcome x s).2.over gs)
  blameless : ∀ s, Avoids B (outcome x s).1

theorem Ignores.functions_eq {x : Lower α} (h : Ignores B x) (s : Session) :
    (outcome x s).2.functions = s.functions := by
  have hself := h.same s s.functions
  rw [Session.over_self rfl] at hself
  rw [hself]
  rfl

theorem ignores_pure (a : α) : Ignores B (pure a) where
  same _ _ := rfl
  blameless _ := inferInstanceAs (Avoids _ (.ok a))

theorem ignores_lift (c : Checked α) [h : Avoids B c] : Ignores B (liftM c : Lower α) where
  same _ _ := rfl
  blameless _ := h

theorem ignores_throw (e : Fault) [h : Avoids B (.error e : Checked α)] :
    Ignores B (throw e : Lower α) where
  same _ _ := rfl
  blameless _ := h

theorem ignores_modify {f : Session → Session} (h : ∀ s gs, f (s.over gs) = (f s).over gs) :
    Ignores B (modify f) where
  same s gs := congrArg (Prod.mk _) (h s gs)
  blameless _ := inferInstanceAs (Avoids _ (.ok ()))

theorem Ignores.bind {x : Lower α} {f : α → Lower β} (hx : Ignores B x) (hf : ∀ a, Ignores B (f a)) :
    Ignores B (x >>= f) where
  same s gs := by
    have hx := hx.same s gs
    rcases h : outcome x s with ⟨_ | a, m⟩
    · rw [h] at hx
      rw [outcome_bind_error h, outcome_bind_error hx]
    · rw [h] at hx
      rw [outcome_bind_ok h, outcome_bind_ok hx]
      exact (hf a).same m gs
  blameless s := by
    have hx := hx.blameless s
    rcases h : outcome x s with ⟨e | a, m⟩
    · rw [h] at hx
      rw [outcome_bind_error h]
      exact avoids_error (hx.not_of_error rfl)
    · rw [outcome_bind_ok h]
      exact (hf a).blameless m

/-- What is looked up in the session may be anything but its functions. -/
theorem ignores_get_bind {f : Session → Lower β} (hf : ∀ s, Ignores B (f s))
    (h : ∀ s gs, f (s.over gs) = f s) : Ignores B (get >>= f) where
  same s gs := by
    have hover : outcome (get >>= f) (s.over gs) = outcome (f (s.over gs)) (s.over gs) := rfl
    rw [hover, h s gs]
    exact (hf s).same s gs
  blameless s := (hf s).blameless s

/-- A check that a step begins with. -/
theorem Ignores.guarded {p : Prop} [Decidable p] {e : Fault} {f : PUnit → Lower α}
    {x : Lower α} [he : Avoids B (.error e : Checked α)] (h : Ignores B x) :
    Ignores B (if p then throw e >>= f else x) := by
  split
  · exact ⟨fun _ _ => rfl, fun _ => he⟩
  · exact h

theorem ignores_forM {f : α → Lower Unit} (hf : ∀ a, Ignores B (f a)) :
    ∀ as : List α, Ignores B (as.forM f)
  | [] => ignores_pure ()
  | a :: as => (hf a).bind fun _ => ignores_forM hf as

theorem ignores_mapM {f : α → Lower β} (hf : ∀ a, Ignores B (f a)) :
    ∀ as : List α, Ignores B (as.mapM f)
  | [] => ignores_pure []
  | a :: as => by
    rw [List.mapM_cons]
    exact (hf a).bind fun _ => (ignores_mapM hf as).bind fun _ => ignores_pure _

theorem ignores_foldlM {f : α → β → Lower α} (hf : ∀ a b, Ignores B (f a b)) :
    ∀ (bs : List β) (a : α), Ignores B (bs.foldlM f a)
  | [], a => ignores_pure a
  | b :: bs, a => by
    rw [List.foldlM_cons]
    exact (hf a b).bind fun a => ignores_foldlM hf bs a

end

/-! ## Elementary steps -/

variable {B : Fault → Prop}

theorem ignores_freshName (hint : String) : Ignores B (freshName hint) :=
  (ignores_modify fun _ _ => rfl).bind fun _ => ignores_get_bind (fun _ => ignores_pure _) fun _ _ => rfl

theorem ignores_freshVariable (hint : String) (sort : SmtSort) :
    Ignores B (freshVariable hint sort) :=
  (ignores_freshName hint).bind fun _ => ignores_pure _

theorem ignores_declare (f : FunctionSymbol) : Ignores B (declare f) := ignores_modify fun _ _ => rfl

theorem ignores_declareField (f : Relational.Field) : Ignores B (declareField f) :=
  (ignores_declare _).bind fun _ => ignores_modify fun _ _ => rfl

variable [Foreign B]

theorem ignores_assert (comment : String) (formula : Term) : Ignores B (assert comment formula) :=
  (ignores_lift _).bind fun _ => ignores_modify fun _ _ => rfl

theorem ignores_intConstant (n : Int) : Ignores B (intConstant n) := by
  refine ignores_get_bind (fun s => ?_) fun _ _ => rfl
  split
  · exact ignores_pure _
  · refine (ignores_declare _).bind fun _ => (ignores_lift _).bind fun _ => ?_
    refine (ignores_lift _).bind fun _ => (ignores_assert _ _).bind fun _ => ?_
    exact (ignores_modify fun _ _ => rfl).bind fun _ => ignores_pure _

theorem ignores_intRelation (n : Int) : Ignores B (intRelation n) :=
  (ignores_intConstant n).bind fun _ => (ignores_lift _).bind fun _ => ignores_lift _

theorem ignores_atomIden : Ignores B atomIden := by
  refine ignores_get_bind (fun s => ?_) fun _ _ => rfl
  split
  · exact ignores_pure _
  · refine (ignores_declare _).bind fun _ => (ignores_freshVariable _ _).bind fun _ => ?_
    refine (ignores_freshVariable _ _).bind fun _ => (ignores_lift _).bind fun _ => ?_
    refine (ignores_lift _).bind fun _ => (ignores_lift _).bind fun _ => ?_
    refine (ignores_lift _).bind fun _ => (ignores_lift _).bind fun _ => ?_
    exact (ignores_assert _ _).bind fun _ => (ignores_modify fun _ _ => rfl).bind fun _ =>
      ignores_pure _

theorem ignores_integers : Ignores B integers := by
  refine ignores_get_bind (fun s => ?_) fun _ _ => rfl
  split
  · exact ignores_pure _
  · refine (ignores_declare _).bind fun _ => (ignores_freshVariable _ _).bind fun _ => ?_
    refine (ignores_lift _).bind fun _ => (ignores_lift _).bind fun _ => ?_
    refine (ignores_lift _).bind fun _ => (ignores_assert _ _).bind fun _ => ?_
    exact (ignores_modify fun _ _ => rfl).bind fun _ => ignores_pure _

theorem ignores_signature (r : Relational.SigRef) : Ignores B (signature r) := by
  refine ignores_get_bind (fun s => ?_) fun _ _ => rfl
  split
  · exact ignores_pure _
  · exact ignores_throw _

theorem ignores_field (f : Relational.FieldRef) : Ignores B (field f) := by
  refine ignores_get_bind (fun s => ?_) fun _ _ => rfl
  split
  · exact ignores_pure _
  · exact ignores_throw _

/-! ## Operators -/

theorem ignores_constant (c : Relational.Constant) : Ignores B (constant c) := by
  cases c with
  | univ => exact ignores_lift _
  | none => exact ignores_lift _
  | iden => exact ignores_atomIden
  | ints => exact ignores_integers
  | true => exact ignores_pure _
  | false => exact ignores_pure _

theorem ignores_exactlyOne (t : Term) : Ignores B (exactlyOne t) := by
  unfold exactlyOne
  split
  · exact ignores_throw _
  · refine (ignores_freshVariable _ _).bind fun _ => (ignores_lift _).bind fun _ => ?_
    exact (ignores_lift _).bind fun _ => ignores_lift _

theorem ignores_atMostOne (t : Term) : Ignores B (atMostOne t) :=
  (ignores_lift _).bind fun _ => (ignores_exactlyOne t).bind fun _ => ignores_lift _

theorem ignores_unary (op : Relational.UnaryOp) (t : Term) : Ignores B (unary op t) := by
  cases op with
  | one => exact ignores_exactlyOne t
  | lone => exact ignores_atMostOne t
  | reflexiveClosure =>
    exact (ignores_lift _).bind fun _ => ignores_atomIden.bind fun _ => ignores_lift _
  | setOf => exact ignores_pure _
  | someOf => exact ignores_pure _
  | loneOf => exact ignores_pure _
  | oneOf => exact ignores_pure _
  | group => exact ignores_pure _
  | _ => exact ignores_lift _

theorem ignores_integerValue (t : Term) : Ignores B (integerValue t) := by
  unfold integerValue
  split
  · exact ignores_pure _
  · refine Ignores.guarded ?_
    split
    · exact (ignores_lift _).bind fun _ => ignores_pure _
    · refine (ignores_freshVariable _ _).bind fun _ => (ignores_lift _).bind fun _ => ?_
      refine (ignores_lift _).bind fun _ => (ignores_lift _).bind fun _ => ?_
      exact (ignores_lift _).bind fun _ => ignores_pure _

theorem ignores_compareIntegers (op : BinaryOp) (l r : Term) : Ignores B (compareIntegers op l r) := by
  refine (ignores_integerValue l).bind fun _ => (ignores_integerValue r).bind fun _ => ?_
  refine (ignores_lift _).bind fun _ => ?_
  dsimp only
  split
  · exact ignores_pure _
  · exact (ignores_lift _).bind fun _ => ignores_lift _

theorem ignores_equality (l r : Term) : Ignores B (equality l r) := by
  unfold equality
  split
  · exact ignores_lift _
  · exact ignores_compareIntegers _ l r

theorem ignores_binary (op : Relational.BinaryOp) (l r : Term) : Ignores B (binary op l r) := by
  cases op with
  | notIn => exact (ignores_lift _).bind fun _ => ignores_lift _
  | eq => exact ignores_equality l r
  | ne => exact (ignores_equality l r).bind fun _ => ignores_lift _
  | lt => exact ignores_compareIntegers _ l r
  | le => exact ignores_compareIntegers _ l r
  | gt => exact ignores_compareIntegers _ l r
  | ge => exact ignores_compareIntegers _ l r
  | _ => exact ignores_lift _

/-! ## Binders -/

theorem ignores_boundConstraint (m : Relational.Multiplicity) (v bound : Term) :
    Ignores B (boundConstraint m v bound) := by
  cases m with
  | some => exact (ignores_lift _).bind fun _ => (ignores_lift _).bind fun _ => ignores_lift _
  | lone =>
    exact (ignores_lift _).bind fun _ => (ignores_atMostOne v).bind fun _ => ignores_lift _
  | _ => exact ignores_lift _

theorem ignores_bindVar (m : Relational.Multiplicity) (bound : Term) (element : SmtSort) (b : Bound)
    (v : Relational.Var) : Ignores B (bindVar m bound element b v) := by
  refine (ignores_freshName _).bind fun _ => Ignores.guarded ?_
  refine (ignores_boundConstraint m _ _).bind fun _ => (ignores_lift _).bind fun _ => ?_
  dsimp only
  split
  · exact (ignores_lift _).bind fun _ => ignores_pure _
  · exact ignores_pure _

theorem ignores_bindVars (m : Relational.Multiplicity) (bound : Term) (element : SmtSort) :
    ∀ (b : Bound) (vs : List Relational.Var), Ignores B (bindVars m bound element b vs)
  | _, [] => ignores_pure _
  | b, v :: vs => (ignores_bindVar m bound element b v).bind fun r =>
    (ignores_bindVars m bound element r.1 vs).bind fun _ => ignores_pure _

theorem ignores_bindDecl (vs : List Relational.Var) (m : Relational.Multiplicity) (bound : Term)
    (disjoint : Bool) (b : Bound) : Ignores B (bindDecl vs m bound disjoint b) := by
  unfold bindDecl
  split
  · exact ignores_throw _
  · refine (ignores_bindVars m bound _ b vs).bind fun r => ?_
    dsimp only
    split
    · exact (ignores_mapM (fun _ => ignores_lift _) _).bind fun _ => ignores_pure _
    · exact ignores_pure _

theorem ignores_freshCopy [Uncaptured B] : ∀ (t : Term) (vs : List Variable), Ignores B (freshCopy t vs)
  | _, [] => ignores_pure _
  | _, _ :: vs => (ignores_freshVariable _ _).bind fun _ => (ignores_lift _).bind fun t =>
    (ignores_freshCopy t vs).bind fun _ => ignores_pure _

theorem ignores_quantify [Uncaptured B] (q : Relational.Quantifier) (b : Bound) (body : Term) :
    Ignores B (quantify q b body) := by
  refine (ignores_lift _).bind fun _ => ?_
  cases q with
  | all => exact (ignores_lift _).bind fun _ => ignores_lift _
  | some => exact (ignores_lift _).bind fun _ => ignores_lift _
  | no => exact (ignores_lift _).bind fun _ => (ignores_lift _).bind fun _ => ignores_lift _
  | one =>
    refine (ignores_lift _).bind fun _ => (ignores_freshCopy _ _).bind fun _ => ?_
    refine (ignores_lift _).bind fun _ => (ignores_lift _).bind fun _ => ?_
    exact (ignores_lift _).bind fun _ => (ignores_lift _).bind fun _ => ignores_lift _
  | lone =>
    refine (ignores_lift _).bind fun _ => (ignores_freshCopy _ _).bind fun _ => ?_
    refine (ignores_lift _).bind fun _ => (ignores_lift _).bind fun _ => ?_
    exact (ignores_lift _).bind fun _ => ignores_lift _
  | comprehension => exact ignores_throw _

theorem ignores_comprehend (columns : List Relational.Column) (b : Bound) (body : Term) :
    Ignores B (comprehend columns b body) := by
  refine (ignores_lift _).bind fun _ => (ignores_lift _).bind fun _ => ?_
  refine (ignores_freshName _).bind fun _ => (ignores_lift _).bind fun _ => ?_
  refine (ignores_declare _).bind fun _ => (ignores_lift _).bind fun _ => ?_
  refine (ignores_lift _).bind fun _ => (ignores_lift _).bind fun _ => ?_
  refine (ignores_lift _).bind fun _ => (ignores_lift _).bind fun _ => ?_
  exact (ignores_assert _ _).bind fun _ => ignores_pure _

/-! ## Operations on integers -/

theorem ignores_add (n : Narrowed) (parameter : Variable) : Ignores B (n.add parameter) := by
  unfold Narrowed.add
  split
  · exact ignores_pure _
  · refine (ignores_freshVariable _ _).bind fun _ => (ignores_lift _).bind fun _ => ?_
    refine (ignores_lift _).bind fun _ => (ignores_lift _).bind fun _ => ?_
    exact (ignores_mapM (fun _ => ignores_lift _) _).bind fun _ => ignores_pure _

theorem ignores_operandValue (condition : Term → Term → Checked Term)
    [∀ t u, Avoids B (condition t u)] (o : Operand) : Ignores B (operandValue condition o) := by
  cases o with
  | value => exact ignores_pure _
  | relation =>
    refine (ignores_freshVariable _ _).bind fun _ => (ignores_lift _).bind fun _ => ?_
    exact (ignores_lift _).bind fun _ => (ignores_lift _).bind fun _ => ignores_pure _

theorem ignores_singletonAxiom (op : Arithmetic) (a b : Operand) (result : Term) :
    Ignores B (singletonAxiom op a b result) := by
  refine (ignores_operandValue _ a).bind fun _ => (ignores_operandValue _ b).bind fun _ => ?_
  refine (ignores_freshVariable _ _).bind fun _ => (ignores_lift _).bind fun _ => ?_
  refine (ignores_lift _).bind fun _ => (ignores_lift _).bind fun _ => ?_
  exact (ignores_lift _).bind fun _ => (ignores_lift _).bind fun _ => ignores_lift _

theorem ignores_soundAxiom (op : Arithmetic) (n : Narrowed) (guard result : Term) :
    Ignores B (soundAxiom op n guard result) := by
  refine (ignores_freshVariable _ _).bind fun _ => (ignores_lift _).bind fun _ => ?_
  refine (ignores_lift _).bind fun _ => (ignores_lift _).bind fun _ => ?_
  refine (ignores_operandValue _ n.a).bind fun _ => (ignores_operandValue _ n.b).bind fun _ => ?_
  refine (ignores_lift _).bind fun _ => (ignores_lift _).bind fun _ => ?_
  refine (ignores_lift _).bind fun _ => (ignores_lift _).bind fun _ => ?_
  exact (ignores_lift _).bind fun _ => ignores_lift _

theorem ignores_completeAxiom (op : Arithmetic) (n : Narrowed) (guard result : Term) :
    Ignores B (completeAxiom op n guard result) := by
  refine (ignores_operandValue _ n.a).bind fun _ => (ignores_operandValue _ n.b).bind fun _ => ?_
  refine (ignores_freshVariable _ _).bind fun _ => (ignores_lift _).bind fun _ => ?_
  refine (ignores_lift _).bind fun _ => (ignores_lift _).bind fun _ => ?_
  refine (ignores_lift _).bind fun _ => (ignores_lift _).bind fun _ => ?_
  refine (ignores_lift _).bind fun _ => (ignores_lift _).bind fun _ => ?_
  exact (ignores_lift _).bind fun _ => ignores_lift _

theorem ignores_arithmetic (op : Arithmetic) (a b : Term) (env : Environment) :
    Ignores B (arithmetic op a b env) := by
  refine (ignores_lift _).bind fun _ => (ignores_lift _).bind fun _ => ?_
  refine (ignores_foldlM ignores_add _ _).bind fun n => ?_
  refine ignores_get_bind (fun s => ?_) fun _ _ => rfl
  refine (ignores_freshName _).bind fun _ => (ignores_declare _).bind fun _ => ?_
  refine (ignores_lift _).bind fun _ => (ignores_lift _).bind fun _ => ?_
  split
  · refine (ignores_singletonAxiom op _ _ _).bind fun _ => ?_
    dsimp only
    split <;> refine (ignores_lift _).bind fun _ => (ignores_lift _).bind fun _ => ?_
    all_goals
      refine (ignores_assert _ _).bind fun _ => ?_
      exact (ignores_lift _).bind fun _ => ignores_lift _
  · refine (ignores_soundAxiom op n _ _).bind fun _ => ?_
    refine (ignores_completeAxiom op n _ _).bind fun _ => ?_
    exact (ignores_assert _ _).bind fun _ => (ignores_assert _ _).bind fun _ => ignores_lift _

/-! ## Signatures and fields -/

theorem ignores_declareSignature (r : Relational.Signature) : Ignores B (declareSignature r) := by
  unfold declareSignature
  split
  · exact ignores_integers.bind fun _ => ignores_modify fun _ _ => rfl
  · exact (ignores_declare _).bind fun _ => ignores_modify fun _ _ => rfl

theorem ignores_assertDisjoint (rs : List Relational.Signature) : Ignores B (assertDisjoint rs) :=
  ignores_forM (fun _ => (ignores_signature _).bind fun _ => (ignores_signature _).bind fun _ =>
    (ignores_lift _).bind fun _ => ignores_assert _ _) _

theorem ignores_unionOf (first : Relational.SigRef) (others : List Relational.SigRef) :
    Ignores B (unionOf first others) :=
  (ignores_signature first).bind fun _ => ignores_foldlM
    (fun _ _ => (ignores_signature _).bind fun _ => ignores_lift _) others _

theorem ignores_assertParents (r : Relational.Signature) : Ignores B (assertParents r) := by
  unfold assertParents
  dsimp only
  split
  · refine (ignores_signature _).bind fun _ => (ignores_signature _).bind fun _ => ?_
    exact (ignores_lift _).bind fun _ => ignores_assert _ _
  · refine (ignores_unionOf _ _).bind fun _ => (ignores_signature _).bind fun _ => ?_
    exact (ignores_lift _).bind fun _ => ignores_assert _ _
  · exact ignores_pure _

theorem ignores_assertChildren (all : List Relational.Signature) (r : Relational.Signature) :
    Ignores B (assertChildren all r) := by
  refine (ignores_assertDisjoint _).bind fun _ => ?_
  split
  · refine (ignores_unionOf _ _).bind fun _ => (ignores_signature _).bind fun _ => ?_
    exact (ignores_lift _).bind fun _ => ignores_assert _ _
  · exact ignores_pure _

theorem ignores_assertMultiplicity (r : Relational.Signature) : Ignores B (assertMultiplicity r) := by
  have hdemand : ∀ {m : Relational.Multiplicity} {demand : Term → Lower Term},
      multiplicityFormula? m = some demand → ∀ t, Ignores B (demand t) := by
    intro m demand h t
    cases m <;> cases h
    · exact ignores_lift _
    · exact ignores_exactlyOne t
    · exact ignores_atMostOne t
  unfold assertMultiplicity
  split
  · rename_i m demand hfound
    obtain ⟨n, _, hn⟩ := Option.bind_eq_some_iff.1 hfound
    obtain ⟨f, hf, hpair⟩ := Option.map_eq_some_iff.1 hn
    obtain ⟨rfl, rfl⟩ := Prod.mk.inj hpair
    exact (ignores_signature _).bind fun t => (hdemand hf t).bind fun _ => ignores_assert _ _
  · exact ignores_pure _

theorem ignores_signatures (all : List Relational.Signature) : Ignores B (signatures all) :=
  (ignores_forM ignores_declareSignature all).bind fun _ => (ignores_assertDisjoint _).bind fun _ =>
    ignores_forM (fun r => (ignores_assertParents r).bind fun _ =>
      (ignores_assertChildren all r).bind fun _ => ignores_assertMultiplicity r) all

theorem ignores_assertDisjointFields (a b : Relational.Field) :
    Ignores B (assertDisjointFields a b) :=
  (ignores_field _).bind fun _ => (ignores_field _).bind fun _ => (ignores_lift _).bind fun _ =>
    ignores_assert _ _

/-! ## Specifications -/

/-- What is lowered once the functions are known. -/
def items (spec : Relational.Specification) : Lower Encoding := do
  signatures spec.signatures
  fields spec.fieldGroups
  spec.facts.forM fact
  let commands ← spec.commands.mapM fun c => do return (c, ← command c)
  let s ← get
  return {
    base := s.program
    signatures := s.signatures.filter fun p => !p.1.isInt
    fields := s.fields
    commands := commands }

theorem lower_eq_items (spec : Relational.Specification) (singletonsOnly : Bool) :
    spec.lower singletonsOnly
      = (outcome (items spec) (.initial singletonsOnly spec.functions)).1 := by
  unfold Relational.Specification.lower specification
  rw [injectivity_eq]
  rfl

end RelSmt.Lowering
