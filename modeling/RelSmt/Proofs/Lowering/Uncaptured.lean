import RelSmt.Proofs.Lowering.DisciplineFormula
import RelSmt.Proofs.Lowering.Functions

/-!
# Lowering captures no variable

A variable makes way for a term in one place only: `one` and `lone` put fresh variables in the place
of those that their declarations have bound. A binder could capture such a variable if it had the
name of a later call. So it is enough that all names in lowered terms are settled (`settling`),
which is a discipline.

Faults are looked for step by step: a step that ends well leaves a session in which the names of its
result are settled, and the next step begins there.
-/

namespace RelSmt.Lowering

/-- **All names in lowered terms are settled.** -/
def settling : Discipline where
  Fine _ := True
  Leads s s' := s.fresh ≤ s'.fresh
  Named s := Settled s.fresh
  Known _ _ := True
  Hinted _ := True
  refl _ := Nat.le_refl _
  trans := Nat.le_trans
  fine _ _ := trivial
  named h hx := hx.mono h
  known _ _ := trivial
  next _ := Nat.le_succ _
  asserting _ _ := Nat.le_refl _
  counted _ _ := ⟨Nat.le_succ _, trivial⟩
  fresh _ _ := settled_numbered (Nat.le_refl _)
  own _ := trivial
  copy _ := trivial
  inlined _ _ _ _ _ := trivial
  value _ := trivial
  signature _ _ := trivial
  field _ _ := trivial
  int _ h := ⟨(extends_intConstant h).2.2.fresh, trivial⟩
  iden _ h := ⟨(runs_atomIden h).2.2.fresh, trivial⟩
  integers _ h := ⟨(runs_integers h).2.2.fresh, trivial⟩

section

variable {α β : Type} {x : Lower α} {s : Session}

/-- Does the step, begun in this session, not find a variable captured? -/
abbrev Spares (x : Lower α) (s : Session) : Prop := Avoids Fault.IsCapture (outcome x s).1

theorem Ignores.spares (h : Ignores Fault.IsCapture x) : Spares x s := h.blameless s

/-- The second step begins where the first has ended well. -/
theorem Spares.bind {f : α → Lower β} (hx : Spares x s)
    (hf : ∀ a m, Runs x s a m → Spares (f a) m) : Spares (x >>= f) s := by
  unfold Spares at hx ⊢
  rcases h : outcome x s with ⟨e | a, m⟩
  · rw [h] at hx
    rw [outcome_bind_error h]
    exact avoids_error (hx.not_of_error rfl)
  · rw [outcome_bind_ok h]
    exact hf a m h

/-- A check that a step begins with. -/
theorem Spares.guarded {p : Prop} [Decidable p] {e : Fault} {f : PUnit → Lower α}
    (he : ¬e.IsCapture) (h : Spares x s) : Spares (if p then throw e >>= f else x) s := by
  split
  · exact avoids_error he
  · exact h

theorem spares_forM {f : α → Lower Unit} (hf : ∀ a s, Spares (f a) s) :
    ∀ (as : List α) (s : Session), Spares (as.forM f) s
  | [], _ => (ignores_pure ()).spares
  | a :: as, s => (hf a s).bind fun _ m _ => spares_forM hf as m

theorem spares_mapM {f : α → Lower β} (hf : ∀ a s, Spares (f a) s) :
    ∀ (as : List α) (s : Session), Spares (as.mapM f) s
  | [], _ => (ignores_pure []).spares
  | a :: as, s => by
    rw [List.mapM_cons]
    exact (hf a s).bind fun _ m _ => (spares_mapM hf as m).bind fun _ _ _ => (ignores_pure _).spares

end

/-! ## Copies -/

/-- Copies have names that no binder of the formula has. -/
theorem spares_freshCopy : ∀ {vs : List Variable} {t : Term} {s : Session},
    settling.Fits s t → Spares (freshCopy t vs) s
  | [], _, _, _ => (ignores_pure _).spares
  | v :: vs, t, s, ht => by
    refine (ignores_freshVariable _ _).spares.bind fun c m hc => ?_
    obtain ⟨rfl, rfl⟩ := runs_freshVariable.1 hc
    have hbinders : ∀ x ∈ t.boundNames, x ≠ numbered v.name (s.fresh + 1) := fun x hx =>
      (ht.namesOnly.of_mem_boundNames hx).ne_numbered (Nat.lt_succ_self _)
    have hsubstitute : Avoids Fault.IsCapture
        (t.substitute v (Variable.plain (numbered v.name (s.fresh + 1)) v.sort).term) := by
      refine avoids_substitute fun x hx htaken => absurd ?_ (hbinders x hx)
      obtain ⟨w, hw, rfl⟩ := List.mem_map.1 htaken
      rw [List.mem_singleton.1 (Term.mem_freeOccurrences_of_mem_freeVariables hw)]
      rfl
    refine Spares.bind (x := liftM (t.substitute v _)) hsubstitute fun t' m hcopy => ?_
    obtain ⟨ht', rfl⟩ := runs_lift.1 hcopy
    have hnew : settling.Fits s.next
        (Variable.plain (numbered v.name (s.fresh + 1)) v.sort).term :=
      settled_numbered (Nat.le_refl _)
    have hfits : settling.Fits s.next t' := Term.MadeOf.exchanged hnew
      (Term.exchanged_substitute ht') (settling.fits (settling.next s) ht)
    exact (spares_freshCopy hfits).bind fun _ _ _ => (ignores_pure _).spares

theorem spares_quantify {q : Relational.Quantifier} {b : Bound} {body : Term} {s : Session}
    (hb : b.Fits settling s) (hbody : settling.Fits s body) : Spares (quantify q b body) s := by
  refine (ignores_lift _).spares.bind fun guard m hrun => ?_
  obtain ⟨hguard, rfl⟩ := runs_lift.1 hrun
  have hguard : settling.Fits s guard := Composes.allOf hguard hb.constraints
  -- what is copied is made of the constraints and the body
  have hwitness : ∀ {witness m}, Runs (liftM (guard.conj body) : Lower Term) s witness m →
      settling.Fits m witness := by
    intro witness m h
    obtain ⟨hwitness, rfl⟩ := runs_lift.1 h
    exact Composes.mkBinary hwitness hguard hbody
  cases q with
  | one =>
    refine (ignores_lift _).spares.bind fun witness m h => ?_
    refine (spares_freshCopy (hwitness h)).bind fun r m _ => Ignores.spares ?_
    refine (ignores_lift _).bind fun _ => (ignores_lift _).bind fun _ => ?_
    exact (ignores_lift _).bind fun _ => (ignores_lift _).bind fun _ => ignores_lift _
  | lone =>
    refine (ignores_lift _).spares.bind fun witness m h => ?_
    refine (spares_freshCopy (hwitness h)).bind fun r m _ => Ignores.spares ?_
    refine (ignores_lift _).bind fun _ => (ignores_lift _).bind fun _ => ?_
    exact (ignores_lift _).bind fun _ => ignores_lift _
  | all => exact ((ignores_lift _).bind fun _ => ignores_lift _).spares
  | some => exact ((ignores_lift _).bind fun _ => ignores_lift _).spares
  | no =>
    exact ((ignores_lift _).bind fun _ => (ignores_lift _).bind fun _ => ignores_lift _).spares
  | comprehension => exact (ignores_throw _).spares

/-! ## Expressions -/

/-- Does inlining keep names settled and find no variable captured? -/
structure Inliner.SparesCaptures (inline : Inliner) : Prop where
  keeps : inline.KeepsTo settling
  spares : ∀ {name : String} {body : Relational.Expr} {env : Environment} {s : Session},
    settling.FitsScope s env → Spares (inline name body env) s

variable {inline : Inliner} {active : List String}

section

variable (h : inline.SparesCaptures)

include h

theorem settled_exprWith {e : Relational.Expr} {env : Environment} {s m : Session} {t : Term}
    (henv : settling.FitsScope s env) (hrun : Runs (exprWith inline active e env) s t m) :
    s.fresh ≤ m.fresh ∧ settling.Fits m t :=
  kept_exprWith h.keeps e hrun trivial (fun _ _ => trivial) henv

theorem settled_exprsWith {es : List Relational.Expr} {env : Environment} {s m : Session}
    {ts : List Term} (henv : settling.FitsScope s env)
    (hrun : Runs (exprsWith inline active es env) s ts m) :
    s.fresh ≤ m.fresh ∧ ∀ t ∈ ts, settling.Fits m t :=
  kept_exprsWith h.keeps es hrun trivial (fun _ _ => trivial) henv

theorem settled_declsWith {ds : List Relational.Decl} {c : Bool} {s m : Session} {b b' : Bound}
    (hb : b.Fits settling s) (hrun : Runs (declsWith inline active ds c b) s b' m) :
    b'.Fits settling m :=
  (kept_declsWith h.keeps ds hrun trivial (fun _ _ => trivial) hb).2

end

mutual

/-- **Lowering an expression captures no variable.** -/
theorem spares_exprWith (h : inline.SparesCaptures) : ∀ (e : Relational.Expr) {env : Environment}
    {s : Session}, settling.FitsScope s env → Spares (exprWith inline active e env) s
  | .constant c, env, s, _ => by
    rw [exprWith]
    exact (ignores_constant c).spares
  | .number n, env, s, _ => by
    rw [exprWith]
    exact (ignores_intRelation n).spares
  | .sig r, env, s, _ => by
    rw [exprWith]
    split
    · exact ignores_integers.spares
    · exact (ignores_signature r).spares
  | .field f, env, s, _ => by
    rw [exprWith]
    exact (ignores_field f).spares
  | .var v, env, s, _ => by
    rw [exprWith]
    cases env.get? v.name with
    | none => exact (ignores_throw _).spares
    | some t => exact (ignores_pure t).spares
  | .unary op e, env, s, henv => by
    rw [exprWith]
    exact (spares_exprWith h e henv).bind fun t _ _ => (ignores_unary op t).spares
  | .binary op l r, env, s, henv => by
    rw [exprWith]
    refine (spares_exprWith h l henv).bind fun t m ht => ?_
    have hm := (settled_exprWith h henv ht).1
    refine (spares_exprWith h r (henv.mono fun _ _ => settling.fits hm)).bind fun u _ _ => ?_
    exact (ignores_binary op t u).spares
  | .list op es, env, s, henv => by
    rw [exprWith]
    refine (spares_exprsWith h es henv).bind fun ts _ _ => ?_
    cases op with
    | and => exact (ignores_lift _).spares
    | or => exact (ignores_lift _).spares
  | .ite c y n, env, s, henv => by
    rw [exprWith]
    refine (spares_exprWith h c henv).bind fun _ m hc => ?_
    have henv := henv.mono fun _ _ => settling.fits (settled_exprWith h henv hc).1
    refine (spares_exprWith h y henv).bind fun _ m hy => ?_
    have henv := henv.mono fun _ _ => settling.fits (settled_exprWith h henv hy).1
    exact (spares_exprWith h n henv).bind fun _ _ _ => (ignores_lift _).spares
  | .letIn v value body, env, s, henv => by
    rw [exprWith]
    refine (spares_exprWith h value henv).bind fun t m ht => ?_
    obtain ⟨hm, ht⟩ := settled_exprWith h henv ht
    exact spares_exprWith h body ((henv.mono fun _ _ => settling.fits hm).enter.put ht)
  | .quantified q ds body, env, s, henv => by
    have hdecls : ∀ (c : Bool) (f : Bound → Term → Lower Term),
        (∀ b t m, b.Fits settling m → settling.Fits m t → Spares (f b t) m) →
        Spares (do
          let b ← declsWith inline active ds c { scope := env.enter }
          f b (← exprWith inline active body b.scope)) s := by
      intro c f hf
      have hstart : Bound.Fits settling s { scope := env.enter } := ⟨henv.enter, by simp, by simp⟩
      refine (spares_declsWith h ds c hstart).bind fun b m hb => ?_
      have hb := settled_declsWith h hstart hb
      refine (spares_exprWith h body hb.scope).bind fun t m' ht => ?_
      obtain ⟨hm', ht⟩ := settled_exprWith h hb.scope ht
      exact hf b t m' (hb.mono hm') ht
    cases q
    case comprehension =>
      rw [exprWith]
      exact hdecls true (comprehend _) fun b t _ _ _ => (ignores_comprehend _ b t).spares
    -- all other quantifiers share one equation, which asks that there is no comprehension
    all_goals
      rw [exprWith]
      · exact hdecls false (quantify _) fun b t _ hb ht => spares_quantify hb ht
      all_goals simp
  | .call name args columns, env, s, henv => by
    rw [exprWith]
    refine Spares.bind (x := function? name) (inferInstanceAs (Avoids _ (.ok _)))
      fun found m hfound => ?_
    obtain rfl : s = m := by
      simp only [function?, runs_bind, runs_get, runs_pure] at hfound
      obtain ⟨_, _, ⟨rfl, rfl⟩, _, rfl⟩ := hfound
      rfl
    cases found with
    | none =>
      dsimp only
      cases integerOperator? name with
      | none => exact (ignores_throw _).spares
      | some op =>
        refine Spares.guarded id ((spares_exprsWith h args henv).bind fun ts _ _ => ?_)
        split
        · exact (ignores_arithmetic op _ _ env).spares
        · exact (ignores_throw _).spares
    | some f =>
      dsimp only
      cases f.body with
      | none => exact (ignores_throw _).spares
      | some body =>
        refine Spares.guarded id (Spares.guarded id ?_)
        refine (spares_exprsWith h args henv).bind fun ts m hts => h.spares ?_
        have hts := (settled_exprsWith h henv hts).2
        exact Scoped.resolves_empty.putAll fun b hb => hts _ (List.of_mem_zip hb).2

theorem spares_exprsWith (h : inline.SparesCaptures) : ∀ (es : List Relational.Expr)
    {env : Environment} {s : Session}, settling.FitsScope s env →
    Spares (exprsWith inline active es env) s
  | [], env, s, _ => by
    rw [exprsWith]
    exact (ignores_pure _).spares
  | e :: es, env, s, henv => by
    rw [exprsWith]
    refine (spares_exprWith h e henv).bind fun t m ht => ?_
    have hm := (settled_exprWith h henv ht).1
    exact (spares_exprsWith h es (henv.mono fun _ _ => settling.fits hm)).bind
      fun _ _ _ => (ignores_pure _).spares

theorem spares_declsWith (h : inline.SparesCaptures) : ∀ (ds : List Relational.Decl) (c : Bool)
    {b : Bound} {s : Session}, b.Fits settling s → Spares (declsWith inline active ds c b) s
  | [], c, b, s, _ => by
    rw [declsWith]
    exact (ignores_pure _).spares
  | .mk vs mult bound disjoint :: ds, c, b, s, hb => by
    rw [declsWith]
    refine Spares.guarded id ((spares_exprWith h bound hb.scope).bind fun t m ht => ?_)
    obtain ⟨hm, ht⟩ := settled_exprWith h hb.scope ht
    refine (ignores_bindDecl vs mult t disjoint b).spares.bind fun b' m' hb' => ?_
    exact spares_declsWith h ds c
      (kept_bindDecl trivial (fun _ _ => trivial) (hb.mono hm) ht hb').2

end

theorem spares_exprWithin : ∀ (depth : Nat) {active : List String} {e : Relational.Expr}
    {env : Environment} {s : Session}, settling.FitsScope s env →
    Spares (exprWithin depth active e env) s
  | 0, _, e, _, _, henv => spares_exprWith ⟨keepsTo_throw, fun _ => avoids_error id⟩ e henv
  | depth + 1, _, e, _, _, henv =>
    spares_exprWith ⟨⟨kept_exprWithin depth⟩, fun h => spares_exprWithin depth h⟩ e henv

theorem spares_formula (e : Relational.Expr) (s : Session) : Spares (formula e) s := by
  have hexpr : Spares (expr e {}) s := by
    have hwithin : Spares (exprWithin s.functions.length [] e {}) s :=
      spares_exprWithin _ Scoped.resolves_empty
    exact hwithin
  refine hexpr.bind fun t m _ => ?_
  split
  · exact (ignores_pure t).spares
  · exact (ignores_throw _).spares

/-! ## Specifications -/

theorem spares_assertField (f : Relational.Field) (what : String) (e : Relational.Expr)
    (s : Session) : Spares (assertField f what e) s :=
  (spares_formula e s).bind fun _ _ _ => (ignores_assert _ _).spares

theorem spares_assertGroup (g : Relational.FieldGroup) (s : Session) : Spares (assertGroup g) s := by
  have hvalues : ∀ s, Spares (if g.disjointValues = true then
      g.fields.forM fun f => assertField f "has disjoint values" (disjointValuesFormula f)
      else pure ()) s := by
    intro s
    split
    · exact spares_forM (fun f => spares_assertField f _ _) g.fields s
    · exact (ignores_pure ()).spares
  have hbounds : Spares (g.fields.forM assertBound) s :=
    spares_forM (fun f s => (spares_assertField f _ _ s).bind fun _ m _ =>
      spares_assertField f _ _ m) g.fields s
  refine hbounds.bind fun _ m _ => ?_
  dsimp only
  split
  · have hapart : Ignores Fault.IsCapture
        ((pairs g.fields).forM fun p => assertDisjointFields p.1 p.2) := by
      refine ignores_forM (fun p => ?_) (pairs g.fields)
      exact ignores_assertDisjointFields p.1 p.2
    exact hapart.spares.bind fun _ m _ => hvalues m
  · exact hvalues m

theorem spares_fields (groups : List Relational.FieldGroup) (s : Session) :
    Spares (fields groups) s := by
  have hdeclare : Ignores Fault.IsCapture (groups.forM fun g => g.fields.forM declareField) :=
    ignores_forM (fun g => ignores_forM ignores_declareField g.fields) groups
  exact hdeclare.spares.bind fun _ m _ => spares_forM spares_assertGroup groups m

theorem spares_fact (f : Relational.Fact) (s : Session) : Spares (fact f) s := by
  refine (spares_formula f.formula s).bind fun t m _ => Ignores.spares ?_
  refine (ignores_lift _).bind fun a => ?_
  exact ignores_get_bind (fun s => ignores_modify fun _ _ => rfl) fun _ _ => rfl

theorem spares_command (c : Relational.Command) (s : Session) : Spares (command c) s := by
  have hformula : ∀ s, Spares (commandFormula c) s := by
    intro s
    refine (spares_formula c.formula s).bind fun t m _ => ?_
    split
    · exact (ignores_lift _).spares
    · exact (ignores_pure t).spares
  have hempty : Spares (do
      let a ← Assertion.make c.label (← commandFormula c) none
      let label := c.position.label?.filter fun l => !s.labels.contains l
      let delta := (← get).program.assert { a with label := label }
      modify fun m => { m with program := s.program, onDemand := s.onDemand }
      return delta) { s with program := {} } := by
    refine (hformula _).bind fun t m _ => Ignores.spares ((ignores_lift _).bind fun a => ?_)
    refine ignores_get_bind (fun s => ?_) fun _ _ => rfl
    exact (ignores_modify fun _ _ => rfl).bind fun _ => ignores_pure _
  exact hempty

theorem spares_items (spec : Relational.Specification) (s : Session) : Spares (items spec) s := by
  have hcommand : ∀ (c : Relational.Command) (s : Session),
      Spares (do return (c, ← command c)) s := fun c s =>
    (spares_command c s).bind fun _ _ _ => (ignores_pure _).spares
  refine (ignores_signatures _).spares.bind fun _ m _ => ?_
  refine (spares_fields spec.fieldGroups m).bind fun _ m _ => ?_
  refine (spares_forM spares_fact spec.facts m).bind fun _ m _ => ?_
  refine (spares_mapM hcommand spec.commands m).bind fun _ m _ => Ignores.spares ?_
  exact ignores_get_bind (fun _ => ignores_pure _) fun _ _ => rfl

/-- **Lowering a specification captures no variable.** -/
theorem avoids_lower (spec : Relational.Specification) (singletonsOnly : Bool) :
    Avoids Fault.IsCapture (spec.lower singletonsOnly) := by
  rw [lower_eq_items]
  exact spares_items spec _

end RelSmt.Lowering
