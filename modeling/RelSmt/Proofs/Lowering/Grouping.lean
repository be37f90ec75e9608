import RelSmt.Proofs.Lowering.ForkedFormula
import RelSmt.Proofs.Lowering.Functions
import RelSmt.Proofs.Lowering.Specification
import RelSmt.Proofs.Relational.Grouping

/-!
# Groups in lowered specifications

Lowering an expression comes to the same as lowering its bare form, over functions whose bodies are
bare: the same fault, or the same term and the same session (`Mirrors`). So two specifications with
the same bare forms are lowered to the same programs. Dropping groups keeps the bare forms, and it
keeps the multiplicities of fields where no group hides a marker (`lower_ungroups`).
-/

namespace RelSmt.Lowering

/-! ## Steps over corresponding functions -/

section

variable {α β γ δ : Type} {fs gs hs : List Relational.Function}

/-- Begun over `gs`, the second step does what the first does over `fs`, with another result where
there is one. -/
def Mirrors (fs gs : List Relational.Function) (φ : α → β) (x : Lower α) (y : Lower β) : Prop :=
  ∀ s, s.functions = fs → (outcome x s).2.functions = fs ∧
    outcome y (s.over gs) = ((outcome x s).1.map φ, (outcome x s).2.over gs)

theorem Ignores.mirrors {x : Lower α} (h : Ignores Fault.IsRecursion x) : Mirrors fs gs id x x := by
  intro s hs
  refine ⟨(h.functions_eq s).trans hs, ?_⟩
  rw [h.same s gs, Except.map_id]
  rfl

theorem mirrors_pure {φ : α → β} (a : α) : Mirrors fs gs φ (pure a) (pure (φ a)) :=
  fun _ hs => ⟨hs, rfl⟩

theorem mirrors_throw {φ : α → β} (e : Fault) : Mirrors fs gs φ (throw e) (throw e) :=
  fun _ hs => ⟨hs, rfl⟩

theorem Mirrors.bind {φ : α → β} {ψ : γ → δ} {x : Lower α} {y : Lower β} {f : α → Lower γ}
    {g : β → Lower δ} (h : Mirrors fs gs φ x y) (hf : ∀ a, Mirrors fs gs ψ (f a) (g (φ a))) :
    Mirrors fs gs ψ (x >>= f) (y >>= g) := by
  intro s hs
  obtain ⟨hfunctions, hy⟩ := h s hs
  rcases hx : outcome x s with ⟨_ | a, m⟩
  · rw [hx] at hfunctions hy
    rw [outcome_bind_error hx, outcome_bind_error hy]
    exact ⟨hfunctions, rfl⟩
  · rw [hx] at hfunctions hy
    rw [outcome_bind_ok hx, outcome_bind_ok hy]
    exact hf a m hfunctions

/-- What is looked up in the session is the same but for the functions. -/
theorem mirrors_get_bind {ψ : γ → δ} {f : Session → Lower γ} {g : Session → Lower δ}
    (hf : ∀ s, s.functions = fs → Mirrors fs gs ψ (f s) (g (s.over gs))) :
    Mirrors fs gs ψ (get >>= f) (get >>= g) :=
  fun s hs => hf s hs s hs

/-- A check that both steps begin with. -/
theorem Mirrors.guarded {φ : α → β} {p : Prop} [Decidable p] {e : Fault} {x : Lower α} {y : Lower β}
    {f : PUnit → Lower α} {g : PUnit → Lower β} (h : ¬p → Mirrors fs gs φ x y) :
    Mirrors fs gs φ (if p then throw e >>= f else x) (if p then throw e >>= g else y) := by
  by_cases hp : p
  · rw [if_pos hp, if_pos hp]
    exact fun _ hs => ⟨hs, rfl⟩
  · rw [if_neg hp, if_neg hp]
    exact h hp

theorem mirrors_forM {f : α → Lower Unit} {g : β → Lower Unit} : ∀ {as : List α} {bs : List β},
    List.Forall₂ (fun a b => Mirrors fs gs id (f a) (g b)) as bs →
    Mirrors fs gs id (as.forM f) (bs.forM g)
  | [], _, .nil => mirrors_pure ()
  | _ :: _, _, .cons h hs => h.bind fun _ => mirrors_forM hs

/-- Two steps that one step mirrors over the same functions mirror each other. -/
theorem Mirrors.between {x y z : Lower α} (hx : Mirrors fs hs id x z) (hy : Mirrors gs hs id y z) :
    Mirrors fs gs id x y := by
  intro s hs'
  obtain ⟨hfunctions, hxz⟩ := hx s hs'
  obtain ⟨hfunctions', hyz⟩ := hy (s.over gs) rfl
  rw [Session.over_over, hxz, Except.map_id] at hyz
  obtain ⟨hresult, hsession⟩ := Prod.mk.inj hyz
  refine ⟨hfunctions, Prod.ext ?_ ?_⟩
  · rw [Except.map_id]
    exact hresult.symm
  · have hover : (outcome y (s.over gs)).2.over hs = ((outcome x s).2.over gs).over hs :=
      hsession.symm
    exact Session.eq_of_over_eq hover hfunctions'

end

/-! ## Expressions -/

section

/-- Do calls find in the second list the bare forms of what they find in the first, and may they
nest as deep? -/
structure Bares (fs hs : List Relational.Function) : Prop where
  length : hs.length = fs.length
  found (name : String) : (hs.reverse.find? fun f => f.name == name) =
    (fs.reverse.find? fun f => f.name == name).map Relational.Function.bare

variable {fs hs : List Relational.Function} {inline inlineBare : Inliner} {active : List String}

/-- Groups and markers leave a lowered operand as it is. -/
theorem unary_of_isBlank {op : Relational.UnaryOp} (h : op.isBlank = true) (t : Term) :
    unary op t = pure t := by
  cases op with
  | setOf => rfl
  | someOf => rfl
  | loneOf => rfl
  | oneOf => rfl
  | group => rfl
  | _ => simp [Relational.UnaryOp.isBlank, Relational.UnaryOp.marker?] at h

/-- A name calls the function with the bare body. -/
theorem mirrors_function? (hbares : Bares fs hs) (name : String) :
    Mirrors fs hs (Option.map Relational.Function.bare) (function? name) (function? name) := by
  refine mirrors_get_bind fun s hs' => ?_
  rw [Session.over_functions, hbares.found name, hs']
  exact mirrors_pure _

/-- Is a bare body inlined as the body is? -/
def InlineMirrors (fs hs : List Relational.Function) (inline inlineBare : Inliner) : Prop :=
  ∀ name body env, Mirrors fs hs id (inline name body env) (inlineBare name body.bare env)

mutual

/-- **An expression is lowered as its bare form is.** -/
theorem mirrors_exprWith (hbares : Bares fs hs)
    (hinline : InlineMirrors fs hs inline inlineBare) :
    ∀ (e : Relational.Expr) (env : Environment),
      Mirrors fs hs id (exprWith inline active e env) (exprWith inlineBare active e.bare env)
  | .constant c, env => by
    rw [Relational.Expr.bare, exprWith, exprWith]
    exact (ignores_constant c).mirrors
  | .number n, env => by
    rw [Relational.Expr.bare, exprWith, exprWith]
    exact (ignores_intRelation n).mirrors
  | .sig r, env => by
    rw [Relational.Expr.bare, exprWith, exprWith]
    split
    · exact ignores_integers.mirrors
    · exact (ignores_signature r).mirrors
  | .field f, env => by
    rw [Relational.Expr.bare, exprWith, exprWith]
    exact (ignores_field f).mirrors
  | .var v, env => by
    rw [Relational.Expr.bare, exprWith, exprWith]
    cases env.get? v.name with
    | none => exact mirrors_throw _
    | some t => exact mirrors_pure t
  | .unary op e, env => by
    rw [Relational.Expr.bare]
    split
    · -- the bare form is without the operator, and lowering passes over it
      rename_i hblank
      rw [exprWith, funext (unary_of_isBlank hblank), bind_pure]
      exact mirrors_exprWith hbares hinline e env
    · rw [exprWith, exprWith]
      exact (mirrors_exprWith hbares hinline e env).bind fun t => (ignores_unary op t).mirrors
  | .binary op l r, env => by
    rw [Relational.Expr.bare, exprWith, exprWith]
    refine (mirrors_exprWith hbares hinline l env).bind fun t => ?_
    exact (mirrors_exprWith hbares hinline r env).bind fun u => (ignores_binary op t u).mirrors
  | .list op es, env => by
    rw [Relational.Expr.bare, exprWith, exprWith]
    refine (mirrors_exprsWith hbares hinline es env).bind fun ts => ?_
    cases op with
    | and => exact (ignores_lift _).mirrors
    | or => exact (ignores_lift _).mirrors
  | .ite c y n, env => by
    rw [Relational.Expr.bare, exprWith, exprWith]
    refine (mirrors_exprWith hbares hinline c env).bind fun _ => ?_
    refine (mirrors_exprWith hbares hinline y env).bind fun _ => ?_
    exact (mirrors_exprWith hbares hinline n env).bind fun _ => (ignores_lift _).mirrors
  | .letIn v value body, env => by
    rw [Relational.Expr.bare, exprWith, exprWith]
    exact (mirrors_exprWith hbares hinline value env).bind fun t =>
      mirrors_exprWith hbares hinline body _
  | .quantified q ds body, env => by
    rw [Relational.Expr.bare]
    cases q
    case comprehension =>
      rw [exprWith, exprWith, Relational.Decl.flatMap_bareAll]
      refine (mirrors_declsWith hbares hinline ds true _).bind fun b => ?_
      exact (mirrors_exprWith hbares hinline body b.scope).bind fun t =>
        (ignores_comprehend _ b t).mirrors
    -- all other quantifiers share one equation, which asks that there is no comprehension
    all_goals
      rw [exprWith, exprWith]
      · refine (mirrors_declsWith hbares hinline ds false _).bind fun b => ?_
        exact (mirrors_exprWith hbares hinline body b.scope).bind fun t =>
          (ignores_quantify _ b t).mirrors
      all_goals simp
  | .call name args columns, env => by
    have hargs := mirrors_exprsWith hbares hinline args env
    rw [Relational.Expr.bare, exprWith, exprWith, Relational.Expr.length_bareAll]
    refine (mirrors_function? hbares name).bind fun found => ?_
    cases found with
    | none =>
      dsimp only [Option.map]
      cases integerOperator? name with
      | none => exact mirrors_throw _
      | some op =>
        refine Mirrors.guarded fun _ => hargs.bind fun ts => ?_
        dsimp only [id]
        split
        · exact (ignores_arithmetic op _ _ env).mirrors
        · exact mirrors_throw _
    | some f =>
      dsimp only [Option.map, Relational.Function.bare]
      cases f.body with
      | none => exact mirrors_throw _
      | some body =>
        exact Mirrors.guarded fun _ => Mirrors.guarded fun _ => hargs.bind fun ts =>
          hinline name body _

theorem mirrors_exprsWith (hbares : Bares fs hs)
    (hinline : InlineMirrors fs hs inline inlineBare) :
    ∀ (es : List Relational.Expr) (env : Environment),
      Mirrors fs hs id (exprsWith inline active es env)
        (exprsWith inlineBare active (Relational.Expr.bareAll es) env)
  | [], env => by
    rw [Relational.Expr.bareAll, exprsWith, exprsWith]
    exact mirrors_pure _
  | e :: es, env => by
    rw [Relational.Expr.bareAll, exprsWith, exprsWith]
    refine (mirrors_exprWith hbares hinline e env).bind fun t => ?_
    exact (mirrors_exprsWith hbares hinline es env).bind fun ts => mirrors_pure _

theorem mirrors_declsWith (hbares : Bares fs hs)
    (hinline : InlineMirrors fs hs inline inlineBare) :
    ∀ (ds : List Relational.Decl) (c : Bool) (b : Bound),
      Mirrors fs hs id (declsWith inline active ds c b)
        (declsWith inlineBare active (Relational.Decl.bareAll ds) c b)
  | [], c, b => by
    rw [Relational.Decl.bareAll, declsWith, declsWith]
    exact mirrors_pure _
  | .mk vs m bound disjoint :: ds, c, b => by
    rw [Relational.Decl.bareAll, declsWith, declsWith]
    refine Mirrors.guarded fun _ => (mirrors_exprWith hbares hinline bound b.scope).bind fun t => ?_
    exact (ignores_bindDecl vs m t disjoint b).mirrors.bind fun b =>
      mirrors_declsWith hbares hinline ds c b

end

/-- With more room, bare bodies are inlined alike because they are with less room. -/
theorem inlineMirrors_within (hbares : Bares fs hs) : ∀ (depth : Nat) (active : List String),
    InlineMirrors fs hs (inlinerWithin depth active) (inlinerWithin depth active)
  | 0, _ => fun _ _ _ => mirrors_throw _
  | depth + 1, active => by
    intro name body env
    show Mirrors fs _ id (exprWithin depth (name :: active) body env)
      (exprWithin depth (name :: active) body.bare env)
    rw [exprWithin_eq, exprWithin_eq]
    exact mirrors_exprWith hbares (inlineMirrors_within hbares depth (name :: active)) body env

theorem mirrors_formula_bare (hbares : Bares fs hs) (e : Relational.Expr) :
    Mirrors fs hs id (formula e) (formula e.bare) := by
  have hexpr : Mirrors fs hs id (expr e {}) (expr e.bare {}) := by
    refine mirrors_get_bind fun s hs' => ?_
    -- how deep calls may nest depends on the number of functions, which is the same
    rw [Session.over_functions, hbares.length, hs', exprWithin_eq, exprWithin_eq]
    exact mirrors_exprWith hbares (inlineMirrors_within hbares _ _) e {}
  refine hexpr.bind fun t => ?_
  dsimp only [id]
  split
  · exact mirrors_pure t
  · exact mirrors_throw _

end

/-! ## Specifications -/

section

variable {fs gs : List Relational.Function}

/-- Do calls find functions with one bare form, and may they nest as deep? -/
structure CallsAlike (fs gs : List Relational.Function) : Prop where
  length : gs.length = fs.length
  found (name : String) :
    (gs.reverse.find? fun f => f.name == name).map Relational.Function.bare =
      (fs.reverse.find? fun f => f.name == name).map Relational.Function.bare

theorem bares_map (fs : List Relational.Function) : Bares fs (fs.map Relational.Function.bare) where
  length := List.length_map _
  found name := by
    rw [← List.map_reverse, List.find?_map]
    rfl

theorem CallsAlike.bares (h : CallsAlike fs gs) : Bares fs (gs.map Relational.Function.bare) where
  length := (bares_map gs).length.trans h.length
  found name := ((bares_map gs).found name).trans (h.found name)

theorem callsAlike_of_map_bare
    (h : gs.map Relational.Function.bare = fs.map Relational.Function.bare) : CallsAlike fs gs where
  length := by simpa using congrArg List.length h
  found name := by rw [← (bares_map gs).found, h, (bares_map fs).found]

/-- Formulas with one bare form are lowered to the same where calls find the same. -/
theorem mirrors_formula (hgs : CallsAlike fs gs) {e e' : Relational.Expr} (he : e'.bare = e.bare) :
    Mirrors fs gs id (formula e) (formula e') := by
  -- both are lowered as their bare form is over the functions with bare bodies
  have hmirrored := mirrors_formula_bare (bares_map gs) e'
  rw [he] at hmirrored
  exact (mirrors_formula_bare hgs.bares e).between hmirrored

/-! ### Fields -/

variable {f f' : Relational.Field}

theorem bare_valuesFormula (h : f.Ungroups f') :
    (valuesFormula f').bare = (valuesFormula f).bare := by
  simp only [valuesFormula, Relational.Expr.bare, Relational.Decl.bareAll,
    Relational.Expr.bare_splitMarker, h.ref, h.multiplicity, h.bound.bare_eq, h.bound.columns_eq]

theorem bare_rangeFormula (h : f.Ungroups f') : (rangeFormula f').bare = (rangeFormula f).bare := by
  simp only [rangeFormula, Relational.Expr.bare, Relational.Expr.bare_substitute,
    Relational.Expr.bare_splitMarker, h.ref, h.bound.bare_eq]

theorem mirrors_assertField (hgs : CallsAlike fs gs) (h : f.Ungroups f')
    (what : String) {e e' : Relational.Expr} (he : e'.bare = e.bare) :
    Mirrors fs gs id (assertField f what e) (assertField f' what e') := by
  unfold assertField
  rw [h.ref]
  exact (mirrors_formula hgs he).bind fun _ => (ignores_assert _ _).mirrors

theorem mirrors_assertBound (hgs : CallsAlike fs gs)
    (h : f.Ungroups f') : Mirrors fs gs id (assertBound f) (assertBound f') :=
  (mirrors_assertField hgs h _ (bare_valuesFormula h)).bind fun _ =>
    mirrors_assertField hgs h _ (bare_rangeFormula h)

theorem mirrors_declareField (h : f.Ungroups f') :
    Mirrors fs gs id (declareField f) (declareField f') := by
  have heq : declareField f' = declareField f := by
    simp only [declareField, h.ref]
  rw [heq]
  exact (ignores_declareField f).mirrors

theorem mirrors_assertGroup (hgs : CallsAlike fs gs)
    {g g' : Relational.FieldGroup} (h : g.Ungroups g') :
    Mirrors fs gs id (assertGroup g) (assertGroup g') := by
  have hapart : Mirrors fs gs id
      ((pairs g.fields).forM fun p => assertDisjointFields p.1 p.2)
      ((pairs g'.fields).forM fun p => assertDisjointFields p.1 p.2) := by
    refine mirrors_forM ((forall₂_pairs h.fields).imp fun p q hpq => ?_)
    -- that two fields are disjoint is said with their names alone, and these are the same
    have hsame : assertDisjointFields q.1 q.2 = assertDisjointFields p.1 p.2 := by
      simp only [assertDisjointFields, hpq.1.ref, hpq.2.ref]
    rw [hsame]
    exact (ignores_assertDisjointFields p.1 p.2).mirrors
  have hvalues : Mirrors fs gs id
      (g.fields.forM fun f => assertField f "has disjoint values" (disjointValuesFormula f))
      (g'.fields.forM fun f => assertField f "has disjoint values" (disjointValuesFormula f)) := by
    refine mirrors_forM (h.fields.imp fun f f' hf => mirrors_assertField hgs hf _ ?_)
    simp only [disjointValuesFormula, hf.ref]
  unfold assertGroup
  rw [h.disjoint, h.disjointValues]
  refine (mirrors_forM (h.fields.imp fun _ _ hf => mirrors_assertBound hgs hf)).bind fun _ => ?_
  have hlast : Mirrors fs gs id
      (if g.disjointValues = true then
        g.fields.forM fun f => assertField f "has disjoint values" (disjointValuesFormula f)
      else pure ())
      (if g.disjointValues = true then
        g'.fields.forM fun f => assertField f "has disjoint values" (disjointValuesFormula f)
      else pure ()) := by
    split
    · exact hvalues
    · exact mirrors_pure ()
  dsimp only
  split
  · exact hapart.bind fun _ => hlast
  · exact hlast

theorem mirrors_fields (hgs : CallsAlike fs gs)
    {groups groups' : List Relational.FieldGroup}
    (h : List.Forall₂ Relational.FieldGroup.Ungroups groups groups') :
    Mirrors fs gs id (fields groups) (fields groups') := by
  have hdeclare : List.Forall₂ (fun g g' : Relational.FieldGroup =>
      Mirrors fs gs id (g.fields.forM declareField) (g'.fields.forM declareField)) groups groups' :=
    h.imp fun _ _ hg => mirrors_forM (hg.fields.imp fun _ _ hf => mirrors_declareField hf)
  refine (mirrors_forM hdeclare).bind fun _ => ?_
  exact mirrors_forM (h.imp fun _ _ hg => mirrors_assertGroup hgs hg)

/-! ### Facts and commands -/

theorem mirrors_fact (hgs : CallsAlike fs gs)
    {f f' : Relational.Fact} (h : f.Ungroups f') : Mirrors fs gs id (fact f) (fact f') := by
  unfold fact
  rw [h.label, h.position]
  refine (mirrors_formula hgs h.formula.bare_eq).bind fun t => ?_
  refine (ignores_lift _).mirrors.bind fun a => mirrors_get_bind fun s hs => ?_
  exact (ignores_modify fun _ _ => rfl).mirrors

theorem mirrors_command (hgs : CallsAlike fs gs)
    {c c' : Relational.Command} (h : c.Ungroups c') :
    Mirrors fs gs id (command c) (command c') := by
  unfold command commandFormula
  rw [h.label, h.position, h.check]
  refine mirrors_get_bind fun before hbefore => ?_
  refine (ignores_modify fun _ _ => rfl).mirrors.bind fun _ => ?_
  refine Mirrors.bind ?_ fun t => (ignores_lift _).mirrors.bind fun a => ?_
  · refine (mirrors_formula hgs h.formula.bare_eq).bind fun t => ?_
    split
    · exact (ignores_lift _).mirrors
    · exact mirrors_pure t
  · refine mirrors_get_bind fun s hs => ?_
    exact (ignores_modify fun _ _ => rfl).mirrors.bind fun _ => mirrors_pure _

/-- What commands add comes with the commands of the one or of the other specification. -/
theorem mirrors_commands (hgs : CallsAlike fs gs) :
    ∀ {cs cs' : List Relational.Command}, List.Forall₂ Relational.Command.Ungroups cs cs' →
      Mirrors fs gs (fun added => cs'.zip (added.map Prod.snd))
        (cs.mapM fun c => do return (c, ← command c)) (cs'.mapM fun c => do return (c, ← command c))
  | [], _, .nil => mirrors_pure _
  | c :: cs, c' :: cs', .cons h hs => by
    rw [List.mapM_cons, List.mapM_cons]
    have hfirst : Mirrors fs gs (fun added => (c', added.2))
        (do return (c, ← command c)) (do return (c', ← command c')) :=
      (mirrors_command hgs h).bind fun delta => mirrors_pure (c, delta)
    refine hfirst.bind fun added => (mirrors_commands hgs hs).bind fun rest => ?_
    exact mirrors_pure (added :: rest)

end

/-- Groups are dropped all over, and calls find the same. -/
theorem mirrors_items_of_callsAlike {spec spec' : Relational.Specification}
    (hgs : CallsAlike spec.functions spec'.functions)
    (hsignatures : spec'.signatures = spec.signatures)
    (hgroups : List.Forall₂ Relational.FieldGroup.Ungroups spec.fieldGroups spec'.fieldGroups)
    (hfacts : List.Forall₂ Relational.Fact.Ungroups spec.facts spec'.facts)
    (hcommands : List.Forall₂ Relational.Command.Ungroups spec.commands spec'.commands) :
    Mirrors spec.functions spec'.functions
      (fun enc => { enc with commands := spec'.commands.zip (enc.commands.map Prod.snd) })
      (items spec) (items spec') := by
  unfold items
  rw [hsignatures]
  refine (ignores_signatures _).mirrors.bind fun _ => ?_
  refine (mirrors_fields hgs hgroups).bind fun _ => ?_
  refine (mirrors_forM (hfacts.imp fun _ _ hf => mirrors_fact hgs hf)).bind fun _ => ?_
  refine (mirrors_commands hgs hcommands).bind fun added => ?_
  exact mirrors_get_bind fun s hs => mirrors_pure _

theorem mirrors_items {spec spec' : Relational.Specification} (h : spec.Ungroups spec') :
    Mirrors spec.functions spec'.functions
      (fun enc => { enc with commands := spec'.commands.zip (enc.commands.map Prod.snd) })
      (items spec) (items spec') :=
  mirrors_items_of_callsAlike (callsAlike_of_map_bare (Relational.Function.map_bare_eq h.functions))
    h.signatures h.fieldGroups h.facts h.commands

/-! ## Groups have no meaning -/

/-- **Groups have no meaning where they hide no marker that matters.** Take a specification in which
groups are dropped: in facts, commands, bodies of functions, bounds of quantifiers and bounds of
fields. Bounds of fields, and bounds from which declarations are made anew, say the multiplicity
that they have said before. Then it is lowered as before: with the same fault, or to the same
program with the same constants of signatures and fields, each command adding the same. -/
theorem lower_ungroups {spec spec' : Relational.Specification} (h : spec.Ungroups spec')
    (singletonsOnly : Bool) :
    spec'.lower singletonsOnly = (spec.lower singletonsOnly).map fun enc =>
      { enc with commands := spec'.commands.zip (enc.commands.map Prod.snd) } := by
  have hitems := (mirrors_items h (.initial singletonsOnly spec.functions) rfl).2
  rw [lower_eq_items, lower_eq_items]
  exact congrArg Prod.fst hitems

/-! A specification with groups, and without them. The group around the bound of the quantifier
hides a marker that says what a bound without marker says. -/

/-- The specification with something around its expressions. -/
def wrappedSpec (wrap : Relational.Expr → Relational.Expr) : Relational.Specification where
  signatures := [⟨nestedOwner, .top, false, none, {}⟩]
  fieldGroups := [{ fields :=
    [⟨⟨0, nestedOwner, "f", [.atom, .atom]⟩, .unary .setOf (wrap (.sig nestedOwner)), {}⟩] }]
  functions := [.predicate "p" [nestedOuter]
    (wrap (.binary .isIn (.var nestedOuter) (.sig nestedOwner))) {}]
  facts := [⟨"F", .quantified .all
    [.mk [nestedOuter] (wrap (.unary .oneOf (.sig nestedOwner))).splitMarker.1
      (wrap (.unary .oneOf (.sig nestedOwner))).splitMarker.2 false]
    (wrap (.call "p" [.var nestedOuter] [])), {}⟩]
  commands := [⟨"C", wrap (.unary .some (.sig nestedOwner)), false, {}⟩]

theorem ungroups_wrapped :
    (wrappedSpec (.unary .group)).Ungroups (wrappedSpec id) where
  signatures := rfl
  fieldGroups := .cons ⟨.cons ⟨rfl, rfl, .unary (.group (.sig _)), rfl⟩ .nil, rfl, rfl⟩ .nil
  functions := .cons ⟨rfl, rfl, rfl, rfl, .some (.group (.binary (.var _) (.sig _)))⟩ .nil
  facts := .cons ⟨rfl, rfl, .quantified (.rebuilt (.group (.unary (.sig _))) rfl .nil)
    (.group (.call (.cons (.var _) .nil)))⟩ .nil
  commands := .cons ⟨rfl, rfl, rfl, .group (.unary (.sig _))⟩ .nil

theorem lower_wrapped : ∃ enc, (wrappedSpec (.unary .group)).lower true = .ok enc :=
  ⟨_, rfl⟩

/-- With and without groups the specification is lowered to the same program. -/
theorem lower_ungroups_wrapped : (wrappedSpec (.unary .group)).Ungroups (wrappedSpec id) ∧
    ∃ enc enc', (wrappedSpec (.unary .group)).lower true = .ok enc ∧
      (wrappedSpec id).lower true = .ok enc' ∧ enc'.base = enc.base ∧
      enc'.fields = enc.fields := by
  obtain ⟨enc, henc⟩ := lower_wrapped
  have hsame := lower_ungroups ungroups_wrapped true
  rw [henc] at hsame
  exact ⟨ungroups_wrapped, enc, _, henc, hsame, rfl, rfl⟩

end RelSmt.Lowering
