import RelSmt.Proofs.Lowering.Declaration
import RelSmt.Proofs.Lowering.Expr
import RelSmt.Proofs.Relational.Site

/-!
# What variables resolve to

Variables have an identity, and two of them may share a name. To say which declaration an occurrence
is resolved to, lowering is told once more with the declarations around an expression kept in a
list, the innermost first, and with a parameter that says when a declared variable is the one that
occurs. Everything else is left to the steps that lowering itself takes.

With variables of one name taken for the same this is lowering as it is (`outcome_formulaBy_name`).
With variables told apart it is what their identity asks for. The two come to the same wherever each
occurrence is unshadowed, and where one is not, the name decides.
-/

namespace RelSmt.Lowering

/-! ## Lowering over a list of declarations -/

/-- Declared variables with the terms that stand for them, the innermost declaration first. -/
abbrev Declarations := List (Relational.Var × Term)

/-- When is a declared variable the one that occurs? -/
abbrev Sameness := Relational.Var → Relational.Var → Bool

/-- Variables of one name are taken for the same. -/
def sameName : Sameness := fun w v => w.name == v.name

/-- Variables are told apart by identity. -/
def sameVariable : Sameness := fun w v => decide (w = v)

/-- The term of the innermost declaration of the variable. -/
def Declarations.get? (same : Sameness) (d : Declarations) (v : Relational.Var) : Option Term :=
  (d.find? fun b => same b.1 v).map Prod.snd

/-- The declared variables. -/
def Declarations.scope (d : Declarations) : List Relational.Var := d.map Prod.fst

/-- Variables with what the body of a binder sees them as, put in front of earlier declarations. -/
def Declarations.with (d : Declarations) (vs : List Relational.Var) (images : List Term) :
    Declarations :=
  (vs.zip images).reverse ++ d

/-- What the body of a binder sees its new variables as. -/
def Bound.newImages (b b' : Bound) (m : Relational.Multiplicity) : List Term :=
  (b'.vars.drop b.vars.length).map (imageOf m)

/-- How calls are inlined over a list of declarations, which holds the arguments. -/
abbrev DeclaredInliner := String → Relational.Expr → Environment → Declarations → Lower Term

mutual

/-- Lowers an expression with each variable resolved to its innermost declaration. The
environment is kept for the operations on integers alone, which ask it for the variables of
enclosing binders. -/
def exprBy (same : Sameness) (inline : DeclaredInliner) (active : List String)
    (e : Relational.Expr) (env : Environment) (d : Declarations) : Lower Term :=
  match e with
  | .constant c => constant c
  | .number n => intRelation n
  | .sig s => if s.isInt then integers else signature s
  | .field f => field f
  | .var v =>
    match d.get? same v with
    | some t => return t
    | none => throw (.unresolved (.variable v.name))
  | .unary op e => do unary op (← exprBy same inline active e env d)
  | .binary op l r => do
    binary op (← exprBy same inline active l env d) (← exprBy same inline active r env d)
  | .list op es => do
    let ts ← exprsBy same inline active es env d
    match op with
    | .and => Term.allOf ts
    | .or => Term.anyOf ts
  | .ite c y n => do
    Term.mkIte (← exprBy same inline active c env d) (← exprBy same inline active y env d)
      (← exprBy same inline active n env d)
  | .letIn v value body => do
    let value ← exprBy same inline active value env d
    exprBy same inline active body (env.enter.put v.name value) ((v, value) :: d)
  | .quantified .comprehension ds body => do
    let (b, d) ← declsBy same inline active ds true { scope := env.enter } d
    let body ← exprBy same inline active body b.scope d
    comprehend (ds.flatMap fun d => d.vars.flatMap Relational.Var.columns) b body
  | .quantified q ds body => do
    let (b, d) ← declsBy same inline active ds false { scope := env.enter } d
    quantify q b (← exprBy same inline active body b.scope d)
  | .call name args _ => do
    match ← function? name with
    | none =>
      match integerOperator? name with
      | none => throw (.unresolved (.function name))
      | some op =>
        if args.length ≠ 2 then throw (.arityMismatch name 2 args.length)
        match ← exprsBy same inline active args env d with
        | [a, b] => arithmetic op a b env
        | _ => throw (.arityMismatch name 2 args.length)
    | some f =>
      match f.body with
      | none => throw (.unresolved (.functionBody name))
      | some body =>
        if active.contains name then throw (.recursiveCall name)
        if f.params.length ≠ args.length then
          throw (.arityMismatch name f.params.length args.length)
        let ts ← exprsBy same inline active args env d
        -- around the body the parameters alone are declared
        inline name body (({} : Environment).putAll ((f.params.map Relational.Var.name).zip ts))
          (Declarations.with [] f.params ts)

/-- Lowers several expressions over one list of declarations. -/
def exprsBy (same : Sameness) (inline : DeclaredInliner) (active : List String)
    (es : List Relational.Expr) (env : Environment) (d : Declarations) : Lower (List Term) :=
  match es with
  | [] => return []
  | e :: es => do
    return (← exprBy same inline active e env d) :: (← exprsBy same inline active es env d)

/-- Binds declarations one after the other and puts their variables into the list. -/
def declsBy (same : Sameness) (inline : DeclaredInliner) (active : List String)
    (ds : List Relational.Decl) (comprehension : Bool) (b : Bound) (d : Declarations) :
    Lower (Bound × Declarations) :=
  match ds with
  | [] => return (b, d)
  | .mk vars m bound disjoint :: ds => do
    if comprehension && m ≠ .one then
      throw (.unsupportedOperator (.comprehension m.name))
    let bound ← exprBy same inline active bound b.scope d
    let b' ← bindDecl vars m bound disjoint b
    declsBy same inline active ds comprehension b' (d.with vars (b.newImages b' m))

end

/-- Lowers an expression with room for `depth` more functions to be inlined into each other. -/
def exprWithinBy (same : Sameness) :
    Nat → List String → Relational.Expr → Environment → Declarations → Lower Term
  | 0, active, e, env, d =>
    exprBy same (fun name _ _ _ => throw (.recursiveCall name)) active e env d
  | depth + 1, active, e, env, d =>
    exprBy same (fun name body env d => exprWithinBy same depth (name :: active) body env d)
      active e env d

/-- Lowers an expression around which nothing is declared. -/
def termBy (same : Sameness) (e : Relational.Expr) : Lower Term := do
  exprWithinBy same (← get).functions.length [] e {} []

/-- Lowers a formula without free variables. -/
def formulaBy (same : Sameness) (e : Relational.Expr) : Lower Term := do
  let t ← termBy same e
  if t.sort = .bool then return t else throw (.sortMismatch (.notFormula t.sort))

/-! ## Steps that go alike -/

section

variable {α β γ δ : Type} {fs : List Relational.Function}

/-- How a step ends that is begun in a session. -/
def outcome (x : Lower α) (s : Session) : Except Fault α × Session := (x.run.run s).run

/-- Begun in one session over the functions `fs`, both steps fail alike, or they leave one session
over `fs` and return results that are so related. -/
def Alike (fs : List Relational.Function) (R : α → β → Prop) (x : Lower α) (y : Lower β) : Prop :=
  ∀ s, s.functions = fs →
    (∃ e s', outcome x s = (.error e, s') ∧ outcome y s = (.error e, s')) ∨
    ∃ a b s', Runs x s a s' ∧ Runs y s b s' ∧ s'.functions = fs ∧ R a b

theorem alike_pure {R : α → β → Prop} {a : α} {b : β} (h : R a b) :
    Alike fs R (pure a) (pure b) :=
  fun s hs => Or.inr ⟨a, b, s, runs_pure.2 ⟨rfl, rfl⟩, runs_pure.2 ⟨rfl, rfl⟩, hs, h⟩

theorem alike_throw {R : α → β → Prop} (e : Fault) : Alike fs R (throw e) (throw e) :=
  fun s _ => Or.inl ⟨e, s, rfl, rfl⟩

theorem Alike.mono {R S : α → β → Prop} {x : Lower α} {y : Lower β} (h : Alike fs R x y)
    (hRS : ∀ a b, R a b → S a b) : Alike fs S x y := by
  intro s hs
  rcases h s hs with hfail | ⟨a, b, s', hx, hy, hs', hab⟩
  · exact Or.inl hfail
  · exact Or.inr ⟨a, b, s', hx, hy, hs', hRS a b hab⟩

/-- Every step goes like itself, whatever is known of its results. -/
theorem alike_self {R : α → α → Prop} {x : Lower α}
    (h : ∀ s a s', s.functions = fs → Runs x s a s' → s'.functions = s.functions ∧ R a a) :
    Alike fs R x x := by
  intro s hs
  rcases hx : outcome x s with ⟨_ | a, s'⟩
  · exact Or.inl ⟨_, _, rfl, rfl⟩
  · obtain ⟨hfunctions, hR⟩ := h s a s' hs hx
    exact Or.inr ⟨a, a, s', hx, hx, hfunctions.trans hs, hR⟩

theorem Alike.bind {R : α → β → Prop} {S : γ → δ → Prop} {x : Lower α} {y : Lower β}
    {f : α → Lower γ} {g : β → Lower δ} (h : Alike fs R x y)
    (hf : ∀ a b, R a b → Alike fs S (f a) (g b)) : Alike fs S (x >>= f) (y >>= g) := by
  intro s hs
  rcases h s hs with ⟨e, s', hx, hy⟩ | ⟨a, b, m, hx, hy, hm, hab⟩
  · have fails : ∀ {α' γ' : Type} {x : Lower α'} {f : α' → Lower γ'},
        outcome x s = (.error e, s') → outcome (x >>= f) s = (.error e, s') := by
      intro α' γ' x f hx
      have hbind : outcome (x >>= f) s = (ExceptT.bindCont f (outcome x s).1 (outcome x s).2) := rfl
      rw [hbind, hx]
      rfl
    exact Or.inl ⟨e, s', fails hx, fails hy⟩
  · have goesOn : ∀ {α' γ' : Type} {x : Lower α'} {f : α' → Lower γ'} {a : α'},
        Runs x s a m → outcome (x >>= f) s = outcome (f a) m := by
      intro α' γ' x f a hx
      have hbind : outcome (x >>= f) s = (ExceptT.bindCont f (outcome x s).1 (outcome x s).2) := rfl
      rw [hbind, show outcome x s = (.ok a, m) from hx]
      rfl
    rcases hf a b hab m hm with ⟨e, s', ha, hb⟩ | ⟨c, d, s', hc, hd, hs', hcd⟩
    · exact Or.inl ⟨e, s', (goesOn hx).trans ha, (goesOn hy).trans hb⟩
    · exact Or.inr ⟨c, d, s', (goesOn hx).trans hc, (goesOn hy).trans hd, hs', hcd⟩

/-- A check that both steps begin with. -/
theorem Alike.guarded {R : α → β → Prop} {p : Prop} [Decidable p] {e : Fault} {x : Lower α}
    {y : Lower β} {f : PUnit → Lower α} {g : PUnit → Lower β} (h : ¬p → Alike fs R x y) :
    Alike fs R (if p then throw e >>= f else x) (if p then throw e >>= g else y) := by
  by_cases hp : p
  · rw [if_pos hp, if_pos hp]
    exact fun s _ => Or.inl ⟨e, s, rfl, rfl⟩
  · rw [if_neg hp, if_neg hp]
    exact h hp

/-- Steps that go alike and return the same end alike. -/
theorem Alike.outcome_eq {x y : Lower α} {s : Session} (h : Alike fs Eq x y)
    (hs : s.functions = fs) : outcome x s = outcome y s := by
  rcases h s hs with ⟨e, s', hx, hy⟩ | ⟨a, _, s', hx, hy, _, rfl⟩
  · rw [hx, hy]
  · exact Eq.trans hx (Eq.symm hy)

end

/-! ## Names and declarations -/

section

variable {env : Environment} {d : Declarations} {fs : List Relational.Function}

/-- Does each name stand for what the innermost declaration of a variable of that name has? -/
def Matches (env : Environment) (d : Declarations) : Prop :=
  ∀ v : Relational.Var, env.get? v.name = d.get? sameName v

theorem matches_empty : Matches {} [] := fun _ => rfl

theorem Matches.enter (h : Matches env d) : Matches env.enter d := by
  intro v
  rw [Scoped.get?_enter]
  exact h v

theorem Matches.put {w : Relational.Var} {t : Term} (h : Matches env d) :
    Matches (env.put w.name t) ((w, t) :: d) := by
  intro v
  by_cases hname : w.name = v.name
  · rw [← hname, Scoped.get?_put_self]
    simp [Declarations.get?, sameName, hname]
  · rw [Scoped.get?_put_of_ne _ _ (Ne.symm hname), h v]
    simp [Declarations.get?, sameName, hname]

theorem with_cons {w : Relational.Var} {vs : List Relational.Var} {t : Term} {ts : List Term} :
    d.with (w :: vs) (t :: ts) = Declarations.with ((w, t) :: d) vs ts := by
  simp [Declarations.with]

theorem Matches.putAll : ∀ {vs : List Relational.Var} {ts : List Term} {env : Environment}
    {d : Declarations}, Matches env d →
    Matches (env.putAll ((vs.map Relational.Var.name).zip ts)) (d.with vs ts)
  | [], ts, env, d, h => by simpa [Declarations.with, Scoped.putAll] using h
  | v :: vs, [], env, d, h => by simpa [Declarations.with, Scoped.putAll] using h
  | v :: vs, t :: ts, env, d, h => by
    rw [with_cons]
    exact (h.put (w := v) (t := t)).putAll

theorem scope_with {vs : List Relational.Var} {ts : List Term} (h : vs.length = ts.length) :
    (d.with vs ts).scope = vs.reverse ++ d.scope := by
  simp [Declarations.with, Declarations.scope, List.map_reverse, List.map_fst_zip (Nat.le_of_eq h)]

/-- One and the same declaration has one term. -/
theorem get?_congr {same same' : Sameness} {v : Relational.Var} : ∀ {d : Declarations},
    d.scope.findIdx? (same · v) = d.scope.findIdx? (same' · v) → d.get? same v = d.get? same' v
  | [], _ => rfl
  | (w, t) :: d, h => by
    simp only [Declarations.scope, List.map_cons, List.findIdx?_cons] at h
    by_cases hw : same w v = true <;> by_cases hw' : same' w v = true
    · simp [Declarations.get?, hw, hw']
    · simp [hw, hw'] at h
    · simp [hw, hw'] at h
    · have hrest : (Declarations.scope d).findIdx? (same · v)
          = (Declarations.scope d).findIdx? (same' · v) := by
        simp only [hw, hw', Bool.false_eq_true, if_false] at h
        exact Option.map_injective Nat.succ_injective h
      simpa [Declarations.get?, hw, hw'] using get?_congr hrest

end

/-! ## Lowering by name -/

section

variable {fs : List Relational.Function} {same : Sameness} {inline : Inliner}
  {inlineBy : DeclaredInliner} {active : List String}

/-- Does the occurrence find the declaration that its name leads to? -/
def Sameness.Agrees (same : Sameness) (scope : List Relational.Var) (v : Relational.Var) : Prop :=
  scope.findIdx? (sameName · v) = scope.findIdx? (same · v)

/-- Do the two ways of inlining go alike where every occurrence finds the declaration that its name
leads to? -/
def InlineAlike (fs : List Relational.Function) (same : Sameness) (inline : Inliner)
    (inlineBy : DeclaredInliner) : Prop :=
  ∀ name body env d, Matches env d →
    Relational.Site.Occurrences fs same.Agrees ⟨d.scope, body⟩ →
    Alike fs Eq (inline name body env) (inlineBy name body env d)

/-- A step that only extends the session goes like itself. -/
theorem alike_of_extends {α : Type} {x : Lower α}
    (h : ∀ s a s', Runs x s a s' → Extends s s') : Alike fs Eq x x :=
  alike_self fun s a s' _ hrun => ⟨(h s a s' hrun).functions, rfl⟩

theorem alike_lift {c : Checked Term} :
    Alike fs Eq (liftM c : Lower Term) (liftM c) :=
  alike_of_extends fun s a s' h => by
    obtain ⟨_, rfl⟩ := runs_lift.1 h
    exact .refl s

theorem functions_bindVars {m : Relational.Multiplicity} {bound : Term} {element : SmtSort} :
    ∀ {vs : List Relational.Var} {b b' : Bound} {images : List Term} {s s' : Session},
      Runs (bindVars m bound element b vs) s (b', images) s' → s'.functions = s.functions
  | [], b, b', images, s, s', h => by
    obtain ⟨_, rfl⟩ := runs_pure.1 h
    rfl
  | v :: vs, b, b', images, s, s', h => by
    obtain ⟨b₁, s₁, image, rest, h₁, h₂, _⟩ := runs_bindVars_cons h
    obtain ⟨c, x, _, hc, _⟩ := runs_bindVar h₁
    exact (functions_bindVars h₂).trans (runs_boundConstraint hc).1.functions

/-- Where the declarations of a binder lead is what the list of declarations says. -/
theorem alike_bindDecl {vs : List Relational.Var} {m : Relational.Multiplicity} {bound : Term}
    {disjoint : Bool} {b : Bound} {d : Declarations} (hb : Matches b.scope d) :
    Alike fs (fun b₁ b₂ => b₁ = b₂ ∧ Matches b₂.scope (d.with vs (b.newImages b₂ m)) ∧
        (d.with vs (b.newImages b₂ m)).scope = vs.reverse ++ d.scope)
      (bindDecl vs m bound disjoint b) (bindDecl vs m bound disjoint b) := by
  refine alike_self fun s b' s' _ h => ?_
  obtain ⟨_, _, _, _, _, hvars, _, _⟩ := runs_bindDecl h
  refine ⟨functions_bindVars hvars, rfl, ?_⟩
  obtain ⟨element, xs, cs, _, hdecl⟩ := declares_bindDecl h
  have himages : b.newImages b' m = xs.map (imageOf m) := by
    rw [Bound.newImages, hdecl.result, List.drop_left]
  rw [himages]
  refine ⟨?_, scope_with (by rw [List.length_map, hdecl.length])⟩
  rw [hdecl.result]
  exact hb.putAll

theorem alike_arithmetic {op : Arithmetic} {x y : Term} {env : Environment} :
    Alike fs Eq (arithmetic op x y env) (arithmetic op x y env) := by
  refine alike_self fun s t s' _ h => ?_
  obtain ⟨_, _, _, _, hadds, _⟩ := runs_arithmetic_adds h
  exact ⟨hadds.functions, rfl⟩

/-- A name calls the last function of that name. -/
theorem alike_function? {name : String} :
    Alike fs (fun f g => f = g ∧ f = fs.reverse.find? fun f => f.name == name)
      (function? name) (function? name) := by
  refine alike_self fun s f s' hs h => ?_
  simp only [function?, runs_bind, runs_get, runs_pure] at h
  obtain ⟨_, _, ⟨rfl, rfl⟩, rfl, rfl⟩ := h
  exact ⟨rfl, rfl, by rw [hs]⟩

/-- Have the declarations `ds`, bound in the scope `d`, led to the same on both sides? -/
structure LeadsTo (ds : List Relational.Decl) (d : Declarations) (b : Bound)
    (r : Bound × Declarations) : Prop where
  bound : b = r.1
  names : Matches r.1.scope r.2
  scope : r.2.scope = Relational.declaredBy ds d.scope

theorem LeadsTo.cons {ds : List Relational.Decl} {vs : List Relational.Var}
    {m : Relational.Multiplicity} {bound : Relational.Expr} {disjoint : Bool} {d d' : Declarations}
    {b : Bound} {r : Bound × Declarations} (h : LeadsTo ds d' b r)
    (hscope : d'.scope = vs.reverse ++ d.scope) :
    LeadsTo (.mk vs m bound disjoint :: ds) d b r where
  bound := h.bound
  names := h.names
  scope := by rw [h.scope, hscope, Relational.declaredBy_cons, Relational.Decl.vars]

mutual

/-- **Where every occurrence finds the declaration that its name leads to, lowering goes as it does
over a list of declarations.** -/
theorem alike_exprWith (hinline : InlineAlike fs same inline inlineBy) :
    ∀ (e : Relational.Expr) {env : Environment} {d : Declarations}, Matches env d →
      Relational.Site.Occurrences fs same.Agrees ⟨d.scope, e⟩ →
      Alike fs Eq (exprWith inline active e env) (exprBy same inlineBy active e env d)
  | .constant c, env, d, _, _ => by
    rw [exprWith, exprBy]
    exact alike_of_extends fun _ _ _ h => extends_constant h
  | .number n, env, d, _, _ => by
    rw [exprWith, exprBy]
    exact alike_of_extends fun _ _ _ h => (runs_intRelation h).2.2
  | .sig r, env, d, _, _ => by
    rw [exprWith, exprBy]
    split
    · exact alike_of_extends fun _ _ _ h => (runs_integers h).2.2
    · refine alike_of_extends fun s _ _ h => ?_
      obtain ⟨_, _, _, rfl⟩ := runs_signature.1 h
      exact .refl s
  | .field f, env, d, _, _ => by
    rw [exprWith, exprBy]
    refine alike_of_extends fun s _ _ h => ?_
    obtain ⟨_, _, _, rfl⟩ := runs_field.1 h
    exact .refl s
  | .var v, env, d, hd, ho => by
    -- the two ways to look a name up agree at this occurrence, and this is where they differ at all
    rw [exprWith, exprBy, hd v, get?_congr ho.here]
    cases d.get? same v with
    | none => exact alike_throw _
    | some t => exact alike_pure rfl
  | .unary op e, env, d, hd, ho => by
    rw [exprWith, exprBy]
    refine (alike_exprWith hinline e hd (ho.step .operand)).bind ?_
    rintro t _ rfl
    exact alike_of_extends fun _ _ _ h => extends_unary h
  | .binary op l r, env, d, hd, ho => by
    rw [exprWith, exprBy]
    refine (alike_exprWith hinline l hd (ho.step .left)).bind ?_
    rintro t _ rfl
    refine (alike_exprWith hinline r hd (ho.step .right)).bind ?_
    rintro u _ rfl
    exact alike_of_extends fun _ _ _ h => extends_binary h
  | .list op es, env, d, hd, ho => by
    rw [exprWith, exprBy]
    refine (alike_exprsWith hinline es hd fun e he => ho.step (.member he)).bind ?_
    rintro ts _ ⟨rfl, _⟩
    cases op with
    | and => exact alike_lift
    | or => exact alike_lift
  | .ite c y n, env, d, hd, ho => by
    rw [exprWith, exprBy]
    refine (alike_exprWith hinline c hd (ho.step .condition)).bind ?_
    rintro t _ rfl
    refine (alike_exprWith hinline y hd (ho.step .yes)).bind ?_
    rintro u _ rfl
    refine (alike_exprWith hinline n hd (ho.step .no)).bind ?_
    rintro w _ rfl
    exact alike_lift
  | .letIn v value body, env, d, hd, ho => by
    rw [exprWith, exprBy]
    refine (alike_exprWith hinline value hd (ho.step .value)).bind ?_
    rintro t _ rfl
    exact alike_exprWith hinline body hd.enter.put (ho.step .letBody)
  | .quantified q ds body, env, d, hd, ho => by
    -- the body is a site under all that the binder declares
    have hdecls : ∀ c, Alike fs (LeadsTo ds d)
        (declsWith inline active ds c { scope := env.enter })
        (declsBy same inlineBy active ds c { scope := env.enter } d) := fun c =>
      alike_declsWith hinline ds hd.enter fun before d after he => ho.step (.bound he)
    have hbody : ∀ {b r}, LeadsTo ds d b r →
        Alike fs Eq (exprWith inline active body b.scope)
          (exprBy same inlineBy active body r.1.scope r.2) := by
      rintro _ ⟨b, d'⟩ ⟨rfl, hd', hscope⟩
      exact alike_exprWith hinline body hd' (hscope ▸ ho.step .body)
    cases q
    case comprehension =>
      rw [exprWith, exprBy]
      refine (hdecls true).bind fun b r hr => (hbody hr).bind ?_
      rintro t _ rfl
      rw [hr.bound]
      exact alike_of_extends fun _ _ _ h => extends_comprehend h
    all_goals
      rw [exprWith, exprBy]
      · refine (hdecls false).bind fun b r hr => (hbody hr).bind ?_
        rintro t _ rfl
        rw [hr.bound]
        exact alike_of_extends fun _ _ _ h => extends_quantify h
      all_goals simp
  | .call name args columns, env, d, hd, ho => by
    have hargs := alike_exprsWith hinline args hd fun e he => ho.step (.argument he)
    rw [exprWith, exprBy]
    refine alike_function?.bind ?_
    rintro found _ ⟨rfl, hfound⟩
    cases found with
    | none =>
      dsimp only
      cases integerOperator? name with
      | none => exact alike_throw _
      | some op =>
        refine Alike.guarded fun htwo => hargs.bind ?_
        rintro ts _ ⟨rfl, hts⟩
        obtain ⟨a, b, rfl⟩ := List.length_eq_two.1 (hts.trans (not_not.1 htwo))
        exact alike_arithmetic
    | some f =>
      dsimp only
      cases hbody : f.body with
      | none => exact alike_throw _
      | some body =>
        refine Alike.guarded fun _ => Alike.guarded fun hlen => hargs.bind ?_
        rintro ts _ ⟨rfl, hts⟩
        -- the body is a site under the parameters and nothing else
        have hscope : (Declarations.with [] f.params ts).scope = f.params.reverse := by
          rw [scope_with (by rw [hts]; exact not_not.1 hlen)]
          simp [Declarations.scope]
        exact hinline name body _ _ matches_empty.putAll
          (hscope ▸ ho.step (.callee hfound.symm hbody))

theorem alike_exprsWith (hinline : InlineAlike fs same inline inlineBy) :
    ∀ (es : List Relational.Expr) {env : Environment} {d : Declarations}, Matches env d →
      (∀ e ∈ es, Relational.Site.Occurrences fs same.Agrees ⟨d.scope, e⟩) →
      Alike fs (fun ts us => ts = us ∧ ts.length = es.length)
        (exprsWith inline active es env) (exprsBy same inlineBy active es env d)
  | [], env, d, _, _ => by
    rw [exprsWith, exprsBy]
    exact alike_pure ⟨rfl, rfl⟩
  | e :: es, env, d, hd, ho => by
    rw [exprsWith, exprsBy]
    obtain ⟨he, hes⟩ := List.forall_mem_cons.1 ho
    refine (alike_exprWith hinline e hd he).bind ?_
    rintro t _ rfl
    refine (alike_exprsWith hinline es hd hes).bind ?_
    rintro ts _ ⟨rfl, hlen⟩
    exact alike_pure ⟨rfl, by simp [hlen]⟩

theorem alike_declsWith (hinline : InlineAlike fs same inline inlineBy) :
    ∀ (ds : List Relational.Decl) {c : Bool} {b : Bound} {d : Declarations}, Matches b.scope d →
      (∀ before x after, ds = before ++ x :: after → Relational.Site.Occurrences fs same.Agrees
        ⟨Relational.declaredBy before d.scope, x.bound⟩) →
      Alike fs (LeadsTo ds d) (declsWith inline active ds c b)
        (declsBy same inlineBy active ds c b d)
  | [], c, b, d, hb, _ => by
    rw [declsWith, declsBy]
    exact alike_pure ⟨rfl, hb, rfl⟩
  | .mk vs m bound disjoint :: ds, c, b, d, hb, ho => by
    rw [declsWith, declsBy]
    refine Alike.guarded fun _ => ?_
    refine (alike_exprWith hinline bound hb (ho [] _ ds rfl)).bind ?_
    rintro t _ rfl
    refine (alike_bindDecl hb).bind ?_
    rintro b' _ ⟨rfl, hb', hscope⟩
    refine (alike_declsWith hinline ds hb' fun before x after he => ?_).mono fun b r hr =>
      hr.cons hscope
    have hx := ho (.mk vs m bound disjoint :: before) x after (by rw [he]; rfl)
    rwa [Relational.declaredBy_cons, Relational.Decl.vars, ← hscope] at hx

end

/-- How calls are inlined with room for `depth` more functions. -/
def inlinerWithin : Nat → List String → Inliner
  | 0, _ => fun name _ _ => throw (.recursiveCall name)
  | depth + 1, active => fun name body env => exprWithin depth (name :: active) body env

/-- How calls are inlined over a list of declarations, with room for `depth` more functions. -/
def inlinerWithinBy (same : Sameness) : Nat → List String → DeclaredInliner
  | 0, _ => fun name _ _ _ => throw (.recursiveCall name)
  | depth + 1, active => fun name body env d => exprWithinBy same depth (name :: active) body env d

theorem exprWithin_eq (depth : Nat) (active : List String) (e : Relational.Expr)
    (env : Environment) :
    exprWithin depth active e env = exprWith (inlinerWithin depth active) active e env := by
  cases depth <;> rfl

theorem exprWithinBy_eq (depth : Nat) (active : List String) (e : Relational.Expr)
    (env : Environment) (d : Declarations) : exprWithinBy same depth active e env d
      = exprBy same (inlinerWithinBy same depth active) active e env d := by
  cases depth <;> rfl

/-- With more room, inlining goes alike because lowering with less room does. -/
theorem inlineAlike_within : ∀ (depth : Nat) (active : List String),
    InlineAlike fs same (inlinerWithin depth active) (inlinerWithinBy same depth active)
  | 0, _ => fun _ _ _ _ _ _ => alike_throw _
  | depth + 1, active => by
    intro name body env d hd ho
    show Alike fs Eq (exprWithin depth (name :: active) body env)
      (exprWithinBy same depth (name :: active) body env d)
    rw [exprWithin_eq, exprWithinBy_eq]
    exact alike_exprWith (inlineAlike_within depth (name :: active)) body hd ho

/-- A formula in which every occurrence finds the declaration that its name leads to is lowered as
the declarations say. -/
theorem alike_formula {e : Relational.Expr}
    (ho : Relational.Site.Occurrences fs same.Agrees ⟨[], e⟩) :
    Alike fs Eq (formula e) (formulaBy same e) := by
  have hget : Alike fs Eq (get : Lower Session) get := alike_self fun m a m' _ h => by
    obtain ⟨rfl, rfl⟩ := runs_get.1 h
    exact ⟨rfl, rfl⟩
  have hexpr : Alike fs Eq (expr e {}) (termBy same e) := by
    refine hget.bind ?_
    rintro m _ rfl
    rw [exprWithin_eq, exprWithinBy_eq]
    exact alike_exprWith (inlineAlike_within _ _) e matches_empty ho
  refine hexpr.bind ?_
  rintro t _ rfl
  split
  · exact alike_pure rfl
  · exact alike_throw _

end

/-! ## What a lowered formula has lowered -/

section

variable {fs : List Relational.Function} {inline : Inliner} {inlineBy : DeclaredInliner}
  {active : List String} {s s' : Session}

/-- A lowering step that begins in the scope of these variables, over the functions `fs`, and
returns. -/
def Returns (fs : List Relational.Function) (scope : List Relational.Var)
    (x : Environment → Lower Term) : Prop :=
  ∃ (env : Environment) (d : Declarations) (s : Session) (t : Term) (s' : Session), Matches env d ∧
    d.scope = scope ∧ s.functions = fs ∧ Runs (x env) s t s'

theorem agrees_name {site : Relational.Site} :
    site.Occurrences fs (Sameness.Agrees sameName) :=
  fun _ _ _ => rfl

theorem Alike.functions_eq {α β : Type} {R : α → β → Prop} {x : Lower α} {y : Lower β} {a : α}
    (h : Alike fs R x y) (hs : s.functions = fs) (hrun : Runs x s a s') :
    s'.functions = fs ∧ ∃ b, R a b := by
  rcases h s hs with ⟨e, m, hx, _⟩ | ⟨a', b, m, hx, _, hm, hab⟩
  · rw [show outcome x s = (.ok a, s') from hrun] at hx
    simp at hx
  · obtain ⟨rfl, rfl⟩ := hrun.unique hx
    exact ⟨hm, b, hab⟩

theorem exists_runs_of_mem (hinline : InlineAlike fs sameName inline inlineBy) :
    ∀ {es : List Relational.Expr} {env : Environment} {d : Declarations} {ts : List Term}
      {s s' : Session}, Matches env d → s.functions = fs →
      Runs (exprsWith inline active es env) s ts s' → ∀ e ∈ es,
      ∃ m t m', m.functions = fs ∧ Runs (exprWith inline active e env) m t m'
  | [], _, _, _, _, _, _, _, _ => by simp
  | e :: es, env, d, ts, s, s', hd, hs, h => by
    simp only [exprsWith, runs_bind, runs_pure] at h
    obtain ⟨t, m, ht, ts, _, hts, _, _⟩ := h
    have hm := ((alike_exprWith hinline e hd agrees_name).functions_eq hs ht).1
    rw [List.forall_mem_cons]
    exact ⟨⟨s, t, m, hs, ht⟩, exists_runs_of_mem hinline hd hm hts⟩

/-- The bound of a declaration is lowered in the scope of those before it. -/
theorem returns_of_declsWith (hinline : InlineAlike fs sameName inline inlineBy)
    {x : Relational.Decl} {after : List Relational.Decl} : ∀ {before : List Relational.Decl}
      {c : Bool} {b b' : Bound} {d : Declarations} {s s' : Session}, Matches b.scope d →
      s.functions = fs → Runs (declsWith inline active (before ++ x :: after) c b) s b' s' →
      Returns fs (Relational.declaredBy before d.scope) (exprWith inline active x.bound)
  | [], c, b, b', d, s, s', hb, hs, h => by
    obtain ⟨vs, m, bound, disjoint⟩ := x
    rw [List.nil_append, declsWith] at h
    split at h
    · exact absurd h runs_throw_bind
    · obtain ⟨t, m, ht, _⟩ := runs_bind.1 h
      exact ⟨b.scope, d, s, t, m, hb, rfl, hs, ht⟩
  | .mk vs mult bound disjoint :: before, c, b, b', d, s, s', hb, hs, h => by
    rw [List.cons_append, declsWith] at h
    split at h
    · exact absurd h runs_throw_bind
    · simp only [runs_bind] at h
      obtain ⟨t, m, ht, b₁, m₁, hdecl, hrest⟩ := h
      have hm := ((alike_exprWith hinline bound hb agrees_name).functions_eq hs ht).1
      obtain ⟨hm₁, _, rfl, hb₁, hscope⟩ := (alike_bindDecl hb).functions_eq hm hdecl
      rw [Relational.declaredBy_cons, Relational.Decl.vars, ← hscope]
      exact returns_of_declsWith hinline hb₁ hm₁ hrest

/-- **An expression that has been lowered has had everything inside it lowered, each in its scope,
and the bodies of the functions it calls inlined.** -/
theorem Returns.step {a b : Relational.Site} (hinline : InlineAlike fs sameName inline inlineBy)
    (h : Returns fs a.scope (exprWith inline active a.expr)) (hstep : Relational.Site.Step fs a b) :
    Returns fs b.scope (exprWith inline active b.expr) ∨
      ∃ name, Returns fs b.scope (inline name b.expr) := by
  obtain ⟨env, d, s, t, s', hd, hscope, hs, h⟩ := h
  -- lowering adds no function, whatever it comes to
  have keeps : ∀ {e : Relational.Expr} {env : Environment} {d : Declarations} {s s' : Session}
      {t : Term}, Matches env d → s.functions = fs → Runs (exprWith inline active e env) s t s' →
      s'.functions = fs :=
    fun hd hs h => ((alike_exprWith hinline _ hd agrees_name).functions_eq hs h).1
  cases hstep with
  | operand =>
    rw [exprWith] at h
    obtain ⟨u, m, hu, _⟩ := runs_bind.1 h
    exact Or.inl ⟨env, d, s, u, m, hd, hscope, hs, hu⟩
  | left =>
    rw [exprWith] at h
    obtain ⟨u, m, hu, _⟩ := runs_bind.1 h
    exact Or.inl ⟨env, d, s, u, m, hd, hscope, hs, hu⟩
  | right =>
    simp only [exprWith, runs_bind] at h
    obtain ⟨u, m, hu, w, m', hw, _⟩ := h
    exact Or.inl ⟨env, d, m, w, m', hd, hscope, keeps hd hs hu, hw⟩
  | member he =>
    rw [exprWith] at h
    obtain ⟨ts, m, hts, _⟩ := runs_bind.1 h
    obtain ⟨k, u, k', hk, hu⟩ := exists_runs_of_mem hinline hd hs hts _ he
    exact Or.inl ⟨env, d, k, u, k', hd, hscope, hk, hu⟩
  | condition =>
    rw [exprWith] at h
    obtain ⟨u, m, hu, _⟩ := runs_bind.1 h
    exact Or.inl ⟨env, d, s, u, m, hd, hscope, hs, hu⟩
  | yes =>
    simp only [exprWith, runs_bind] at h
    obtain ⟨c, m, hc, u, m', hu, _⟩ := h
    exact Or.inl ⟨env, d, m, u, m', hd, hscope, keeps hd hs hc, hu⟩
  | no =>
    simp only [exprWith, runs_bind] at h
    obtain ⟨c, m, hc, u, m', hu, w, m'', hw, _⟩ := h
    exact Or.inl ⟨env, d, m', w, m'', hd, hscope, keeps hd (keeps hd hs hc) hu, hw⟩
  | value =>
    rw [exprWith] at h
    obtain ⟨u, m, hu, _⟩ := runs_bind.1 h
    exact Or.inl ⟨env, d, s, u, m, hd, hscope, hs, hu⟩
  | letBody =>
    rw [exprWith] at h
    obtain ⟨u, m, hu, h⟩ := runs_bind.1 h
    -- the variable of the let is the nearest in scope
    exact Or.inl ⟨_, _, m, t, s', hd.enter.put, congrArg (_ :: ·) hscope, keeps hd hs hu, h⟩
  | bound he =>
    subst he
    obtain ⟨b, u, m, m', hdecls, _⟩ := runs_quantified h
    have hbound := returns_of_declsWith hinline hd.enter hs hdecls
    rw [hscope] at hbound
    exact Or.inl hbound
  | body =>
    obtain ⟨b, u, m, m', hdecls, hu, _⟩ := runs_quantified h
    obtain ⟨hm, r, rfl, hnames, hscope'⟩ :=
      (alike_declsWith hinline _ hd.enter fun _ _ _ _ => agrees_name).functions_eq hs hdecls
    exact Or.inl ⟨_, _, m, u, m', hnames, by rw [hscope', hscope], hm, hu⟩
  | argument he =>
    rcases runs_call h with ⟨op, x, y, m, _, _, hts, _⟩ | ⟨f, body, ts, m, _, _, _, _, hts, _⟩
    all_goals
      obtain ⟨k, u, k', hk, hu⟩ := exists_runs_of_mem hinline hd hs hts _ he
      exact Or.inl ⟨env, d, k, u, k', hd, hscope, hk, hu⟩
  | callee hf hbody =>
    rw [← hs] at hf
    rcases runs_call h with ⟨op, x, y, m, hnone, _⟩ | ⟨g, body, ts, m, hg, hgbody, _, hlen, hts, h⟩
    -- a function of the name is there, so the call is not one of an operator on integers
    · rw [hnone] at hf
      cases hf
    · obtain rfl := Option.some.inj (hg.symm.trans hf)
      obtain rfl := Option.some.inj (hgbody.symm.trans hbody)
      obtain ⟨hm, _, _, hts⟩ :=
        (alike_exprsWith hinline _ hd fun _ _ => agrees_name).functions_eq hs hts
      refine Or.inr ⟨_, _, _, m, t, s', matches_empty.putAll, ?_, hm, h⟩
      rw [scope_with (by rw [hts, hlen])]
      simp [Declarations.scope]

/-- Has lowering come to this site and returned? -/
def Lowered (fs : List Relational.Function) (a : Relational.Site) : Prop :=
  ∃ depth active, Returns fs a.scope (exprWithin depth active a.expr)

theorem Lowered.step {a b : Relational.Site} (h : Lowered fs a)
    (hstep : Relational.Site.Step fs a b) : Lowered fs b := by
  obtain ⟨depth, active, h⟩ := h
  simp only [funext (exprWithin_eq depth active _)] at h
  rcases h.step (inlineAlike_within depth active) hstep with h | ⟨name, h⟩
  · refine ⟨depth, active, ?_⟩
    simpa only [funext (exprWithin_eq depth active _)] using h
  · cases depth with
    | zero =>
      -- without room no body is inlined
      obtain ⟨_, _, _, _, _, _, _, _, h⟩ := h
      exact absurd h runs_throw
    | succ depth => exact ⟨depth, name :: active, h⟩

/-- An occurrence that has been lowered has a variable of its name declared around it. -/
theorem Lowered.declared {scope : List Relational.Var} {v : Relational.Var}
    (h : Lowered fs ⟨scope, .var v⟩) : ∃ w ∈ scope, w.name = v.name := by
  obtain ⟨depth, active, env, d, s, t, s', hd, rfl, _, h⟩ := h
  rw [exprWithin_eq, exprWith, hd v] at h
  split at h
  · rename_i u hu
    obtain ⟨⟨w, u'⟩, hfind, rfl⟩ := Option.map_eq_some_iff.1 hu
    have hname := List.find?_some hfind
    exact ⟨w, List.mem_map_of_mem (List.mem_of_find?_eq_some hfind),
      by simpa [sameName] using hname⟩
  · exact absurd h runs_throw

/-- Every occurrence in a lowered formula, and in the bodies inlined on the way, has a variable of
its name declared around it. -/
theorem declared_of_formula {e : Relational.Expr} {t : Term} (h : Runs (formula e) s t s') :
    Relational.Site.Occurrences s.functions (fun scope v => ∃ w ∈ scope, w.name = v.name)
      ⟨[], e⟩ := by
  have hlowered : Lowered s.functions ⟨[], e⟩ :=
    ⟨_, _, {}, [], s, t, s', matches_empty, rfl, rfl, (runs_formula.1 h).1⟩
  exact Relational.Site.occurrences_of_closed hlowered (fun _ _ ha hstep => ha.step hstep)
    fun _ _ hv => hv.declared

end

/-! ## Names and identity -/

/-- **A variable is resolved to the innermost declaration of its name.** So it is for every formula,
the failures included, and only a formula all of whose occurrences have a variable of their name
declared around them is lowered. Where all occurrences are unshadowed, each is resolved to the
innermost declaration of that very variable, and only a formula that declares its variables is
lowered. -/
theorem formula_resolves (e : Relational.Expr) (s : Session) :
    outcome (formula e) s = outcome (formulaBy sameName e) s ∧
    (∀ t s', Runs (formula e) s t s' → Relational.Site.Occurrences s.functions
      (fun scope v => ∃ w ∈ scope, w.name = v.name) ⟨[], e⟩) ∧
    (Relational.Site.Occurrences s.functions Relational.Unshadowed ⟨[], e⟩ →
      outcome (formula e) s = outcome (formulaBy sameVariable e) s ∧
      ∀ t s', Runs (formula e) s t s' → Relational.Site.Occurrences s.functions
        (fun scope v => v ∈ scope) ⟨[], e⟩) := by
  refine ⟨(alike_formula agrees_name).outcome_eq rfl, fun t s' h => declared_of_formula h,
    fun ho => ⟨?_, fun t s' h scope v hreach => ?_⟩⟩
  · exact (alike_formula fun scope v hreach => (ho scope v hreach).findIdx?_eq).outcome_eq rfl
  · obtain ⟨w, hw, hname⟩ := declared_of_formula h scope v hreach
    have hfound : (scope.find? fun w => w.name == v.name).isSome :=
      List.find?_isSome.2 ⟨w, hw, by simpa using hname⟩
    obtain ⟨u, hu⟩ := Option.isSome_iff_exists.1 hfound
    exact ho scope v hreach u hu ▸ List.mem_of_find?_eq_some hu

/-! Two variables of one name, the inner of which is bound by the outer: `all x : A | some x : x | x
in A`. -/

/-- The signature of all atoms in question. -/
def nestedOwner : Relational.SigRef := ⟨0, "A", .atom, false⟩

/-- The outer variable. -/
def nestedOuter : Relational.Var := ⟨.declared 0, "x", [.atom]⟩

/-- The inner variable. -/
def nestedInner : Relational.Var := ⟨.declared 1, "x", [.atom]⟩

/-- The formula over both. -/
def nestedFormula : Relational.Expr :=
  .quantified .all [.mk [nestedOuter] .one (.sig nestedOwner) false]
    (.quantified .some [.mk [nestedInner] .one (.var nestedOuter) false]
      (.binary .isIn (.var nestedInner) (.sig nestedOwner)))

/-- A session that has declared the signature. -/
def nestedSession : Session :=
  { Session.start true with
    signatures := [(nestedOwner, .constant "A" (relationSort [.atom]))] }

/-- The sites of the formula. -/
def nestedSites : List Relational.Site :=
  [⟨[], nestedFormula⟩, ⟨[], .sig nestedOwner⟩,
    ⟨[nestedOuter], .quantified .some [.mk [nestedInner] .one (.var nestedOuter) false]
      (.binary .isIn (.var nestedInner) (.sig nestedOwner))⟩,
    ⟨[nestedOuter], .var nestedOuter⟩,
    ⟨[nestedInner, nestedOuter], .binary .isIn (.var nestedInner) (.sig nestedOwner)⟩,
    ⟨[nestedInner, nestedOuter], .var nestedInner⟩,
    ⟨[nestedInner, nestedOuter], .sig nestedOwner⟩]

theorem unshadowed_nested :
    Relational.Site.Occurrences [] Relational.Unshadowed ⟨[], nestedFormula⟩ := by
  refine Relational.Site.occurrences_of_closed (S := fun a => a ∈ nestedSites)
    List.mem_cons_self (fun a b ha hstep => ?_) fun scope v hv => ?_
  · simp only [nestedSites, nestedFormula, List.mem_cons, List.not_mem_nil, or_false] at ha
    rcases ha with rfl | rfl | rfl | rfl | rfl | rfl | rfl <;> cases hstep
    case refine_1.inl.bound before d after he =>
      cases before with
      | nil => cases he; simp [nestedSites, Relational.Decl.bound]
      | cons _ _ => simp at he
    case refine_1.inr.inr.inl.bound before d after he =>
      cases before with
      | nil => cases he; simp [nestedSites, Relational.Decl.bound]
      | cons _ _ => simp at he
    all_goals simp [nestedSites, Relational.Decl.vars]
  · simp only [nestedSites, nestedFormula, List.mem_cons, Relational.Site.mk.injEq, reduceCtorEq,
      and_false, Relational.Expr.var.injEq, false_or, List.not_mem_nil, or_false] at hv
    rcases hv with ⟨rfl, rfl⟩ | ⟨rfl, rfl⟩ <;> intro w hw <;>
      simpa [nestedOuter, nestedInner, eq_comm] using hw

theorem runs_nested : ∃ t s', Runs (formula nestedFormula) nestedSession t s' :=
  ⟨_, _, rfl⟩

/-- The occurrence of the inner variable is resolved to the inner one, by name and by identity. -/
theorem formula_resolves_nested :
    Relational.Site.Occurrences [] Relational.Unshadowed ⟨[], nestedFormula⟩ ∧
    (∃ t s', Runs (formula nestedFormula) nestedSession t s') ∧
    outcome (formula nestedFormula) nestedSession
      = outcome (formulaBy sameVariable nestedFormula) nestedSession ∧
    Relational.Site.Occurrences [] (fun scope v => v ∈ scope) ⟨[], nestedFormula⟩ := by
  obtain ⟨t, s', hrun⟩ := runs_nested
  obtain ⟨heq, hdeclared⟩ := (formula_resolves nestedFormula nestedSession).2.2 unshadowed_nested
  exact ⟨unshadowed_nested, ⟨t, s', hrun⟩, heq, hdeclared t s' hrun⟩

/-- Where the inner variable hides the outer one, name and identity lead to different terms. -/
example : ∃ t u s₁ s₂,
    Runs (formula (.quantified .all [.mk [nestedOuter] .one (.sig nestedOwner) false]
      (.quantified .some [.mk [nestedInner] .one (.sig nestedOwner) false]
        (.binary .isIn (.var nestedOuter) (.sig nestedOwner))))) nestedSession t s₁ ∧
    Runs (formulaBy sameVariable (.quantified .all [.mk [nestedOuter] .one (.sig nestedOwner) false]
      (.quantified .some [.mk [nestedInner] .one (.sig nestedOwner) false]
        (.binary .isIn (.var nestedOuter) (.sig nestedOwner))))) nestedSession u s₂ ∧
    (t == u) = false :=
  ⟨_, _, _, _, rfl, rfl, rfl⟩

end RelSmt.Lowering
