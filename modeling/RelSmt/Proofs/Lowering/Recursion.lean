import RelSmt.Proofs.Lowering.Functions
import RelSmt.Proofs.Relational.Calls

/-!
# Recursive calls

Bodies of functions are inlined into each other, and no function is entered while its own body is
being lowered. So there is always room for one more function to be entered, lowering comes to an
end, and what is done where the room ends never matters.

A call is found recursive only where it calls a function whose body is being lowered. Every function
whose body is being lowered leads to each call that is met, so such a call closes a cycle. The other
way round, an expression is lowered only if all its calls are, those of the bodies it calls among
them, and on a cycle this never comes to an end: where an expression is lowered, no call of it leads
to a cycle.

All of this is said of two ways to inline calls at a time (`Traced`), and shown by one walk through
lowering for all of it.
-/

namespace RelSmt.Lowering

open Relational (Calls Recursive LeadsToCycle bodyOf)

/-! ## Steps that find recursive calls only -/

section

variable {α β γ : Type} {fs : List Relational.Function} {Q R : Prop}

/-- Begun over `fs`, both steps do the same. They find no call recursive but those of recursive
functions, and they return something only where `Q` holds. -/
structure Traced (fs : List Relational.Function) (Q : Prop) (x y : Lower α) : Prop where
  functions : ∀ s, s.functions = fs → (outcome x s).2.functions = fs
  same : ∀ s, s.functions = fs → outcome y s = outcome x s
  recursive : ∀ s f, s.functions = fs → (outcome x s).1 = .error (.recursiveCall f) →
    Recursive fs f
  returns : ∀ s a, s.functions = fs → (outcome x s).1 = .ok a → Q

theorem Traced.mono {x y : Lower α} (h : Traced fs Q x y) (hQ : Q → R) : Traced fs R x y :=
  ⟨h.functions, h.same, h.recursive, fun s a hs ha => hQ (h.returns s a hs ha)⟩

theorem Traced.self {x y : Lower α} (h : Traced fs Q x y) : Traced fs Q x x :=
  ⟨h.functions, fun _ _ => rfl, h.recursive, h.returns⟩

/-- A step that looks at no function finds no call recursive. -/
theorem Ignores.traced {x : Lower α} (h : Ignores Fault.IsRecursion x) : Traced fs True x x where
  functions s hs := (h.functions_eq s).trans hs
  same _ _ := rfl
  recursive s _ _ hf := absurd hf ((h.blameless s).ne _ trivial)
  returns _ _ _ _ := trivial

/-- A fault returns nothing. -/
theorem traced_throw {e : Fault} (he : ∀ f, e = .recursiveCall f → Recursive fs f) :
    Traced fs Q (throw e : Lower α) (throw e) where
  functions _ hs := hs
  same _ _ := rfl
  recursive _ f _ hf := he f (Except.error.inj hf)
  returns _ _ _ ha := nomatch ha

theorem Traced.bind {x y : Lower α} {f g : α → Lower β} (hx : Traced fs Q x y)
    (hf : ∀ a, Traced fs R (f a) (g a)) : Traced fs (Q ∧ R) (x >>= f) (y >>= g) := by
  -- the first steps fail alike, which ends both, or return alike, and the others go on from there
  have hcases : ∀ s, s.functions = fs →
      (∃ e m, outcome x s = (.error e, m) ∧ outcome y s = (.error e, m) ∧ m.functions = fs ∧
        ∀ g, e = .recursiveCall g → Recursive fs g) ∨
      ∃ a m, outcome x s = (.ok a, m) ∧ outcome y s = (.ok a, m) ∧ m.functions = fs ∧ Q := by
    intro s hs
    have hfunctions := hx.functions s hs
    have hsame := hx.same s hs
    have hrecursive := hx.recursive s
    have hreturns := hx.returns s
    rcases h : outcome x s with ⟨e | a, m⟩ <;> rw [h] at hfunctions hsame hrecursive hreturns
    · exact .inl ⟨e, m, rfl, hsame, hfunctions, fun g hg => hrecursive g hs (hg ▸ rfl)⟩
    · exact .inr ⟨a, m, rfl, hsame, hfunctions, hreturns a hs rfl⟩
  constructor
  all_goals intro s
  · intro hs
    obtain ⟨e, m, hx, -, hm, -⟩ | ⟨a, m, hx, -, hm, -⟩ := hcases s hs
    · rwa [outcome_bind_error hx]
    · rw [outcome_bind_ok hx]
      exact (hf a).functions m hm
  · intro hs
    obtain ⟨e, m, hx, hy, -, -⟩ | ⟨a, m, hx, hy, hm, -⟩ := hcases s hs
    · rw [outcome_bind_error hx, outcome_bind_error hy]
    · rw [outcome_bind_ok hx, outcome_bind_ok hy]
      exact (hf a).same m hm
  · intro g hs hg
    obtain ⟨e, m, hx, -, -, he⟩ | ⟨a, m, hx, -, hm, -⟩ := hcases s hs
    · rw [outcome_bind_error hx] at hg
      exact he g (Except.error.inj hg)
    · rw [outcome_bind_ok hx] at hg
      exact (hf a).recursive m g hm hg
  · intro b hs hb
    obtain ⟨e, m, hx, -, -, -⟩ | ⟨a, m, hx, -, hm, hQ⟩ := hcases s hs
    · rw [outcome_bind_error hx] at hb
      cases hb
    · rw [outcome_bind_ok hx] at hb
      exact ⟨hQ, (hf a).returns m b hm hb⟩

theorem traced_get_bind {f g : Session → Lower β}
    (h : ∀ s, s.functions = fs → Traced fs Q (f s) (g s)) :
    Traced fs Q (get >>= f) (get >>= g) where
  functions s hs := (h s hs).functions s hs
  same s hs := (h s hs).same s hs
  recursive s f hs hf := (h s hs).recursive s f hs hf
  returns s a hs ha := (h s hs).returns s a hs ha

/-- A check that both steps begin with. -/
theorem Traced.guarded {p : Prop} [Decidable p] {e : Fault} {x y : Lower α} {f g : PUnit → Lower α}
    (he : p → ∀ f, e = .recursiveCall f → Recursive fs f) (h : ¬p → Traced fs Q x y) :
    Traced fs Q (if p then throw e >>= f else x) (if p then throw e >>= g else y) := by
  by_cases hp : p
  · rw [if_pos hp, if_pos hp]
    have hthrow : Traced fs Q (throw e : Lower α) (throw e) := traced_throw (he hp)
    exact ⟨hthrow.functions, fun _ _ => rfl, hthrow.recursive, hthrow.returns⟩
  · rw [if_neg hp, if_neg hp]
    exact h hp

theorem traced_forM {f : α → Lower Unit} {P : α → Prop} (h : ∀ a, Traced fs (P a) (f a) (f a)) :
    ∀ as : List α, Traced fs (∀ a ∈ as, P a) (as.forM f) (as.forM f)
  | [] => (ignores_pure ()).traced.mono (by simp)
  | a :: as => ((h a).bind fun _ => traced_forM h as).mono (by simp)

theorem traced_mapM {f : α → Lower β} {P : α → Prop} (h : ∀ a, Traced fs (P a) (f a) (f a)) :
    ∀ as : List α, Traced fs (∀ a ∈ as, P a) (as.mapM f) (as.mapM f)
  | [] => (ignores_pure []).traced.mono (by simp)
  | a :: as => by
    rw [List.mapM_cons]
    refine ((h a).bind fun _ => (traced_mapM h as).bind fun _ => (ignores_pure _).traced).mono ?_
    simp

end

/-! ## Inlining with room to the end -/

/-- How calls are inlined with room for `depth` more functions. Where the room ends, `stuck` goes
on. -/
def inlinerOr (stuck : List String → Inliner) : Nat → List String → Inliner
  | 0, active => stuck active
  | depth + 1, active => fun name body env =>
    exprWith (inlinerOr stuck depth (name :: active)) (name :: active) body env

/-- Lowering takes a call to be recursive where the room ends. -/
theorem inlinerWithin_eq (depth : Nat) (active : List String) : inlinerWithin depth active
    = inlinerOr (fun _ name _ _ => throw (.recursiveCall name)) depth active := by
  induction depth generalizing active with
  | zero => rfl
  | succ depth ih =>
    funext name body env
    show exprWithin depth (name :: active) body env = _
    rw [exprWithin_eq, ih]
    rfl

section

variable {fs : List Relational.Function} {inline inline' : Inliner} {active : List String}

/-- Does no name lead to a cycle? -/
def LeadNowhere (fs : List Relational.Function) (names : List String) : Prop :=
  ∀ name ∈ names, ¬LeadsToCycle fs name

@[simp] theorem leadNowhere_nil : LeadNowhere fs [] := fun _ h => nomatch h

@[simp] theorem leadNowhere_append {as bs : List String} :
    LeadNowhere fs (as ++ bs) ↔ LeadNowhere fs as ∧ LeadNowhere fs bs :=
  List.forall_mem_append

@[simp] theorem leadNowhere_cons {name : String} {names : List String} :
    LeadNowhere fs (name :: names) ↔ ¬LeadsToCycle fs name ∧ LeadNowhere fs names :=
  List.forall_mem_cons

/-- What lowering relies on where it meets calls of these names inside the bodies of `active`: calls
of `active` are recursive, and the bodies of other functions are inlined in the same way by both. -/
def InlineTraced (fs : List Relational.Function) (inline inline' : Inliner) (active : List String)
    (names : List String) : Prop :=
  ∀ name ∈ names, (name ∈ active → Recursive fs name) ∧
    ∀ body env, bodyOf fs name = some body → name ∉ active →
      Traced fs (¬LeadsToCycle fs name) (inline name body env) (inline' name body env)

theorem inlineTraced_append {as bs : List String} :
    InlineTraced fs inline inline' active (as ++ bs) ↔
      InlineTraced fs inline inline' active as ∧ InlineTraced fs inline inline' active bs :=
  List.forall_mem_append

/-- What a name calls is looked up among the functions. -/
theorem traced_function? {β : Type} {Q : Prop} (name : String)
    {f g : Option Relational.Function → Lower β}
    (h : Traced fs Q (f (fs.reverse.find? fun f => f.name == name))
      (g (fs.reverse.find? fun f => f.name == name))) :
    Traced fs Q (function? name >>= f) (function? name >>= g) :=
  traced_get_bind fun s hs => by
    subst hs
    exact h

/-- A call of a name, whose arguments are lowered alike, is lowered alike. -/
theorem traced_call {name : String} {args : List Relational.Expr} {columns : List Relational.Column}
    {env : Environment} (hname : InlineTraced fs inline inline' active [name])
    (hargs : Traced fs (LeadNowhere fs (Relational.Expr.callsAll args))
      (exprsWith inline active args env) (exprsWith inline' active args env)) :
    Traced fs (LeadNowhere fs (name :: Relational.Expr.callsAll args))
      (exprWith inline active (.call name args columns) env)
      (exprWith inline' active (.call name args columns) env) := by
  obtain ⟨hactive, hinline⟩ := hname name List.mem_cons_self
  rw [leadNowhere_cons, exprWith, exprWith]
  refine traced_function? name ?_
  unfold bodyOf at hinline
  cases hfound : fs.reverse.find? (fun f => f.name == name) with
  | none =>
    -- an operator on integers leads nowhere
    have hnowhere : ¬LeadsToCycle fs name :=
      Relational.not_leadsToCycle_of_bodyOf (by simp [bodyOf, hfound])
    dsimp only
    cases integerOperator? name with
    | none => exact traced_throw (by simp)
    | some op =>
      refine Traced.guarded (by simp) fun _ => ?_
      refine (hargs.bind (R := True) fun ts => ?_).mono fun h => ⟨hnowhere, h.1⟩
      split
      · exact (ignores_arithmetic op _ _ env).traced
      · exact traced_throw (by simp)
  | some f =>
    rw [hfound] at hinline
    dsimp only
    cases hbody : f.body with
    | none => exact traced_throw (by simp)
    | some body =>
      refine Traced.guarded (fun h g hg => ?_) fun hinactive => Traced.guarded (by simp) fun _ => ?_
      · obtain rfl := Fault.recursiveCall.inj hg
        exact hactive (by simpa using h)
      · exact (hargs.bind fun ts => hinline body _ hbody (by simpa using hinactive)).mono And.symm

mutual

/-- **An expression is lowered alike where the calls in it are inlined alike**, and it is lowered
only if none of these calls leads to a cycle. -/
theorem traced_exprWith : ∀ (e : Relational.Expr) (env : Environment),
    InlineTraced fs inline inline' active e.calls →
    Traced fs (LeadNowhere fs e.calls) (exprWith inline active e env) (exprWith inline' active e env)
  | .constant c, env, _ => by
    rw [exprWith, exprWith]
    exact (ignores_constant c).traced.mono (by simp [Relational.Expr.calls])
  | .number n, env, _ => by
    rw [exprWith, exprWith]
    exact (ignores_intRelation n).traced.mono (by simp [Relational.Expr.calls])
  | .sig r, env, _ => by
    rw [exprWith, exprWith]
    split
    · exact ignores_integers.traced.mono (by simp [Relational.Expr.calls])
    · exact (ignores_signature r).traced.mono (by simp [Relational.Expr.calls])
  | .field f, env, _ => by
    rw [exprWith, exprWith]
    exact (ignores_field f).traced.mono (by simp [Relational.Expr.calls])
  | .var v, env, _ => by
    rw [exprWith, exprWith]
    cases env.get? v.name with
    | none => exact traced_throw (by simp)
    | some t => exact (ignores_pure t).traced.mono (by simp [Relational.Expr.calls])
  | .unary op e, env, h => by
    rw [Relational.Expr.calls] at h ⊢
    rw [exprWith, exprWith]
    exact ((traced_exprWith e env h).bind fun t => (ignores_unary op t).traced).mono And.left
  | .binary op l r, env, h => by
    rw [Relational.Expr.calls] at h ⊢
    rw [exprWith, exprWith, leadNowhere_append]
    obtain ⟨hl, hr⟩ := inlineTraced_append.1 h
    refine ((traced_exprWith l env hl).bind fun t => ?_)
    exact ((traced_exprWith r env hr).bind fun u => (ignores_binary op t u).traced).mono And.left
  | .list op es, env, h => by
    rw [Relational.Expr.calls] at h ⊢
    rw [exprWith, exprWith]
    refine ((traced_exprsWith es env h).bind (R := True) fun ts => ?_).mono And.left
    cases op with
    | and => exact (ignores_lift _).traced
    | or => exact (ignores_lift _).traced
  | .ite c y n, env, h => by
    rw [Relational.Expr.calls] at h ⊢
    rw [exprWith, exprWith, leadNowhere_append, leadNowhere_append, and_assoc]
    obtain ⟨hcy, hn⟩ := inlineTraced_append.1 h
    obtain ⟨hc, hy⟩ := inlineTraced_append.1 hcy
    refine (traced_exprWith c env hc).bind fun _ => (traced_exprWith y env hy).bind fun _ => ?_
    exact ((traced_exprWith n env hn).bind fun _ => (ignores_lift _).traced).mono And.left
  | .letIn v value body, env, h => by
    rw [Relational.Expr.calls] at h ⊢
    rw [exprWith, exprWith, leadNowhere_append]
    obtain ⟨hvalue, hbody⟩ := inlineTraced_append.1 h
    exact (traced_exprWith value env hvalue).bind fun t => traced_exprWith body _ hbody
  | .quantified q ds body, env, h => by
    rw [Relational.Expr.calls] at h ⊢
    rw [leadNowhere_append]
    obtain ⟨hds, hbody⟩ := inlineTraced_append.1 h
    cases q
    case comprehension =>
      rw [exprWith, exprWith]
      refine (traced_declsWith ds true _ hds).bind fun b => ?_
      exact ((traced_exprWith body b.scope hbody).bind fun t =>
        (ignores_comprehend _ b t).traced).mono And.left
    -- all other quantifiers share one equation, which asks that there is no comprehension
    all_goals
      rw [exprWith, exprWith]
      · refine (traced_declsWith ds false _ hds).bind fun b => ?_
        exact ((traced_exprWith body b.scope hbody).bind fun t =>
          (ignores_quantify _ b t).traced).mono And.left
      all_goals simp
  | .call name args columns, env, h => by
    rw [Relational.Expr.calls] at h ⊢
    obtain ⟨hname, hargs⟩ := List.forall_mem_cons.1 h
    exact traced_call (by simpa [InlineTraced] using hname) (traced_exprsWith args env hargs)

theorem traced_exprsWith : ∀ (es : List Relational.Expr) (env : Environment),
    InlineTraced fs inline inline' active (Relational.Expr.callsAll es) →
    Traced fs (LeadNowhere fs (Relational.Expr.callsAll es)) (exprsWith inline active es env)
      (exprsWith inline' active es env)
  | [], env, _ => by
    rw [exprsWith, exprsWith]
    exact (ignores_pure []).traced.mono (by simp [Relational.Expr.callsAll])
  | e :: es, env, h => by
    rw [Relational.Expr.callsAll] at h ⊢
    rw [exprsWith, exprsWith, leadNowhere_append]
    obtain ⟨he, hes⟩ := inlineTraced_append.1 h
    refine (traced_exprWith e env he).bind fun t => ?_
    exact ((traced_exprsWith es env hes).bind fun ts => (ignores_pure _).traced).mono And.left

theorem traced_declsWith : ∀ (ds : List Relational.Decl) (c : Bool) (b : Bound),
    InlineTraced fs inline inline' active (Relational.Decl.callsAll ds) →
    Traced fs (LeadNowhere fs (Relational.Decl.callsAll ds)) (declsWith inline active ds c b)
      (declsWith inline' active ds c b)
  | [], c, b, _ => by
    rw [declsWith, declsWith]
    exact (ignores_pure b).traced.mono (by simp [Relational.Decl.callsAll])
  | .mk vs m bound disjoint :: ds, c, b, h => by
    rw [Relational.Decl.callsAll] at h ⊢
    rw [declsWith, declsWith, leadNowhere_append]
    obtain ⟨hbound, hds⟩ := inlineTraced_append.1 h
    refine Traced.guarded (by simp) fun _ => (traced_exprWith bound b.scope hbound).bind fun t => ?_
    exact ((ignores_bindDecl vs m t disjoint b).traced.bind fun b =>
      traced_declsWith ds c b hds).mono And.right

end

/-! ## There is room for every function -/

/-- The functions that may still be entered. -/
def unentered (fs : List Relational.Function) (active : List String) :
    List Relational.Function :=
  fs.filter fun f => !active.contains f.name

/-- Entering a function leaves fewer to be entered. -/
theorem length_unentered_lt {name : String} {body : Relational.Expr}
    (hbody : bodyOf fs name = some body) (h : name ∉ active) :
    (unentered fs (name :: active)).length < (unentered fs active).length := by
  obtain ⟨f, hfound, -⟩ := Option.bind_eq_some_iff.1 hbody
  have hmem : f ∈ fs := List.mem_reverse.1 (List.mem_of_find?_eq_some hfound)
  have hname : f.name = name := by simpa using List.find?_some hfound
  have hfewer : unentered fs (name :: active)
      = (unentered fs active).filter fun f => f.name != name := by
    simp [unentered, List.filter_filter, bne, Bool.not_or, BEq.beq]
  rw [hfewer, List.length_filter_lt_length_iff_exists]
  exact ⟨f, by simp [unentered, hmem, hname, h], by simp [hname]⟩

/-- **Where there is room for all functions that may still be entered, it does not matter what is
done where the room ends.** The functions in whose bodies an expression is lowered lead to every
call in it. -/
theorem inlineTraced_inlinerOr (stuck stuck' : List String → Inliner) : ∀ (depth depth' : Nat)
    {active : List String} {names : List String},
    (unentered fs active).length ≤ depth → (unentered fs active).length ≤ depth' →
    (∀ f ∈ active, ∀ g ∈ names, Relation.TransGen (Calls fs) f g) →
    InlineTraced fs (inlinerOr stuck depth active) (inlinerOr stuck' depth' active) active names := by
  intro depth
  induction depth with
  | zero =>
    -- without room all functions with a body are being lowered
    intro depth' active names hroom _ hleads name hname
    refine ⟨fun h => hleads name h name hname, fun body env hbody hinactive => ?_⟩
    have := length_unentered_lt hbody hinactive
    omega
  | succ depth ih =>
    intro depth' active names hroom hroom' hleads name hname
    refine ⟨fun h => hleads name h name hname, fun body env hbody hinactive => ?_⟩
    have hlt := length_unentered_lt hbody hinactive
    obtain ⟨depth', rfl⟩ : ∃ d, depth' = d + 1 := ⟨depth' - 1, by omega⟩
    -- the function that is entered calls what its body does, and the others lead to it by then
    have hleads' : ∀ f ∈ name :: active, ∀ g ∈ body.calls, Relation.TransGen (Calls fs) f g := by
      intro f hf g hg
      have hcall : Calls fs name g := ⟨body, hbody, hg⟩
      rcases List.mem_cons.1 hf with rfl | hf
      · exact .single hcall
      · exact .tail (hleads f hf name hname) hcall
    have hinline := ih depth' (by omega) (by omega) hleads'
    exact (traced_exprWith body env hinline).mono (Relational.not_leadsToCycle_of_body hbody)

/-- An expression outside of all functions is lowered as with any room for all of them. -/
theorem traced_expr (stuck : List String → Inliner) {depth : Nat} (hdepth : fs.length ≤ depth)
    (e : Relational.Expr) (env : Environment) :
    Traced fs (LeadNowhere fs e.calls) (expr e env) (exprWith (inlinerOr stuck depth []) [] e env) := by
  have hunentered : unentered fs [] = fs := by simp [unentered]
  have htraced : Traced fs (LeadNowhere fs e.calls) (expr e env)
      (get >>= fun _ => exprWith (inlinerOr stuck depth []) [] e env) := by
    -- lowering makes room for as many functions as there are
    refine traced_get_bind fun s hs => ?_
    rw [hs, exprWithin_eq, inlinerWithin_eq]
    exact traced_exprWith e env (inlineTraced_inlinerOr _ stuck fs.length depth
      (by rw [hunentered]) (by rwa [hunentered]) fun f hf => nomatch hf)
  exact ⟨htraced.functions, htraced.same, htraced.recursive, htraced.returns⟩

end

/-! ## Specifications -/

section

variable {fs : List Relational.Function}

theorem traced_formula (e : Relational.Expr) :
    Traced fs (LeadNowhere fs e.calls) (formula e) (formula e) := by
  refine Traced.mono (Traced.bind ?_ (R := True) fun t => ?_) And.left
  · exact (traced_expr (fun _ name _ _ => throw (.recursiveCall name)) (Nat.le_refl _) e {}).self
  · split
    · exact (ignores_pure t).traced
    · exact traced_throw (by simp)

theorem traced_assertField (f : Relational.Field) (what : String) (e : Relational.Expr) :
    Traced fs True (assertField f what e) (assertField f what e) :=
  ((traced_formula e).bind fun _ => (ignores_assert _ _).traced).mono fun _ => trivial

theorem traced_assertBound (f : Relational.Field) :
    Traced fs True (assertBound f) (assertBound f) :=
  ((traced_assertField f _ _).bind fun _ => traced_assertField f _ _).mono fun _ => trivial

theorem traced_assertGroup (g : Relational.FieldGroup) :
    Traced fs True (assertGroup g) (assertGroup g) := by
  have hvalues : Traced fs True
      (if g.disjointValues = true then
        g.fields.forM fun f => assertField f "has disjoint values" (disjointValuesFormula f)
      else pure ())
      (if g.disjointValues = true then
        g.fields.forM fun f => assertField f "has disjoint values" (disjointValuesFormula f)
      else pure ()) := by
    split
    · exact (traced_forM (fun f => traced_assertField f _ _) g.fields).mono fun _ => trivial
    · exact (ignores_pure ()).traced
  unfold assertGroup
  refine Traced.mono ((traced_forM traced_assertBound g.fields).bind (R := True) fun _ => ?_)
    fun _ => trivial
  dsimp only
  split
  · have hapart : Ignores Fault.IsRecursion
        ((pairs g.fields).forM fun p => assertDisjointFields p.1 p.2) := by
      refine ignores_forM (fun p => ?_) (pairs g.fields)
      exact ignores_assertDisjointFields p.1 p.2
    exact Traced.mono (hapart.traced.bind fun _ => hvalues) fun _ => trivial
  · exact hvalues

theorem traced_fields (groups : List Relational.FieldGroup) :
    Traced fs True (fields groups) (fields groups) := by
  have hdeclare : Ignores Fault.IsRecursion (groups.forM fun g => g.fields.forM declareField) :=
    ignores_forM (fun g => ignores_forM ignores_declareField g.fields) groups
  exact (hdeclare.traced.bind fun _ => traced_forM traced_assertGroup groups).mono fun _ => trivial

theorem traced_fact (f : Relational.Fact) :
    Traced fs (LeadNowhere fs f.formula.calls) (fact f) (fact f) := by
  refine ((traced_formula f.formula).bind (R := True) fun t => ?_).mono And.left
  refine Ignores.traced ((ignores_lift _).bind fun a => ?_)
  exact ignores_get_bind (fun s => ignores_modify fun _ _ => rfl) fun _ _ => rfl

theorem traced_command (c : Relational.Command) :
    Traced fs (LeadNowhere fs c.formula.calls) (command c) (command c) := by
  have hformula : Traced fs (LeadNowhere fs c.formula.calls) (commandFormula c) (commandFormula c) := by
    refine ((traced_formula c.formula).bind (R := True) fun t => ?_).mono And.left
    split
    · exact (ignores_lift _).traced
    · exact (ignores_pure t).traced
  refine traced_get_bind fun before _ => ?_
  refine ((ignores_modify fun _ _ => rfl).traced.bind fun _ => hformula.bind (R := True) fun t => ?_).mono
    fun h => h.2.1
  refine Ignores.traced ((ignores_lift _).bind fun a => ?_)
  refine ignores_get_bind (fun s => ?_) fun _ _ => rfl
  exact (ignores_modify fun _ _ => rfl).bind fun _ => ignores_pure _

theorem traced_items (spec : Relational.Specification) : Traced spec.functions
    ((∀ f ∈ spec.facts, LeadNowhere spec.functions f.formula.calls) ∧
      ∀ c ∈ spec.commands, LeadNowhere spec.functions c.formula.calls)
    (items spec) (items spec) := by
  have hcommand : ∀ c : Relational.Command,
      Traced spec.functions (LeadNowhere spec.functions c.formula.calls)
        (do return (c, ← command c)) (do return (c, ← command c)) := fun c =>
    ((traced_command c).bind fun _ => (ignores_pure _).traced).mono And.left
  refine ((ignores_signatures _).traced.bind fun _ => (traced_fields spec.fieldGroups).bind fun _ =>
    (traced_forM traced_fact spec.facts).bind fun _ =>
      (traced_mapM hcommand spec.commands).bind fun _ =>
        traced_get_bind fun s _ => (ignores_pure _).traced).mono ?_
  rintro ⟨-, -, hfacts, hcommands, -⟩
  exact ⟨hfacts, hcommands⟩

end

/-! ## What inlining finds -/

/-- **Inlining comes to an end and finds the recursive calls.** Over the functions of a
specification, an expression is lowered in the same way whatever is done where the room for
functions ends, so the end is never met. Only a function from which calls lead back to itself is
reported as recursive: nested calls such as `f[f[x]]` of any other function are not. And where a
fact or a command has a call that leads to a cycle, in its own text, in arguments or through bodies,
the specification is not lowered. -/
theorem inlining_finds_recursion (spec : Relational.Specification) (singletonsOnly : Bool) :
    (∀ (stuck : List String → Inliner) (depth : Nat) (e : Relational.Expr) (env : Environment)
      (s : Session), s.functions = spec.functions → spec.functions.length ≤ depth →
      outcome (exprWith (inlinerOr stuck depth []) [] e env) s = outcome (expr e env) s) ∧
    (∀ f, spec.lower singletonsOnly = .error (.recursiveCall f) → Recursive spec.functions f) ∧
    ∀ e, (e ∈ spec.facts.map Relational.Fact.formula ∨
        e ∈ spec.commands.map Relational.Command.formula) →
      ∀ g ∈ e.calls, LeadsToCycle spec.functions g → ∀ enc, spec.lower singletonsOnly ≠ .ok enc := by
  have hitems := traced_items spec
  rw [lower_eq_items]
  refine ⟨fun stuck depth e env s hs hdepth => (traced_expr stuck hdepth e env).same s hs,
    fun f => hitems.recursive _ f rfl, fun e he g hg hleads enc henc => ?_⟩
  obtain ⟨hfacts, hcommands⟩ := hitems.returns _ enc rfl henc
  rcases he with he | he
  · obtain ⟨f, hf, rfl⟩ := List.mem_map.1 he
    exact hfacts f hf g hg hleads
  · obtain ⟨c, hc, rfl⟩ := List.mem_map.1 he
    exact hcommands c hc g hg hleads

/-! Two predicates that call each other, and a third one that calls them. -/

/-- A predicate that calls another one. -/
def calling (name callee : String) : Relational.Function :=
  .predicate name [nestedOuter] (.call callee [.var nestedOuter] []) {}

/-- The fact calls `r`, which calls `p`, which calls `q`, which calls `p`. -/
def cyclicSpec : Relational.Specification where
  signatures := [⟨nestedOwner, .top, false, none, {}⟩]
  functions := [calling "p" "q", calling "q" "p", calling "r" "p"]
  facts := [⟨"F", .call "r" [.sig nestedOwner] [], {}⟩]

/-- The fact calls a function with a call of the same function as its argument. -/
def nestedCalls : Relational.Specification where
  signatures := [⟨nestedOwner, .top, false, none, {}⟩]
  functions := [.ofBody "f" [nestedOuter] (.var nestedOuter) {}]
  facts := [⟨"F", .unary .some (.call "f" [.call "f" [.sig nestedOwner] [.atom]] [.atom]), {}⟩]

theorem calls_cyclicSpec : Relational.Calls cyclicSpec.functions "r" "p" ∧
    Relational.Calls cyclicSpec.functions "p" "q" ∧ Relational.Calls cyclicSpec.functions "q" "p" :=
  ⟨⟨_, rfl, List.mem_cons_self⟩, ⟨_, rfl, List.mem_cons_self⟩, ⟨_, rfl, List.mem_cons_self⟩⟩

/-- The call of `r` leads to the cycle of `p` and `q`, and `p` is what is reported. -/
theorem inlining_finds_recursion_cyclic :
    LeadsToCycle cyclicSpec.functions "r" ∧ (∀ enc, cyclicSpec.lower true ≠ .ok enc) ∧
    cyclicSpec.lower true = .error (.recursiveCall "p") ∧ Recursive cyclicSpec.functions "p" := by
  obtain ⟨hrp, hpq, hqp⟩ := calls_cyclicSpec
  have hleads : LeadsToCycle cyclicSpec.functions "r" :=
    ⟨"p", .single hrp, .tail (.single hpq) hqp⟩
  have hlower : cyclicSpec.lower true = .error (.recursiveCall "p") := rfl
  obtain ⟨-, hrecursive, hrefused⟩ := inlining_finds_recursion cyclicSpec true
  exact ⟨hleads, hrefused _ (.inl List.mem_cons_self) "r" List.mem_cons_self hleads, hlower,
    hrecursive "p" hlower⟩

/-- Calls nested in arguments are lowered. -/
example : ∃ enc, nestedCalls.lower true = .ok enc := ⟨_, rfl⟩

end RelSmt.Lowering
