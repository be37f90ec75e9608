import RelSmt.Proofs.Lowering.Quantifier
import RelSmt.Proofs.Lowering.Resolution
import RelSmt.Proofs.Term.Table

/-!
# What comprehensions denote

A comprehension is lowered to an application of a fresh function, about which one assertion says that
the tuple of the bound variables is in the value exactly where the definition holds. The value is
therefore the set of all tuples that are put together from values of the bound variables that satisfy
the definition, provided that

* the sort of the value gives every tuple in it such a decomposition, and
* the function has all other variables of the definition for arguments, so that the assertion, which
  binds them as well, speaks of the application in every environment.

The second asks that no variable of the environment has the name of another one. This is so
wherever lowering a formula comes to a comprehension.
-/

namespace RelSmt.Lowering

variable {E : Type} {I : Interpretation E} {ρ σ : Assignment E} {s s' m : Session} {t u : Term}
  {env : Environment} {inline : Inliner} {active : List String}

/-! ## Where expressions are lowered -/

/-- The sessions and environments in which lowering formulas over the functions `fs` lowers the
expressions inside them: an operand after others, the body of a `let`, what is in the scope of
declarations, and the body of a function that is called. -/
inductive Arises (fs : List Relational.Function) : Session → Environment → Prop where
  | formula {s : Session} (hs : s.functions = fs) : Arises fs s {}
  | after {s s' : Session} {env : Environment} {depth : Nat} {active : List String}
      {e : Relational.Expr} {t : Term} (h : Arises fs s env)
      (hrun : Runs (exprWithin depth active e env) s t s') : Arises fs s' env
  | letIn {s s' : Session} {env : Environment} {depth : Nat} {active : List String}
      {v : Relational.Var} {e : Relational.Expr} {t : Term} (h : Arises fs s env)
      (hrun : Runs (exprWithin depth active e env) s t s') : Arises fs s' (env.enter.put v.name t)
  | binder {s s' : Session} {env : Environment} {depth : Nat} {active : List String}
      {ds : List Relational.Decl} {c : Bool} {b : Bound} (h : Arises fs s env)
      (hrun : Runs (declsWith (inlinerWithin depth active) active ds c { scope := env.enter })
        s b s') : Arises fs s' b.scope
  | callee {s s' : Session} {env : Environment} {depth : Nat} {active names : List String}
      {args : List Relational.Expr} {ts : List Term} (h : Arises fs s env)
      (hrun : Runs (exprsWith (inlinerWithin depth active) active args env) s ts s') :
      Arises fs s' (({} : Environment).putAll (names.zip ts))

variable {fs : List Relational.Function}

theorem keeps_inlinerWithin (depth : Nat) (active : List String) :
    (inlinerWithin depth active).Keeps := by
  cases depth with
  | zero => exact keeps_throw
  | succ depth => exact ⟨covers_exprWithin depth⟩

/-- **Names tell the variables of an environment apart**, wherever it arises. -/
theorem Arises.hygienic (h : Arises fs s env) :
    s.functions = fs ∧ ∃ V, Hygienic s.fresh V ∧ env.Within V := by
  induction h with
  | formula hs => exact ⟨hs, ∅, hygienic_empty _, Environment.within_empty⟩
  | after _ hrun ih =>
    obtain ⟨hs, V, hV, hin⟩ := ih
    obtain ⟨_, hext⟩ := covers_exprWithin _ hrun hV hin
    exact ⟨hext.functions.trans hs, V, hV.mono hext.fresh, hin⟩
  | letIn _ hrun ih =>
    obtain ⟨hs, V, hV, hin⟩ := ih
    obtain ⟨hcovers, hext⟩ := covers_exprWithin _ hrun hV hin
    exact ⟨hext.functions.trans hs, V, hV.mono hext.fresh, fun v hv => (Environment.has_put hv).elim
      (Environment.within_enter hin v) fun hv => (hcovers v hv).1⟩
  | binder _ hrun ih =>
    obtain ⟨hs, V, hV, hin⟩ := ih
    obtain ⟨hext, V', hV', hb⟩ := boundWithin_declsWith (keeps_inlinerWithin _ _) _ hrun hV
      (boundWithin_enter hin)
    exact ⟨hext.functions.trans hs, V', hV'.hygienic, hb.within⟩
  | callee _ hrun ih =>
    -- a body sees its arguments alone, which were lowered around the call
    obtain ⟨hs, V, hV, hin⟩ := ih
    obtain ⟨hcovers, hext⟩ := covers_exprsWith (keeps_inlinerWithin _ _) _ hrun hV hin
    exact ⟨hext.functions.trans hs, V, hV.mono hext.fresh, within_call _ hcovers⟩

/-- An expression that lowering a formula lowers. -/
def Arisen (fs : List Relational.Function) (e : Relational.Expr) : Prop :=
  ∃ (depth : Nat) (active : List String) (env : Environment) (s : Session) (t : Term) (s' : Session),
    Arises fs s env ∧ Runs (exprWithin depth active e env) s t s'

/-- Each of some operands is lowered after those before it. -/
theorem arisen_of_mem {depth : Nat} : ∀ {es : List Relational.Expr} {ts : List Term}
    {s s' : Session}, Arises fs s env →
    Runs (exprsWith (inlinerWithin depth active) active es env) s ts s' → ∀ e ∈ es, Arisen fs e
  | [], _, _, _, _, _ => by simp
  | e :: es, ts, s, s', ha, h => by
    simp only [exprsWith, ← exprWithin_eq, runs_bind] at h
    obtain ⟨t, m, ht, ts, _, hts, _⟩ := h
    rw [List.forall_mem_cons]
    exact ⟨⟨depth, active, env, s, t, m, ha, ht⟩, arisen_of_mem (ha.after ht) hts⟩

theorem runs_declsWith_append {ds es : List Relational.Decl} {c : Bool} : ∀ {b b' : Bound}
    {s s' : Session}, Runs (declsWith inline active (ds ++ es) c b) s b' s' →
    ∃ b₁ m, Runs (declsWith inline active ds c b) s b₁ m ∧
      Runs (declsWith inline active es c b₁) m b' s' := by
  induction ds with
  | nil =>
    intro b b' s s' h
    exact ⟨b, s, by rw [declsWith]; exact runs_pure.2 ⟨rfl, rfl⟩, h⟩
  | cons d ds ih =>
    -- the induction is on the declarations in front, for any session and any bound so far
    intro b b' s s' h
    obtain ⟨vs, k, bound, disjoint⟩ := d
    rw [List.cons_append, declsWith] at h
    rw [declsWith]
    split at h
    · exact absurd h runs_throw_bind
    · rename_i hok
      simp only [runs_bind] at h
      obtain ⟨u, m₁, hu, b₁, m₂, hdecl, hrest⟩ := h
      obtain ⟨b₂, m, hds, hes⟩ := ih hrest
      rw [if_neg hok]
      exact ⟨b₂, m, by simpa only [runs_bind] using ⟨u, m₁, hu, b₁, m₂, hdecl, hds⟩, hes⟩

theorem runs_bound {d : Relational.Decl} {ds : List Relational.Decl} {c : Bool} {b b' : Bound}
    (h : Runs (declsWith inline active (d :: ds) c b) s b' s') :
    ∃ u m, Runs (exprWith inline active d.bound b.scope) s u m := by
  obtain ⟨vs, k, bound, disjoint⟩ := d
  rw [declsWith] at h
  split at h
  · exact absurd h runs_throw_bind
  · obtain ⟨u, m, hu, _⟩ := runs_bind.1 h
    exact ⟨u, m, hu⟩

/-- **Lowering goes on from where it has come to.** -/
theorem Arisen.step {a b : Relational.Site} (h : Arisen fs a.expr)
    (hstep : Relational.Site.Step fs a b) : Arisen fs b.expr := by
  obtain ⟨depth, active, env, s, t, s', ha, h⟩ := h
  rw [exprWithin_eq] at h
  cases hstep with
  | operand =>
    simp only [exprWith, ← exprWithin_eq, runs_bind] at h
    obtain ⟨u, m, hu, _⟩ := h
    exact ⟨_, _, _, _, _, _, ha, hu⟩
  | left =>
    simp only [exprWith, ← exprWithin_eq, runs_bind] at h
    obtain ⟨u, m, hu, _⟩ := h
    exact ⟨_, _, _, _, _, _, ha, hu⟩
  | right =>
    simp only [exprWith, ← exprWithin_eq, runs_bind] at h
    obtain ⟨u, m, hu, w, m', hw, _⟩ := h
    exact ⟨_, _, _, _, _, _, ha.after hu, hw⟩
  | member he =>
    simp only [exprWith, runs_bind] at h
    obtain ⟨ts, m, hts, _⟩ := h
    exact arisen_of_mem ha hts _ he
  | condition =>
    simp only [exprWith, ← exprWithin_eq, runs_bind] at h
    obtain ⟨u, m, hu, _⟩ := h
    exact ⟨_, _, _, _, _, _, ha, hu⟩
  | yes =>
    simp only [exprWith, ← exprWithin_eq, runs_bind] at h
    obtain ⟨c, m, hc, u, m', hu, _⟩ := h
    exact ⟨_, _, _, _, _, _, ha.after hc, hu⟩
  | no =>
    simp only [exprWith, ← exprWithin_eq, runs_bind] at h
    obtain ⟨c, m, hc, u, m', hu, w, m'', hw, _⟩ := h
    exact ⟨_, _, _, _, _, _, (ha.after hc).after hu, hw⟩
  | value =>
    simp only [exprWith, ← exprWithin_eq, runs_bind] at h
    obtain ⟨u, m, hu, _⟩ := h
    exact ⟨_, _, _, _, _, _, ha, hu⟩
  | letBody =>
    simp only [exprWith, ← exprWithin_eq, runs_bind] at h
    obtain ⟨u, m, hu, h⟩ := h
    exact ⟨_, _, _, _, _, _, ha.letIn hu, h⟩
  | bound he =>
    obtain ⟨b, _, m, _, hdecls, _⟩ := runs_quantified h
    rw [he] at hdecls
    obtain ⟨b₁, m₁, hbefore, hrest⟩ := runs_declsWith_append hdecls
    obtain ⟨u, m₂, hu⟩ := runs_bound hrest
    exact ⟨depth, active, _, _, u, m₂, ha.binder hbefore, by rwa [exprWithin_eq]⟩
  | body =>
    obtain ⟨b, u, m, m', hdecls, hu, _⟩ := runs_quantified h
    exact ⟨depth, active, _, _, u, m', ha.binder hdecls, by rwa [exprWithin_eq]⟩
  | argument he =>
    rcases runs_call h with ⟨op, x, y, m, _, _, hts, _⟩ | ⟨f, body, ts, m, _, _, _, _, hts, _⟩ <;>
      exact arisen_of_mem ha hts _ he
  | callee hf hbody =>
    rw [← ha.hygienic.1] at hf
    rcases runs_call h with ⟨op, x, y, m, hnone, _⟩ | ⟨g, body, ts, m, hg, hgbody, _, _, hts, h⟩
    · rw [hnone] at hf
      cases hf
    · obtain rfl := Option.some.inj (hg.symm.trans hf)
      obtain rfl := Option.some.inj (hgbody.symm.trans hbody)
      -- without room the call is refused
      cases depth with
      | zero => exact absurd h runs_throw
      | succ depth => exact ⟨depth, _, _, m, t, s', ha.callee hts, h⟩

/-- **Whatever lowering a formula comes to has been lowered in an environment that arises.** -/
theorem arisen_of_formula {e : Relational.Expr} {b : Relational.Site}
    (h : Runs (formula e) s t s') (hb : Relational.Site.Reaches s.functions ⟨[], e⟩ b) :
    Arisen s.functions b.expr := by
  exact hb.mem_of_closed (S := fun a => Arisen s.functions a.expr)
    ⟨_, _, {}, s, t, s', .formula rfl, (runs_formula.1 h).1⟩ fun _ _ ha hstep => ha.step hstep

/-! ## Lowered declarations -/

/-- What a declaration of a comprehension is lowered to: its bound, and a variable for a tuple of
each variable that it declares. -/
structure LoweredDecl where
  bound : Term
  vars : List Variable
  disjoint : Bool

/-- Is the tuple of every variable in the bound, and are the tuples different where they are
declared disjoint? -/
structure LoweredDecl.Holds (I : Interpretation E) (σ : Assignment E) (d : LoweredDecl) : Prop where
  member : ∀ x ∈ d.vars, (σ.get x).row ∈ (d.bound.eval I σ).rows
  apart : d.disjoint = true → d.vars.Pairwise fun x y => (σ.get x).row ≠ (σ.get y).row

/-- What the declarations of a comprehension are lowered to, each bound in the scope of those before
it. In what follows the name of each declared variable stands for the singleton of the tuple that
its own variable holds. -/
inductive LowersDecls (inline : Inliner) (active : List String) : List Relational.Decl → Bound →
    Session → List LoweredDecl → Bound → Session → Prop where
  | nil {b : Bound} {s : Session} : LowersDecls inline active [] b s [] b s
  | cons {vs : List Relational.Var} {bound : Relational.Expr} {disjoint : Bool}
      {ds : List Relational.Decl} {u : Term} {xs : List Variable} {gs : List LoweredDecl}
      {b b₁ b' : Bound} {s m m' s' : Session}
      (hbound : Runs (exprWith inline active bound b.scope) s u m)
      (hdecl : Runs (bindDecl vs .one u disjoint b) m b₁ m') (hvars : b₁.vars = b.vars ++ xs)
      (hlength : xs.length = vs.length)
      (hscope : b₁.scope =
        b.scope.putAll ((vs.map Relational.Var.name).zip (xs.map (imageOf .one))))
      (hrest : LowersDecls inline active ds b₁ m' gs b' s') :
      LowersDecls inline active (.mk vs .one bound disjoint :: ds) b s
        (⟨u, xs, disjoint⟩ :: gs) b' s'

/-- What it takes that the image of a variable is in its bound. -/
def membership (bound : Term) (x : Variable) : Term :=
  .binary .member (.variable (.plain x.name x.sort)) bound

theorem holds_membership {bound : Term} {x : Variable} :
    ((membership bound x).eval I σ).Holds ↔ (σ.get x).row ∈ (bound.eval I σ).rows :=
  Iff.rfl

theorem runs_bindVars_one {bound : Term} {element : SmtSort} : ∀ {vs : List Relational.Var}
    {b b' : Bound} {images : List Term} {s s' : Session},
    Runs (bindVars .one bound element b vs) s (b', images) s' →
    ∃ xs, xs.length = vs.length ∧ b'.vars = b.vars ++ xs ∧ images = xs.map (imageOf .one) ∧
      b'.scope = b.scope.putAll ((vs.map Relational.Var.name).zip (xs.map (imageOf .one))) ∧
      b'.constraints = b.constraints ++ xs.map (membership bound) ∧
      ∀ x ∈ xs, x.sort = element ∧ element.isTuple = true
  | [], b, b', images, s, s', h => by
    simp only [bindVars, runs_pure, Prod.mk.injEq] at h
    obtain ⟨⟨rfl, rfl⟩, rfl⟩ := h
    exact ⟨[], rfl, by simp, rfl, rfl, by simp, by simp⟩
  | v :: vs, b, b', images, s, s', h => by
    obtain ⟨b₁, s₁, image, rest, h₁, h₂, rfl⟩ := runs_bindVars_cons h
    obtain ⟨c, x, hx, hc, _, _, htuple, rfl, rfl⟩ := runs_bindVar h₁
    obtain ⟨xs, hlength, hvars, rfl, hscope, hconstraints, hsorts⟩ := runs_bindVars_one h₂
    obtain ⟨_, rfl⟩ := Term.isIn_eq_ok.1 (runs_lift.1 hc).1
    have hsort : x.sort = element := by rw [hx]; rfl
    refine ⟨x :: xs, by simp [hlength], by simp [hvars], rfl, by rw [hscope]; rfl, ?_,
      List.forall_mem_cons.2 ⟨⟨hsort, htuple rfl⟩, hsorts⟩⟩
    rw [hconstraints, List.append_assoc]
    rfl

/-- Singletons are disjoint where their elements differ. -/
theorem pairwise_seen_one {xs : List Variable} :
    (xs.Pairwise fun x y => (seen .one (σ.get x)).rows ∩ (seen .one (σ.get y)).rows = ∅) ↔
      xs.Pairwise fun x y => (σ.get x).row ≠ (σ.get y).row := by
  refine List.Pairwise.iff fun x y => ?_
  simp [seen, ← Set.disjoint_iff_inter_eq_empty]

/-- **A declaration of a comprehension constrains its variables to different tuples of the
bound.** -/
theorem runs_bindDecl_one {vs : List Relational.Var} {bound : Term} {disjoint : Bool} {b b' : Bound}
    (h : Runs (bindDecl vs .one bound disjoint b) s b' s') :
    ∃ xs, xs.length = vs.length ∧ b'.vars = b.vars ++ xs ∧
      b'.scope = b.scope.putAll ((vs.map Relational.Var.name).zip (xs.map (imageOf .one))) ∧
      (∀ x ∈ xs, bound.sort = .set x.sort ∧ x.sort.isTuple = true) ∧
      ∀ {E : Type} (I : Interpretation E) (σ : Assignment E),
        (∀ c ∈ b'.constraints, (c.eval I σ).Holds) ↔
          (∀ c ∈ b.constraints, (c.eval I σ).Holds) ∧ LoweredDecl.Holds I σ ⟨bound, xs, disjoint⟩ := by
  obtain ⟨element, b₁, images, apart, hsort, hvars, hapart, rfl⟩ := runs_bindDecl h
  obtain ⟨xs, hlength, hxs, rfl, hscope, hconstraints, hsorts⟩ := runs_bindVars_one hvars
  refine ⟨xs, hlength, hxs, hscope, fun x hx => ?_, fun I σ => ?_⟩
  · rw [hsort, (hsorts x hx).1]
    exact ⟨rfl, (hsorts x hx).2⟩
  · have happart : (∀ c ∈ apart, (c.eval I σ).Holds) ↔
        (disjoint = true → xs.Pairwise fun x y => (σ.get x).row ≠ (σ.get y).row) := by
      split at hapart
      · rename_i hdisjoint
        rw [holds_apart hapart, pairwise_seen_one]
        simp [hdisjoint]
      · rename_i hdisjoint
        simp [hapart, hdisjoint]
    simp only [hconstraints, List.forall_mem_append, List.forall_mem_map, holds_membership, happart]
    constructor
    · rintro ⟨⟨hb, hmember⟩, hdifferent⟩
      exact ⟨hb, hmember, hdifferent⟩
    · rintro ⟨hb, hmember, hdifferent⟩
      exact ⟨⟨hb, hmember⟩, hdifferent⟩

/-- **The constraints of a comprehension say that its declarations hold.** -/
theorem exists_lowersDecls : ∀ {ds : List Relational.Decl} {b b' : Bound} {s s' : Session},
    Runs (declsWith inline active ds true b) s b' s' →
    ∃ gs, LowersDecls inline active ds b s gs b' s' ∧
      b'.vars = b.vars ++ gs.flatMap LoweredDecl.vars ∧
      (∀ g ∈ gs, ∀ x ∈ g.vars, g.bound.sort = .set x.sort ∧ x.sort.isTuple = true) ∧
      ∀ {E : Type} (I : Interpretation E) (σ : Assignment E),
        (∀ c ∈ b'.constraints, (c.eval I σ).Holds) ↔
          (∀ c ∈ b.constraints, (c.eval I σ).Holds) ∧ ∀ g ∈ gs, g.Holds I σ
  | [], b, b', s, s', h => by
    rw [declsWith] at h
    obtain ⟨rfl, rfl⟩ := runs_pure.1 h
    exact ⟨[], .nil, by simp, by simp, by simp⟩
  | .mk vs k bound disjoint :: ds, b, b', s, s', h => by
    rw [declsWith] at h
    split at h
    · exact absurd h runs_throw_bind
    · -- any other multiplicity has been refused
      rename_i hone
      obtain rfl : k = .one := by simpa using hone
      simp only [runs_bind] at h
      obtain ⟨u, m₁, hu, b₁, m₂, hdecl, hrest⟩ := h
      obtain ⟨xs, hlength, hvars, hscope, hsorts, hholds⟩ := runs_bindDecl_one hdecl
      obtain ⟨gs, hgs, hvars', hsorts', hholds'⟩ := exists_lowersDecls hrest
      refine ⟨_, .cons hu hdecl hvars hlength hscope hgs, ?_, ?_, fun I σ => ?_⟩
      · simp [hvars', hvars]
      · exact List.forall_mem_cons.2 ⟨hsorts, hsorts'⟩
      · rw [hholds', hholds, and_assoc, List.forall_mem_cons]

/-! ## Tuples and their parts -/

theorem sort_tupleOf {vs : List Variable} (h : tupleOf vs = .ok t) :
    t.sort = .relation (vs.flatMap fun x => x.sort.columns) := by
  refine tupleOf_induction (P := fun vs t => t.sort = .relation (vs.flatMap fun x => x.sort.columns))
    (fun v hv => ?_) (fun vs w t ih hw => ?_) h
  · obtain ⟨cs, hcs⟩ := SmtSort.isTuple_iff.1 hv
    have hcs : v.sort = .tuple cs := hcs
    simp [Term.sort, hcs, SmtSort.relation, SmtSort.columns, SmtSort.columns?]
  · obtain ⟨cs, hcs⟩ := SmtSort.isTuple_iff.1 hw
    have hcs : w.sort = .tuple cs := hcs
    simp [Term.sort, ih, hcs, SmtSort.relation, SmtSort.columns, SmtSort.columns?]

/-- Only variables that hold tuples make up a tuple. -/
theorem isTuple_of_tupleOf {vs : List Variable} (h : tupleOf vs = .ok t) :
    ∀ x ∈ vs, x.sort.isTuple = true := by
  refine tupleOf_induction (P := fun vs _ => ∀ x ∈ vs, x.sort.isTuple = true) (fun v hv => ?_)
    (fun vs w t ih hw => ?_) h
  · simpa using hv
  · simpa [or_imp, forall_and] using ⟨ih, hw⟩

/-- The tuple of some variables holds their tuples one after the other. -/
theorem eval_tupleOf {vs : List Variable} (h : tupleOf vs = .ok t) :
    t.eval I σ = .set {vs.flatMap fun x => (σ.get x).row} := by
  refine tupleOf_induction (P := fun vs t => t.eval I σ = .set {vs.flatMap fun x => (σ.get x).row})
    (fun v _ => ?_) (fun vs w t ih _ => ?_) h
  · simp [Term.eval, Term.unaryValue]
  · simp [Term.eval, ih, Term.unaryValue, Term.binaryValue, productRows]

/-- **A tuple with the columns of some variables is put together from values of theirs.** -/
theorem exists_hasSorts_of_columns : ∀ {vs : List Variable} {r : Tuple E},
    (∀ x ∈ vs, x.sort.isTuple = true) →
    r.HasSorts I.carrier (vs.flatMap fun x => x.sort.columns) →
    ∃ as, I.HasSorts vs as ∧ r = as.flatMap Value.row
  | [], r, _, hr => by
    obtain rfl := List.forall₂_nil_right_iff.1 hr
    exact ⟨[], .nil, rfl⟩
  | x :: vs, r, hvs, hr => by
    rw [List.forall_mem_cons] at hvs
    obtain ⟨cs, hcs⟩ := SmtSort.isTuple_iff.1 hvs.1
    rw [List.flatMap_cons] at hr
    -- the tuple is cut where the columns of the first variable end
    obtain ⟨as, has, hrest⟩ := exists_hasSorts_of_columns hvs.2 (List.forall₂_drop_append _ _ _ hr)
    have hfirst := List.forall₂_take_append _ _ _ hr
    refine ⟨.tuple (r.take x.sort.columns.length) :: as, .cons ?_ has, ?_⟩
    · rw [hcs] at hfirst ⊢
      exact hfirst
    · rw [List.flatMap_cons, ← hrest]
      exact (List.take_append_drop _ r).symm

/-! ## The defined set -/

/-- All tuples that are put together from values of the variables for which the declarations and the
body hold. -/
def comprehended (I : Interpretation E) (ρ : Assignment E) (vs : List Variable)
    (gs : List LoweredDecl) (body : Term) : Set (Tuple E) :=
  {r | ∃ as, I.HasSorts vs as ∧ r = as.flatMap Value.row ∧
    (∀ g ∈ gs, g.Holds I (ρ.bindAll vs as)) ∧ (body.eval I (ρ.bindAll vs as)).Holds}

/-- The assertion about a comprehension says which tuples are in its value. -/
theorem mem_eval_comprehend {V : Set Variable} {vs args : List Variable} {tuple definition : Term}
    {f : FunctionSymbol} (hV : ∀ v ∈ V, ∀ w ∈ V, v.name = w.name → v.sort = w.sort)
    (hargs : ∀ x ∈ args, x ∈ V ∧ ∀ y ∈ vs, x.name ≠ y.name)
    (hfree : ∀ x ∈ definition.freeOccurrences, x ∈ V) (hnames : (vs.map Variable.name).Nodup)
    (happly : f.apply (args.map Variable.term) = .ok t) (htuple : tupleOf vs = .ok tuple)
    (hvalid : (Term.quantified .all (args ++ vs)
      (.binary .eq (.binary .subset tuple t) definition)).Valid I)
    (hdefinition : ∀ σ, ∃ p, definition.eval I σ = .truth p)
    (hρ : I.HasSorts args (args.map ρ.get)) {as : List (RelSmt.Value E)} (has : I.HasSorts vs as) :
    as.flatMap Value.row ∈ (t.eval I ρ).rows ↔ (definition.eval I (ρ.bindAll vs as)).Holds := by
  -- the assertion binds the arguments as well, here to the values that they have
  have hagree : ∀ w ∈ V, (ρ.bindAll args (args.map ρ.get)).get w = ρ.get w := fun w hw =>
    Assignment.get_bindAll_map_get (fun v hv he => hV w hw v (hargs v hv).1 he) rfl
  have happlied : t.eval I ((ρ.bindAll args (args.map ρ.get)).bindAll vs as) = t.eval I ρ := by
    refine Term.eval_congr I t fun w hw => ?_
    obtain ⟨hw, hne⟩ := hargs w ((mem_free_apply happly).1 hw)
    rw [Assignment.get_bindAll_of_not_mem vs as _ hne, hagree w hw]
  have hdefined : definition.eval I ((ρ.bindAll args (args.map ρ.get)).bindAll vs as)
      = definition.eval I (ρ.bindAll vs as) :=
    Term.eval_congr I definition fun w hw =>
      Assignment.get_bindAll_congr vs as _ _ has.length (Or.inl (hagree w (hfree w hw)))
  have hrow : tuple.eval I ((ρ.bindAll args (args.map ρ.get)).bindAll vs as)
      = .set {as.flatMap Value.row} := by
    rw [eval_tupleOf htuple, ← List.flatMap_map, Assignment.map_get_bindAll vs as _ has.length hnames]
  have h := hvalid ρ
  rw [Term.eval, Value.holds_truth] at h
  have h := h (args.map ρ.get ++ as) (I.hasSorts_append.2 ⟨_, _, rfl, hρ, has⟩)
  rw [Assignment.bindAll_append ρ args vs _ as (by simp)] at h
  obtain ⟨p, hp⟩ := hdefinition (ρ.bindAll vs as)
  simp only [Term.eval, Term.binaryValue, hrow, happlied, hdefined, hp, Value.holds_truth,
    Value.truth_inj, Value.rows_set, Set.singleton_subset_iff] at h
  rw [h, hp, Value.holds_truth]

/-- The outer variables are those of the definition that the binder does not have. -/
theorem contains_outerVariables {b : Bound} {x : Variable} :
    (outerVariables b t).contains x = true ↔
      t.occursFree x = true ∧ b.vars.contains x = false := by
  rw [← Term.contains_freeVariables, outerVariables, ← Bool.not_eq_true]
  simp only [List.contains_iff_exists_mem_beq, List.mem_filter, Bool.not_eq_true',
    ← Bool.not_eq_true]
  constructor
  · rintro ⟨y, ⟨hy, hne⟩, hxy⟩
    exact ⟨⟨y, hy, hxy⟩, fun ⟨z, hz, hxz⟩ => hne ⟨z, hz, BEq.trans (BEq.symm hxy) hxz⟩⟩
  · rintro ⟨⟨y, hy, hxy⟩, hne⟩
    exact ⟨y, ⟨hy, fun ⟨z, hz, hyz⟩ => hne ⟨z, hz, BEq.trans hxy hyz⟩⟩, hxy⟩

theorem occursFree_allOf {ts : List Term} (h : Term.allOf ts = .ok t) {x : Variable} :
    t.occursFree x = true ↔ ∃ c ∈ ts, c.occursFree x = true := by
  simp only [Term.occursFree_iff, Term.mem_free_allOf h]
  constructor
  · rintro ⟨w, ⟨c, hc, hw⟩, he⟩
    exact ⟨c, hc, w, hw, he⟩
  · rintro ⟨c, hc, w, hw, he⟩
    exact ⟨w, ⟨c, hc, hw⟩, he⟩

/-- **The application that a comprehension is lowered to denotes the set that it defines.** -/
theorem exact_comprehend {columns : List Relational.Column} {b : Bound} {V : Set Variable}
    (hV : Hygienic s.fresh V) (hb : BoundWithin env V b) (hu : CoversWith env V b.vars u)
    (h : Runs (comprehend columns b u) s t s') :
    (∀ x ∈ b.vars, x.sort.isTuple = true) ∧
    ∃ (f : FunctionSymbol) (args : List Variable) (a : Assertion),
      s' = (s.next.declaring f).asserting a ∧
      f.name = numbered "comprehension" (s.fresh + 1) ∧ a.formula.freeOccurrences = [] ∧
      f.apply (args.map Variable.term) = .ok t ∧
      (∀ x, args.contains x = true ↔
        (u.occursFree x = true ∨ ∃ c ∈ b.constraints, c.occursFree x = true) ∧
          b.vars.contains x = false) ∧
      ∀ {E : Type} (I : Interpretation E), a.formula.Valid I → ∀ ρ : Assignment E,
        (∀ x ∈ args, (ρ.get x).HasSort I.carrier x.sort) →
        t.Denotes I ρ (.set {r | ∃ as, I.HasSorts b.vars as ∧ r = as.flatMap Value.row ∧
          (∀ c ∈ b.constraints, (c.eval I (ρ.bindAll b.vars as)).Holds) ∧
          (u.eval I (ρ.bindAll b.vars as)).Holds}) := by
  obtain ⟨guard, definition, f, tuple, comment, hguard, rfl, hf, happly, htuple, ⟨_, hfit⟩, _, rfl⟩ :=
    runs_comprehend h
  set args := outerVariables b (.binary (.connective .and) guard u) with hargs
  have htuples := isTuple_of_tupleOf htuple
  refine ⟨htuples, f, args, _, rfl, by rw [hf], ?_, happly, fun x => ?_, fun {E} I hvalid ρ hρ => ?_⟩
  · exact closed_definition happly htuple
  · have hdefinition : (Term.binary (.connective .and) guard u).occursFree x = true ↔
        u.occursFree x = true ∨ guard.occursFree x = true := by
      simp only [Term.occursFree, Term.freeOccurrences, List.any_append, Bool.or_eq_true, or_comm]
    rw [contains_outerVariables, hdefinition, occursFree_allOf hguard]
  · have hd := hb.coversWith_guarded .and hguard hu
    have hsort : t.sort = .relation (columns.map columnSort) := by
      rw [Term.sort_apply happly, hf]
    have hvalues : I.HasSorts args (args.map ρ.get) :=
      List.forall₂_map_right_iff.2 (List.forall₂_same.2 hρ)
    have hvalue := Term.hasSort_apply happly (by rw [hf]; trivial) hρ
    rw [show f.output = .relation (columns.map columnSort) by rw [hf]] at hvalue
    -- the assertion compares the tuple of the variables with the application, so both have one sort
    have hcolumns : columns.map columnSort = b.vars.flatMap fun x => x.sort.columns := by
      have := (hfit.trans hsort).symm.trans (sort_tupleOf htuple)
      simpa [SmtSort.relation] using this
    have hmem : ∀ {as}, I.HasSorts b.vars as → (as.flatMap Value.row ∈ (t.eval I ρ).rows ↔
        (∀ c ∈ b.constraints, (c.eval I (ρ.bindAll b.vars as)).Holds) ∧
          (u.eval I (ρ.bindAll b.vars as)).Holds) := by
      intro as has
      rw [mem_eval_comprehend hV.consistent
        (fun x hx => known_of_mem_outerVariables hV hb hd hx) (fun x hx => (hd x hx).1) hb.distinct
        happly htuple hvalid (fun σ => ⟨_, rfl⟩) hvalues has]
      rw [← Term.holds_allOf hguard]
      rfl
    have heval : t.eval I ρ = .set {r | ∃ as, I.HasSorts b.vars as ∧ r = as.flatMap Value.row ∧
        (∀ c ∈ b.constraints, (c.eval I (ρ.bindAll b.vars as)).Holds) ∧
        (u.eval I (ρ.bindAll b.vars as)).Holds} := by
      rw [Value.eq_set_of_hasSort hvalue]
      refine congrArg Value.set (Set.ext fun r => ⟨fun hr => ?_, ?_⟩)
      · have hr' : r.HasSorts I.carrier (columns.map columnSort) :=
          Value.hasSort_of_mem_rows hvalue hr
        rw [hcolumns] at hr'
        obtain ⟨as, has, rfl⟩ := exists_hasSorts_of_columns htuples hr'
        exact ⟨as, has, rfl, (hmem has).1 hr⟩
      · rintro ⟨as, has, rfl, hr⟩
        exact (hmem has).2 hr
    exact ⟨heval, by rw [← heval, hsort]; exact hvalue⟩

/-- Values that are seen as singletons of their tuples make up the tuple of these. -/
theorem makeUp_seen {as : List (RelSmt.Value E)} {r : Tuple E} :
    Relational.MakeUp (as.map (seen .one)) r ↔ r = as.flatMap Value.row := by
  have hseen : as.map (seen .one) = (as.map Value.row).map fun u => RelSmt.Value.set {u} := by
    rw [List.map_map]
    rfl
  have hinj : Function.Injective fun u : Tuple E => RelSmt.Value.set {u} := fun u w h =>
    Set.singleton_injective (RelSmt.Value.set.inj h)
  rw [hseen, Relational.MakeUp, List.flatMap_def]
  constructor
  · rintro ⟨us, hus, rfl⟩
    rw [List.map_injective_iff.2 hinj hus]
  · rintro rfl
    exact ⟨_, rfl, rfl⟩

/-- **A comprehension denotes the tuples that allowed values make up of which the body holds.** The
body has to denote something only where the constraints hold. -/
theorem denotes_comprehend {columns : List Relational.Column} {b : Bound} {V W : Set Variable}
    {δ : Relational.Valuation E} {scope vs : List Relational.Var}
    {ms : List Relational.Multiplicity} {allowed : Set (List (RelSmt.Value E))}
    {P : List (RelSmt.Value E) → RelSmt.Value E} (h : Chooses I ρ δ scope b W vs ms allowed)
    (hV : Hygienic s.fresh V) (hb : BoundWithin env V b) (hcovers : CoversWith env V b.vars u)
    (hbody : ∀ as, I.HasSorts b.vars as →
      (∀ c ∈ b.constraints, (c.eval I (ρ.bindAll b.vars as)).Holds) →
      u.Denotes I (ρ.bindAll b.vars as) (P (List.zipWith seen ms as)))
    (hρ : ∀ x ∈ t.freeOccurrences, (ρ.get x).HasSort I.carrier x.sort)
    (hadded : I.Satisfies (added s s')) (hrun : Runs (comprehend columns b u) s t s') :
    t.Denotes I ρ (.set {r | ∃ ds ∈ allowed, (P ds).Holds ∧ Relational.MakeUp ds r}) := by
  obtain ⟨htuples, f, args, a, rfl, _, _, happly, _, hexact⟩ := exact_comprehend hV hb hcovers hrun
  have hvalid : a.formula.Valid I := hadded a (by
    rw [show added s _ = [a] from added_eq rfl]
    exact List.mem_cons_self)
  -- every variable holds a single tuple, which is seen as a singleton
  have hms : ms = List.replicate vs.length .one := by
    rw [h.length, ← h.tuples.length_eq]
    refine List.eq_replicate_iff.2 ⟨rfl, fun m hm => ?_⟩
    obtain ⟨i, hi, rfl⟩ := List.getElem_of_mem hm
    have hi' : i < b.vars.length := h.tuples.length_eq ▸ hi
    exact ((List.forall₂_iff_get.1 h.tuples).2 i hi hi').2 (htuples _ (List.getElem_mem hi'))
  have hset : {r | ∃ ds ∈ allowed, (P ds).Holds ∧ Relational.MakeUp ds r}
      = {r | ∃ as, I.HasSorts b.vars as ∧ r = as.flatMap Value.row ∧
        (∀ c ∈ b.constraints, (c.eval I (ρ.bindAll b.vars as)).Holds) ∧
        (u.eval I (ρ.bindAll b.vars as)).Holds} := by
    have hrow : ∀ {as r}, I.HasSorts b.vars as →
        (Relational.MakeUp (List.zipWith seen ms as) r ↔ r = as.flatMap Value.row) := by
      intro as r has
      rw [hms, zipWith_replicate (h.length.trans has.length)]
      exact makeUp_seen
    ext r
    constructor
    · rintro ⟨ds, hds, hp, hr⟩
      obtain ⟨as, has, hguard, rfl⟩ := (h.mem_allowed ds).1 hds
      exact ⟨as, has, (hrow has).1 hr, hguard, (hbody as has hguard).eval ▸ hp⟩
    · rintro ⟨as, has, hr, hguard, hu⟩
      exact ⟨_, (h.mem_allowed _).2 ⟨as, has, hguard, rfl⟩, (hbody as has hguard).eval ▸ hu,
        (hrow has).2 hr⟩
  rw [hset]
  exact hexact I hvalid ρ fun x hx => hρ x ((mem_free_apply happly).2 hx)

/-- **Comprehensions are lowered exactly.** Wherever a comprehension is lowered, its declarations
and its body are lowered to terms, and what stands for it is the application of a fresh function to
all free variables of these terms but the bound ones. Wherever the assertion about this function
holds, the application denotes, for each values of its arguments, the set of the tuples that are put
together from values of the bound variables for which the declarations and the body hold. -/
theorem comprehension_exact {depth : Nat} {ds : List Relational.Decl} {body : Relational.Expr}
    (ha : Arises fs s env)
    (h : Runs (exprWithin depth active (.quantified .comprehension ds body) env) s t s') :
    ∃ (b : Bound) (gs : List LoweredDecl) (u : Term) (m m' : Session) (f : FunctionSymbol)
      (args : List Variable) (a : Assertion),
      LowersDecls (inlinerWithin depth active) active ds { scope := env.enter } s gs b m ∧
      b.vars = gs.flatMap LoweredDecl.vars ∧ (b.vars.map Variable.name).Nodup ∧
      (∀ g ∈ gs, ∀ x ∈ g.vars, g.bound.sort = .set x.sort ∧ x.sort.isTuple = true) ∧
      Runs (exprWithin depth active body b.scope) m u m' ∧
      s' = (m'.next.declaring f).asserting a ∧
      f.name = numbered "comprehension" (m'.fresh + 1) ∧ a.formula.freeOccurrences = [] ∧
      f.apply (args.map Variable.term) = .ok t ∧
      (∀ x, args.contains x = true ↔
        (u.occursFree x = true ∨ ∃ c ∈ b.constraints, c.occursFree x = true) ∧
          b.vars.contains x = false) ∧
      ∀ {E : Type} (I : Interpretation E), a.formula.Valid I → ∀ ρ : Assignment E,
        (∀ x ∈ args, (ρ.get x).HasSort I.carrier x.sort) →
        t.eval I ρ = .set (comprehended I ρ b.vars gs u) := by
  obtain ⟨_, V, hV, hin⟩ := ha.hygienic
  have hkeeps := keeps_inlinerWithin depth active
  simp only [exprWithin_eq, exprWith, runs_bind] at h ⊢
  obtain ⟨b, m, hdecls, u, m', hu, h⟩ := h
  obtain ⟨gs, hgs, hvars, hsorts, hholds⟩ := exists_lowersDecls hdecls
  obtain ⟨_, V', hV', hb⟩ := boundWithin_declsWith hkeeps ds hdecls hV (boundWithin_enter hin)
  obtain ⟨hcovers, hext⟩ := covers_exprWith hkeeps body hu hV'.hygienic hb.within
  rw [List.nil_append] at hvars
  obtain ⟨_, f, args, a, hs', hname, hclosed, happly, hargs, hexact⟩ :=
    exact_comprehend (hV'.hygienic.mono hext.fresh) hb (hb.covers hcovers) h
  refine ⟨b, gs, u, m, m', f, args, a, hgs, hvars, hb.distinct, hsorts, hu, hs', hname, hclosed,
    happly, hargs, fun I hvalid ρ hρ => ?_⟩
  -- the constraints are what the declarations say
  have hconstraints : ∀ σ, (∀ c ∈ b.constraints, (c.eval I σ).Holds) ↔ ∀ g ∈ gs, g.Holds I σ :=
    fun σ => (hholds I σ).trans (by simp)
  rw [(hexact I hvalid ρ hρ).eval]
  simp only [hconstraints, comprehended]

/-! A comprehension over a variable from around it: `{y, z : A | z in x}` in the scope of `x : one A`.
-/

/-- The first variable of the comprehension. -/
def firstVar : Relational.Var := ⟨.declared 1, "y", [.atom]⟩

/-- The second variable of the comprehension. -/
def secondVar : Relational.Var := ⟨.declared 2, "z", [.atom]⟩

/-- The comprehension. -/
def pairsWithOuter : Relational.Expr :=
  .quantified .comprehension [.mk [firstVar, secondVar] .one (.sig nestedOwner) false]
    (.binary .isIn (.var secondVar) (.var nestedOuter))

/-- What the signature stands for. -/
def outerOwner : Term := .symbol (.constant "A" (relationSort [.atom]))

/-- The variable of a tuple in the signature. -/
def tupleVariable (name : String) : Variable :=
  .mk name (.tuple [.atom]) (some (membership outerOwner (.plain name (.tuple [.atom]))))

/-- The environment in the scope of `x`. -/
def outerScope : Environment := (Scoped.enter {}).put "x" (imageOf .one (tupleVariable "x_1"))

theorem arises_outerScope : Arises [] nestedSession.next outerScope :=
  @Arises.binder [] nestedSession _ {} 0 [] [.mk [nestedOuter] .one (.sig nestedOwner) false] false
    ⟨outerScope, [tupleVariable "x_1"], [membership outerOwner (tupleVariable "x_1")]⟩
    (.formula rfl) rfl

/-- The function that stands for the comprehension. -/
def pairsFunction : FunctionSymbol :=
  ⟨"comprehension_4", [.tuple [.atom]], relationSort [.atom, .atom]⟩

/-- What the comprehension is lowered to. -/
def pairsTerm : Term := .call pairsFunction [.variable (tupleVariable "x_1")]

/-- The assertion about the function. -/
def pairsAssertion : Assertion where
  comment := "comprehension_4 definition"
  formula := .quantified .all [tupleVariable "x_1", tupleVariable "y_2", tupleVariable "z_3"]
    (.binary .eq
      (.binary .subset (.binary .product (imageOf .one (tupleVariable "y_2"))
        (imageOf .one (tupleVariable "z_3"))) pairsTerm)
      (.binary (.connective .and)
        (.nary .and [membership outerOwner (tupleVariable "y_2"),
          membership outerOwner (tupleVariable "z_3")])
        (.binary .subset (imageOf .one (tupleVariable "z_3")) (imageOf .one (tupleVariable "x_1")))))
  label := none

/-- The session in which the assertion has been added. -/
def pairsSession : Session :=
  (nestedSession.next.next.next.next.declaring pairsFunction).asserting pairsAssertion

theorem runs_pairsWithOuter : Runs (exprWithin 0 [] pairsWithOuter outerScope) nestedSession.next
    pairsTerm pairsSession :=
  rfl

/-- The signature holds both atoms, and the function pairs each of them with what it is given. -/
noncomputable def pairsTable (_ : FunctionSymbol) (vs : List (RelSmt.Value Bool)) :
    RelSmt.Value Bool :=
  match vs with
  | [.tuple r] => .set {t | ∃ d, t = .element d :: r}
  | _ => .set {t | ∃ e, t = [.element e]}

/-- The interpretation with this table. -/
noncomputable def pairsModel : Interpretation Bool := .ofTable false pairsTable

theorem eval_pairsTerm {ρ : Assignment Bool} {e : Bool}
    (h : ρ.get (tupleVariable "x_1") = .tuple [.element e]) :
    pairsTerm.eval pairsModel ρ = .set {t | ∃ d, t = [.element d, .element e]} := by
  rw [pairsTerm, Term.eval, Term.evalAll, Term.evalAll, Term.eval, h]
  refine Interpretation.function_ofTable false pairsTable pairsFunction _ ?_
  rintro _ ⟨d, rfl⟩
  exact .cons (Set.mem_univ d) (.cons (Set.mem_univ e) .nil)

theorem eval_outerOwner (ρ : Assignment Bool) :
    outerOwner.eval pairsModel ρ = .set {t | ∃ e, t = [.element e]} := by
  refine Interpretation.function_ofTable false pairsTable _ [] ?_
  rintro _ ⟨e, rfl⟩
  exact .cons (Set.mem_univ e) .nil

theorem exists_element_of_tuple {D : SmtSort → Set E} {v : RelSmt.Value E}
    (h : v.HasSort D (.tuple [.atom])) : ∃ e, v = .tuple [.element e] := by
  have hv := Value.eq_tuple_of_hasSort h
  rw [hv] at h
  obtain ⟨a, hrow, ha⟩ := Tuple.exists_of_hasSorts_single (Value.hasSort_tuple.1 h)
  obtain ⟨e, _, rfl⟩ := Scalar.exists_element_atom ha
  exact ⟨e, by rw [hv, hrow]⟩

/-- A variable for an atom is in the signature, which holds both of them. -/
theorem holds_membership_outerOwner {ρ : Assignment Bool} {name : String} {e : Bool}
    (h : ρ.get (tupleVariable name) = .tuple [.element e]) :
    ((membership outerOwner (tupleVariable name)).eval pairsModel ρ).Holds := by
  rw [holds_membership, eval_outerOwner, h]
  exact ⟨e, rfl⟩

theorem valid_pairs : pairsAssertion.formula.Valid pairsModel := by
  intro ρ as has
  obtain ⟨v, rest, hv, hrest, rfl⟩ := List.forall₂_cons_left_iff.1 has
  obtain ⟨w, rest', hw, hrest', rfl⟩ := List.forall₂_cons_left_iff.1 hrest
  obtain ⟨u, _, hu, hnil, rfl⟩ := List.forall₂_cons_left_iff.1 hrest'
  obtain rfl := List.forall₂_nil_left_iff.1 hnil
  obtain ⟨e, rfl⟩ := exists_element_of_tuple hv
  obtain ⟨d, rfl⟩ := exists_element_of_tuple hw
  obtain ⟨c, rfl⟩ := exists_element_of_tuple hu
  set σ := ρ.bindAll [tupleVariable "x_1", tupleVariable "y_2", tupleVariable "z_3"]
    [.tuple [.element e], .tuple [.element d], .tuple [.element c]]
  have hx : σ.get (tupleVariable "x_1") = .tuple [.element e] := rfl
  have hy : σ.get (tupleVariable "y_2") = .tuple [.element d] := rfl
  have hz : σ.get (tupleVariable "z_3") = .tuple [.element c] := rfl
  simp [Term.eval, Term.evalAll, Term.binaryValue, Term.naryValue, eval_pairsTerm hx, eval_imageOf,
    seen, hx, hy, hz, holds_membership_outerOwner hy, holds_membership_outerOwner hz,
    Connective.Holds, productRows]
  cases d <;> simp

/-- The comprehension denotes the set of the pairs that end in what the outer variable stands for,
whatever this is. -/
theorem comprehension_exact_pairsWithOuter :
    Arises [] nestedSession.next outerScope ∧
    Runs (exprWithin 0 [] pairsWithOuter outerScope) nestedSession.next pairsTerm pairsSession ∧
    pairsAssertion.formula.Valid pairsModel ∧
    ∀ (ρ : Assignment Bool) (e : Bool), ρ.get (tupleVariable "x_1") = .tuple [.element e] →
      ∃ b gs u m m', LowersDecls (inlinerWithin 0 []) []
          [.mk [firstVar, secondVar] .one (.sig nestedOwner) false] { scope := outerScope.enter }
          nestedSession.next gs b m ∧
        Runs (exprWithin 0 [] (.binary .isIn (.var secondVar) (.var nestedOuter)) b.scope) m u m' ∧
        pairsTerm.eval pairsModel ρ = .set (comprehended pairsModel ρ b.vars gs u) ∧
        comprehended pairsModel ρ b.vars gs u = {t | ∃ d, t = [.element d, .element e]} := by
  refine ⟨arises_outerScope, runs_pairsWithOuter, valid_pairs, fun ρ e hρ => ?_⟩
  obtain ⟨b, gs, u, m, m', f, args, a, hgs, _, _, _, hu, hs', _, _, happly, _, hexact⟩ :=
    comprehension_exact arises_outerScope runs_pairsWithOuter
  have hassertion : a = pairsAssertion := by
    have := congrArg (fun s => s.program.assertions.getLast?) hs'
    simpa [pairsSession] using this.symm
  have hargs : ∀ x ∈ args, (ρ.get x).HasSort pairsModel.carrier x.sort := by
    intro x hx
    have hfree := (mem_free_apply happly).2 hx
    simp only [pairsTerm, Term.freeOccurrences, Term.freeOccurrencesList, List.append_nil,
      List.mem_singleton] at hfree
    rw [hfree, hρ]
    exact .cons (Set.mem_univ e) .nil
  have h := hexact pairsModel (hassertion ▸ valid_pairs) ρ hargs
  refine ⟨b, gs, u, m, m', hgs, hu, h, ?_⟩
  rw [eval_pairsTerm hρ] at h
  exact (Value.set.inj h).symm

end RelSmt.Lowering
