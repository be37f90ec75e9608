import RelSmt.Proofs.Lowering.Constants
import RelSmt.Proofs.Lowering.Resolution
import RelSmt.Proofs.Relational.Columns
import RelSmt.Proofs.Scoped

/-!
# Columns tell sorts

The columns of a relational expression are computed on the expression, the sort of a term on the
term. Where the columns agree at every site of an expression, they tell the sort of whatever the
expression is lowered to (`sort_of_columns`): a formula becomes a term of sort `Bool`, a relation
one of the sort of its columns, and what has the one column of integers may become a native integer.

Lowering never checks columns, so the induction is over expressions, with the names of the
environment described by the variables declared around. Field declarations, whose sorts are read off
the columns of their bounds, agree with what the bounds are lowered to.
-/

namespace RelSmt.Lowering

open Relational (Column Site)

/-! ## Sorts that suit columns -/

/-- Is this a sort of a term for an expression with these columns? -/
def Suits (cs : List Column) (s : SmtSort) : Prop :=
  if cs = [] then s = .bool else s = relationSort cs ∨ cs = [.int] ∧ s = .int

section

variable {cs ds : List Column} {s : SmtSort}

theorem suits_nil : Suits [] s ↔ s = .bool := by
  simp [Suits]

theorem suits_relationSort (h : cs ≠ []) : Suits cs (relationSort cs) := by
  rw [Suits, if_neg h]
  exact Or.inl rfl

theorem suits_int : Suits [.int] .int := by
  simp [Suits]

/-- A set that suits columns has the sort of them. -/
theorem Suits.eq_relationSort (h : Suits cs s) (hset : s.isSet = true) :
    cs ≠ [] ∧ s = relationSort cs := by
  unfold Suits at h
  split at h
  · subst h
    simp [SmtSort.isSet] at hset
  · rename_i hne
    refine ⟨hne, h.resolve_right ?_⟩
    rintro ⟨_, rfl⟩
    simp [SmtSort.isSet] at hset

theorem suits_of_relation (h : s = .relation (cs.map columnSort)) (hne : cs.map columnSort ≠ []) :
    Suits cs s := by
  subst h
  exact suits_relationSort (by simpa using hne)

end

/-! ## Operators -/

section Operators

variable {s s' : Session} {t u l r : Term} {e e' : Relational.Expr}

theorem sort_restrictDomain (h : restrictDomain l r = .ok u) :
    r.sort.isSet = true ∧ u.sort = r.sort := by
  obtain ⟨_, h, _⟩ := restrictDomain_cases h
  obtain ⟨⟨hset, _⟩, rfl⟩ := Term.setOp_eq_ok.1 h
  exact ⟨hset, rfl⟩

theorem sort_restrictRange (h : restrictRange l r = .ok u) :
    l.sort.isSet = true ∧ u.sort = l.sort := by
  obtain ⟨_, h, _⟩ := restrictRange_cases h
  obtain ⟨⟨hset, _⟩, rfl⟩ := Term.setOp_eq_ok.1 h
  exact ⟨hset, rfl⟩

theorem sort_overrideBy (h : overrideBy l r = .ok u) :
    l.sort.isSet = true ∧ u.sort = l.sort := by
  simp only [overrideBy, Checked.bind_eq_ok] at h
  obtain ⟨_, _, _, _, _, hdiff, h⟩ := h
  obtain ⟨⟨hset, _⟩, rfl⟩ := Term.setOp_eq_ok.1 hdiff
  obtain ⟨_, rfl⟩ := Term.setOp_eq_ok.1 h
  exact ⟨hset, rfl⟩

theorem sort_compareIntegers {op : BinaryOp} (hop : ∀ x y, (Term.binary op x y).sort = .bool)
    (h : Runs (compareIntegers op l r) s u s') : u.sort = .bool := by
  obtain ⟨_, _, _, _, _, ⟨_, rfl⟩ | ⟨_, _, rfl⟩⟩ := runs_compareIntegers h
  · exact hop _ _
  · rfl

theorem sort_equality (h : Runs (equality l r) s u s') : u.sort = .bool := by
  unfold equality at h
  split at h
  · obtain ⟨heq, rfl⟩ := runs_lift.1 h
    obtain ⟨_, rfl⟩ := Term.eqTo_eq_ok.1 heq
    rfl
  · exact sort_compareIntegers (fun _ _ => rfl) h

/-- **A unary operator keeps to the columns.** -/
theorem suits_unary {op : Relational.UnaryOp} (ht : Suits e.columns t.sort)
    (h : Runs (unary op t) s u s') : Suits (Relational.Expr.unary op e).columns u.sort := by
  cases op with
  | not =>
    obtain ⟨_, rfl⟩ := Term.neg_eq_ok.1 (runs_lift.1 h).1
    exact suits_nil.2 rfl
  | no =>
    obtain ⟨_, rfl⟩ := Term.isEmpty_eq_ok.1 (runs_lift.1 h).1
    exact suits_nil.2 rfl
  | some =>
    obtain ⟨_, _, hneg⟩ := Checked.bind_eq_ok.1 (runs_lift.1 h).1
    obtain ⟨_, rfl⟩ := Term.neg_eq_ok.1 hneg
    exact suits_nil.2 rfl
  | one =>
    obtain ⟨_, _, _, rfl, _⟩ := runs_exactlyOne h
    exact suits_nil.2 rfl
  | lone =>
    obtain ⟨_, _, _, rfl⟩ := runs_atMostOne h
    exact suits_nil.2 rfl
  | transpose =>
    obtain ⟨hop, rfl⟩ := Term.mkUnary_eq_ok.1 (runs_lift.1 h).1
    obtain ⟨hne, hsort⟩ := ht.eq_relationSort (Term.unarySort_transpose.1 hop).1
    -- the columns of a relation turn around as those of the expression do
    refine suits_of_relation ?_ (by simpa [Relational.Expr.columns] using hne)
    rw [Term.sort, hsort]
    simp [relationSort, Relational.Expr.columns]
  | closure =>
    obtain ⟨_, rfl⟩ := Term.mkUnary_eq_ok.1 (runs_lift.1 h).1
    exact ht
  | reflexiveClosure =>
    simp only [unary, runs_bind, runs_lift] at h
    obtain ⟨_, _, ⟨hclosure, rfl⟩, _, _, _, hunion, rfl⟩ := h
    obtain ⟨_, rfl⟩ := Term.setOp_eq_ok.1 hunion
    obtain ⟨_, rfl⟩ := Term.mkUnary_eq_ok.1 hclosure
    exact ht
  | card =>
    obtain ⟨_, rfl⟩ := Term.mkUnary_eq_ok.1 (runs_lift.1 h).1
    exact suits_int
  | setOf => exact (runs_pure.1 h).1 ▸ ht
  | someOf => exact (runs_pure.1 h).1 ▸ ht
  | loneOf => exact (runs_pure.1 h).1 ▸ ht
  | oneOf => exact (runs_pure.1 h).1 ▸ ht
  | group => exact (runs_pure.1 h).1 ▸ ht

/-- **A binary operator keeps to the columns.** -/
theorem suits_binary {op : Relational.BinaryOp} (hl : Suits e.columns l.sort)
    (hr : Suits e'.columns r.sort) (h : Runs (binary op l r) s u s') :
    Suits (Relational.Expr.binary op e e').columns u.sort := by
  cases op with
  | join =>
    obtain ⟨⟨hsetl, hsetr, _, _, _, hne⟩, rfl⟩ := Term.join_eq_ok.1 (runs_lift.1 h).1
    -- both sides join at their inner columns, whether these are sorts or columns
    have hsort : Term.joinColumns l.sort.columns r.sort.columns
        = (Relational.Expr.joinColumns e.columns e'.columns).map columnSort := by
      rw [(hl.eq_relationSort hsetl).2, (hr.eq_relationSort hsetr).2]
      simp [Term.joinColumns, Relational.Expr.joinColumns, relationSort, List.map_dropLast,
        List.map_tail]
    exact suits_of_relation (congrArg SmtSort.relation hsort) (hsort ▸ hne)
  | arrow =>
    obtain ⟨⟨hsetl, hsetr, hne, _⟩, rfl⟩ := Term.product_eq_ok.1 (runs_lift.1 h).1
    have hsort : l.sort.columns ++ r.sort.columns = (e.columns ++ e'.columns).map columnSort := by
      rw [(hl.eq_relationSort hsetl).2, (hr.eq_relationSort hsetr).2]
      simp [relationSort]
    exact suits_of_relation (congrArg SmtSort.relation hsort) (hsort ▸ by simp [hne])
  | union => exact (Term.setOp_eq_ok.1 (runs_lift.1 h).1).2 ▸ hl
  | intersection => exact (Term.setOp_eq_ok.1 (runs_lift.1 h).1).2 ▸ hl
  | minus => exact (Term.setOp_eq_ok.1 (runs_lift.1 h).1).2 ▸ hl
  | override => exact (sort_overrideBy (runs_lift.1 h).1).2 ▸ hl
  | domainRestrict => exact (sort_restrictDomain (runs_lift.1 h).1).2 ▸ hr
  | rangeRestrict => exact (sort_restrictRange (runs_lift.1 h).1).2 ▸ hl
  | isIn => exact (Term.within_eq_ok.1 (runs_lift.1 h).1).2 ▸ suits_nil.2 rfl
  | notIn =>
    simp only [binary, runs_bind, runs_lift] at h
    obtain ⟨_, _, _, hneg, _⟩ := h
    exact (Term.neg_eq_ok.1 hneg).2 ▸ suits_nil.2 rfl
  | eq => exact suits_nil.2 (sort_equality h)
  | ne =>
    simp only [binary, runs_bind, runs_lift] at h
    obtain ⟨_, _, _, hneg, _⟩ := h
    exact (Term.neg_eq_ok.1 hneg).2 ▸ suits_nil.2 rfl
  | and => exact (Term.connective_eq_ok.1 (runs_lift.1 h).1).2 ▸ suits_nil.2 rfl
  | or => exact (Term.connective_eq_ok.1 (runs_lift.1 h).1).2 ▸ suits_nil.2 rfl
  | implies => exact (Term.connective_eq_ok.1 (runs_lift.1 h).1).2 ▸ suits_nil.2 rfl
  | iff => exact (Term.eqTo_eq_ok.1 (runs_lift.1 h).1).2 ▸ suits_nil.2 rfl
  | lt => exact suits_nil.2 (sort_compareIntegers (fun _ _ => rfl) h)
  | le => exact suits_nil.2 (sort_compareIntegers (fun _ _ => rfl) h)
  | gt => exact suits_nil.2 (sort_compareIntegers (fun _ _ => rfl) h)
  | ge => exact suits_nil.2 (sort_compareIntegers (fun _ _ => rfl) h)

end Operators

/-! ## Names and sessions -/

/-- Does each name stand for a term that fits the innermost variable of the name? -/
def Describes (scope : List Relational.Var) (env : Environment) : Prop :=
  ∀ name t, env.get? name = some t →
    ∃ w, scope.find? (fun w => w.name == name) = some w ∧ Suits w.columns t.sort

section Describes

variable {scope : List Relational.Var} {env : Environment} {t : Term}

theorem describes_empty : Describes scope {} := by
  intro name t h
  simp [Scoped.get?_empty] at h

theorem Describes.enter (h : Describes scope env) : Describes scope env.enter :=
  fun name t ht => h name t (by rwa [Scoped.get?_enter] at ht)

theorem Describes.put (h : Describes scope env) {v : Relational.Var} (ht : Suits v.columns t.sort) :
    Describes (v :: scope) (env.put v.name t) := by
  intro name u hu
  by_cases hname : v.name = name
  · rw [← hname, Scoped.get?_put_self] at hu
    exact ⟨v, by simp [hname], Option.some.inj hu ▸ ht⟩
  · rw [Scoped.get?_put_of_ne _ _ (Ne.symm hname)] at hu
    obtain ⟨w, hw, hfits⟩ := h name u hu
    exact ⟨w, by simpa [hname] using hw, hfits⟩

theorem Describes.putAll : ∀ {vs : List Relational.Var} {ts : List Term}
    {scope : List Relational.Var} {env : Environment}, Describes scope env →
    vs.length = ts.length → (∀ p ∈ vs.zip ts, Suits p.1.columns p.2.sort) →
    Describes (vs.reverse ++ scope) (env.putAll ((vs.map Relational.Var.name).zip ts))
  | [], [], _, _, h, _, _ => h
  | v :: vs, t :: ts, scope, env, h, hlen, hfits => by
    obtain ⟨hv, hvs⟩ := List.forall_mem_cons.1 hfits
    have ih := (h.put hv).putAll (by simpa using hlen) hvs
    rwa [List.reverse_cons, List.append_assoc]

end Describes

/-- Do both sessions know the same signatures, fields and functions? -/
structure SameTables (s s' : Session) : Prop where
  signatures : s'.signatures = s.signatures
  fields : s'.fields = s.fields
  functions : s'.functions = s.functions

/-- Is this a session over the functions `fs` in which the symbols of signatures and fields have the
sorts that their columns tell? The signature of integers is never looked up. -/
structure Session.Columned (fs : List Relational.Function) (s : Session) : Prop where
  functions : s.functions = fs
  signatures : ∀ r f, s.signatures.lookup r = some f → r.isInt = false →
    f.output = relationSort [r.column]
  fields : ∀ r f, s.fields.lookup r = some f → r.columns ≠ [] ∧ f.output = relationSort r.columns

section

variable {s m s' : Session} {fs : List Relational.Function}

theorem SameTables.refl (s : Session) : SameTables s s := ⟨rfl, rfl, rfl⟩

theorem SameTables.trans (h : SameTables s m) (h' : SameTables m s') : SameTables s s' :=
  ⟨h'.signatures.trans h.signatures, h'.fields.trans h.fields, h'.functions.trans h.functions⟩

theorem Extends.sameTables (h : Extends s s') : SameTables s s' :=
  ⟨h.signatures, h.fields, h.functions⟩

theorem Adds.sameTables {as : List Assertion} (h : Adds s s' as) : SameTables s s' :=
  ⟨h.signatures, h.fields, h.functions⟩

theorem SameTables.columned (h : SameTables s s') (hs : s.Columned fs) : s'.Columned fs := by
  refine ⟨h.functions.trans hs.functions, ?_, ?_⟩
  · rw [h.signatures]
    exact hs.signatures
  · rw [h.fields]
    exact hs.fields

theorem sameTables_bindVars {m : Relational.Multiplicity} {bound : Term} {element : SmtSort} :
    ∀ {vs : List Relational.Var} {b b' : Bound} {images : List Term} {s s' : Session},
      Runs (bindVars m bound element b vs) s (b', images) s' → SameTables s s'
  | [], b, b', images, s, s', h => by
    obtain ⟨_, rfl⟩ := runs_pure.1 h
    exact .refl s
  | v :: vs, b, b', images, s, s', h => by
    obtain ⟨b₁, s₁, image, rest, h₁, h₂, _⟩ := runs_bindVars_cons h
    obtain ⟨c, x, _, hc, _⟩ := runs_bindVar h₁
    exact ((extends_next s).trans (runs_boundConstraint hc).1).sameTables.trans
      (sameTables_bindVars h₂)

end

/-! ## Binders and calls -/

section

variable {s s' : Session} {t : Term}

/-- A variable is seen as a term of the sort of its bound. -/
theorem sort_imageOf {m : Relational.Multiplicity} {x : Variable} {element : SmtSort}
    (hx : x.sort = boundSort m (.set element) element) : (imageOf m x).sort = .set element := by
  unfold imageOf
  unfold boundSort at hx
  split
  · rename_i hone
    rw [if_pos hone] at hx
    exact congrArg SmtSort.set hx
  · rename_i hone
    rw [if_neg hone] at hx
    exact hx

/-- The variables of a declaration are seen as terms that fit the columns of their bound. -/
theorem describes_bindDecl {vs : List Relational.Var} {m : Relational.Multiplicity} {bound : Term}
    {disjoint : Bool} {b b' : Bound} {scope : List Relational.Var} {cs : List Column}
    (h : Runs (bindDecl vs m bound disjoint b) s b' s') (hb : Describes scope b.scope)
    (hbound : Suits cs bound.sort) (hvs : ∀ v ∈ vs, v.columns = cs) :
    SameTables s s' ∧ Describes (vs.reverse ++ scope) b'.scope := by
  obtain ⟨_, _, _, _, _, hvars, _, _⟩ := runs_bindDecl h
  refine ⟨sameTables_bindVars hvars, ?_⟩
  obtain ⟨element, xs, constraints, hset, hdecl⟩ := declares_bindDecl h
  rw [hdecl.result]
  refine hb.putAll (by rw [List.length_map, hdecl.length]) fun p hp => ?_
  obtain ⟨hv, himage⟩ := List.of_mem_zip hp
  obtain ⟨x, hx, hp⟩ := List.mem_map.1 himage
  have hsort : x.sort = boundSort m (.set element) element := hset ▸ (hdecl.sorts x hx).1
  rw [hvs _ hv, ← hp, sort_imageOf hsort, ← hset]
  exact hbound

theorem sort_quantify {q : Relational.Quantifier} {b : Bound} {body : Term}
    (h : Runs (quantify q b body) s t s') : t.sort = .bool := by
  obtain ⟨_, _, _, _, h⟩ := runs_quantify h
  cases h <;> rfl

theorem columns_ne_nil_of_comprehend {cs : List Column} {b : Bound} {body : Term}
    (h : Runs (comprehend cs b body) s t s') : cs.map columnSort ≠ [] := by
  simp only [comprehend, runs_bind, runs_lift, SmtSort.relationOf_eq_ok] at h
  obtain ⟨_, _, _, _, _, _, _, _, _, _, _, ⟨⟨hne, _⟩, _⟩, _⟩ := h
  exact hne

theorem suits_comprehend {cs : List Column} {b : Bound} {body : Term}
    (h : Runs (comprehend cs b body) s t s') : Suits cs t.sort := by
  obtain ⟨_, _, f, tuple, _, _, _, hf, happly, htuple, ⟨hset, hsort⟩, _, _⟩ := runs_comprehend h
  have ht : t.sort = .relation (cs.map columnSort) := by
    rw [Term.sort_apply happly, hf]
  exact suits_of_relation ht (columns_ne_nil_of_comprehend h)

/-- The result of an operation on integers is a relation with the column of integers. -/
theorem suits_arithmetic {op : Arithmetic} {x y : Term} {env : Environment}
    (h : Runs (arithmetic op x y env) s t s') : Suits [.int] t.sort := by
  rw [sort_arithmetic h]
  exact suits_relationSort (by simp)

end

/-! ## Expressions -/

/-- Do inlined bodies become terms that fit their columns? -/
structure Inliner.FitsColumns (inline : Inliner) (fs : List Relational.Function) : Prop where
  fits : ∀ {name : String} {body : Relational.Expr} {env : Environment}
    {scope : List Relational.Var} {s s' : Session} {t : Term}, Runs (inline name body env) s t s' →
    s.Columned fs → Describes scope env → Site.WellColumned fs ⟨scope, body⟩ →
    s'.Columned fs ∧ Suits body.columns t.sort

section Expressions

variable {fs : List Relational.Function} {inline : Inliner} {active : List String}

theorem suits_constant {c : Relational.Constant} {s s' : Session} {t : Term}
    (h : Runs (constant c) s t s') : Suits (Relational.Expr.constant c).columns t.sort := by
  cases c with
  | univ =>
    obtain ⟨_, rfl⟩ := Term.fullOf_eq_ok.1 (runs_lift.1 h).1
    exact suits_relationSort (List.cons_ne_nil Column.atom [])
  | none =>
    obtain ⟨_, rfl⟩ := Term.emptyOf_eq_ok.1 (runs_lift.1 h).1
    exact suits_relationSort (List.cons_ne_nil Column.atom [])
  | iden =>
    obtain ⟨rfl, _⟩ := runs_atomIden h
    exact suits_relationSort (List.cons_ne_nil Column.atom [.atom])
  | ints =>
    obtain ⟨rfl, _⟩ := runs_integers h
    exact suits_relationSort (List.cons_ne_nil Column.int [])
  | true => exact (runs_pure.1 h).1 ▸ suits_nil.2 rfl
  | false => exact (runs_pure.1 h).1 ▸ suits_nil.2 rfl

/-- Arguments that fit their columns fit the parameters they are given to. -/
theorem suits_params : ∀ {vs : List Relational.Var} {es : List Relational.Expr} {ts : List Term},
    vs.length = es.length → (∀ p ∈ vs.zip es, p.1.columns = p.2.columns) →
    List.Forall₂ (fun e t => Suits e.columns t.sort) es ts →
    ∀ p ∈ vs.zip ts, Suits p.1.columns p.2.sort
  | [], _, _, _, _, _ => by simp
  | v :: vs, _, _, hlen, _, .nil => by simp at hlen
  | v :: vs, e :: es, t :: ts, hlen, hcolumns, .cons hfit hfits => by
    obtain ⟨hv, hvs⟩ := List.forall_mem_cons.1 hcolumns
    have hv : v.columns = e.columns := hv
    exact List.forall_mem_cons.2 ⟨hv ▸ hfit, suits_params (Nat.succ.inj hlen) hvs hfits⟩

mutual

/-- **A lowered expression fits its columns.** -/
theorem suits_exprWith (hinline : inline.FitsColumns fs) : ∀ (e : Relational.Expr)
    {env : Environment} {scope : List Relational.Var} {s s' : Session} {t : Term},
    Runs (exprWith inline active e env) s t s' → s.Columned fs → Describes scope env →
    Site.WellColumned fs ⟨scope, e⟩ → s'.Columned fs ∧ Suits e.columns t.sort
  | .constant c, env, scope, s, s', t, h, hs, _, _ => by
    rw [exprWith] at h
    exact ⟨(extends_constant h).sameTables.columned hs, suits_constant h⟩
  | .number n, env, scope, s, s', t, h, hs, _, _ => by
    rw [exprWith] at h
    obtain ⟨rfl, _, hext⟩ := runs_intRelation h
    exact ⟨hext.sameTables.columned hs, suits_relationSort (List.cons_ne_nil Column.int [])⟩
  | .sig r, env, scope, s, s', t, h, hs, _, hw => by
    rw [exprWith] at h
    split at h
    · rename_i hint
      obtain ⟨rfl, _, hext⟩ := runs_integers h
      refine ⟨hext.sameTables.columned hs, ?_⟩
      rw [Relational.Expr.columns, hw.here hint]
      exact suits_relationSort (by simp)
    · rename_i hint
      obtain ⟨f, hf, rfl, rfl⟩ := runs_signature.1 h
      refine ⟨hs, ?_⟩
      rw [Term.sort, hs.signatures r f hf (by simpa using hint)]
      exact suits_relationSort (by simp [Relational.Expr.columns])
  | .field r, env, scope, s, s', t, h, hs, _, _ => by
    rw [exprWith] at h
    obtain ⟨f, hf, rfl, rfl⟩ := runs_field.1 h
    obtain ⟨hne, hsort⟩ := hs.fields r f hf
    refine ⟨hs, ?_⟩
    rw [Term.sort, hsort]
    exact suits_relationSort hne
  | .var v, env, scope, s, s', t, h, hs, henv, hw => by
    rw [exprWith] at h
    split at h
    · rename_i u hu
      obtain ⟨rfl, rfl⟩ := runs_pure.1 h
      obtain ⟨w, hfind, hfits⟩ := henv v.name u hu
      have hcolumns : w.columns = v.columns := hw.here w hfind
      refine ⟨hs, ?_⟩
      rwa [hcolumns] at hfits
    · exact absurd h runs_throw
  | .unary op e, env, scope, s, s', t, h, hs, henv, hw => by
    rw [exprWith, runs_bind] at h
    obtain ⟨u, m, hu, h⟩ := h
    obtain ⟨hm, hfits⟩ := suits_exprWith hinline e hu hs henv (hw.step .operand)
    exact ⟨(extends_unary h).sameTables.columned hm, suits_unary hfits h⟩
  | .binary op l r, env, scope, s, s', t, h, hs, henv, hw => by
    simp only [exprWith, runs_bind] at h
    obtain ⟨a, m, ha, b, m', hb, h⟩ := h
    obtain ⟨hm, hl⟩ := suits_exprWith hinline l ha hs henv (hw.step .left)
    obtain ⟨hm', hr⟩ := suits_exprWith hinline r hb hm henv (hw.step .right)
    exact ⟨(extends_binary h).sameTables.columned hm', suits_binary hl hr h⟩
  | .list op es, env, scope, s, s', t, h, hs, henv, hw => by
    obtain ⟨ts, hts, hjoined⟩ := runs_list h
    obtain ⟨hm, hfits⟩ := suits_exprsWith hinline es hts hs henv fun e he => hw.step (.member he)
    -- what is joined has no columns: it is a formula
    refine ⟨hm, suits_nil.2 (hjoined.sort fun u hu => ?_)⟩
    obtain ⟨e, he, hfit⟩ := exists_mem_of_forall₂ hfits hu
    have hnil : e.columns = [] := hw.here e he
    rw [hnil] at hfit
    exact suits_nil.1 hfit
  | .ite c y n, env, scope, s, s', t, h, hs, henv, hw => by
    simp only [exprWith, runs_bind, runs_lift, Term.mkIte_eq_ok] at h
    obtain ⟨tc, m₁, hc, ty, m₂, hy, tn, _, hn, ⟨_, hsort, rfl⟩, rfl⟩ := h
    -- both branches have one sort, so that the first decides
    obtain ⟨hm₁, _⟩ := suits_exprWith hinline c hc hs henv (hw.step .condition)
    obtain ⟨hm₂, hfits⟩ := suits_exprWith hinline y hy hm₁ henv (hw.step .yes)
    exact ⟨(suits_exprWith hinline n hn hm₂ henv (hw.step .no)).1, hfits⟩
  | .letIn v value body, env, scope, s, s', t, h, hs, henv, hw => by
    simp only [exprWith, runs_bind] at h
    obtain ⟨u, m, hu, h⟩ := h
    obtain ⟨hm, hfits⟩ := suits_exprWith hinline value hu hs henv (hw.step .value)
    have hv : v.columns = value.columns := hw.here
    exact suits_exprWith hinline body h hm (henv.enter.put (hv ▸ hfits)) (hw.step .letBody)
  | .quantified q ds body, env, scope, s, s', t, h, hs, henv, hw => by
    -- the site answers for the columns of the variables and for the bounds they range over
    have hds : ∀ d ∈ ds, ∀ v ∈ d.vars, v.columns = d.bound.columns := hw.here
    have hbounds : ∀ before d after, ds = before ++ d :: after →
        Site.WellColumned fs ⟨Relational.declaredBy before scope, d.bound⟩ :=
      fun before d after he => hw.step (.bound he)
    obtain ⟨b, u, m, m', hb, hu, h⟩ := runs_quantified h
    obtain ⟨hm, hscope⟩ := suits_declsWith hinline ds hb hs henv.enter hds hbounds
    obtain ⟨hm', _⟩ := suits_exprWith hinline body hu hm hscope (hw.step .body)
    rcases h with ⟨rfl, hclose⟩ | ⟨hq, h⟩
    · exact ⟨(extends_comprehend hclose).sameTables.columned hm', suits_comprehend hclose⟩
    · refine ⟨(extends_quantify h).sameTables.columned hm', ?_⟩
      cases q
      case comprehension => exact absurd rfl hq
      all_goals exact suits_nil.2 (sort_quantify h)
  | .call name args cs, env, scope, s, s', t, h, hs, henv, hw => by
    have hcall := hw.here
    have hargs : ∀ e ∈ args, Site.WellColumned fs ⟨scope, e⟩ :=
      fun e he => hw.step (.argument he)
    rcases runs_call h with ⟨op, x, y, m, hnone, _, hts, h⟩ |
      ⟨f, body, ts, m, hf, hbody, _, hlen, hts, h⟩
    · -- no function has the name, and an operator on integers does
      rw [hs.functions] at hnone
      simp only [Site.Agrees, hnone] at hcall
      obtain ⟨hm, _⟩ := suits_exprsWith hinline args hts hs henv hargs
      obtain ⟨_, _, _, _, hadds, _⟩ := runs_arithmetic_adds h
      refine ⟨hadds.sameTables.columned hm, ?_⟩
      rw [Relational.Expr.columns, hcall]
      exact suits_arithmetic h
    · rw [hs.functions] at hf
      simp only [Site.Agrees, hf] at hcall
      obtain ⟨hcolumns, hparams⟩ := hcall
      obtain ⟨hm, hfits⟩ := suits_exprsWith hinline args hts hs henv hargs
      rw [Relational.Expr.columns, hcolumns body hbody]
      refine hinline.fits h hm ?_ (hw.step (.callee hf hbody))
      -- the body sees the parameters only, each as a term that fits its argument
      have hempty : Describes [] {} := describes_empty
      have hdescribes := hempty.putAll (hlen.trans hfits.length_eq)
        (suits_params hlen hparams hfits)
      rwa [List.append_nil] at hdescribes

theorem suits_exprsWith (hinline : inline.FitsColumns fs) : ∀ (es : List Relational.Expr)
    {env : Environment} {scope : List Relational.Var} {s s' : Session} {ts : List Term},
    Runs (exprsWith inline active es env) s ts s' → s.Columned fs → Describes scope env →
    (∀ e ∈ es, Site.WellColumned fs ⟨scope, e⟩) →
    s'.Columned fs ∧ List.Forall₂ (fun e t => Suits e.columns t.sort) es ts
  | [], env, scope, s, s', ts, h, hs, _, _ => by
    rw [exprsWith] at h
    obtain ⟨rfl, rfl⟩ := runs_pure.1 h
    exact ⟨hs, .nil⟩
  | e :: es, env, scope, s, s', ts, h, hs, henv, hw => by
    simp only [exprsWith, runs_bind, runs_pure] at h
    obtain ⟨t, m, ht, ts, _, hts, rfl, rfl⟩ := h
    obtain ⟨he, hes⟩ := List.forall_mem_cons.1 hw
    obtain ⟨hm, hfits⟩ := suits_exprWith hinline e ht hs henv he
    obtain ⟨hm', hrest⟩ := suits_exprsWith hinline es hts hm henv hes
    exact ⟨hm', .cons hfits hrest⟩

/-- Names that declarations have bound stand for terms that fit the declared variables. -/
theorem suits_declsWith (hinline : inline.FitsColumns fs) : ∀ (ds : List Relational.Decl)
    {comprehension : Bool} {b b' : Bound} {scope : List Relational.Var} {s s' : Session},
    Runs (declsWith inline active ds comprehension b) s b' s' → s.Columned fs →
    Describes scope b.scope → (∀ d ∈ ds, ∀ v ∈ d.vars, v.columns = d.bound.columns) →
    (∀ before d after, ds = before ++ d :: after →
      Site.WellColumned fs ⟨Relational.declaredBy before scope, d.bound⟩) →
    s'.Columned fs ∧ Describes (Relational.declaredBy ds scope) b'.scope
  | [], _, b, b', scope, s, s', h, hs, hb, _, _ => by
    rw [declsWith] at h
    obtain ⟨rfl, rfl⟩ := runs_pure.1 h
    exact ⟨hs, hb⟩
  | .mk vs mult bound disjoint :: ds, c, b, b', scope, s, s', h, hs, hb, hds, hw => by
    obtain ⟨u, m, b₁, m₁, hu, hdecl, hrest⟩ := runs_declsWith_cons h
    obtain ⟨hvs, hds⟩ := List.forall_mem_cons.1 hds
    obtain ⟨hm, hfits⟩ := suits_exprWith hinline bound hu hs hb (hw [] _ ds rfl)
    obtain ⟨hsame, hb₁⟩ := describes_bindDecl hdecl hb hfits hvs
    rw [Relational.declaredBy_cons]
    refine suits_declsWith hinline ds hrest (hsame.columned hm) hb₁ hds
      fun before d after he => ?_
    have hbound := hw (.mk vs mult bound disjoint :: before) d after (he ▸ rfl)
    rwa [Relational.declaredBy_cons] at hbound

end

end Expressions

/-- Inlining keeps to the columns at any depth. -/
theorem fitsColumns_within {fs : List Relational.Function} : ∀ (depth : Nat)
    (active : List String), (inlinerWithin depth active).FitsColumns fs
  | 0, _ => ⟨fun h => absurd h runs_throw⟩
  | depth + 1, active => by
    refine ⟨fun {name body env scope s s' t} h hs henv hw => ?_⟩
    have h : Runs (exprWithin depth (name :: active) body env) s t s' := h
    rw [exprWithin_eq] at h
    exact suits_exprWith (fitsColumns_within depth (name :: active)) body h hs henv hw

/-! ## Sessions that are reached -/

/-- The sessions over given functions that declaring signatures and fields leads to. In between a
session may change in whatever leaves its tables alone. -/
inductive Session.Reached : Session → Prop where
  | start (singletonsOnly : Bool) (fs : List Relational.Function) :
      Reached { Session.start singletonsOnly with functions := fs }
  | signature {s s' : Session} {r : Relational.Signature} (hs : s.Reached)
      (h : Runs (declareSignature r) s () s') : s'.Reached
  | field {s s' : Session} {id : Nat} {owner : Relational.SigRef} {label : String}
      {bound : Relational.Expr} {position : Position} {f : Relational.Field} (hs : s.Reached)
      (hf : Relational.Field.make id owner label bound position = .ok f)
      (h : Runs (declareField f) s () s') : s'.Reached
  | later {s s' : Session} (hs : s.Reached) (h : SameTables s s') : s'.Reached

section

variable {s s' : Session} {fs : List Relational.Function}

theorem columns_make {id : Nat} {owner : Relational.SigRef} {label : String}
    {bound : Relational.Expr} {position : Position} {f : Relational.Field}
    (h : Relational.Field.make id owner label bound position = .ok f) :
    f.ref.columns = owner.column :: bound.columns := by
  unfold Relational.Field.make at h
  split at h
  · simp at h
  · rw [← Except.ok.inj h]

theorem Session.Columned.declareSignature {r : Relational.Signature} (hs : s.Columned fs)
    (h : Runs (declareSignature r) s () s') : s'.Columned s'.functions := by
  obtain ⟨hsignatures, hfields⟩ := runs_declareSignature h
  refine ⟨rfl, fun q f hf hint => ?_, by rw [hfields]; exact hs.fields⟩
  rw [hsignatures] at hf
  rcases lookup_append hf with hf | ⟨rfl, rfl⟩
  · exact hs.signatures q f hf hint
  · rw [signatureSymbol, if_neg (by simp [hint])]
    rfl

theorem Session.Columned.declareField {id : Nat} {owner : Relational.SigRef} {label : String}
    {bound : Relational.Expr} {position : Position} {f : Relational.Field} (hs : s.Columned fs)
    (hf : Relational.Field.make id owner label bound position = .ok f)
    (h : Runs (declareField f) s () s') : s'.Columned s'.functions := by
  obtain ⟨hsignatures, hfields⟩ := runs_declareField h
  refine ⟨rfl, by rw [hsignatures]; exact hs.signatures, fun q g hg => ?_⟩
  rw [hfields] at hg
  rcases lookup_append hg with hg | ⟨rfl, rfl⟩
  · exact hs.fields q g hg
  · exact ⟨by simp [columns_make hf], rfl⟩

/-- In a session that is reached the symbols have the sorts that the columns tell. -/
theorem Session.Reached.columned (h : s.Reached) : s.Columned s.functions := by
  induction h with
  | start => exact ⟨rfl, by simp [Session.start], by simp [Session.start]⟩
  | signature _ h ih => exact ih.declareSignature h
  | field _ hf h ih => exact ih.declareField hf h
  | later _ h ih => exact h.functions ▸ h.columned ih

end

/-! ## Columns and sorts -/

/-- **Columns tell sorts.** Take a session that is reached. Where the columns agree at every site of
an expression, whatever it is lowered to is of sort `Bool` if the expression has no columns, and
else of the sort of its columns or, if its one column is that of integers, a native integer. A field
is declared with the column of its owner in front of the columns that tell the sort of what its
bound is lowered to. -/
theorem sort_of_columns {s : Session} (hs : s.Reached) :
    (∀ (e : Relational.Expr) (scope : List Relational.Var) (env : Environment) (t : Term)
      (s' : Session), Describes scope env → Site.WellColumned s.functions ⟨scope, e⟩ →
      Runs (expr e env) s t s' → Suits e.columns t.sort) ∧
    ∀ (id : Nat) (owner : Relational.SigRef) (label : String) (bound : Relational.Expr)
      (position : Position) (f : Relational.Field) (g : FunctionSymbol),
      Relational.Field.make id owner label bound position = .ok f →
      s.fields.lookup f.ref = some g →
      g.output = relationSort (owner.column :: bound.columns) ∧
      ∀ (scope : List Relational.Var) (env : Environment) (t : Term) (s' : Session),
        Describes scope env → Site.WellColumned s.functions ⟨scope, bound.splitMarker.2⟩ →
        Runs (expr bound.splitMarker.2 env) s t s' → Suits bound.columns t.sort := by
  have hexpr : ∀ (e : Relational.Expr) (scope : List Relational.Var) (env : Environment) (t : Term)
      (s' : Session), Describes scope env → Site.WellColumned s.functions ⟨scope, e⟩ →
      Runs (expr e env) s t s' → Suits e.columns t.sort := by
    intro e scope env t s' henv hw h
    rw [runs_expr, exprWithin_eq] at h
    exact (suits_exprWith (fitsColumns_within _ _) e h hs.columned henv hw).2
  refine ⟨hexpr, fun id owner label bound position f g hf hg => ⟨?_, ?_⟩⟩
  · rw [(hs.columned.fields f.ref g hg).2, columns_make hf]
  · intro scope env t s' henv hw h
    rw [← bound.columns_splitMarker]
    exact hexpr _ scope env t s' henv hw h

/-! A field of `A` with the bound `some y : A | y in this` in set-builder form. -/

/-- The variable of the comprehension. -/
def filteredVar : Relational.Var := ⟨.declared 0, "y", [.atom]⟩

/-- The comprehension `{y : A | y in this}`. -/
def filteredBound : Relational.Expr :=
  .quantified .comprehension [.mk [filteredVar] .one (.sig nestedOwner) false]
    (.binary .isIn (.var filteredVar) (.var nestedOwner.this))

/-- The field with this bound, as a set. -/
def filteredField : Relational.FieldRef := ⟨0, nestedOwner, "f", [.atom, .atom]⟩

/-- A session that has declared the signature and the field. -/
def filteredSession : Session :=
  { Session.start true with
    program := (((Session.start true).program.declare (signatureSymbol nestedOwner)).declare
      (fieldSymbol filteredField))
    signatures := [(nestedOwner, signatureSymbol nestedOwner)]
    fields := [(filteredField, fieldSymbol filteredField)] }

theorem make_filtered : Relational.Field.make 0 nestedOwner "f" (.unary .setOf filteredBound) {}
    = .ok ⟨filteredField, .unary .setOf filteredBound, {}⟩ := rfl

theorem reached_filtered : filteredSession.Reached :=
  .field (.signature (r := ⟨nestedOwner, .top, false, none, {}⟩) (.start true []) rfl)
    make_filtered rfl

/-- The sites of the comprehension. -/
def filteredSites : List Site :=
  [⟨[nestedOwner.this], filteredBound⟩, ⟨[nestedOwner.this], .sig nestedOwner⟩,
    ⟨[filteredVar, nestedOwner.this],
      .binary .isIn (.var filteredVar) (.var nestedOwner.this)⟩,
    ⟨[filteredVar, nestedOwner.this], .var filteredVar⟩,
    ⟨[filteredVar, nestedOwner.this], .var nestedOwner.this⟩]

theorem wellColumned_filtered : Site.WellColumned [] ⟨[nestedOwner.this], filteredBound⟩ := by
  -- no step leads out of the five sites, so it is enough to look at each of them
  refine Site.wellColumned_of_closed (S := fun a => a ∈ filteredSites) List.mem_cons_self
    (fun a b ha hstep => ?_) fun a ha => ?_
  · simp only [filteredSites, filteredBound, List.mem_cons, List.not_mem_nil, or_false] at ha
    rcases ha with rfl | rfl | rfl | rfl | rfl <;> cases hstep
    case refine_1.inl.bound before d after he =>
      cases before with
      | nil => cases he; simp [filteredSites, Relational.Decl.bound]
      | cons _ _ => simp at he
    all_goals simp [filteredSites, Relational.Decl.vars]
  · simp only [filteredSites, List.mem_cons, List.not_mem_nil, or_false] at ha
    rcases ha with rfl | rfl | rfl | rfl | rfl
    · simp [Site.Agrees, filteredBound, Relational.Decl.vars, Relational.Decl.bound,
        Relational.Expr.columns, filteredVar, nestedOwner]
    · simp [Site.Agrees, nestedOwner]
    · trivial
    all_goals
      intro w hw
      have hw := List.mem_of_find?_eq_some hw
      simp only [List.mem_cons, List.not_mem_nil, or_false] at hw
      rcases hw with rfl | rfl <;> rfl

/-- The environment in which all of `A` stands for its atom. -/
def filteredEnvironment : Environment :=
  ({} : Environment).put nestedOwner.this.name (signatureSymbol nestedOwner).term

theorem describes_filtered : Describes [nestedOwner.this] filteredEnvironment :=
  describes_empty.put (suits_relationSort (by simp [Relational.SigRef.this]))

theorem runs_filtered : ∃ t s', Runs (expr filteredBound filteredEnvironment) filteredSession t s' :=
  ⟨_, _, rfl⟩

/-- The field has the column of its owner in front of that of the comprehension. -/
theorem sort_of_columns_filtered : filteredSession.Reached ∧
    Describes [nestedOwner.this] filteredEnvironment ∧
    Site.WellColumned filteredSession.functions ⟨[nestedOwner.this], filteredBound⟩ ∧
    (fieldSymbol filteredField).output = relationSort [.atom, .atom] ∧
    ∃ t s', Runs (expr filteredBound filteredEnvironment) filteredSession t s' ∧
      t.sort = relationSort [.atom] := by
  obtain ⟨hexpr, hfield⟩ := sort_of_columns reached_filtered
  obtain ⟨hsort, _⟩ := hfield 0 nestedOwner "f" (.unary .setOf filteredBound) {} _
    (fieldSymbol filteredField) make_filtered rfl
  obtain ⟨t, s', hrun⟩ := runs_filtered
  have hfits : Suits [.atom] t.sort :=
    hexpr _ _ _ t s' describes_filtered wellColumned_filtered hrun
  exact ⟨reached_filtered, describes_filtered, wellColumned_filtered, hsort, t, s', hrun,
    by simpa [Suits] using hfits⟩

end RelSmt.Lowering
