import Mathlib.Data.List.Nodup
import RelSmt.Proofs.Relational.Substitution

/-!
# Names that lead to their variables

Lowering looks a variable up by its name. This finds the variable itself where no other variable of
the name has been declared closer. An expression resolves when this is so at every site that lowering
it comes to, the bodies of functions included.

What holds at a site is needed at the sites inside the expression. So proofs about lowering take a
family of sites that is closed under going in: those from which no hidden variable is reached are one
such family, and those of expressions in which no binder takes a name in scope are another.
-/

namespace RelSmt.Relational

variable {fs : List Function} {scope scope' : List Var} {v : Var} {e e' : Expr}

/-- Do names lead to their variables at these sites and inside the expressions there? -/
structure Resolving (S : Site → Prop) : Prop where
  step : ∀ {a b}, S a → Site.Step [] a b → S b
  unshadowed : ∀ {scope v}, S ⟨scope, .var v⟩ → Unshadowed scope v

namespace Site

/-- Taking its marker from a bound hides no variable. -/
theorem Occurrences.splitMarker {P : List Var → Var → Prop} (h : Occurrences fs P ⟨scope, e⟩) :
    Occurrences fs P ⟨scope, e.splitMarker.2⟩ := by
  cases e with
  | unary op e =>
    cases op with
    | setOf | someOf | loneOf | oneOf => exact h.step .operand
    | _ => exact h
  | _ => exact h

/-- A step that goes into no function is a step among any functions. -/
theorem Step.among {a b : Site} (h : Step [] a b) : Step fs a b := by
  cases h with
  | operand => exact .operand
  | left => exact .left
  | right => exact .right
  | member h => exact .member h
  | condition => exact .condition
  | yes => exact .yes
  | no => exact .no
  | value => exact .value
  | letBody => exact .letBody
  | bound h => exact .bound h
  | body => exact .body
  | argument h => exact .argument h
  | callee hf _ => cases hf

theorem resolving_unshadowed (fs : List Function) :
    Resolving fun a => a.Occurrences fs Unshadowed where
  step h hstep := h.step hstep.among
  unshadowed h := h.here

end Site

/-- Without functions nothing is reached but what is inside the expression. -/
theorem Resolving.occurrences {S : Site → Prop} (hS : Resolving S) {a : Site} (h : S a) :
    a.Occurrences [] Unshadowed :=
  Site.occurrences_of_closed h (fun _ _ => hS.step) fun _ _ => hS.unshadowed

/-! ## Scoped expressions -/

section Scoped

variable {callable : String → Prop}

/-- Is the expression scoped in variables that their names tell apart? -/
structure ScopedSite (callable : String → Prop) (a : Site) : Prop where
  names : (a.scope.map Var.name).Nodup
  expr : a.expr.ScopedWith callable a.scope.reverse

/-- Fresh variables may be declared in front of a scope. -/
theorem FreshIn.nodup {vs : List Var} (h : FreshIn scope.reverse vs)
    (hnames : (scope.map Var.name).Nodup) : ((vs.reverse ++ scope).map Var.name).Nodup := by
  rw [List.map_append, List.map_reverse]
  refine List.nodup_append.2 ⟨List.nodup_reverse.2 h.1, hnames, fun a ha b hb he => ?_⟩
  obtain ⟨v, hv, rfl⟩ := List.mem_map.1 (List.mem_reverse.1 ha)
  obtain ⟨w, hw, rfl⟩ := List.mem_map.1 hb
  exact h.2 v hv w (List.mem_reverse.2 hw) he

theorem Expr.ScopedAll.of_mem : ∀ {es : List Expr}, Expr.ScopedAll callable scope es → e ∈ es →
    e.ScopedWith callable scope
  | _ :: _, h, he =>
    (List.mem_cons.1 he).elim (fun he => he ▸ h.1) fun he => Expr.ScopedAll.of_mem h.2 he

/-- Behind scoped declarations names still tell the variables in scope apart. -/
theorem Expr.ScopedDecls.names : ∀ {ds : List Decl} {scope : List Var},
    Expr.ScopedDecls callable scope.reverse ds → (scope.map Var.name).Nodup →
    ((declaredBy ds scope).map Var.name).Nodup
  | [], _, _, hnames => hnames
  | .mk vs _ _ _ :: ds, scope, ⟨_, hfresh, hds⟩, hnames => by
    rw [declaredBy_cons]
    exact Expr.ScopedDecls.names (by simpa [Decl.vars] using hds) (hfresh.nodup hnames)

/-- A bound is scoped behind the declarations before it. -/
theorem Expr.ScopedDecls.bound {d : Decl} {after : List Decl} : ∀ {before : List Decl}
    {scope : List Var}, Expr.ScopedDecls callable scope.reverse (before ++ d :: after) →
    (scope.map Var.name).Nodup → ScopedSite callable ⟨declaredBy before scope, d.bound⟩
  | [], _, h, hnames => by
    obtain ⟨vs, m, bound, disjoint⟩ := d
    exact ⟨hnames, h.1⟩
  | .mk vs _ _ _ :: before, scope, ⟨_, hfresh, hds⟩, hnames => by
    rw [declaredBy_cons]
    exact Expr.ScopedDecls.bound (by simpa [Decl.vars] using hds) (hfresh.nodup hnames)

theorem reverse_declaredBy (ds : List Decl) (scope : List Var) :
    (declaredBy ds scope).reverse = scope.reverse ++ ds.flatMap Decl.vars := by
  simp [declaredBy]

theorem resolving_scoped : Resolving (ScopedSite callable) where
  step := by
    rintro ⟨scope, e⟩ b ⟨hnames, h⟩ hstep
    cases hstep with
    | operand => exact ⟨hnames, h⟩
    | left => exact ⟨hnames, h.1⟩
    | right => exact ⟨hnames, h.2⟩
    | member he => exact ⟨hnames, Expr.ScopedAll.of_mem h he⟩
    | condition => exact ⟨hnames, h.1⟩
    | yes => exact ⟨hnames, h.2.1⟩
    | no => exact ⟨hnames, h.2.2⟩
    | value => exact ⟨hnames, h.1⟩
    | letBody =>
      have hbound := h.2.1.nodup hnames
      refine ⟨by simpa using hbound, ?_⟩
      rw [List.reverse_cons]
      exact h.2.2
    | bound hds => exact Expr.ScopedDecls.bound (hds ▸ h.2.1) hnames
    | body =>
      refine ⟨Expr.ScopedDecls.names h.2.1 hnames, ?_⟩
      rw [reverse_declaredBy]
      exact h.2.2
    | argument he => exact ⟨hnames, Expr.ScopedAll.of_mem h.2 he⟩
    | callee hf _ => cases hf
  unshadowed := by
    rintro scope v ⟨hnames, h⟩ w hw
    have hmem := List.mem_of_find?_eq_some hw
    have hname := List.find?_some hw
    exact List.inj_on_of_nodup_map hnames hmem (List.mem_reverse.1 h) (by simpa using hname)

end Scoped

/-! ## A signature in the place of a variable -/

namespace Replacement

variable {σ : Replacement}

/-- Does the replacement put a signature in the place of a variable, if anything? -/
def PutsSig (σ : Replacement) : Prop := ∀ p ∈ σ, ∃ r, p.2 = .sig r

theorem PutsSig.hide (h : σ.PutsSig) (ws : List Var) : (σ.hide ws).PutsSig := fun p hp =>
  h p (Option.mem_filter_iff.1 hp).1

theorem PutsSig.image (h : σ.PutsSig) (u : Var) :
    σ.image u = .var u ∨ ∃ r, σ.image u = .sig r := by
  rcases σ with - | ⟨v, new⟩
  · exact Or.inl rfl
  · obtain ⟨r, rfl⟩ := h _ rfl
    rw [image_some]
    split
    · exact Or.inr ⟨r, rfl⟩
    · exact Or.inl rfl

/-- Only a variable becomes a variable. -/
theorem PutsSig.eq_var (h : σ.PutsSig) (he : .var v = σ.apply e) : e = .var v := by
  cases e with
  | var u =>
    rw [show σ.apply (.var u) = σ.image u from rfl] at he
    rcases h.image u with himage | ⟨r, himage⟩ <;> rw [himage] at he
    · exact he.symm
    · cases he
  | _ => simp [apply_constant, apply_number, apply_sig, apply_field, apply_unary, apply_binary,
      apply_list, apply_ite, apply_letIn, apply_quantified, apply_call] at he

theorem exists_mem_of_applyList : ∀ {es : List Expr}, e' ∈ σ.applyList es →
    ∃ e ∈ es, e' = σ.apply e
  | [], h => by
    rw [show σ.applyList [] = [] by cases σ <;> simp only [applyList, Expr.substituteList]] at h
    simp at h
  | e :: es, h => by
    rw [applyList_cons] at h
    rcases List.mem_cons.1 h with rfl | h
    · exact ⟨e, List.mem_cons_self, rfl⟩
    · obtain ⟨e, he, rfl⟩ := exists_mem_of_applyList h
      exact ⟨e, List.mem_cons_of_mem _ he, rfl⟩

/-- A declaration after the replacement comes from one before it, behind the same variables. -/
theorem exists_of_applyDecls {d : Decl} {after : List Decl} :
    ∀ {σ : Replacement} {ds before : List Decl}, σ.PutsSig →
    σ.applyDecls ds = before ++ d :: after → ∃ before' d' after' τ,
      ds = before' ++ d' :: after' ∧ before.flatMap Decl.vars = before'.flatMap Decl.vars ∧
      PutsSig τ ∧ d.bound = τ.apply d'.bound
  | σ, [], before, _, h => by
    rw [show σ.applyDecls [] = [] by cases σ <;> simp only [applyDecls, Expr.substituteDecls]] at h
    simp at h
  | σ, .mk vs m bound disjoint :: ds, before, hσ, h => by
    rw [applyDecls_cons] at h
    cases before with
    | nil =>
      obtain ⟨rfl, _⟩ := List.cons.inj h
      exact ⟨[], _, ds, σ, rfl, rfl, hσ, rfl⟩
    | cons first before =>
      obtain ⟨rfl, hrest⟩ := List.cons.inj h
      obtain ⟨before', d', after', τ, rfl, hvars, hτ, hbound⟩ :=
        exists_of_applyDecls (hσ.hide vs) hrest
      exact ⟨.mk vs m bound disjoint :: before', d', after', τ, rfl, by simp [hvars, Decl.vars], hτ,
        hbound⟩

end Replacement

namespace Site

/-- Does the site come from one without hidden variables by a signature in the place of a variable?
Variables declared around everything else may be left out. -/
def FromUnshadowed (fs : List Function) (a : Site) : Prop :=
  ∃ around e σ, Occurrences fs Unshadowed ⟨a.scope ++ around, e⟩ ∧ Replacement.PutsSig σ ∧
    a.expr = σ.apply e

theorem FromUnshadowed.unshadowed (h : FromUnshadowed fs ⟨scope, .var v⟩) : Unshadowed scope v := by
  obtain ⟨around, e, σ, hsite, hσ, he⟩ := h
  obtain rfl := hσ.eq_var he
  intro w hw
  refine hsite.here w ?_
  rw [List.find?_append, hw]
  rfl

theorem FromUnshadowed.step {a b : Site} (h : FromUnshadowed fs a) (hstep : Step fs a b) :
    FromUnshadowed fs b := by
  obtain ⟨scope, e'⟩ := a
  obtain ⟨around, e, σ, hsite, hσ, rfl⟩ := h
  cases e with
  | var u => rcases hσ.image u with himage | ⟨r, himage⟩ <;>
      rw [show σ.apply (.var u) = _ from himage] at hstep <;> cases hstep
  | constant => rw [Replacement.apply_constant] at hstep; cases hstep
  | number => rw [Replacement.apply_number] at hstep; cases hstep
  | sig => rw [Replacement.apply_sig] at hstep; cases hstep
  | field => rw [Replacement.apply_field] at hstep; cases hstep
  | unary op e =>
    rw [Replacement.apply_unary] at hstep
    cases hstep
    exact ⟨around, e, σ, hsite.step .operand, hσ, rfl⟩
  | binary op l r =>
    rw [Replacement.apply_binary] at hstep
    cases hstep
    · exact ⟨around, l, σ, hsite.step .left, hσ, rfl⟩
    · exact ⟨around, r, σ, hsite.step .right, hσ, rfl⟩
  | list op es =>
    rw [Replacement.apply_list] at hstep
    cases hstep with
    | member hmem =>
      obtain ⟨e, he, rfl⟩ := Replacement.exists_mem_of_applyList hmem
      exact ⟨around, e, σ, hsite.step (.member he), hσ, rfl⟩
  | ite c y n =>
    rw [Replacement.apply_ite] at hstep
    cases hstep
    · exact ⟨around, c, σ, hsite.step .condition, hσ, rfl⟩
    · exact ⟨around, y, σ, hsite.step .yes, hσ, rfl⟩
    · exact ⟨around, n, σ, hsite.step .no, hσ, rfl⟩
  | letIn w value body =>
    rw [Replacement.apply_letIn] at hstep
    cases hstep
    · exact ⟨around, value, σ, hsite.step .value, hσ, rfl⟩
    · exact ⟨around, body, _, hsite.step .letBody, hσ.hide _, rfl⟩
  | quantified q ds body =>
    rw [Replacement.apply_quantified] at hstep
    cases hstep with
    | bound hds =>
      obtain ⟨before', d', after', τ, rfl, hvars, hτ, hbound⟩ :=
        Replacement.exists_of_applyDecls hσ hds
      refine ⟨around, d'.bound, τ, ?_, hτ, hbound⟩
      have hd' : Occurrences fs Unshadowed ⟨declaredBy before' _, d'.bound⟩ :=
        hsite.step (.bound rfl)
      rwa [declaredBy_append, declaredBy, ← hvars] at hd'
    | body =>
      refine ⟨around, body, _, ?_, hσ.hide _, rfl⟩
      have hbody := hsite.step .body
      rwa [declaredBy_append, declaredBy, ← Replacement.vars_applyDecls σ] at hbody
  | call name args columns =>
    rw [Replacement.apply_call] at hstep
    cases hstep with
    | argument hmem =>
      obtain ⟨e, he, rfl⟩ := Replacement.exists_mem_of_applyList hmem
      exact ⟨around, e, σ, hsite.step (.argument he), hσ, rfl⟩
    | @callee _ _ _ _ f body hf hbody =>
      -- nothing is replaced in the body of a function
      refine ⟨[], body, none, ?_, fun p hp => absurd hp (Option.not_mem_none p), rfl⟩
      rw [List.append_nil]
      exact hsite.step (.callee hf hbody)

/-- **A signature in the place of a variable hides no other variable.** -/
theorem Occurrences.substitute_sig {r : SigRef} (h : Occurrences fs Unshadowed ⟨[v], e⟩) :
    Occurrences fs Unshadowed ⟨[], e.substitute v (.sig r)⟩ := by
  refine occurrences_of_closed (S := FromUnshadowed fs)
    ⟨[v], e, some (v, .sig r), h, fun p hp => ?_, rfl⟩
    (fun _ _ h hstep => h.step hstep) fun _ _ h => h.unshadowed
  obtain rfl : (v, .sig r) = p := Option.some.inj hp
  exact ⟨r, rfl⟩

end Site

end RelSmt.Relational
