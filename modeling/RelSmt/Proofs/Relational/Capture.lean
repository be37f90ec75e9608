import RelSmt.Proofs.Relational.Substitution

/-!
# Capture

Substitution leaves binders as they are. Wherever the variable occurs free the other expression
comes to stand under the very declarations that the variable stood under, and these bind what is
free in it.
-/

namespace RelSmt.Relational

variable {v : Var} {new : Expr} {scope : List Var}

theorem substituteList_eq_map (es : List Expr) :
    Expr.substituteList es v new = es.map fun e => e.substitute v new := by
  induction es with
  | nil => rfl
  | cons e es ih => rw [Expr.substituteList, List.map_cons, ih]

/-- A bound that no declaration of the variable comes before is substituted in, under the same
variables. -/
theorem substituteDecls_append (new : Expr) {before : List Decl} (d : Decl) (after : List Decl)
    (h : v ∉ before.flatMap Decl.vars) :
    ∃ before' d' after', Expr.substituteDecls (before ++ d :: after) v new = before' ++ d' :: after'
      ∧ before'.flatMap Decl.vars = before.flatMap Decl.vars ∧ d'.bound = d.bound.substitute v new := by
  induction before with
  | nil =>
    obtain ⟨vs, m, bound, disjoint⟩ := d
    refine ⟨[], .mk vs m (bound.substitute v new) disjoint,
      if vs.contains v then after else Expr.substituteDecls after v new, ?_, rfl, rfl⟩
    rw [List.nil_append, Expr.substituteDecls]
    rfl
  | cons d₀ before ih =>
    obtain ⟨vs, m, bound, disjoint⟩ := d₀
    simp only [List.flatMap_cons, List.mem_append, not_or] at h
    obtain ⟨before', d', after', heq, hvars, hbound⟩ := ih h.2
    have hvs : v ∉ vs := h.1
    refine ⟨.mk vs m (bound.substitute v new) disjoint :: before', d', after', ?_, ?_, hbound⟩
    · rw [List.cons_append, Expr.substituteDecls, if_neg (by simpa using hvs), heq]
      rfl
    · rw [List.flatMap_cons, List.flatMap_cons, hvars]
      rfl

namespace Site

variable {s s' : List Var} {e e' : Expr}

/-- A step in declares variables and takes none away. -/
theorem Step.mem_scope {u : Var} (h : Step [] ⟨s, e⟩ ⟨s', e'⟩) (hu : u ∈ s) : u ∈ s' := by
  cases h with
  | letBody => exact List.mem_cons_of_mem _ hu
  | bound | body => exact List.mem_append_right _ hu
  | callee hf _ => cases hf
  | _ => exact hu

/-- Where the variable is not declared a step in stays one after substitution, and into the same
scope. -/
theorem Step.substitute (h : Step [] ⟨s, e⟩ ⟨s', e'⟩) (hv : v ∉ s') :
    Step [] ⟨s, e.substitute v new⟩ ⟨s', e'.substitute v new⟩ := by
  cases h with
  | operand => rw [Expr.substitute]; exact .operand
  | left => rw [Expr.substitute]; exact .left
  | right => rw [Expr.substitute]; exact .right
  | member h =>
    rw [Expr.substitute, substituteList_eq_map]
    exact .member (List.mem_map_of_mem h)
  | condition => rw [Expr.substitute]; exact .condition
  | yes => rw [Expr.substitute]; exact .yes
  | no => rw [Expr.substitute]; exact .no
  | value => rw [Expr.substitute]; exact .value
  | @letBody _ w _ _ =>
    have hw : w ≠ v := fun he => hv (he ▸ List.mem_cons_self)
    rw [Expr.substitute, if_neg hw]
    exact .letBody
  | @bound _ _ _ _ before d after hsplit =>
    -- substitution has not ended at a declaration before this one
    have hbefore : v ∉ before.flatMap Decl.vars := fun hmem =>
      hv (List.mem_append_left _ (List.mem_reverse.2 hmem))
    obtain ⟨before', d', after', heq, hvars, hbound⟩ :=
      substituteDecls_append new d after hbefore
    rw [Expr.substitute, ← hbound, declaredBy, ← hvars]
    exact .bound (hsplit ▸ heq)
  | @body _ _ ds _ =>
    have hds : v ∉ ds.flatMap Decl.vars := fun hmem =>
      hv (List.mem_append_left _ (List.mem_reverse.2 hmem))
    rw [Expr.substitute, any_vars_contains hds, declaredBy, ← vars_substituteDecls]
    exact .body
  | argument h =>
    rw [Expr.substitute, substituteList_eq_map]
    exact .argument (List.mem_map_of_mem h)
  | callee hf _ => cases hf

theorem Reaches.substitute (new : Expr) {a b : Site} (h : Reaches [] a b) (hv : v ∉ b.scope) :
    Reaches [] ⟨a.scope, a.expr.substitute v new⟩ ⟨b.scope, b.expr.substitute v new⟩ := by
  induction h with
  | refl => exact .refl
  | tail _ hstep ih => exact (ih fun hmem => hv (hstep.mem_scope hmem)).tail (hstep.substitute hv)

end Site

namespace Expr

variable {e : Expr} {w : Var} {inner : List Var}

/-- Where the variable occurs free the variables of the other expression come to occur, under the
same declarations. -/
theorem occurs_substitute (h : e.Occurs v scope) (hv : v ∉ scope) (hw : new.Occurs w inner) :
    (e.substitute v new).Occurs w (inner ++ scope) := by
  have hreach := Site.Reaches.substitute new h hv
  rw [Expr.substitute, if_pos rfl] at hreach
  exact hreach.trans (Site.Reaches.extend hw scope)

/-! ## An example -/

/-- `all y : one univ | x in y` -/
def inEach (x y : Var) : Expr :=
  .quantified .all [.mk [y] .one (.constant .univ) false] (.binary .isIn (.var x) (.var y))

variable {u t : Var}

theorem substitute_inEach (h : u ≠ w) : (inEach u w).substitute u (.var t) = inEach t w := by
  simp [inEach, substitute, substituteDecls, Decl.vars, h, Ne.symm h]

/-- Every variable in it stands under the declaration. -/
theorem scope_of_occurs_inEach (h : (inEach u w).Occurs v scope) : scope = [w] := by
  have hclosed := Site.Reaches.mem_of_closed (S := fun site => site = ⟨[], inEach u w⟩ ∨
    site = ⟨[], .constant .univ⟩ ∨ site = ⟨[w], .binary .isIn (.var u) (.var w)⟩ ∨
    site = ⟨[w], .var u⟩ ∨ site = ⟨[w], .var w⟩) h (.inl rfl) ?_
  · simp only [inEach, Site.mk.injEq, Expr.var.injEq, reduceCtorEq, and_false, false_or] at hclosed
    exact hclosed.elim And.left And.left
  rintro _ b (rfl | rfl | rfl | rfl | rfl) hstep
  · cases hstep with
    | bound hsplit =>
      obtain ⟨rfl, hd⟩ | ⟨_, _, hnil⟩ := List.cons_eq_append_iff.1 hsplit
      · cases hd
        exact .inr (.inl rfl)
      · simp at hnil
    | body => exact .inr (.inr (.inl rfl))
  · cases hstep
  · cases hstep with
    | left => exact .inr (.inr (.inr (.inl rfl)))
    | right => exact .inr (.inr (.inr (.inr rfl)))
  · cases hstep
  · cases hstep

theorem occurs_inEach : (inEach u w).Occurs u [w] := .head .body (.head .left .refl)

/-- A structure of two atoms. -/
def twoAtoms : Structure Bool where
  atoms := Set.univ
  integers := ∅
  intOf := 0
  arithmetic _ _ _ := 0
  signature _ := ∅
  field _ := ∅
  functions := []

theorem allowed_inEach {call : Callee Bool} {δ : Valuation Bool} {as : List (Value Bool)} :
    as ∈ allowedWith twoAtoms call [.mk [w] .one (.constant .univ) false] δ ↔
      ∃ b, as = [.set {[.element b]}] := by
  simp only [allowedWith, meaningWith, Set.mem_ofPred_eq, Set.mem_singleton_iff]
  constructor
  · rintro ⟨as, _, ⟨hlength, hadmits, _⟩, rfl, rfl⟩
    obtain ⟨a, rfl⟩ := List.length_eq_one_iff.1 hlength.symm
    obtain ⟨_, ⟨b, _, rfl⟩, rfl⟩ := hadmits a List.mem_cons_self
    exact ⟨b, rfl⟩
  · rintro ⟨b, rfl⟩
    refine ⟨[.set {[.element b]}], [], ⟨rfl, ?_, nofun⟩, rfl, rfl⟩
    simp only [List.mem_singleton, forall_eq]
    exact ⟨_, ⟨b, Set.mem_univ b, rfl⟩, rfl⟩

theorem holds_inEach {call : Callee Bool} {δ : Valuation Bool} :
    (meaningWith twoAtoms call (inEach u w) δ).Holds ↔
      ∀ b, (δ.bind w (.set {[.element b]}) u).rows ⊆ {[.element b]} := by
  have hall : (meaningWith twoAtoms call (inEach u w) δ).Holds ↔
      ∀ as ∈ allowedWith twoAtoms call [.mk [w] .one (.constant .univ) false] δ,
        (δ.bindAll [w] as u).rows ⊆ (δ.bindAll [w] as w).rows := by
    simp only [inEach, meaningWith]
    rfl
  simp [hall, allowed_inEach, Value.rows]

namespace inEach

/-- The variable that is replaced. -/
def x : Var := ⟨.declared 0, "x", []⟩

/-- The variable that is declared. -/
def y : Var := ⟨.declared 1, "y", []⟩

/-- A variable of no concern to the expression. -/
def z : Var := ⟨.declared 2, "z", []⟩

/-- Each variable stands for the same one of the two atoms. -/
def oneAtom : Valuation Bool := fun _ => .set {[.element true]}

end inEach

/-! ## Exactness -/

/-- **Substitution renames no binder.** Where nothing is captured the substituted expression means
what the expression means where the variable has the value of the other one. In any case each free
occurrence of the variable gives way to the other expression, whose variables come to stand under
the declarations that are around the occurrence. -/
theorem substitute_exact (e : Expr) (v : Var) (new : Expr) :
    (¬e.Captures v new → ∀ {E : Type} (M : Structure E) (call : Callee E) (δ : Valuation E),
      meaningWith M call (e.substitute v new) δ
        = meaningWith M call e (δ.bind v (meaningWith M call new δ))) ∧
    ∀ scope, e.Occurs v scope → v ∉ scope → ∀ w inner, new.Occurs w inner →
      (e.substitute v new).Occurs w (inner ++ scope) :=
  ⟨fun h _ _ _ δ => meaning_substitute h δ, fun _ h hv _ _ hw => occurs_substitute h hv hw⟩

namespace inEach

/-- `all y : one univ | x in y` with `z` and with `y` in the place of `x`. The first means what it
should. In the second the declaration captures `y`, and the formula has become true. -/
theorem substitute_exact_inEach :
    (¬(inEach x y).Captures x (.var z) ∧
      meaningWith twoAtoms default ((inEach x y).substitute x (.var z)) oneAtom
        = meaningWith twoAtoms default (inEach x y)
            (oneAtom.bind x (meaningWith twoAtoms default (.var z) oneAtom))) ∧
    (inEach x y).Captures x (.var y) ∧ ((inEach x y).substitute x (.var y)).Occurs y [y] ∧
      meaningWith twoAtoms default ((inEach x y).substitute x (.var y)) oneAtom
        ≠ meaningWith twoAtoms default (inEach x y)
            (oneAtom.bind x (meaningWith twoAtoms default (.var y) oneAtom)) := by
  have hapart : ¬(inEach x y).Captures x (.var z) := by
    rintro ⟨scope, hoccurs, _, w, hw, hfree⟩
    rw [scope_of_occurs_inEach hoccurs, List.mem_singleton, free_var.1 hfree] at hw
    exact absurd hw (by decide)
  have hnot : x ∉ [y] := by decide
  refine ⟨⟨hapart, (substitute_exact _ _ _).1 hapart twoAtoms default oneAtom⟩,
    ⟨[y], occurs_inEach, hnot, y, List.mem_singleton_self y, free_var.2 rfl⟩,
    (substitute_exact _ _ _).2 [y] occurs_inEach hnot y [] (occurs_var.2 ⟨rfl, rfl⟩), fun heq => ?_⟩
  rw [substitute_inEach (by decide)] at heq
  have hholds := congrArg Value.Holds heq
  rw [holds_inEach, holds_inEach] at hholds
  have hcaptured : ∀ b, (oneAtom.bind y (.set {[.element b]}) y).rows ⊆ {[.element b]} := fun b => by
    rw [Valuation.bind_self]
    exact subset_rfl
  have hmeant := hholds.mp hcaptured false
  rw [Valuation.bind_of_ne _ _ (by decide), Valuation.bind_self] at hmeant
  cases hmeant (show [Scalar.element true] ∈ _ from rfl)

end inEach

end Expr

end RelSmt.Relational
