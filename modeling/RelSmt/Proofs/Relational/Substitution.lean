import RelSmt.Proofs.Relational.Meaning
import RelSmt.Proofs.Relational.Occurrence

/-!
# Substitution in relational expressions

An expression in which another one has been put in the place of a variable means what the expression
means where the variable has the value of the other one, unless a binder captures a variable of the
other one.

In the proof a binder that declares the variable leaves nothing to replace behind it. That an
expression means the same under valuations that agree on its free variables is the case where there
is nothing to replace at all.
-/

namespace RelSmt.Relational

variable {E : Type} {M : Structure E} {call : Callee E} {v : Var} {new : Expr} {scope : List Var}

theorem Quantifier.holds_congr {q : Quantifier} {allowed : Set (List (Value E))}
    {P Q : List (Value E) → Prop} (h : ∀ as ∈ allowed, (P as ↔ Q as)) :
    q.Holds allowed P ↔ q.Holds allowed Q := by
  have hand : ∀ as, as ∈ allowed ∧ P as ↔ as ∈ allowed ∧ Q as := fun as => and_congr_right (h as)
  cases q with
  | all => exact forall₂_congr h
  | some => exact exists_congr hand
  | no => exact not_congr (exists_congr hand)
  | one => exact existsUnique_congr hand
  | lone =>
    refine forall₂_congr fun as has => forall₂_congr fun bs hbs => ?_
    rw [h as has, h bs hbs]
  | comprehension => exact Iff.rfl

/-! ## Valuations -/

namespace Valuation

variable {δ δ' : Valuation E} {w : Var}

/-- Variables that are given values have them whatever they stood for before. -/
theorem bindAll_of_mem : ∀ {vs : List Var} {as : List (Value E)} {δ : Valuation E} (δ' : Valuation E),
    w ∈ vs → vs.length = as.length → δ.bindAll vs as w = δ'.bindAll vs as w
  | v :: vs, a :: as, δ, δ', hw, hlength => by
    rw [bindAll_cons, bindAll_cons]
    by_cases hmem : w ∈ vs
    · exact bindAll_of_mem _ hmem (Nat.succ.inj hlength)
    · obtain rfl : w = v := by simpa [hmem] using hw
      rw [bindAll_of_not_mem _ _ _ hmem, bindAll_of_not_mem _ _ _ hmem, bind_self, bind_self]

/-- Do two valuations arise from two others by giving the same values to the same variables? -/
structure Rebound (ws : List Var) (δ δ' ζ ζ' : Valuation E) : Prop where
  agree : ∀ u ∈ ws, ζ u = ζ' u
  left : ∀ u ∉ ws, ζ u = δ u
  right : ∀ u ∉ ws, ζ' u = δ' u

theorem rebound_bindAll (δ δ' : Valuation E) {vs : List Var} {as : List (Value E)}
    (h : vs.length = as.length) : Rebound vs δ δ' (δ.bindAll vs as) (δ'.bindAll vs as) where
  agree _ hu := bindAll_of_mem _ hu h
  left _ hu := bindAll_of_not_mem _ _ _ hu
  right _ hu := bindAll_of_not_mem _ _ _ hu

theorem rebound_bind (δ δ' : Valuation E) (w : Var) (a : Value E) :
    Rebound [w] δ δ' (δ.bind w a) (δ'.bind w a) := by
  have h : [w].length = [a].length := rfl
  exact rebound_bindAll δ δ' h

end Valuation

/-! ## Binders -/

/-- Declarations allow a value for each of their variables. -/
theorem length_of_mem_allowedWith : ∀ {ds : List Decl} {δ : Valuation E} {as : List (Value E)},
    as ∈ allowedWith M call ds δ → (ds.flatMap Decl.vars).length = as.length
  | [], _, _, h => by
    rw [allowedWith] at h
    rw [Set.mem_singleton_iff.1 h]
    rfl
  | .mk vs m bound disjoint :: ds, δ, _, h => by
    rw [allowedWith] at h
    obtain ⟨as, bs, has, hbs, rfl⟩ := h
    rw [List.flatMap_cons, List.length_append, List.length_append, ← length_of_mem_allowedWith hbs,
      ← has.length]
    rfl

theorem any_vars_contains {ds : List Decl} (h : v ∉ ds.flatMap Decl.vars) :
    (ds.any fun d => d.vars.contains v) = false := by
  simpa using h

/-- Substitution leaves the declared variables as they are. -/
theorem vars_substituteDecls (ds : List Decl) :
    (Expr.substituteDecls ds v new).flatMap Decl.vars = ds.flatMap Decl.vars := by
  induction ds with
  | nil => rfl
  | cons d ds ih =>
    obtain ⟨vs, m, bound, disjoint⟩ := d
    rw [Expr.substituteDecls, List.flatMap_cons, List.flatMap_cons]
    split
    · rfl
    · rw [ih]
      rfl

/-! ## Replacements -/

/-- A variable with the expression put in its place, or nothing to replace. -/
abbrev Replacement := Option (Var × Expr)

namespace Replacement

/-- The expression after the replacement. -/
def apply (σ : Replacement) (e : Expr) : Expr :=
  match σ with
  | none => e
  | some (v, new) => e.substitute v new

/-- Several expressions after the replacement. -/
def applyList (σ : Replacement) (es : List Expr) : List Expr :=
  match σ with
  | none => es
  | some (v, new) => Expr.substituteList es v new

/-- Declarations after the replacement. -/
def applyDecls (σ : Replacement) (ds : List Decl) : List Decl :=
  match σ with
  | none => ds
  | some (v, new) => Expr.substituteDecls ds v new

/-- What is left to replace under declarations of variables. -/
def hide (σ : Replacement) (ws : List Var) : Replacement := σ.filter fun r => decide (r.1 ∉ ws)

/-- What stands in the place of a variable. -/
def image (σ : Replacement) (u : Var) : Expr := σ.apply (.var u)

variable (σ : Replacement)

@[simp] theorem image_none (u : Var) : image none u = .var u := rfl

theorem image_some (u : Var) : image (some (v, new)) u = if u = v then new else .var u := by
  rw [image, apply, Expr.substitute]

theorem image_hide (ws : List Var) (u : Var) :
    (σ.hide ws).image u = if u ∈ ws then .var u else σ.image u := by
  rcases σ with - | ⟨v, new⟩
  · simp [hide, image, apply]
  by_cases hv : v ∈ ws <;> by_cases hu : u ∈ ws <;>
    simp [hide, image, apply, Expr.substitute, Option.filter, hv, hu]
  -- what remains is that the replaced variable is among those declared and is not
  · rintro rfl
    exact absurd hv hu
  · rintro rfl
    exact absurd hu hv

theorem apply_constant (c : Constant) : σ.apply (.constant c) = .constant c := by
  cases σ <;> simp only [apply, Expr.substitute]

theorem apply_number (n : Int) : σ.apply (.number n) = .number n := by
  cases σ <;> simp only [apply, Expr.substitute]

theorem apply_sig (r : SigRef) : σ.apply (.sig r) = .sig r := by
  cases σ <;> simp only [apply, Expr.substitute]

theorem apply_field (r : FieldRef) : σ.apply (.field r) = .field r := by
  cases σ <;> simp only [apply, Expr.substitute]

theorem apply_unary (op : UnaryOp) (e : Expr) : σ.apply (.unary op e) = .unary op (σ.apply e) := by
  cases σ <;> simp only [apply, Expr.substitute]

theorem apply_binary (op : BinaryOp) (l r : Expr) :
    σ.apply (.binary op l r) = .binary op (σ.apply l) (σ.apply r) := by
  cases σ <;> simp only [apply, Expr.substitute]

theorem apply_list (op : ListOp) (es : List Expr) :
    σ.apply (.list op es) = .list op (σ.applyList es) := by
  cases σ <;> simp only [apply, applyList, Expr.substitute]

theorem apply_ite (c y n : Expr) :
    σ.apply (.ite c y n) = .ite (σ.apply c) (σ.apply y) (σ.apply n) := by
  cases σ <;> simp only [apply, Expr.substitute]

theorem apply_letIn (w : Var) (value body : Expr) :
    σ.apply (.letIn w value body) = .letIn w (σ.apply value) ((σ.hide [w]).apply body) := by
  rcases σ with - | ⟨v, new⟩
  · rfl
  by_cases hw : w = v <;> simp [apply, hide, Expr.substitute, hw, Option.filter, eq_comm]

theorem apply_quantified (q : Quantifier) (ds : List Decl) (body : Expr) :
    σ.apply (.quantified q ds body)
      = .quantified q (σ.applyDecls ds) ((σ.hide (ds.flatMap Decl.vars)).apply body) := by
  rcases σ with - | ⟨v, new⟩
  · rfl
  by_cases hv : v ∈ ds.flatMap Decl.vars
  · have hany : (ds.any fun d => d.vars.contains v) = true := by simpa using hv
    simp only [apply, applyDecls, hide, Option.filter, Expr.substitute, hv, hany, not_true_eq_false,
      decide_false, if_true, Bool.false_eq_true, if_false]
  · simp only [apply, applyDecls, hide, Option.filter, Expr.substitute, hv, any_vars_contains hv,
      not_false_eq_true, decide_true, if_true, Bool.false_eq_true, if_false]

theorem apply_call (f : String) (es : List Expr) (cs : List Relational.Column) :
    σ.apply (.call f es cs) = .call f (σ.applyList es) cs := by
  cases σ <;> simp only [apply, applyList, Expr.substitute]

theorem applyList_cons (e : Expr) (es : List Expr) :
    σ.applyList (e :: es) = σ.apply e :: σ.applyList es := by
  cases σ <;> simp only [apply, applyList, Expr.substituteList]

theorem applyDecls_cons (vs : List Var) (m : Multiplicity) (bound : Expr) (disjoint : Bool)
    (ds : List Decl) : σ.applyDecls (.mk vs m bound disjoint :: ds)
      = .mk vs m (σ.apply bound) disjoint :: (σ.hide vs).applyDecls ds := by
  rcases σ with - | ⟨v, new⟩
  · rfl
  by_cases hv : v ∈ vs <;> simp [apply, applyDecls, hide, Expr.substituteDecls, hv, Option.filter]

theorem vars_applyDecls (ds : List Decl) :
    (σ.applyDecls ds).flatMap Decl.vars = ds.flatMap Decl.vars := by
  cases σ
  · rfl
  · exact vars_substituteDecls ds

end Replacement

/-! ## Meaning -/

/-- Does the expression mean the same under valuations that agree on its free variables? -/
def Expr.Coincides (M : Structure E) (call : Callee E) (e : Expr) : Prop :=
  ∀ δ δ' : Valuation E, (∀ u, e.Free u → δ u = δ' u) → meaningWith M call e δ = meaningWith M call e δ'

theorem coincides_var (u : Var) : (Expr.var u).Coincides M call := fun δ δ' h => by
  rw [meaningWith, meaningWith]
  exact h u (Expr.free_var.2 rfl)

namespace Replacement

/-- Do a replacement and two valuations go together in an expression? What stands in the place of
each free variable means under the one valuation what the variable stands for under the other, and
no free variable of it is declared where it comes to stand. -/
structure Fits (M : Structure E) (call : Callee E) (σ : Replacement) (δ δ' : Valuation E) (e : Expr) :
    Prop where
  coincides : ∀ u, (σ.image u).Coincides M call
  values : ∀ u, e.Free u → meaningWith M call (σ.image u) δ = δ' u
  apart : ∀ u scope, e.Occurs u scope → u ∉ scope → ∀ w ∈ scope, ¬(σ.image u).Free w

variable {σ : Replacement} {δ δ' ζ ζ' : Valuation E} {e e' : Expr} {ws : List Var}

/-- Inside an expression, under declarations of some variables, the two go on together. -/
theorem Fits.inside (h : σ.Fits M call δ δ' e) (hinside : e.Inside ws.reverse e')
    (hζ : Valuation.Rebound ws δ δ' ζ ζ') : (σ.hide ws).Fits M call ζ ζ' e' where
  coincides u := by
    rw [image_hide]
    split
    · exact coincides_var u
    · exact h.coincides u
  values u hfree := by
    rw [image_hide]
    split
    · rename_i hu
      rw [meaningWith, hζ.agree u hu]
    · rename_i hu
      rw [hζ.right u hu, ← h.values u (hinside.free hfree (by simpa using hu))]
      -- none of the declared variables is free in what stands in the place of `u`
      refine h.coincides u ζ δ fun w hw => hζ.left w fun hmem => ?_
      obtain ⟨scope, hoccurs, hscope⟩ := hfree
      exact h.apart u (scope ++ ws.reverse) (hinside u scope hoccurs) (by simp [hscope, hu]) w
        (by simp [hmem]) hw
  apart u scope hoccurs hscope w hw := by
    rw [image_hide]
    split
    · exact Expr.not_free_var hscope hw
    · rename_i hu
      exact h.apart u (scope ++ ws.reverse) (hinside u scope hoccurs) (by simp [hscope, hu]) w
        (by simp [hw])

/-- Inside an expression where nothing is declared on the way the two stay together as they are. -/
theorem Fits.step (h : σ.Fits M call δ δ' e) (hstep : Site.Step [] ⟨[], e⟩ ⟨[], e'⟩) :
    σ.Fits M call δ δ' e' where
  coincides := h.coincides
  values u hfree := h.values u (Expr.Inside.free (Expr.inside_of_step hstep) hfree List.not_mem_nil)
  apart u scope hoccurs := h.apart u scope (by simpa using Expr.inside_of_step hstep u scope hoccurs)

mutual

/-- **A replacement is a change of the values of the variables.** -/
theorem meaning_apply : ∀ {σ : Replacement} {δ δ' : Valuation E} (e : Expr), σ.Fits M call δ δ' e →
    meaningWith M call (σ.apply e) δ = meaningWith M call e δ'
  | _, _, _, .constant _, _ => by simp only [apply_constant, meaningWith]
  | _, _, _, .number _, _ => by simp only [apply_number, meaningWith]
  | _, _, _, .sig _, _ => by simp only [apply_sig, meaningWith]
  | _, _, _, .field _, _ => by simp only [apply_field, meaningWith]
  | _, _, δ', .var u, h => (h.values u (Expr.free_var.2 rfl)).trans (by rw [meaningWith])
  | _, _, _, .unary _ e, h => by
    rw [apply_unary, meaningWith, meaningWith, meaning_apply e (h.step .operand)]
  | _, _, _, .binary _ l r, h => by
    rw [apply_binary, meaningWith, meaningWith, meaning_apply l (h.step .left),
      meaning_apply r (h.step .right)]
  | _, _, _, .list _ es, h => by
    rw [apply_list, meaningWith, meaningWith, meanings_apply es fun e he => h.step (.member he)]
  | _, _, _, .ite c y n, h => by
    rw [apply_ite, meaningWith, meaningWith, meaning_apply c (h.step .condition),
      meaning_apply y (h.step .yes), meaning_apply n (h.step .no)]
  | _, _, _, .letIn w value body, h => by
    rw [apply_letIn, meaningWith, meaningWith, meaning_apply value (h.step .value)]
    exact meaning_apply body (h.inside (Expr.inside_of_step .letBody) (Valuation.rebound_bind _ _ w _))
  | σ, δ, δ', .quantified q ds body, h => by
    -- the new declarations allow the same values, under which the bodies mean the same
    have hallowed := allowed_apply ds h
    have hbody : ∀ as ∈ allowedWith M call ds δ',
        meaningWith M call ((σ.hide (ds.flatMap Decl.vars)).apply body)
            (δ.bindAll (ds.flatMap Decl.vars) as)
          = meaningWith M call body (δ'.bindAll (ds.flatMap Decl.vars) as) := fun as has =>
      meaning_apply body (h.inside Expr.inside_body
        (Valuation.rebound_bindAll δ δ' (length_of_mem_allowedWith has)))
    rw [apply_quantified]
    cases q with
    | comprehension =>
      rw [meaningWith, meaningWith, hallowed, vars_applyDecls]
      congr 1
      ext t
      exact exists_congr fun as => and_congr_right fun has => by rw [hbody as has]
    | _ =>
      rw [meaningWith, meaningWith, hallowed, vars_applyDecls, Value.truth_inj]
      · exact Quantifier.holds_congr fun as has => by rw [hbody as has]
      all_goals simp
  | _, _, _, .call _ args _, h => by
    rw [apply_call, meaningWith, meaningWith, meanings_apply args fun e he => h.step (.argument he)]

theorem meanings_apply : ∀ {σ : Replacement} {δ δ' : Valuation E} (es : List Expr),
    (∀ e ∈ es, σ.Fits M call δ δ' e) →
    meaningsWith M call (σ.applyList es) δ = meaningsWith M call es δ'
  | σ, _, _, [], _ => by
    cases σ <;> simp only [applyList, Expr.substituteList, meaningsWith]
  | _, _, _, e :: es, h => by
    rw [applyList_cons, meaningsWith, meaningsWith, meaning_apply e (h e List.mem_cons_self),
      meanings_apply es fun e' he => h e' (List.mem_cons_of_mem e he)]

/-- The declarations allow the same values. -/
theorem allowed_apply : ∀ {σ : Replacement} {δ δ' : Valuation E} {q : Quantifier} (ds : List Decl)
    {body : Expr}, σ.Fits M call δ δ' (.quantified q ds body) →
    allowedWith M call (σ.applyDecls ds) δ = allowedWith M call ds δ'
  | σ, δ, δ', _, [], _, _ => by
    have hnil : σ.applyDecls [] = [] := by cases σ <;> simp only [applyDecls, Expr.substituteDecls]
    rw [hnil, allowedWith, allowedWith]
  | σ, δ, δ', q, .mk vs m bound disjoint :: ds, body, h => by
    have hfirst : Site.Step [] ⟨[], .quantified q (.mk vs m bound disjoint :: ds) body⟩ ⟨[], bound⟩ :=
      .bound (List.nil_append _).symm
    have hbound := meaning_apply bound (h.step hfirst)
    rw [applyDecls_cons, allowedWith, allowedWith, hbound]
    -- the declarations that follow are taken under the values of the first, the same on both sides
    ext cs
    refine exists_congr fun as => exists_congr fun bs => and_congr_right fun has => ?_
    have hrest : allowedWith M call ((σ.hide vs).applyDecls ds) (δ.bindAll vs as)
        = allowedWith M call ds (δ'.bindAll vs as) :=
      allowed_apply ds (h.inside Expr.inside_decls (Valuation.rebound_bindAll δ δ' has.length))
    rw [hrest]

end

end Replacement

/-- **Only the values of the free variables matter.** -/
theorem coincides (e : Expr) : e.Coincides M call := fun δ δ' h =>
  Replacement.meaning_apply (σ := none) e {
    coincides := coincides_var
    values := fun u hu => by rw [Replacement.image_none, meaningWith, h u hu]
    apart := fun _ _ _ hscope _ hw => Expr.not_free_var hscope hw }

/-- **Substitution is a change of the value of the variable**, where nothing is captured. -/
theorem meaning_substitute {e : Expr} (h : ¬e.Captures v new) (δ : Valuation E) :
    meaningWith M call (e.substitute v new) δ
      = meaningWith M call e (δ.bind v (meaningWith M call new δ)) :=
  Replacement.meaning_apply (σ := some (v, new)) e {
    coincides := fun u => coincides _
    values := fun u _ => by
      rw [Replacement.image_some]
      split
      · rename_i hu
        rw [hu, Valuation.bind_self]
      · rename_i hu
        rw [meaningWith, Valuation.bind_of_ne _ _ hu]
    apart := fun u scope hoccurs hscope w hw => by
      rw [Replacement.image_some]
      split
      · rename_i hu
        exact fun hfree => h ⟨scope, hu ▸ hoccurs, hu ▸ hscope, w, hw, hfree⟩
      · exact Expr.not_free_var hscope hw }

/-! ## Signatures in the place of a variable -/

/-- What a signature means where it is mentioned. -/
def Structure.owner (M : Structure E) (r : SigRef) : Set (Tuple E) :=
  if r.isInt then {t | ∃ e ∈ M.integers, t = [.element e]} else M.signature r

theorem meaningWith_sig {r : SigRef} (δ : Valuation E) :
    meaningWith M call (.sig r) δ = .set (M.owner r) := by
  rw [meaningWith, Structure.owner]
  split <;> rfl

/-- **With a signature in the place of a variable an expression means what it means where the
variable has the value of the signature.** -/
theorem meaningWithin_substitute_sig {r : SigRef} (depth : Nat) (e : Expr) (δ : Valuation E) :
    meaningWithin M depth (e.substitute v (.sig r)) δ
      = meaningWithin M depth e (δ.bind v (.set (M.owner r))) := by
  have hcapture : ¬e.Captures v (.sig r) := fun ⟨_, _, _, w, _, hfree⟩ => Expr.not_free_sig hfree
  cases depth <;> rw [meaningWithin, meaning_substitute hcapture, meaningWith_sig]

end RelSmt.Relational
