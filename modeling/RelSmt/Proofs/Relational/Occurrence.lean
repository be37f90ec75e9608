import RelSmt.Proofs.Relational.Site

/-!
# Occurrences of variables

A variable occurs in an expression under the variables that are declared around the occurrence. It
is free there if it is not among them. An expression put in the place of a free occurrence comes to
stand under these declarations, and where one of them declares a free variable of it, that variable
is captured.
-/

namespace RelSmt.Relational

theorem declaredBy_append (ds : List Decl) (scope around : List Var) :
    declaredBy ds (scope ++ around) = declaredBy ds scope ++ around :=
  (List.append_assoc _ _ _).symm

namespace Site

variable {s s' : List Var} {e e' : Expr}

/-- What is around an expression stays around what is inside it. -/
theorem Step.extend (h : Step [] ⟨s, e⟩ ⟨s', e'⟩) (around : List Var) :
    Step [] ⟨s ++ around, e⟩ ⟨s' ++ around, e'⟩ := by
  cases h with
  | operand => exact .operand
  | left => exact .left
  | right => exact .right
  | member h => exact .member h
  | condition => exact .condition
  | yes => exact .yes
  | no => exact .no
  | value => exact .value
  | letBody => exact .letBody
  | bound h =>
    rw [← declaredBy_append]
    exact .bound h
  | body =>
    rw [← declaredBy_append]
    exact .body
  | argument h => exact .argument h
  | callee hf _ => cases hf

theorem Reaches.extend {a b : Site} (h : Reaches [] a b) (around : List Var) :
    Reaches [] ⟨a.scope ++ around, a.expr⟩ ⟨b.scope ++ around, b.expr⟩ := by
  induction h with
  | refl => exact .refl
  | tail _ hstep ih => exact ih.tail (hstep.extend around)

end Site

namespace Expr

variable {e e' new : Expr} {u v w : Var} {scope ws : List Var}

/-- Does the variable occur in the expression under these declarations, the innermost first? -/
def Occurs (e : Expr) (v : Var) (scope : List Var) : Prop :=
  Site.Reaches [] ⟨[], e⟩ ⟨scope, .var v⟩

/-- Does the variable occur where no declaration of it is around? -/
def Free (e : Expr) (v : Var) : Prop := ∃ scope, e.Occurs v scope ∧ v ∉ scope

/-- Is there a free occurrence of the variable under a declaration of some free variable of `new`?
-/
def Captures (e : Expr) (v : Var) (new : Expr) : Prop :=
  ∃ scope, e.Occurs v scope ∧ v ∉ scope ∧ ∃ w ∈ scope, new.Free w

theorem occurs_var : (Expr.var u).Occurs v scope ↔ v = u ∧ scope = [] := by
  constructor
  · intro h
    rcases Relation.ReflTransGen.cases_head h with heq | ⟨_, hstep, _⟩
    · cases heq
      exact ⟨rfl, rfl⟩
    · cases hstep
  · rintro ⟨rfl, rfl⟩
    exact .refl

@[simp] theorem free_var : (Expr.var u).Free v ↔ v = u := by
  constructor
  · rintro ⟨scope, hoccurs, _⟩
    exact (occurs_var.1 hoccurs).1
  · rintro rfl
    exact ⟨[], occurs_var.2 ⟨rfl, rfl⟩, by simp⟩

/-- A variable that a scope lacks is none of those that the scope declares. -/
theorem not_free_var (hu : u ∉ scope) (hw : w ∈ scope) : ¬(Expr.var u).Free w := fun hfree =>
  hu (free_var.1 hfree ▸ hw)

/-- A signature has no variables. -/
theorem not_free_sig {r : SigRef} : ¬(Expr.sig r).Free v := by
  rintro ⟨scope, hoccurs, _⟩
  rcases Relation.ReflTransGen.cases_head hoccurs with heq | ⟨_, hstep, _⟩
  · cases heq
  · cases hstep

/-- Does one expression stand inside another one, with these declarations between them? -/
def Inside (e : Expr) (ws : List Var) (e' : Expr) : Prop :=
  ∀ v scope, e'.Occurs v scope → e.Occurs v (scope ++ ws)

theorem inside_of_step (h : Site.Step [] ⟨[], e⟩ ⟨ws, e'⟩) : e.Inside ws e' := fun _ _ hoccurs =>
  .head h (hoccurs.extend ws)

theorem inside_body {q : Quantifier} {ds : List Decl} {body : Expr} :
    (Expr.quantified q ds body).Inside (ds.flatMap Decl.vars).reverse body := by
  have h : Site.Step [] ⟨[], .quantified q ds body⟩ ⟨declaredBy ds [], body⟩ := .body
  rw [declaredBy, List.append_nil] at h
  exact inside_of_step h

/-- Behind its first declaration a quantified expression goes on like the one without it. -/
theorem inside_decls {q : Quantifier} {d : Decl} {ds : List Decl} {body : Expr} :
    (Expr.quantified q (d :: ds) body).Inside d.vars.reverse (.quantified q ds body) := by
  have hscope (ds : List Decl) : declaredBy (d :: ds) [] = declaredBy ds [] ++ d.vars.reverse := by
    rw [declaredBy_cons, ← declaredBy_append, List.append_nil, List.nil_append]
  intro v scope h
  rcases Relation.ReflTransGen.cases_head h with heq | ⟨_, hstep, hrest⟩
  · cases heq
  have hrest := Site.Reaches.extend hrest d.vars.reverse
  cases hstep with
  | @bound _ _ _ _ before _ _ hsplit =>
    have hbound : Site.Step [] ⟨[], .quantified q (d :: ds) body⟩ ⟨declaredBy (d :: before) [], _⟩ :=
      .bound (congrArg (d :: ·) hsplit)
    rw [hscope] at hbound
    exact .head hbound hrest
  | body =>
    refine .head .body ?_
    rwa [hscope]

theorem Inside.free (h : e.Inside ws e') (hv : e'.Free v) (hws : v ∉ ws) : e.Free v := by
  obtain ⟨scope, hoccurs, hscope⟩ := hv
  exact ⟨scope ++ ws, h v scope hoccurs, by simp [hscope, hws]⟩

end Expr

end RelSmt.Relational
