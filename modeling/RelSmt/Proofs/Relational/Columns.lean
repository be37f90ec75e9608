import RelSmt.Proofs.Relational.Site

/-!
# Columns at the sites of a specification

The columns of an expression are read off its structure and nothing checks them. They say what they
should where every variable has the columns of what it is bound to, every call those of the body it
is replaced by, and lists are made of formulas. This is asked of each site that lowering comes to
(`Site.WellColumned`).

A variable is looked up by its name, so what has to agree with its columns is the innermost variable
of its name. Where occurrences are unshadowed that is the variable itself.
-/

namespace RelSmt.Relational

/-- A multiplicity marker leaves the columns of a bound as they are. -/
theorem Expr.columns_splitMarker (e : Expr) : e.splitMarker.2.columns = e.columns := by
  cases e with
  | unary op e => cases op <;> rfl
  | _ => rfl

/-- Does the innermost variable of this name, if there is any, have the columns of this one? -/
def SameColumns (scope : List Var) (v : Var) : Prop :=
  ∀ w, scope.find? (fun w => w.name == v.name) = some w → w.columns = v.columns

namespace Site

/-- Do the columns at the site itself agree with those of what stands there? -/
def Agrees (fs : List Function) (a : Site) : Prop :=
  match a.expr with
  | .sig s => s.isInt = true → s.column = .int
  | .var v => SameColumns a.scope v
  | .list _ es => ∀ e ∈ es, e.columns = []
  | .letIn v value _ => v.columns = value.columns
  | .quantified _ ds _ => ∀ d ∈ ds, ∀ v ∈ d.vars, v.columns = d.bound.columns
  | .call name args columns =>
    match fs.reverse.find? fun f => f.name == name with
    -- where no function has the name it calls an operator on integers
    | none => columns = [.int]
    | some f => (∀ body ∈ f.body, columns = body.columns) ∧
        ∀ p ∈ f.params.zip args, p.1.columns = p.2.columns
  | _ => True

/-- Do the columns agree at every site that lowering comes to from here? -/
def WellColumned (fs : List Function) (a : Site) : Prop := ∀ b, Reaches fs a b → b.Agrees fs

variable {fs : List Function} {a b : Site}

theorem WellColumned.here (h : a.WellColumned fs) : a.Agrees fs :=
  h a Relation.ReflTransGen.refl

theorem WellColumned.step (h : a.WellColumned fs) (hstep : Step fs a b) : b.WellColumned fs :=
  fun c hreach => h c (Relation.ReflTransGen.head hstep hreach)

/-- Columns agree everywhere in a set of sites that no step leaves, if they do at each of them. -/
theorem wellColumned_of_closed {S : Site → Prop} (ha : S a)
    (hclosed : ∀ a b, S a → Step fs a b → S b) (hS : ∀ a, S a → a.Agrees fs) :
    a.WellColumned fs :=
  fun b hreach => hS b (hreach.mem_of_closed ha hclosed)

end Site

end RelSmt.Relational
