import Mathlib.Logic.Relation
import RelSmt.Relational.Specification

/-!
# Sites of a specification

A site is an expression with the variables declared around it, the innermost first. Lowering an
expression goes on to those inside it, and where it meets a call, to the body of the function,
around which the parameters alone are declared. The sites that it comes to on its way are those
*reached*.

An occurrence of a variable is *unshadowed* where no other variable of its name has been declared
closer to it. There the name and the variable lead to the same declaration.
-/

namespace RelSmt.Relational

/-- An expression and the variables declared around it, the innermost first. -/
structure Site where
  scope : List Var
  expr : Expr

/-- The scope behind some declarations. -/
def declaredBy (ds : List Decl) (scope : List Var) : List Var :=
  (ds.flatMap Decl.vars).reverse ++ scope

@[simp] theorem declaredBy_nil (scope : List Var) : declaredBy [] scope = scope := rfl

@[simp] theorem declaredBy_cons (d : Decl) (ds : List Decl) (scope : List Var) :
    declaredBy (d :: ds) scope = declaredBy ds (d.vars.reverse ++ scope) := by
  simp [declaredBy]

namespace Site

/-- One step into an expression, among functions `fs`. Each declaration is in the scope of those
before it, and a body sees its parameters and nothing of what is around the call. -/
inductive Step (fs : List Function) : Site → Site → Prop where
  | operand {scope op e} : Step fs ⟨scope, .unary op e⟩ ⟨scope, e⟩
  | left {scope op l r} : Step fs ⟨scope, .binary op l r⟩ ⟨scope, l⟩
  | right {scope op l r} : Step fs ⟨scope, .binary op l r⟩ ⟨scope, r⟩
  | member {scope op es e} (h : e ∈ es) : Step fs ⟨scope, .list op es⟩ ⟨scope, e⟩
  | condition {scope c y n} : Step fs ⟨scope, .ite c y n⟩ ⟨scope, c⟩
  | yes {scope c y n} : Step fs ⟨scope, .ite c y n⟩ ⟨scope, y⟩
  | no {scope c y n} : Step fs ⟨scope, .ite c y n⟩ ⟨scope, n⟩
  | value {scope v value body} : Step fs ⟨scope, .letIn v value body⟩ ⟨scope, value⟩
  | letBody {scope v value body} : Step fs ⟨scope, .letIn v value body⟩ ⟨v :: scope, body⟩
  | bound {scope q ds body before d after} (h : ds = before ++ d :: after) :
      Step fs ⟨scope, .quantified q ds body⟩ ⟨declaredBy before scope, d.bound⟩
  | body {scope q ds body} : Step fs ⟨scope, .quantified q ds body⟩ ⟨declaredBy ds scope, body⟩
  | argument {scope name args columns e} (h : e ∈ args) :
      Step fs ⟨scope, .call name args columns⟩ ⟨scope, e⟩
  | callee {scope name args columns f body}
      (hf : fs.reverse.find? (fun f => f.name == name) = some f)
      (hbody : f.body = some body) :
      Step fs ⟨scope, .call name args columns⟩ ⟨f.params.reverse, body⟩

variable {fs : List Function} {P : List Var → Var → Prop} {scope : List Var}

/-- Does lowering the one come to the other? -/
def Reaches (fs : List Function) : Site → Site → Prop := Relation.ReflTransGen (Step fs)

/-- Does an occurrence of a variable that is reached have this property, with the scope around
it? -/
def Occurrences (fs : List Function) (P : List Var → Var → Prop) (site : Site) : Prop :=
  ∀ scope v, Reaches fs site ⟨scope, .var v⟩ → P scope v

theorem Occurrences.step {a b : Site} (h : a.Occurrences fs P)
    (hstep : Step fs a b) : b.Occurrences fs P :=
  fun scope v hreach => h scope v (Relation.ReflTransGen.head hstep hreach)

theorem Occurrences.here {v : Var}
    (h : Occurrences fs P ⟨scope, .var v⟩) : P scope v :=
  h scope v Relation.ReflTransGen.refl

/-- A set of sites that no step leaves holds whatever is reached from it. -/
theorem Reaches.mem_of_closed {S : Site → Prop} {a b : Site} (h : Reaches fs a b) (ha : S a)
    (hclosed : ∀ a b, S a → Step fs a b → S b) : S b := by
  induction h with
  | refl => exact ha
  | tail _ hstep ih => exact hclosed _ _ ih hstep

theorem occurrences_of_closed {S : Site → Prop} {site : Site}
    (hsite : S site) (hclosed : ∀ a b, S a → Step fs a b → S b)
    (hP : ∀ scope v, S ⟨scope, .var v⟩ → P scope v) : site.Occurrences fs P :=
  fun scope v hreach => hP scope v (hreach.mem_of_closed hsite hclosed)

end Site

/-! ## Shadowing -/

/-- Is the innermost variable of this name the very variable, if there is any? -/
def Unshadowed (scope : List Var) (v : Var) : Prop :=
  ∀ w, scope.find? (fun w => w.name == v.name) = some w → w = v

/-- Where a variable is unshadowed its name leads to the declaration of the variable itself. -/
theorem Unshadowed.findIdx?_eq {v : Var} : ∀ {scope : List Var}, Unshadowed scope v →
    scope.findIdx? (fun w => w.name == v.name) = scope.findIdx? (fun w => decide (w = v))
  | [], _ => rfl
  | w :: scope, h => by
    by_cases hname : w.name = v.name
    · have hw : w = v := h w (by simp [hname])
      simp [List.findIdx?_cons, hw]
    · have hw : w ≠ v := fun he => hname (congrArg Var.name he)
      have hrest : Unshadowed scope v := fun u hu => h u (by simpa [hname] using hu)
      simp [List.findIdx?_cons, hname, hw, hrest.findIdx?_eq]

end RelSmt.Relational
