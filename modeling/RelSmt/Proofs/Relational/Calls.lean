import Mathlib.Logic.Relation
import RelSmt.Relational.Specification

/-!
# Calls between functions

A function calls those that its body names, in the arguments of other calls as well. It is
*recursive* where calls lead from it back to itself, and it *leads to a cycle* where calls lead from
it to a recursive function. A function that leads to a cycle calls one that does, so whoever follows
the calls of a body never comes to an end there.
-/

namespace RelSmt.Relational

mutual

/-- The names that an expression calls. -/
def Expr.calls : Expr → List String
  | .constant _ => []
  | .number _ => []
  | .sig _ => []
  | .field _ => []
  | .var _ => []
  | .unary _ e => e.calls
  | .binary _ l r => l.calls ++ r.calls
  | .list _ es => Expr.callsAll es
  | .ite c y n => c.calls ++ y.calls ++ n.calls
  | .letIn _ value body => value.calls ++ body.calls
  | .quantified _ ds body => Decl.callsAll ds ++ body.calls
  | .call name args _ => name :: Expr.callsAll args

/-- The names that some expressions call. -/
def Expr.callsAll : List Expr → List String
  | [] => []
  | e :: es => e.calls ++ Expr.callsAll es

/-- The names that the bounds of some declarations call. -/
def Decl.callsAll : List Decl → List String
  | [] => []
  | .mk _ _ bound _ :: ds => bound.calls ++ Decl.callsAll ds

end

/-- The body that a call of a name is replaced by. Of several functions of a name the last one
counts. -/
def bodyOf (fs : List Function) (name : String) : Option Expr :=
  (fs.reverse.find? fun f => f.name == name).bind Function.body

/-- Does the body of the one function call the other? -/
def Calls (fs : List Function) (f g : String) : Prop :=
  ∃ body, bodyOf fs f = some body ∧ g ∈ body.calls

/-- Do calls lead from the function back to itself? -/
def Recursive (fs : List Function) (f : String) : Prop := Relation.TransGen (Calls fs) f f

/-- Do calls lead from the function to a recursive one? -/
def LeadsToCycle (fs : List Function) (f : String) : Prop :=
  ∃ g, Relation.ReflTransGen (Calls fs) f g ∧ Recursive fs g

variable {fs : List Function} {f : String}

theorem LeadsToCycle.exists_calls (h : LeadsToCycle fs f) : ∃ g, Calls fs f g ∧ LeadsToCycle fs g := by
  obtain ⟨g, hreach, hcycle⟩ := h
  rcases hreach.cases_head with rfl | ⟨g', hcall, hreach⟩
  · -- once around the cycle
    obtain ⟨g, hcall, hback⟩ := Relation.TransGen.head'_iff.1 hcycle
    exact ⟨g, hcall, f, hback, hcycle⟩
  · exact ⟨g', hcall, g, hreach, hcycle⟩

/-- A name without a body leads nowhere. -/
theorem not_leadsToCycle_of_bodyOf (h : bodyOf fs f = none) : ¬LeadsToCycle fs f := by
  rintro hleads
  obtain ⟨g, ⟨body, hbody, -⟩, -⟩ := hleads.exists_calls
  rw [h] at hbody
  cases hbody

/-- A function leads to a cycle only through what its body calls. -/
theorem not_leadsToCycle_of_body {body : Expr} (hbody : bodyOf fs f = some body)
    (h : ∀ g ∈ body.calls, ¬LeadsToCycle fs g) : ¬LeadsToCycle fs f := by
  rintro hleads
  obtain ⟨g, ⟨body', hbody', hg⟩, hleads⟩ := hleads.exists_calls
  obtain rfl := Option.some.inj (hbody.symm.trans hbody')
  exact h g hg hleads

end RelSmt.Relational
