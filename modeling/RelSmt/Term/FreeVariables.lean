import RelSmt.Term.Basic

/-!
# Free variables

A binder binds by name alone, while a variable is known by name and sort. Free variables are listed
by first occurrence, without repeats. Function symbols are never variables, and the constraint of a
variable is not part of the term that mentions the variable.
-/

namespace RelSmt.Term

/-- Does one of the binders bind this name? -/
def bindsName (vs : List Variable) (name : String) : Bool := vs.any fun v => v.name == name

mutual

/-- Every free occurrence of a variable, from left to right. -/
def freeOccurrences : Term → List Variable
  | .literal _ => []
  | .variable v => [v]
  | .symbol _ => []
  | .emptySet _ => []
  | .fullSet _ => []
  | .unary _ t => t.freeOccurrences
  | .binary _ l r => l.freeOccurrences ++ r.freeOccurrences
  | .ite c y n => c.freeOccurrences ++ y.freeOccurrences ++ n.freeOccurrences
  | .nary _ ts => freeOccurrencesList ts
  | .quantified _ vs body => body.freeOccurrences.filter fun v => !bindsName vs v.name
  | .call _ ts => freeOccurrencesList ts

/-- Every free occurrence in several terms. -/
def freeOccurrencesList : List Term → List Variable
  | [] => []
  | t :: ts => t.freeOccurrences ++ freeOccurrencesList ts

end

theorem freeOccurrencesList_eq_flatMap (ts : List Term) :
    freeOccurrencesList ts = ts.flatMap freeOccurrences := by
  induction ts with
  | nil => rfl
  | cons t ts ih => simp [freeOccurrencesList, ih]

/-- The free variables, by first occurrence. -/
def freeVariables (t : Term) : List Variable := t.freeOccurrences.eraseDups

/-- Is the variable free in the term? -/
def occursFree (t : Term) (v : Variable) : Bool := t.freeOccurrences.any (· == v)

/-! ## Size

What the free variables of a term weigh together is at most what the term weighs, constraints
included. This bounds every walk from variables to the variables of their constraints. -/

/-- The total size of some variables, each with its constraint. -/
noncomputable def weight (vs : List Variable) : Nat := vs.foldr (fun v n => sizeOf v + n) 0

theorem weight_append (vs ws : List Variable) : weight (vs ++ ws) = weight vs + weight ws := by
  induction vs with
  | nil => simp [weight]
  | cons v vs ih => simp only [weight, List.cons_append, List.foldr_cons] at *; omega

theorem weight_le_of_sublist {vs ws : List Variable} (h : vs.Sublist ws) :
    weight vs ≤ weight ws := by
  induction h with
  | slnil => exact Nat.le_refl _
  | cons a _ ih => simp only [weight, List.foldr_cons] at *; omega
  | cons_cons a _ ih => simp only [weight, List.foldr_cons] at *; omega

mutual

theorem weight_freeOccurrences_le : ∀ t : Term, weight t.freeOccurrences ≤ sizeOf t
  | .literal _ => by simp [freeOccurrences, weight]
  | .variable v => by simp [freeOccurrences, weight]
  | .symbol _ => by simp [freeOccurrences, weight]
  | .emptySet _ => by simp [freeOccurrences, weight]
  | .fullSet _ => by simp [freeOccurrences, weight]
  | .unary _ t => by
    have := weight_freeOccurrences_le t
    simp only [freeOccurrences, Term.unary.sizeOf_spec]; omega
  | .binary _ l r => by
    have := weight_freeOccurrences_le l
    have := weight_freeOccurrences_le r
    simp only [freeOccurrences, weight_append, Term.binary.sizeOf_spec]; omega
  | .ite c y n => by
    have := weight_freeOccurrences_le c
    have := weight_freeOccurrences_le y
    have := weight_freeOccurrences_le n
    simp only [freeOccurrences, weight_append, Term.ite.sizeOf_spec]; omega
  | .nary _ ts => by
    have := weight_freeOccurrencesList_le ts
    simp only [freeOccurrences, Term.nary.sizeOf_spec]; omega
  | .quantified _ vs body => by
    have := weight_freeOccurrences_le body
    have := weight_le_of_sublist (List.filter_sublist (p := fun v => !bindsName vs v.name)
      (l := body.freeOccurrences))
    simp only [freeOccurrences, Term.quantified.sizeOf_spec]; omega
  | .call _ ts => by
    have := weight_freeOccurrencesList_le ts
    simp only [freeOccurrences, Term.call.sizeOf_spec]; omega

theorem weight_freeOccurrencesList_le : ∀ ts : List Term,
    weight (freeOccurrencesList ts) ≤ sizeOf ts
  | [] => by simp [freeOccurrencesList, weight]
  | t :: ts => by
    have := weight_freeOccurrences_le t
    have := weight_freeOccurrencesList_le ts
    simp only [freeOccurrencesList, weight_append, List.cons.sizeOf_spec]; omega

end

theorem weight_constraint_lt {v : Variable} {c : Term} (h : v.constraint = some c) :
    weight c.freeOccurrences < sizeOf v := by
  cases v with
  | mk n s k =>
    have hk : k = some c := h
    subst hk
    have := weight_freeOccurrences_le c
    simp only [Variable.mk.sizeOf_spec, Option.some.sizeOf_spec]; omega

end RelSmt.Term
