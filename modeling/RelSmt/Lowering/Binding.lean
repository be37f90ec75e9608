import RelSmt.Lowering.Relation
import RelSmt.Term.Substitution

/-!
# Binders

A declared variable becomes a fresh variable of terms. One that takes single elements of its bound
ranges over tuples and is seen as the singleton of its tuple; one that takes several ranges over sets
and is seen as it is. Either way a constraint keeps it inside its bound, and the constraints of all
variables guard the body.
-/

namespace RelSmt.Lowering

/-- Where the declarations of a binder have led so far. -/
structure Bound where
  scope : Environment
  vars : List Variable := []
  constraints : List Term := []

/-- The sort of the variable that stands for a declared one. -/
def boundSort (m : Relational.Multiplicity) (set element : SmtSort) : SmtSort :=
  if m = .one then element else set

/-- What keeps a variable inside its bound and to its multiplicity. -/
def boundConstraint (m : Relational.Multiplicity) (v bound : Term) : Lower Term := do
  match m with
  | .one => v.isIn bound
  | .some => do (← v.within bound).conj (← nonEmpty v)
  | .lone => do
    let within ← v.within bound
    within.conj (← atMostOne v)
  | _ => v.within bound

/-- Binds one declared variable and returns how the body sees it. -/
def bindVar (m : Relational.Multiplicity) (bound : Term) (element : SmtSort)
    (b : Bound) (v : Relational.Var) : Lower (Bound × Term) := do
  let name ← freshName v.name
  if m = .no then throw (.unsupportedOperator (.emptyDeclaration v.name))
  let sort := boundSort m bound.sort element
  let constraint ← boundConstraint m (Variable.plain name sort).term bound
  let x ← Variable.limited name sort (some constraint)
  let image ← if m = .one then x.term.single else pure x.term
  return ({
    scope := b.scope.put v.name image
    vars := b.vars ++ [x]
    constraints := b.constraints ++ [constraint] }, image)

/-- Binds declared variables one by one. -/
def bindVars (m : Relational.Multiplicity) (bound : Term) (element : SmtSort) (b : Bound) :
    List Relational.Var → Lower (Bound × List Term)
  | [] => return (b, [])
  | v :: vs => do
    let (b, image) ← bindVar m bound element b v
    let (b, images) ← bindVars m bound element b vs
    return (b, image :: images)

/-- Binds the variables of one declaration, whose bound is lowered already. -/
def bindDecl (vars : List Relational.Var) (m : Relational.Multiplicity) (bound : Term)
    (disjoint : Bool) (b : Bound) : Lower Bound := do
  match bound.sort.element? with
  | none => throw (.sortMismatch (.bound bound))
  | some element =>
    let (b, images) ← bindVars m bound element b vars
    if disjoint then
      let apart ← (pairs images).mapM fun p => disjointSets p.1 p.2
      return { b with constraints := b.constraints ++ apart }
    else return b

/-- A copy of a formula with variables renamed to fresh ones of the same sorts. -/
def freshCopy (formula : Term) : List Variable → Lower (List Variable × Term)
  | [] => return ([], formula)
  | v :: vs => do
    let copy ← freshVariable v.name v.sort
    let formula ← formula.substitute v copy.term
    let (copies, formula) ← freshCopy formula vs
    return (copy :: copies, formula)

/-- Both lists of variables have the same values. -/
def sameValues (vs ws : List Variable) : Checked Term := do
  Term.allOf (← (vs.zip ws).mapM fun p => p.1.term.eqTo p.2.term)

/-- Closes a quantified formula over what its declarations have bound. `one` and `lone` count
assignments to all the variables together. -/
def quantify (q : Relational.Quantifier) (b : Bound) (body : Term) : Lower Term := do
  let guard ← Term.allOf b.constraints
  let vs := b.vars
  match q with
  | .all => Term.all vs (← guard.imp body)
  | .some => Term.ex vs (← guard.conj body)
  | .no => do (← Term.ex vs (← guard.conj body)).neg
  | .one => do
    let witness ← guard.conj body
    let (copies, copy) ← freshCopy witness vs
    let unique ← Term.all copies (← copy.imp (← sameValues vs copies))
    Term.ex vs (← witness.conj unique)
  | .lone => do
    let witness ← guard.conj body
    let (copies, copy) ← freshCopy witness vs
    let same ← sameValues vs copies
    Term.all (vs ++ copies) (← (← witness.conj copy).imp same)
  | .comprehension => throw (.unsupportedOperator .comprehensionFormula)

/-- The tuple of all variables, as a set that holds it alone. -/
def tupleOf : List Variable → Checked Term
  | [] => .error (.violation .noColumns)
  | v :: vs => do
    vs.foldlM (fun t w => do t.product (← w.term.single)) (← v.term.single)

/-- Lowers a comprehension to a fresh relation over the free variables of its definition, and asserts
that a tuple is in the relation exactly when it satisfies the definition. -/
def comprehend (columns : List Relational.Column) (b : Bound) (body : Term) : Lower Term := do
  let definition ← (← Term.allOf b.constraints).conj body
  let outer := definition.freeVariables.filter fun v => !b.vars.contains v
  let name ← freshName "comprehension"
  let sort ← SmtSort.relationOf (columns.map columnSort)
  let relation : FunctionSymbol := ⟨name, outer.map Variable.sort, sort⟩
  declare relation
  let application ← relation.apply (outer.map Variable.term)
  let tuple ← tupleOf b.vars
  let holds ← (← tuple.within application).eqTo definition
  assert s!"{name} definition" (← Term.all (outer ++ b.vars) holds)
  return application

end RelSmt.Lowering
