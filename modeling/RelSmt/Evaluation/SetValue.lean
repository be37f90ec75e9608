import RelSmt.Term.Build

/-!
# Values in normal form

Evaluation ends in a literal, a tuple of literals, or a set in normal form: the empty set, a
singleton, or a union of such sets. A set in normal form is read as the list of its elements, in the
order in which they stand and without repeats.
-/

namespace RelSmt.Term

/-- Is the term a literal? -/
def isLiteral : Term → Bool
  | .literal _ => true
  | _ => false

/-- Is the term an element of a declared sort? -/
def isElement : Term → Bool
  | .literal (.element _ _) => true
  | _ => false

/-- Is the term a literal, a tuple of literals or a set in normal form? -/
def isValue : Term → Bool
  | .literal _ => true
  | .emptySet _ => true
  | .nary .mkTuple ts => ts.all isLiteral
  | .unary .singleton t => t.isValue
  | .binary (.set .union) l r => l.isValue && r.isValue
  | _ => false

/-- Every element that a set in normal form writes out, from left to right. -/
def listed : Term → Checked (List Term)
  | .emptySet _ => .ok []
  | .unary .singleton t => .ok [t]
  | .binary (.set .union) l r => do return (← l.listed) ++ (← r.listed)
  | t => .error (.malformedModel (.notSet t))

/-- The elements of a set in normal form, by first occurrence. -/
def elements (t : Term) : Checked (List Term) := do return (← t.listed).eraseDups

/-- The components of a tuple of atoms. -/
def atoms (t : Term) : Checked (List Term) :=
  match t with
  | .nary .mkTuple ts =>
    if ts.all isElement then .ok ts else .error (.malformedModel (.notAtomTuple t))
  | _ => .error (.malformedModel (.notAtomTuple t))

/-- The set of some elements in normal form: singletons, united from the left. -/
def ofElements (sort : SmtSort) (ts : List Term) : Checked Term :=
  match ts with
  | [] => emptyOf sort
  | t :: ts => do ts.foldlM (fun set t => do set.union (← t.single)) (← t.single)

/-- Do two values denote the same? Sets are compared by their elements. -/
def sameValue (s t : Term) : Checked Bool :=
  if s.sort.isSet then do
    let l ← s.elements
    let r ← t.elements
    return l.all r.contains && r.all l.contains
  else .ok (s == t)

end RelSmt.Term
