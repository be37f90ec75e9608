import RelSmt.Lowering.Session

/-!
# Cardinalities and restrictions

How many elements a set has, said with quantifiers over elements, and relations cut down to those
tuples that start or end in a set.
-/

namespace RelSmt.Lowering

/-- The set has an element. -/
def nonEmpty (set : Term) : Checked Term := do (← set.isEmpty).neg

/-- The set has exactly one element: it is the singleton of some tuple. -/
def exactlyOne (set : Term) : Lower Term := do
  match set.sort.element? with
  | none => throw (.sortMismatch (.cardinality set))
  | some element =>
    let x ← freshVariable "x" element
    Term.ex [x] (← set.eqTo (← x.term.single))

/-- The set has at most one element. -/
def atMostOne (set : Term) : Lower Term := do
  let empty ← set.isEmpty
  empty.disj (← exactlyOne set)

/-- The set of all tuples with the given columns. -/
def fullRelation (columns : List SmtSort) : Checked Term := do
  Term.fullOf (← SmtSort.relationOf columns)

/-- The first column of a relation. The other columns are joined away one by one, the last first. -/
def firstColumn (relation : Term) : Checked Term :=
  relation.sort.columns.tail.reverse.foldlM (fun r c => do r.join (← fullRelation [c])) relation

/-- The tuples of a relation that start in a set. -/
def restrictDomain (set relation : Term) : Checked Term :=
  match relation.sort.columns with
  | _ :: c :: cs => do relation.inter (← set.product (← fullRelation (c :: cs)))
  | _ => relation.inter set

/-- The tuples of a relation that end in a set. -/
def restrictRange (relation set : Term) : Checked Term :=
  match relation.sort.columns with
  | c :: d :: cs => do
    relation.inter (← (← fullRelation (c :: d :: cs).dropLast).product set)
  | _ => relation.inter set

/-- A relation with the tuples of another put in the place of those that start alike. -/
def overrideBy (left right : Term) : Checked Term := do
  let overridden ← restrictDomain (← firstColumn right) left
  (← left.diff overridden).union right

/-- Some pairs of a list, each element with every later one. -/
def pairs {α : Type} : List α → List (α × α)
  | [] => []
  | a :: as => as.map (a, ·) ++ pairs as

/-- Two sets have no element in common. -/
def disjointSets (a b : Term) : Checked Term := do
  (← a.inter b).eqTo (← Term.emptyOf a.sort)

end RelSmt.Lowering
