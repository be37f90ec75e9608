import RelSmt.Lowering.Relation
import RelSmt.Text.Lowercase

/-!
# Lowering signatures

Each signature becomes a constant set. The hierarchy becomes assertions: top-level signatures are
pairwise disjoint, and so are the children of each signature; a child is inside its parent, a subset
signature inside the union of its parents, and an abstract signature is the union of its children.
A multiplicity bounds the number of elements. The signature of integers is the set of all integers.
-/

namespace RelSmt.Lowering

/-- Declares the constant of a signature. -/
def declareSignature (s : Relational.Signature) : Lower Unit := do
  if s.ref.isInt then
    let _ ← integers
    modify fun st => { st with signatures := st.signatures ++ [(s.ref, integersSymbol)] }
  else
    let symbol := FunctionSymbol.constant s.ref.label (relationSort [s.ref.column])
    declare symbol
    modify fun st => { st with signatures := st.signatures ++ [(s.ref, symbol)] }

/-- Asserts that each two of some signatures are disjoint. -/
def assertDisjoint (ss : List Relational.Signature) : Lower Unit :=
  (pairs ss).forM fun (a, b) => do
    let formula ← disjointSets (← signature a.ref) (← signature b.ref)
    assert s!"{a.ref.label} and {b.ref.label} are disjoint" formula

/-- The union of some signatures. -/
def unionOf (first : Relational.SigRef) (others : List Relational.SigRef) : Lower Term := do
  others.foldlM (fun t s => do t.union (← signature s)) (← signature first)

/-- Asserts where a signature stands below others. -/
def assertParents (s : Relational.Signature) : Lower Unit := do
  let label := s.ref.label
  match s.kind with
  | .extends parent =>
    let formula ← (← signature s.ref).within (← signature parent)
    assert s!"{label} extends {parent.label}" formula
  | .subset (first :: others) =>
    let union ← unionOf first others
    let formula ← (← signature s.ref).within union
    assert s!"{label} is a subset of its parents" formula
  | _ => return ()

/-- Is the signature a child of `parent`? -/
def isChildOf (parent : Relational.SigRef) (s : Relational.Signature) : Bool :=
  s.kind == .extends parent

/-- Asserts how the children of a signature share it among them. -/
def assertChildren (all : List Relational.Signature) (s : Relational.Signature) : Lower Unit := do
  let children := all.filter (isChildOf s.ref)
  assertDisjoint children
  match s.isAbstract, children with
  | true, first :: others =>
    let union ← unionOf first.ref (others.map Relational.Signature.ref)
    let formula ← (← signature s.ref).eqTo union
    assert s!"abstract {s.ref.label} is the union of its children" formula
  | _, _ => return ()

/-- The formula that a set has as many elements as a multiplicity demands. -/
def multiplicityFormula? (m : Relational.Multiplicity) : Option (Term → Lower Term) :=
  match m with
  | .one => some exactlyOne
  | .lone => some atMostOne
  | .some => some fun t => nonEmpty t
  | _ => none

/-- Asserts the multiplicity of a signature. The comment is all lower case, the label included. -/
def assertMultiplicity (s : Relational.Signature) : Lower Unit := do
  match s.multiplicity.bind fun m => (multiplicityFormula? m).map fun f => (m, f) with
  | some (m, demand) =>
    let formula ← demand (← signature s.ref)
    assert (Text.lowercase s!"{m.name} {s.ref.label}") formula
  | none => return ()

/-- Lowers the signatures of a specification. -/
def signatures (all : List Relational.Signature) : Lower Unit := do
  all.forM declareSignature
  assertDisjoint (all.filter fun s => s.kind == .top)
  all.forM fun s => do
    assertParents s
    assertChildren all s
    assertMultiplicity s

end RelSmt.Lowering
