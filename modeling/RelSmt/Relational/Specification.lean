import RelSmt.Relational.Build

/-!
# Specifications

A specification lists signatures, fields, functions, facts and commands in the order in which they
were declared. All names in it are resolved.
-/

namespace RelSmt.Relational

/-- Where a signature stands in the hierarchy. -/
inductive SigKind where
  | top
  | extends (parent : SigRef)
  | subset (parents : List SigRef)
  | int
deriving DecidableEq

/-- What the atoms of a signature of this kind are. -/
def SigKind.column : SigKind → Column
  | .top => .atom
  | .extends parent => parent.column
  | .subset parents => (parents.head?.map SigRef.column).getD .atom
  | .int => .int

/-- A signature, which names a set of atoms. -/
structure Signature where
  ref : SigRef
  kind : SigKind
  isAbstract : Bool := false
  multiplicity : Option Multiplicity := none
  position : Position := {}

namespace Signature

/-- May a signature be declared with this multiplicity? -/
def admits : Multiplicity → Bool
  | .some => true
  | .one => true
  | .lone => true
  | _ => false

/-- A signature. Subset signatures have a parent, and a multiplicity bounds from below or above. -/
def make (id : Nat) (label : String) (kind : SigKind) (isAbstract : Bool)
    (multiplicity : Option Multiplicity) (position : Position) : Lawful Signature :=
  if kind = .subset [] then .error .noParent
  else match multiplicity.filter fun m => !admits m with
    | some m => .error (.signatureMultiplicity m.name)
    | none =>
      .ok ⟨⟨id, label, kind.column, kind == .int⟩, kind, isAbstract, multiplicity, position⟩

end Signature

/-- A field, which relates each atom of a signature to tuples of its bound. The bound may mention
the atom and may carry a multiplicity marker. -/
structure Field where
  ref : FieldRef
  bound : Expr
  position : Position := {}

/-- A field with a relational bound. -/
def Field.make (id : Nat) (owner : SigRef) (label : String) (bound : Expr)
    (position : Position) : Lawful Field :=
  if bound.isFormula then .error .fieldFormula
  else .ok ⟨⟨id, owner, label, owner.column :: bound.columns⟩, bound, position⟩

/-- Fields declared together. They may be pairwise disjoint, and each may have disjoint values on
different atoms. -/
structure FieldGroup where
  fields : List Field
  disjoint : Bool := false
  disjointValues : Bool := false

/-- One field for each label, all with one bound. The identities are given with the labels. -/
def FieldGroup.make (owner : SigRef) (labels : List (Nat × String)) (bound : Expr) :
    Lawful FieldGroup :=
  if labels.isEmpty then .error .noLabel
  else do return { fields := ← labels.mapM fun l => Field.make l.1 owner l.2 bound {} }

/-- A function or predicate. A predicate returns no columns; a function without body can be declared
and not called. -/
structure Function where
  name : String
  params : List Var
  returns : List Column
  body : Option Expr
  position : Position := {}

namespace Function

/-- A predicate. -/
def predicate (name : String) (params : List Var) (body : Expr) (position : Position) :
    Function := ⟨name, params, [], some body, position⟩

/-- A function that returns what its body is. -/
def ofBody (name : String) (params : List Var) (body : Expr) (position : Position) : Function :=
  ⟨name, params, body.columns, some body, position⟩

/-- The call of a function. -/
def call (f : Function) (args : List Expr) : Expr := .call f.name args f.returns

end Function

/-- A formula that always holds. -/
structure Fact where
  label : String
  formula : Expr
  position : Position := {}

/-- A formula to run, or one to check by looking for a counterexample. -/
structure Command where
  label : String
  formula : Expr
  check : Bool := false
  position : Position := {}

/-- Everything that is lowered together. -/
structure Specification where
  signatures : List Signature := []
  fieldGroups : List FieldGroup := []
  functions : List Function := []
  facts : List Fact := []
  commands : List Command := []

namespace Specification

/-- All fields, in order of declaration. -/
def fields (s : Specification) : List Field := s.fieldGroups.flatMap FieldGroup.fields

/-- The first function of a name. -/
def function? (s : Specification) (name : String) : Option Function :=
  s.functions.find? fun f => f.name == name

end Specification

end RelSmt.Relational
