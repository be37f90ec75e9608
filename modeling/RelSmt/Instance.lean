import RelSmt.Evaluation.Basic
import RelSmt.Lowering.Encoding

/-!
# Instances

An instance lists the atoms of each signature and the tuples of each field. It is read off a model by
evaluating the constant of each and taking the set apart. Atoms go by the names that the solver gave
them; an atom that stands for an integer goes by its value, where the model defines the value
function.
-/

namespace RelSmt

/-- The atoms of a signature, in the order of the model. -/
structure SignatureExtent where
  label : String
  atoms : List String
deriving DecidableEq

/-- The tuples of a field, in the order of the model, the owner's atom first. -/
structure FieldExtent where
  owner : String
  label : String
  tuples : List (List String)
deriving DecidableEq

/-- What each signature and field holds, in the order of the specification. -/
structure Instance where
  signatures : List SignatureExtent := []
  fields : List FieldExtent := []
deriving DecidableEq

namespace Instance

/-! ## Reading a model -/

/-- The name of an atom. With a value function at hand an atom that stands for an integer is named
by its value. -/
def atomName (scope : Scope) (value? : Option FunctionSymbol) (atom : Term) : Checked String :=
  match atom with
  | .literal (.element name sort) =>
    match value?, sort with
    | some f, .uint => do
      let value ← Term.evaluate scope (← f.apply [atom])
      match value.int? with
      | some n => return toString n
      | none => .error (.malformedModel (.notIntegerValue name))
    | _, _ => .ok name
  | t => .error (.malformedModel (.notAtom t))

/-- The tuples that the model gives a constant, atom by atom. -/
def tuples (scope : Scope) (value? : Option FunctionSymbol) (symbol : FunctionSymbol)
    (label : String) : Checked (List (List String)) :=
  match scope.definition? symbol.name with
  | none => .error (.evaluation (.notInModel symbol.name label))
  | some _ => do
    let set ← Term.evaluate scope symbol.term
    (← set.elements).mapM fun t => do (← t.atoms).mapM (atomName scope value?)

/-- Reads an instance of an encoded specification off a model. -/
def ofModel (encoding : Encoding) (m : Model) : Checked Instance := do
  let scope := Scope.ofModel m
  let value? := (m.function? Lowering.intValue.name).map FunctionDefinition.symbol
  let signatures ← encoding.signatures.mapM fun (s, symbol) => do
    let ts ← tuples scope value? symbol s.label
    return { label := s.label, atoms := ts.flatten : SignatureExtent }
  let fields ← encoding.fields.mapM fun (f, symbol) => do
    let ts ← tuples scope value? symbol f.label
    return { owner := f.owner.label, label := f.label, tuples := ts : FieldExtent }
  return { signatures := signatures, fields := fields }

/-! ## Views -/

/-- The first signature of a label. -/
def signature? (i : Instance) (label : String) : Option SignatureExtent :=
  i.signatures.find? fun s => s.label == label

/-- The first field of a label and an owner's label. -/
def field? (i : Instance) (owner label : String) : Option FieldExtent :=
  i.fields.find? fun f => f.owner == owner && f.label == label

/-- Every atom mentioned, by first appearance. -/
def atoms (i : Instance) : List String :=
  (i.signatures.flatMap SignatureExtent.atoms
    ++ i.fields.flatMap fun f => f.tuples.flatten).eraseDups

/-! ## Written form -/

/-- Items between braces. -/
def braced (items : List String) : String := "\x7b" ++ ", ".intercalate items ++ "\x7d"

/-- A tuple. -/
def tupleText (t : List String) : String := "(" ++ ", ".intercalate t ++ ")"

/-- An instance, one signature or field to a line. -/
def text (i : Instance) : String :=
  unlines ("Instance:" :: i.signatures.map (fun s => "  " ++ s.label ++ " = " ++ braced s.atoms)
    ++ i.fields.map fun f =>
      "  " ++ f.owner ++ "." ++ f.label ++ " = " ++ braced (f.tuples.map tupleText))

end Instance

end RelSmt
