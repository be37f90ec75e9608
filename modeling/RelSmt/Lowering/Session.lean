import RelSmt.Program.Basic
import RelSmt.Relational.Specification
import RelSmt.Term.Environment

/-!
# Lowering sessions

A session owns the program that is being put together, the symbols of the signatures and fields
declared so far, and the source of fresh names. What a step changes before it fails stays changed, so
the state outlives the failure.

Three kinds of symbol are declared on first use, together with the axiom that gives them their
meaning: the constant of an integer, the identity relation, and the set of all integers.
-/

namespace RelSmt

namespace Lowering

/-- Which symbols have been declared on first use. -/
structure OnDemand where
  ints : List Int := []
  iden : Bool := false
  integers : Bool := false

/-- The state of a session. -/
structure Session where
  /-- Are integer-valued relations required to be exactly one element? -/
  singletonsOnly : Bool
  program : Program := {}
  signatures : List (Relational.SigRef × FunctionSymbol) := []
  fields : List (Relational.FieldRef × FunctionSymbol) := []
  functions : List Relational.Function := []
  onDemand : OnDemand := {}
  labels : List String := []
  fresh : Nat := 0

/-- A step of a session, which may fail. -/
abbrev Lower (α : Type) := ExceptT Fault (StateM Session) α

/-! ## Sorts of columns -/

/-- The sort of a column. -/
def columnSort : Relational.Column → SmtSort
  | .atom => .atom
  | .int => .uint

/-- The sort of a relation with the given columns. -/
def relationSort (columns : List Relational.Column) : SmtSort :=
  .relation (columns.map columnSort)

/-! ## The preamble -/

/-- The function that maps an atom that stands for an integer to that integer. -/
def intValue : FunctionSymbol := ⟨"intValue", [.uint], .int⟩

/-- The value of an atom that stands for an integer. -/
def valueOf (t : Term) : Checked Term := intValue.apply [t]

/-- A new session, which has declared the two sorts of atoms and the value function. -/
def Session.start (singletonsOnly : Bool) : Session where
  singletonsOnly := singletonsOnly
  program := { sorts := [⟨"Atom", 0⟩, ⟨"UInt", 0⟩], functions := [.declared intValue] }

/-- Different atoms stand for different integers. -/
def injectivity : Checked Assertion := do
  let x := Variable.plain "x" .uint
  let y := Variable.plain "y" .uint
  let distinct ← (← x.term.eqTo y.term).neg
  let valuesDistinct ← (← (← valueOf x.term).eqTo (← valueOf y.term)).neg
  Assertion.make "intValue is injective" (← Term.all [x, y] (← distinct.imp valuesDistinct)) none

/-! ## Steps -/

/-- A hint with a number behind it. The digits after the last underscore give the number back, so
different numbers make different names, whatever the hints. -/
def numbered (hint : String) (n : Nat) : String := hint ++ "_" ++ toString n

/-- A name that no earlier call has returned: the hint with the number of the call. -/
def freshName (hint : String) : Lower String := do
  modify fun s => { s with fresh := s.fresh + 1 }
  return numbered hint (← get).fresh

/-- A fresh variable without constraint. -/
def freshVariable (hint : String) (sort : SmtSort) : Lower Variable :=
  return .plain (← freshName hint) sort

/-- Adds a declared function to the program. -/
def declare (f : FunctionSymbol) : Lower Unit :=
  modify fun s => { s with program := s.program.declare f }

/-- Adds an unlabelled assertion to the program. -/
def assert (comment : String) (formula : Term) : Lower Unit := do
  let a ← Assertion.make comment formula none
  modify fun s => { s with program := s.program.assert a }

/-! ## Symbols declared on first use -/

/-- The constant that stands for an integer. -/
def intSymbol (n : Int) : FunctionSymbol := .constant s!"u_{n}" .uint

/-- The identity relation on atoms. -/
def idenSymbol : FunctionSymbol := .constant "atomIden" (.relation [.atom, .atom])

/-- The set of all atoms that stand for integers. -/
def integersSymbol : FunctionSymbol := .constant "integers" .uints

/-- The constant of an integer, whose value is that integer. -/
def intConstant (n : Int) : Lower FunctionSymbol := do
  if (← get).onDemand.ints.contains n then return intSymbol n
  declare (intSymbol n)
  assert s!"u_{n} = {n}" (← (← valueOf (intSymbol n).term).eqTo (.int n))
  modify fun s => { s with onDemand.ints := n :: s.onDemand.ints }
  return intSymbol n

/-- The relation that holds an integer alone. -/
def intRelation (n : Int) : Lower Term := do
  (← Term.tuple [(← intConstant n).term]).single

/-- The identity relation, which relates each atom to itself. -/
def atomIden : Lower Term := do
  if (← get).onDemand.iden then return idenSymbol.term
  declare idenSymbol
  let a ← freshVariable "a" .atom
  let b ← freshVariable "b" .atom
  let pair ← Term.tuple [a.term, b.term]
  let body ← (← pair.isIn idenSymbol.term).eqTo (← a.term.eqTo b.term)
  assert "atomIden axiom" (← Term.all [a, b] body)
  modify fun s => { s with onDemand.iden := true }
  return idenSymbol.term

/-- The set of all integers, of which every atom that stands for one is an element. -/
def integers : Lower Term := do
  if (← get).onDemand.integers then return integersSymbol.term
  declare integersSymbol
  let x ← freshVariable "x" .uint
  let body ← (← Term.tuple [x.term]).isIn integersSymbol.term
  assert "integers axiom" (← Term.all [x] body)
  modify fun s => { s with onDemand.integers := true }
  return integersSymbol.term

/-! ## Names of the specification -/

/-- The set that a declared signature stands for. -/
def signature (s : Relational.SigRef) : Lower Term := do
  match (← get).signatures.lookup s with
  | some f => return f.term
  | none => throw (.unresolved (.signature s.label))

/-- The relation that a declared field stands for. -/
def field (f : Relational.FieldRef) : Lower Term := do
  match (← get).fields.lookup f with
  | some g => return g.term
  | none => throw (.unresolved (.field f.owner.label f.label))

/-- The function that a name calls. Of several functions of a name the last one counts. -/
def function? (name : String) : Lower (Option Relational.Function) :=
  return (← get).functions.reverse.find? fun f => f.name == name

end Lowering

end RelSmt
