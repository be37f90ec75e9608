import RelSmt.Lowering.Field
import RelSmt.Lowering.Signature

/-!
# Lowering specifications

A specification becomes one base program for its signatures, fields and facts, and for each command
the items that the command adds to it. Commands do not share scripts: what one of them declares on
first use is declared again where another one uses it.

Facts and commands are labelled by their positions. No two assertions of a script share a label, so
a fact keeps its label only where no earlier fact has it, and a command where no fact has it.
-/

namespace RelSmt

/-- A lowered specification: the base program, the constants that signatures and fields stand for,
and what each command adds. -/
structure Encoding where
  base : Program
  signatures : List (Relational.SigRef × FunctionSymbol)
  fields : List (Relational.FieldRef × FunctionSymbol)
  commands : List (Relational.Command × Program)

namespace Encoding

/-- The constant of a signature. -/
def signature? (e : Encoding) (s : Relational.SigRef) : Option FunctionSymbol :=
  e.signatures.lookup s

/-- The constant of a field. -/
def field? (e : Encoding) (f : Relational.FieldRef) : Option FunctionSymbol :=
  e.fields.lookup f

/-- The whole program of the first command of a label. -/
def commandProgram? (e : Encoding) (label : String) : Option Program :=
  (e.commands.find? fun c => c.1.label == label).map fun c => e.base ++ c.2

end Encoding

namespace Lowering

/-- Lowers a fact and adds it to the base program. -/
def fact (f : Relational.Fact) : Lower Unit := do
  let a ← Assertion.make f.label (← formula f.formula) none
  let used := (← get).labels
  let label := f.position.label?.filter fun l => !used.contains l
  modify fun s => { s with
    program := s.program.assert { a with label := label }
    labels := label.toList ++ s.labels }

/-- The formula that a command asserts: its own to run it, its negation to check it. -/
def commandFormula (c : Relational.Command) : Lower Term := do
  let t ← formula c.formula
  if c.check then t.neg else return t

/-- Lowers a command to what it adds to the base program, which it leaves as it was. -/
def command (c : Relational.Command) : Lower Program := do
  let before ← get
  modify fun s => { s with program := {} }
  let a ← Assertion.make c.label (← commandFormula c) none
  -- two commands are never in one script, so only facts can have taken the label
  let label := c.position.label?.filter fun l => !before.labels.contains l
  let delta := (← get).program.assert { a with label := label }
  modify fun s => { s with program := before.program, onDemand := before.onDemand }
  return delta

/-- Lowers a specification in a new session. -/
def specification (spec : Relational.Specification) : Lower Encoding := do
  let injective ← injectivity
  modify fun s =>
    { s with program := s.program.assert injective, functions := spec.functions }
  signatures spec.signatures
  fields spec.fieldGroups
  spec.facts.forM fact
  let commands ← spec.commands.mapM fun c => do return (c, ← command c)
  let s ← get
  return {
    base := s.program
    signatures := s.signatures.filter fun p => !p.1.isInt
    fields := s.fields
    commands := commands }

end Lowering

/-- Lowers a specification. -/
def Relational.Specification.lower (spec : Relational.Specification) (singletonsOnly : Bool) :
    Checked Encoding :=
  ((Lowering.specification spec).run (.start singletonsOnly)).1

end RelSmt
