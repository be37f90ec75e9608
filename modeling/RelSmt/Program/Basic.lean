import RelSmt.Term.Build

/-!
# Programs

A program is what a solver is given: sorts, functions and assertions, each in the order in which
they were added. Assertions carry a comment for the reader and possibly a label by which an unsat
core names them.
-/

namespace RelSmt

/-- A declared sort with its number of parameters. -/
structure SortDeclaration where
  name : String
  arity : Nat := 0
deriving DecidableEq

/-- A function with parameters and a body of the declared sort. -/
structure FunctionDefinition where
  name : String
  inputs : List Variable
  output : SmtSort
  body : Term

namespace FunctionDefinition

/-- The symbol that the definition gives a meaning to. -/
def symbol (d : FunctionDefinition) : FunctionSymbol :=
  ⟨d.name, d.inputs.map Variable.sort, d.output⟩

/-- A definition whose body has the declared sort. -/
def make (name : String) (inputs : List Variable) (output : SmtSort) (body : Term) :
    Checked FunctionDefinition :=
  if body.sort = output then .ok ⟨name, inputs, output, body⟩
  else .error (.sortMismatch (.definition name body.sort output))

/-- The definition of a constant. -/
def constant (name : String) (value : Term) : FunctionDefinition := ⟨name, [], value.sort, value⟩

/-- Does the definition give a value, having no parameters? -/
def isValue (d : FunctionDefinition) : Bool := d.inputs.isEmpty

end FunctionDefinition

/-- A function that a program declares or defines. -/
inductive FunctionItem where
  | declared (f : FunctionSymbol)
  | defined (d : FunctionDefinition)

namespace FunctionItem

/-- The symbol declared or defined. -/
def symbol : FunctionItem → FunctionSymbol
  | .declared f => f
  | .defined d => d.symbol

/-- The name declared or defined. -/
def name (i : FunctionItem) : String := i.symbol.name

end FunctionItem

/-- A formula to be asserted. -/
structure Assertion where
  comment : String
  formula : Term
  label : Option String := none

/-- An assertion, which has to be a formula. -/
def Assertion.make (comment : String) (formula : Term) (label : Option String) :
    Checked Assertion :=
  if formula.sort = .bool then .ok ⟨comment, formula, label⟩
  else .error (.sortMismatch (.assertion formula.sort))

/-- Sorts, functions and assertions in order. -/
structure Program where
  sorts : List SortDeclaration := []
  functions : List FunctionItem := []
  assertions : List Assertion := []

namespace Program

/-- Adds a sort. -/
def addSort (p : Program) (s : SortDeclaration) : Program := { p with sorts := p.sorts ++ [s] }

/-- Adds a declared function. -/
def declare (p : Program) (f : FunctionSymbol) : Program :=
  { p with functions := p.functions ++ [.declared f] }

/-- Adds a defined function. -/
def define (p : Program) (d : FunctionDefinition) : Program :=
  { p with functions := p.functions ++ [.defined d] }

/-- Adds an assertion. -/
def assert (p : Program) (a : Assertion) : Program := { p with assertions := p.assertions ++ [a] }

/-- The first function of a name. -/
def function? (p : Program) (name : String) : Option FunctionItem :=
  p.functions.find? fun f => f.name == name

/-- One program followed by the items of another. -/
def append (p q : Program) : Program where
  sorts := p.sorts ++ q.sorts
  functions := p.functions ++ q.functions
  assertions := p.assertions ++ q.assertions

instance : Append Program := ⟨append⟩

end Program

end RelSmt
