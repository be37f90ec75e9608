import RelSmt.Program.Printer

/-!
# Solver replies

What a solver says about a script: whether it is satisfiable, a model, the values of some terms, or
the labels of an unsat core.
-/

namespace RelSmt

/-- The verdict on a script. -/
inductive Verdict where
  | sat
  | unsat
  | unknown
deriving DecidableEq

/-- A model: declared sorts and function definitions in the order reported. -/
structure Model where
  sorts : List SortDeclaration := []
  functions : List FunctionDefinition := []

namespace Model

/-- The first definition of a name. -/
def function? (m : Model) (name : String) : Option FunctionDefinition :=
  m.functions.find? fun d => d.name == name

/-- A model as a solver would write it. -/
def text (m : Model) : String :=
  unlines ("(model" :: m.sorts.map SortDeclaration.text
    ++ m.functions.map FunctionDefinition.text) ++ ")"

end Model

/-- Terms with the values reported for them. -/
structure Values where
  pairs : List (Term × Term)

/-- The value reported for a term, by the first pair that mentions it. -/
def Values.get? (v : Values) (t : Term) : Option Term :=
  (v.pairs.find? fun p => p.1 == t).map Prod.snd

/-- The labels of the assertions that contradict each other. -/
structure UnsatCore where
  labels : List String
deriving DecidableEq

/-- Does the core name this label? -/
def UnsatCore.contains (c : UnsatCore) (label : String) : Bool := c.labels.contains label

end RelSmt
