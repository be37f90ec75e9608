import RelSmt.Lowering.Integer
import RelSmt.Term.Printer
import RelSmt.Term.Substitution

/-!
# Arithmetic on integer relations

The sum of two sets of atoms that stand for integers has no counterpart among the operators on sets.
Each such operation becomes the application of a fresh function, and axioms tie the function to the
values of its operands. The function takes the variables of enclosing binders as parameters, so that
each of their instances has a result of its own.

Where integer relations are required to be single elements the function returns the one tuple, and
one axiom says what its value is. Otherwise it returns a set, and two axioms say that it holds no
value too many and no value too few.
-/

namespace RelSmt.Lowering

/-- An operand: a native integer, or a set of atoms that stand for integers. -/
inductive Operand where
  | value (t : Term)
  | relation (t : Term)

namespace Operand

/-- The term behind an operand. -/
def term : Operand → Term
  | .value t => t
  | .relation t => t

/-- Sorts an operand by what it is. -/
def ofTerm (t : Term) : Checked Operand :=
  if t.sort = .int then .ok (.value t)
  else if t.sort = .uints then .ok (.relation t)
  else .error (.sortMismatch (.arithmeticOperand t))

/-- Exchanges a subterm of the operand. -/
def replace (o : Operand) (old new : Term) : Checked Operand :=
  match o with
  | .value t => do return .value (← t.replace old new)
  | .relation t => do return .relation (← t.replace old new)

end Operand

/-! ## Parameters -/

/-- The variables that the constraint of a variable mentions. -/
def constraintVariables (v : Variable) : List Variable :=
  match v.constraint with
  | some c => c.freeOccurrences
  | none => []

theorem weight_constraintVariables_lt (v : Variable) :
    Term.weight (constraintVariables v) < sizeOf v := by
  unfold constraintVariables
  split
  · next c h => exact Term.weight_constraint_lt h
  · cases v
    simp only [Term.weight, List.foldr_nil, Variable.mk.sizeOf_spec]
    omega

/-- Adds candidates that belong to enclosing binders, each with the variables of its constraint. A
variable belongs to an enclosing binder when some term that a name stands for mentions it. -/
def enclosingFrom (env : Environment) (found : List Variable) : List Variable → List Variable
  | [] => found
  | v :: vs =>
    if found.contains v || !env.mentions v then
      enclosingFrom env found vs
    else enclosingFrom env (found ++ [v]) (vs ++ constraintVariables v)
termination_by vs => Term.weight vs
decreasing_by
  · cases v
    simp only [Term.weight, List.foldr_cons, Variable.mk.sizeOf_spec]
    omega
  · have := weight_constraintVariables_lt v
    simp only [Term.weight_append]
    simp only [Term.weight, List.foldr_cons] at *
    omega

/-- The variables of enclosing binders that the operands mention, by themselves or through the
constraints of such variables. -/
def enclosingVariables (a b : Operand) (env : Environment) : List Variable :=
  enclosingFrom env [] (a.term.freeOccurrences ++ b.term.freeOccurrences)

/-! ## The axioms -/

/-- What the axioms are stated over. Every set parameter is narrowed to the singleton of an element,
in the operands, the constraints and the arguments alike. -/
structure Narrowed where
  a : Operand
  b : Operand
  constraints : List Term
  vars : List Variable := []
  arguments : List Term := []

/-- Takes one more parameter into the axioms. -/
def Narrowed.add (n : Narrowed) (parameter : Variable) : Lower Narrowed := do
  match parameter.sort.element? with
  | none =>
    return { n with
      vars := n.vars ++ [parameter], arguments := n.arguments ++ [parameter.term] }
  | some sort =>
    -- a set variable stands for one of its elements
    let element ← freshVariable "e" sort
    let old := parameter.term
    let new ← element.term.single
    return {
      a := ← n.a.replace old new
      b := ← n.b.replace old new
      constraints := ← n.constraints.mapM fun c => c.replace old new
      vars := n.vars ++ [element]
      arguments := n.arguments ++ [new] }

/-- Universal closure, which over no variables is nothing. -/
def allOver (vs : List Variable) (body : Term) : Checked Term :=
  if vs.isEmpty then .ok body else Term.all vs body

/-- Existential closure, which over no variables is nothing. -/
def exOver (vs : List Variable) (body : Term) : Checked Term :=
  if vs.isEmpty then .ok body else Term.ex vs body

/-- The value of an operand under a condition on a fresh element of a relation. -/
def operandValue (condition : Term → Term → Checked Term) (o : Operand) : Lower Value := do
  match o with
  | .value t => return { term := t }
  | .relation r =>
    let x ← freshVariable "x" .uint
    let c ← condition (← Term.tuple [x.term]) r
    return { term := ← valueOf x.term, vars := [x], conditions := [c] }

/-- The element is all that the relation holds. -/
def isAllOf (tuple relation : Term) : Checked Term := do relation.eqTo (← tuple.single)

/-- The value of the operation on two values is the value of `z`. -/
def resultIs (op : Arithmetic) (a b : Value) (z : Term) : Checked Term := do
  (← Term.mkBinary (.arithmetic op) a.term b.term).eqTo z

/-- Some elements make up the operands, and the result is the element that has the value. -/
def singletonAxiom (op : Arithmetic) (a b : Operand) (result : Term) : Lower Term := do
  let x ← operandValue isAllOf a
  let y ← operandValue isAllOf b
  let z ← freshVariable "z" .uint
  let isResult ← result.eqTo (← Term.tuple [z.term])
  let hasValue ← resultIs op x y (← valueOf z.term)
  exOver (x.vars ++ y.vars ++ [z])
    (← Term.allOf (x.conditions ++ y.conditions ++ [isResult, hasValue]))

/-- Every element of the result has a value that elements of the operands give. -/
def soundAxiom (op : Arithmetic) (n : Narrowed) (guard result : Term) : Lower Term := do
  let z ← freshVariable "z" .uint
  let value ← valueOf z.term
  let inResult ← (← Term.tuple [z.term]).isIn result
  let x ← operandValue Term.isIn n.a
  let y ← operandValue Term.isIn n.b
  let hasValue ← resultIs op x y value
  let witness ← exOver (x.vars ++ y.vars)
    (← Term.allOf (x.conditions ++ y.conditions ++ [hasValue]))
  allOver (n.vars ++ [z]) (← (← guard.conj inResult).imp witness)

/-- Every value that elements of the operands give is that of an element of the result. -/
def completeAxiom (op : Arithmetic) (n : Narrowed) (guard result : Term) : Lower Term := do
  let x ← operandValue Term.isIn n.a
  let y ← operandValue Term.isIn n.b
  let z ← freshVariable "z" .uint
  let value ← valueOf z.term
  let inResult ← (← Term.tuple [z.term]).isIn result
  let image ← Term.ex [z] (← inResult.conj (← resultIs op x y value))
  allOver (n.vars ++ x.vars ++ y.vars)
    (← (← Term.allOf (guard :: x.conditions ++ y.conditions)).imp image)

/-- What the names of functions that stand for an operation start with. -/
def functionHint : Arithmetic → String
  | .plus => "plus"
  | .minus => "minus"
  | .times => "mul"
  | .div => "div"
  | .mod => "rem"

/-- Lowers an operation on two operands, each a native integer or an integer relation, to the
application of a fresh function. -/
def arithmetic (op : Arithmetic) (a b : Term) (env : Environment) : Lower Term := do
  let a ← Operand.ofTerm a
  let b ← Operand.ofTerm b
  let parameters := enclosingVariables a b env
  let n ← parameters.foldlM Narrowed.add
    { a := a, b := b, constraints := parameters.filterMap Variable.constraint }
  let single := (← get).singletonsOnly
  let function : FunctionSymbol :=
    ⟨← freshName (functionHint op), parameters.map Variable.sort,
      if single then .tuple [.uint] else .uints⟩
  declare function
  let result ← function.apply n.arguments
  let guard ← Term.allOf n.constraints
  if single then
    let body ← singletonAxiom op n.a n.b result
    let guarded ← if guard.bool? = some true then pure body else guard.imp body
    assert s!"{function.name} axiom" (← allOver n.vars guarded)
    (← function.apply (parameters.map Variable.term)).single
  else
    let sound ← soundAxiom op n guard result
    let complete ← completeAxiom op n guard result
    assert s!"{function.name} axiom 1" sound
    assert s!"{function.name} axiom 2" complete
    function.apply (parameters.map Variable.term)

/-- Lowers a binary operator, which has to be one on integers. -/
def arithmeticOp (op : BinaryOp) (a b : Term) (env : Environment) : Lower Term :=
  match op with
  | .arithmetic o => arithmetic o a b env
  | op => throw (.unsupportedOperator (.operator op.text))

end RelSmt.Lowering
