import RelSmt.Evaluation.Fold
import RelSmt.Model.Basic
import RelSmt.Scoped

/-!
# Evaluation

A term is evaluated in a scope of definitions and values. A call evaluates the body of a definition
in a scope of its own, which sees the outermost definitions and the arguments and nothing else.
Choices evaluate the branch that is taken; quantified terms have no value.

Definitions may call each other and themselves, so the number of calls in progress is bounded. The
bound is the number of definitions in sight plus a generous constant: where no definition reaches
itself it is never met.
-/

namespace RelSmt

/-- What a name stands for during evaluation. -/
inductive Binding where
  | definition (d : FunctionDefinition)
  | value (t : Term)

/-- The names in sight during evaluation. -/
abbrev Scope := Scoped Binding

namespace Scope

/-- Adds a definition to the innermost scope. -/
def define (s : Scope) (d : FunctionDefinition) : Scope := s.put d.name (.definition d)

/-- Binds a name to a value in the innermost scope. -/
def bind (s : Scope) (name : String) (t : Term) : Scope := s.put name (.value t)

/-- A scope with the definitions of a model. Of several definitions of a name the last one counts. -/
def ofModel (m : Model) : Scope := m.functions.foldl define {}

/-- The definition that a name stands for. -/
def definition? (s : Scope) (name : String) : Option FunctionDefinition :=
  match s.get? name with
  | some (.definition d) => some d
  | _ => none

/-- The scope of a definition's body: the arguments in front of the outermost scope. -/
def ofCall (s : Scope) (d : FunctionDefinition) (args : List Term) : Scope :=
  s.root.enter.putAll ((d.inputs.zip args).map fun p => (p.1.name, .value p.2))

/-- The number of bindings in sight. -/
def size (s : Scope) : Nat := s.here.length + s.around.flatten.length

end Scope

/-- How calls are carried out: the definition and the evaluated arguments. -/
abbrev Caller := FunctionDefinition → List Term → Checked Term

/-- Carries out a call with the right number of arguments. -/
def Caller.apply (call : Caller) (d : FunctionDefinition) (args : List Term) : Checked Term :=
  if d.inputs.length = args.length then call d args
  else .error (.arityMismatch d.name d.inputs.length args.length)

namespace Term

/-- The value of a name that stands alone. -/
def evaluateName (call : Caller) (scope : Scope) (name : String) : Checked Term :=
  match scope.get? name with
  | some (.value t) => .ok t
  | some (.definition d) =>
    if d.isValue then call.apply d [] else .error (.evaluation (.unapplied d.name))
  | none => .error (.evaluation (.noValue name))

mutual

/-- Evaluates a term, leaving calls to `call`. -/
def evaluateWith (call : Caller) (scope : Scope) (t : Term) : Checked Term :=
  match t with
  | .literal c => .ok (.literal c)
  | .emptySet s => .ok (.emptySet s)
  | .fullSet s => .ok (.fullSet s)
  | .variable v => evaluateName call scope v.name
  | .symbol f => evaluateName call scope f.name
  | .unary op t => do foldUnary op (← evaluateWith call scope t)
  | .binary op l r => do
    foldBinary op (← evaluateWith call scope l) (← evaluateWith call scope r)
  | .ite c y n => do
    let c ← evaluateWith call scope c
    match c.bool? with
    | some true => evaluateWith call scope y
    | some false => evaluateWith call scope n
    | none => mkIte c (← evaluateWith call scope y) (← evaluateWith call scope n)
  | .nary op ts => do foldNary op (← evaluateAll call scope ts)
  | .quantified q vs body => .error (.evaluation (.quantified (.quantified q vs body)))
  -- a definition is found by name alone, whatever sorts the symbol was declared with
  | .call f ts =>
    match scope.definition? f.name with
    | none => .error (.evaluation (.noDefinition f.name))
    | some d => do call.apply d (← evaluateAll call scope ts)

/-- Evaluates several terms, from left to right. -/
def evaluateAll (call : Caller) (scope : Scope) (ts : List Term) : Checked (List Term) :=
  match ts with
  | [] => .ok []
  | t :: ts => do
    return (← evaluateWith call scope t) :: (← evaluateAll call scope ts)

end

/-- Evaluates a term with at most `depth` calls in progress at a time. -/
def evaluateWithin : Nat → Scope → Term → Checked Term
  | 0, scope, t => evaluateWith (fun d _ => .error (.evaluation (.callDepth d.name))) scope t
  | depth + 1, scope, t =>
    evaluateWith (fun d args => evaluateWithin depth (scope.ofCall d args) d.body) scope t

/-- Calls in progress that a definition reaching itself may take up. -/
def callAllowance : Nat := 100000

/-- Evaluates a term. -/
def evaluate (scope : Scope) (t : Term) : Checked Term :=
  evaluateWithin (scope.size + callAllowance) scope t

end Term

end RelSmt
