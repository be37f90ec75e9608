import RelSmt.Fault
import RelSmt.Relational.Basic

/-!
# Checked constructors of expressions

These constructors refuse what has no meaning whatever the signatures are: a union of relations of
different arity, a join that leaves no column, the closure of a relation that is not binary, a
variable whose arity is not that of its bound. A refusal is a `Violation`.
-/

namespace RelSmt.Relational

/-- Results of constructors that may be misused. -/
abbrev Lawful (α : Type) := Except Violation α

/-- A variable with at least one column. -/
def Var.make (id : VarId) (name : String) (columns : List Column) : Lawful Var :=
  if columns.isEmpty then .error .variableColumns else .ok ⟨id, name, columns⟩

/-- A variable that ranges over the tuples of a bound. -/
def Var.over (id : VarId) (name : String) (bound : Expr) : Lawful Var :=
  Var.make id name bound.columns

/-- A declaration of at least one variable, each of the arity of the bound. -/
def Decl.make (vars : List Var) (multiplicity : Multiplicity) (bound : Expr) : Lawful Decl :=
  if vars.isEmpty then .error .noVariable
  else match vars.find? fun v => v.columns.length != bound.arity with
    | some v => .error (.variableArity v.name v.columns.length bound.arity)
    | none => .ok (.mk vars multiplicity bound false)

/-- A declaration whose bound may carry a multiplicity marker. -/
def Decl.ofBound (vars : List Var) (bound : Expr) : Lawful Decl :=
  Decl.make vars bound.splitMarker.1 bound.splitMarker.2

/-- The name of an operator whose operands have to have one arity. -/
def BinaryOp.uniformName? : BinaryOp → Option String
  | .union => some "Union"
  | .intersection => some "Intersection"
  | .minus => some "Minus"
  | .override => some "Override"
  | _ => none

/-- The name of an operator on binary relations. -/
def UnaryOp.relationName? : UnaryOp → Option String
  | .transpose => Option.some "transpose"
  | .closure => Option.some "closure"
  | .reflexiveClosure => Option.some "reflexive_closure"
  | _ => Option.none

namespace Expr

/-- An expression with one operand. -/
def mkUnary (op : UnaryOp) (e : Expr) : Lawful Expr :=
  match op.relationName? with
  | some name => if e.arity = 2 then .ok (.unary op e) else .error (.notBinary name)
  | none => .ok (.unary op e)

/-- An expression with two operands. -/
def mkBinary (op : BinaryOp) (l r : Expr) : Lawful Expr :=
  match op.uniformName? with
  | some name =>
    if l.arity = r.arity then .ok (.binary op l r)
    else .error (.operandArity name l.arity r.arity)
  | none =>
    if op = .join ∧ l.arity + r.arity ≤ 2 then .error (.joinArity l.arity r.arity)
    else .ok (.binary op l r)

/-- A conjunction: true of none. -/
def allOf (es : List Expr) : Expr := if es.isEmpty then .constant .true else .list .and es

/-- A disjunction: false of none. -/
def anyOf (es : List Expr) : Expr := if es.isEmpty then .constant .false else .list .or es

/-- A quantified formula or comprehension with at least one declaration. -/
def mkQuantified (q : Quantifier) (decls : List Decl) (body : Expr) : Lawful Expr :=
  if decls.isEmpty then .error .noDeclaration else .ok (.quantified q decls body)

/-- The call of a built-in operator on integers. -/
def arithmetic (name : String) (l r : Expr) : Expr := .call ("integer/" ++ name) [l, r] [.int]

end Expr

end RelSmt.Relational
