import RelSmt.Fault

/-!
# Checked constructors

Terms built by these constructors alone are well sorted: each operator states which operand sorts it
takes and which sort it has. Every other module builds terms through them, so a lowering that would
be ill sorted fails here.
-/

namespace RelSmt

/-- A set sort, which takes tuples as elements. -/
def SmtSort.setOf (element : SmtSort) : Checked SmtSort :=
  if element.isTuple then .ok (.set element) else .error (.sortMismatch (.setElement element))

/-- The relation sort over at least one column. -/
def SmtSort.relationOf (columns : List SmtSort) : Checked SmtSort :=
  if columns.isEmpty then .error (.violation .noColumns) else .ok (.relation columns)

namespace Term

/-- The columns of two relations that both have some. -/
def relationColumns (op : BinaryOp) (left right : SmtSort) :
    Checked (List SmtSort × List SmtSort) :=
  if left.isSet && right.isSet && !left.columns.isEmpty && !right.columns.isEmpty then
    .ok (left.columns, right.columns)
  else .error (.sortMismatch (.relations op left right))

/-- The sort of a binary term, if the operand sorts fit. -/
def binarySort (op : BinaryOp) (left right : SmtSort) : Checked SmtSort :=
  match op with
  | .connective c =>
    if left = .bool ∧ right = .bool then .ok .bool
    else .error (.sortMismatch (.connective c left right))
  | .eq =>
    if left = right then .ok .bool else .error (.sortMismatch (.equality left right))
  | .comparison _ =>
    if left = .int ∧ right = .int then .ok .bool
    else .error (.sortMismatch (.integers op left right))
  | .arithmetic _ =>
    if left = .int ∧ right = .int then .ok .int
    else .error (.sortMismatch (.integers op left right))
  | .set _ =>
    if left.isSet = true ∧ left = right then .ok left
    else .error (.sortMismatch (.sets op left right))
  | .subset =>
    if left.isSet = true ∧ left = right then .ok .bool
    else .error (.sortMismatch (.sets op left right))
  | .member =>
    if right = .set left then .ok .bool else .error (.sortMismatch (.membership left right))
  | .join => do
    let (l, r) ← relationColumns op left right
    if l.getLast? ≠ r.head? then .error (.sortMismatch (.joinColumns left right))
    else if (joinColumns l r).isEmpty then .error (.sortMismatch (.emptyJoin left right))
    else .ok (.relation (joinColumns l r))
  | .product => do
    let (l, r) ← relationColumns op left right
    .ok (.relation (l ++ r))

/-- The sort of a unary term, if the operand sort fits. -/
def unarySort (op : UnaryOp) (sort : SmtSort) : Checked SmtSort :=
  let refused : Checked SmtSort := .error (.sortMismatch (.unary op sort))
  match op with
  | .not => if sort = .bool then .ok .bool else refused
  | .singleton => if sort.isTuple then .ok (.set sort) else refused
  | .transpose =>
    if sort.isSet && sort.arity == 2 then .ok (.relation sort.columns.reverse) else refused
  | .closure =>
    if sort.isSet && sort.arity == 2 then
      match sort.columns with
      | [a, b] => if a = b then .ok sort else .error (.sortMismatch (.mixedClosure sort))
      | _ => refused
    else refused
  | .card => if sort.isSet then .ok .int else refused

/-- An element of a declared sort. -/
def element (name : String) (sort : SmtSort) : Checked Term :=
  match sort with
  | .named _ => .ok (.literal (.element name sort))
  | .uint => .ok (.literal (.element name sort))
  | _ => .error (.sortMismatch (.element sort))

/-- The empty set of a set sort. -/
def emptyOf (sort : SmtSort) : Checked Term :=
  if sort.isSet then .ok (.emptySet sort) else .error (.sortMismatch (.emptySet sort))

/-- The set of everything of a set sort. -/
def fullOf (sort : SmtSort) : Checked Term :=
  if sort.isSet then .ok (.fullSet sort) else .error (.sortMismatch (.fullSet sort))

/-- A unary term. -/
def mkUnary (op : UnaryOp) (t : Term) : Checked Term := do
  let _ ← unarySort op t.sort
  return .unary op t

/-- A binary term. -/
def mkBinary (op : BinaryOp) (left right : Term) : Checked Term := do
  let _ ← binarySort op left.sort right.sort
  return .binary op left right

/-- A choice between two terms of one sort. -/
def mkIte (condition yes no : Term) : Checked Term :=
  if condition.sort ≠ .bool then .error (.sortMismatch (.iteCondition condition.sort))
  else if yes.sort ≠ no.sort then .error (.sortMismatch (.iteBranches yes.sort no.sort))
  else .ok (.ite condition yes no)

/-- May a term of this sort be an operand of `op`? -/
def fitsNary (op : NaryOp) (sort : SmtSort) : Bool :=
  match op with
  | .mkTuple => sort.isAtomic
  | _ => sort == .bool

/-- An n-ary term. The first operand that does not fit is reported. -/
def mkNary (op : NaryOp) (ts : List Term) : Checked Term :=
  if ts.isEmpty then .error (.sortMismatch (.noOperands op))
  else match ts.find? fun t => !fitsNary op t.sort with
    | some t => .error (.sortMismatch (.operand op t.sort))
    | none => .ok (.nary op ts)

/-- A quantified formula. -/
def mkQuantified (q : Quantifier) (vs : List Variable) (body : Term) : Checked Term :=
  if vs.isEmpty then .error (.sortMismatch (.noBinders q))
  else if body.sort ≠ .bool then .error (.sortMismatch (.body q body.sort))
  else .ok (.quantified q vs body)

/-- The first argument whose sort is not the declared one, with both sorts. -/
def firstMismatch : List SmtSort → List Term → Option (SmtSort × SmtSort)
  | declared :: ds, t :: ts =>
    if t.sort = declared then firstMismatch ds ts else some (t.sort, declared)
  | _, _ => none

/-- An applied function symbol. -/
def mkCall (f : FunctionSymbol) (args : List Term) : Checked Term :=
  if f.inputs.length ≠ args.length then
    .error (.arityMismatch f.name f.inputs.length args.length)
  else match firstMismatch f.inputs args with
    | some (actual, declared) => .error (.sortMismatch (.argument f.name actual declared))
    | none => .ok (.call f args)

/-! ## Shorthands -/

/-- A conjunction: true of none, the formula itself of one. -/
def allOf : List Term → Checked Term
  | [] => .ok (.bool true)
  | [t] => .ok t
  | ts => mkNary .and ts

/-- A disjunction: false of none, the formula itself of one. -/
def anyOf : List Term → Checked Term
  | [] => .ok (.bool false)
  | [t] => .ok t
  | ts => mkNary .or ts

/-- A tuple of atomic terms. -/
def tuple (ts : List Term) : Checked Term := mkNary .mkTuple ts

/-- Universal closure over some variables. -/
def all (vs : List Variable) (body : Term) : Checked Term := mkQuantified .all vs body

/-- Existential closure over some variables. -/
def ex (vs : List Variable) (body : Term) : Checked Term := mkQuantified .ex vs body

/-- Negation. -/
def neg (t : Term) : Checked Term := mkUnary .not t

/-- The set that holds a tuple alone. -/
def single (t : Term) : Checked Term := mkUnary .singleton t

/-- Conjunction of two formulas. -/
def conj (s t : Term) : Checked Term := mkBinary (.connective .and) s t

/-- Disjunction of two formulas. -/
def disj (s t : Term) : Checked Term := mkBinary (.connective .or) s t

/-- Implication. -/
def imp (s t : Term) : Checked Term := mkBinary (.connective .implies) s t

/-- Equality of two terms of one sort. -/
def eqTo (s t : Term) : Checked Term := mkBinary .eq s t

/-- Membership of a tuple in a set. -/
def isIn (t set : Term) : Checked Term := mkBinary .member t set

/-- Inclusion of sets. -/
def within (s t : Term) : Checked Term := mkBinary .subset s t

/-- Union of sets. -/
def union (s t : Term) : Checked Term := mkBinary (.set .union) s t

/-- Intersection of sets. -/
def inter (s t : Term) : Checked Term := mkBinary (.set .intersection) s t

/-- Difference of sets. -/
def diff (s t : Term) : Checked Term := mkBinary (.set .difference) s t

/-- Relational join. -/
def join (s t : Term) : Checked Term := mkBinary .join s t

/-- Cartesian product. -/
def product (s t : Term) : Checked Term := mkBinary .product s t

/-- The formula that a set is empty. -/
def isEmpty (s : Term) : Checked Term := do s.eqTo (← emptyOf s.sort)

end Term

/-- A variable with the formula that limits it. -/
def Variable.limited (name : String) (sort : SmtSort) (constraint : Option Term) :
    Checked Variable :=
  match constraint with
  | none => .ok (.mk name sort none)
  | some c =>
    if c.sort = .bool then .ok (.mk name sort (some c))
    else .error (.sortMismatch (.constraint name c.sort))

/-- A symbol applied to arguments. A constant applied to none is the constant itself. -/
def FunctionSymbol.apply (f : FunctionSymbol) (args : List Term) : Checked Term :=
  if args.isEmpty && f.inputs.isEmpty then .ok f.term else Term.mkCall f args

end RelSmt
