import RelSmt.SmtSort

/-!
# Terms

Many-sorted terms over booleans, integers, tuples and finite sets, with quantifiers and applied
function symbols. The type also holds terms that are ill sorted; `RelSmt.Term.Build` has the
constructors that check.

A variable may carry a *constraint*, a formula that limits its range. The constraint travels with
the variable and takes no part in equality: two variables are the same when name and sort agree.
-/

namespace RelSmt

/-- A literal. Integers have 64 bits; an element belongs to a declared sort and is known by name. -/
inductive Literal where
  | bool (value : Bool)
  | int (value : Int)
  | element (name : String) (sort : SmtSort)
deriving DecidableEq, Inhabited

/-- A declared function with its argument sorts. Without arguments it is a constant. -/
structure FunctionSymbol where
  name : String
  inputs : List SmtSort
  output : SmtSort
deriving DecidableEq, Inhabited

/-- A declared constant. -/
def FunctionSymbol.constant (name : String) (sort : SmtSort) : FunctionSymbol := ⟨name, [], sort⟩

/-- Operators on one term. `singleton` turns a tuple into the set that holds it alone. -/
inductive UnaryOp where
  | not
  | singleton
  | transpose
  | closure
  | card
deriving DecidableEq

/-- Operators on two formulas. -/
inductive Connective where
  | or
  | and
  | implies
deriving DecidableEq

/-- Order on integers. -/
inductive Comparison where
  | gt
  | ge
  | lt
  | le
deriving DecidableEq

/-- Operators on integers. -/
inductive Arithmetic where
  | plus
  | minus
  | times
  | div
  | mod
deriving DecidableEq

/-- Operators that make a set of two sets of the same sort. -/
inductive SetOp where
  | union
  | intersection
  | difference
deriving DecidableEq

/-- Operators on two terms. -/
inductive BinaryOp where
  | connective (op : Connective)
  | eq
  | comparison (op : Comparison)
  | arithmetic (op : Arithmetic)
  | set (op : SetOp)
  | member
  | subset
  | join
  | product
deriving DecidableEq

/-- Operators on any positive number of terms. -/
inductive NaryOp where
  | and
  | or
  | mkTuple
deriving DecidableEq

/-- The two quantifiers of terms. -/
inductive Quantifier where
  | all
  | ex
deriving DecidableEq

mutual

/-- A term. -/
inductive Term where
  | literal (value : Literal)
  | variable (v : Variable)
  | symbol (f : FunctionSymbol)
  | emptySet (sort : SmtSort)
  | fullSet (sort : SmtSort)
  | unary (op : UnaryOp) (t : Term)
  | binary (op : BinaryOp) (left right : Term)
  | ite (condition yes no : Term)
  | nary (op : NaryOp) (ts : List Term)
  | quantified (q : Quantifier) (vs : List Variable) (body : Term)
  | call (f : FunctionSymbol) (args : List Term)

/-- A variable: its name, its sort and the formula that limits it, if any. -/
inductive Variable where
  | mk (name : String) (sort : SmtSort) (constraint : Option Term)

end

instance : Inhabited Term := ⟨.literal default⟩

instance : Inhabited Variable := ⟨.mk "" .bool none⟩

namespace Variable

/-- The name that terms refer to. -/
def name : Variable → String
  | .mk n _ _ => n

/-- The sort of the variable's values. -/
def sort : Variable → SmtSort
  | .mk _ s _ => s

/-- The formula that limits the variable. -/
def constraint : Variable → Option Term
  | .mk _ _ c => c

/-- A variable without constraint. -/
def plain (name : String) (sort : SmtSort) : Variable := .mk name sort none

instance : BEq Variable := ⟨fun v w => v.name == w.name && v.sort == w.sort⟩

theorem beq_iff {v w : Variable} : (v == w) = true ↔ v.name = w.name ∧ v.sort = w.sort := by
  simp [BEq.beq]

end Variable

namespace Term

/-! ## Equality -/

mutual

/-- Equality of terms that ignores the constraints of variables. A symbol standing alone is known
by name and value sort, an applied one by its whole declaration. -/
def beq : Term → Term → Bool
  | .literal a, .literal b => a == b
  | .variable v, .variable w => v == w
  | .symbol f, .symbol g => f.name == g.name && f.output == g.output
  | .emptySet s, .emptySet t => s == t
  | .fullSet s, .fullSet t => s == t
  | .unary op t, .unary op' t' => op == op' && beq t t'
  | .binary op l r, .binary op' l' r' => op == op' && beq l l' && beq r r'
  | .ite c y n, .ite c' y' n' => beq c c' && beq y y' && beq n n'
  | .nary op ts, .nary op' ts' => op == op' && beqList ts ts'
  | .quantified q vs b, .quantified q' vs' b' => q == q' && vs == vs' && beq b b'
  | .call f ts, .call g ts' => f == g && beqList ts ts'
  | _, _ => false

/-- Equality, term by term. -/
def beqList : List Term → List Term → Bool
  | [], [] => true
  | t :: ts, t' :: ts' => beq t t' && beqList ts ts'
  | _, _ => false

end

instance : BEq Term := ⟨beq⟩

/-! ## Sorts of terms -/

/-- The columns that are left when two relations are joined. -/
def joinColumns (left right : List SmtSort) : List SmtSort := left.dropLast ++ right.tail

mutual

/-- The sort of a term, read off its structure. -/
def sort : Term → SmtSort
  | .literal (.bool _) => .bool
  | .literal (.int _) => .int
  | .literal (.element _ s) => s
  | .variable v => v.sort
  | .symbol f => f.output
  | .emptySet s => s
  | .fullSet s => s
  | .unary .not _ => .bool
  | .unary .card _ => .int
  | .unary .singleton t => .set t.sort
  | .unary .closure t => t.sort
  | .unary .transpose t => .relation t.sort.columns.reverse
  | .binary (.arithmetic _) _ _ => .int
  | .binary (.set _) l _ => l.sort
  | .binary .join l r => .relation (joinColumns l.sort.columns r.sort.columns)
  | .binary .product l r => .relation (l.sort.columns ++ r.sort.columns)
  | .binary _ _ _ => .bool
  | .ite _ y _ => y.sort
  | .nary .mkTuple ts => .tuple (sorts ts)
  | .nary _ _ => .bool
  | .quantified _ _ _ => .bool
  | .call f _ => f.output

/-- The sorts of several terms. -/
def sorts : List Term → List SmtSort
  | [] => []
  | t :: ts => t.sort :: sorts ts

end

theorem sorts_eq_map (ts : List Term) : sorts ts = ts.map sort := by
  induction ts with
  | nil => rfl
  | cons t ts ih => simp [sorts, ih]

/-! ## Views -/

/-- A literal or the literal empty or full set. -/
def isConstant : Term → Bool
  | .literal _ => true
  | .emptySet _ => true
  | .fullSet _ => true
  | _ => false

/-- The value of a boolean literal. -/
def bool? : Term → Option Bool
  | .literal (.bool b) => some b
  | _ => none

/-- The value of an integer literal. -/
def int? : Term → Option Int
  | .literal (.int n) => some n
  | _ => none

/-- The boolean literal. -/
def bool (b : Bool) : Term := .literal (.bool b)

/-- The integer literal. -/
def int (n : Int) : Term := .literal (.int n)

end Term

/-- The variable as a term. -/
def Variable.term (v : Variable) : Term := .variable v

/-- The symbol as a term. -/
def FunctionSymbol.term (f : FunctionSymbol) : Term := .symbol f

end RelSmt
