import RelSmt.Term.Basic
import RelSmt.Text.Symbol

/-!
# Written form of terms

Every node is written as it is built, in the SMT-LIB syntax of the theory of finite sets. Names are
quoted where needed, sorts are written bare, and a negative integer is the application of `-` to its
absolute value.
-/

namespace RelSmt

/-- The symbol of an operator. -/
def UnaryOp.text : UnaryOp → String
  | .not => "not"
  | .singleton => "singleton"
  | .transpose => "transpose"
  | .closure => "tclosure"
  | .card => "card"

/-- The symbol of a connective. -/
def Connective.text : Connective → String
  | .or => "or"
  | .and => "and"
  | .implies => "=>"

/-- The symbol of a comparison. -/
def Comparison.text : Comparison → String
  | .gt => ">"
  | .ge => ">="
  | .lt => "<"
  | .le => "<="

/-- The symbol of an integer operator. -/
def Arithmetic.text : Arithmetic → String
  | .plus => "+"
  | .minus => "-"
  | .times => "*"
  | .div => "div"
  | .mod => "mod"

/-- The symbol of a set operator. -/
def SetOp.text : SetOp → String
  | .union => "union"
  | .intersection => "intersection"
  | .difference => "setminus"

/-- The symbol of a binary operator. -/
def BinaryOp.text : BinaryOp → String
  | .connective c => c.text
  | .eq => "="
  | .comparison c => c.text
  | .arithmetic a => a.text
  | .set s => s.text
  | .member => "member"
  | .subset => "subset"
  | .join => "join"
  | .product => "product"

/-- The symbol of an n-ary operator. -/
def NaryOp.text : NaryOp → String
  | .and => "and"
  | .or => "or"
  | .mkTuple => "mkTuple"

/-- The symbol of a quantifier. -/
def Quantifier.text : Quantifier → String
  | .all => "forall"
  | .ex => "exists"

/-- Written items in parentheses, one space apart. -/
def inParens (items : List String) : String := "(" ++ " ".intercalate items ++ ")"

/-- A literal. -/
def Literal.text : Literal → String
  | .bool b => if b then "true" else "false"
  | .int n => if n < 0 then inParens ["-", toString n.natAbs] else toString n
  | .element name _ => Symbol.quote name

/-- A variable where it is bound. -/
def Variable.text (v : Variable) : String := inParens [Symbol.quote v.name, v.sort.text]

namespace Term

mutual

/-- A term as scripts write it. -/
def text : Term → String
  | .literal c => c.text
  | .variable v => Symbol.quote v.name
  | .symbol f => Symbol.quote f.name
  | .emptySet s => inParens ["as", "emptyset", s.text]
  | .fullSet s => inParens ["as", "univset", s.text]
  | .unary op t => inParens [op.text, t.text]
  | .binary op l r => inParens [op.text, l.text, r.text]
  | .ite c y n => inParens ["ite", c.text, y.text, n.text]
  | .nary op ts => inParens (op.text :: texts ts)
  | .quantified q vs body => inParens [q.text, inParens (vs.map Variable.text), body.text]
  | .call f ts => inParens (Symbol.quote f.name :: texts ts)

/-- The written forms of several terms. -/
def texts : List Term → List String
  | [] => []
  | t :: ts => t.text :: texts ts

end

theorem texts_eq_map (ts : List Term) : texts ts = ts.map text := by
  induction ts with
  | nil => rfl
  | cons t ts ih => simp [texts, ih]

instance : ToString Term := ⟨text⟩

end Term

/-- The declaration of a function symbol. -/
def FunctionSymbol.text (f : FunctionSymbol) : String :=
  inParens ["declare-fun", Symbol.quote f.name, inParens (f.inputs.map SmtSort.text),
    f.output.text]

end RelSmt
