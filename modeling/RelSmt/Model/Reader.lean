import RelSmt.Model.Basic
import RelSmt.Position
import RelSmt.SExpr.Reader
import RelSmt.Term.Environment

/-!
# Reading solver replies

Replies are read into terms by the checked constructors, so a model that is read is well sorted.
Names resolve in an environment; a name that is not bound may still be a solver's own constant,
whose sort is part of its name. Conjunction and disjunction are read as n-ary, whatever their number
of operands, and `/` is read as integer division.
-/

namespace RelSmt

namespace Reply

/-- The s-expressions of a reply. -/
def sexprs (text : String) : Checked (List SExpr) :=
  match SExpr.readAll text with
  | .ok xs => .ok xs
  | .error e => .error (.parse (.syntaxError e))

/-! ## Sorts -/

mutual

/-- A sort. Only the sorts that scripts declare are known. -/
def sort (x : SExpr) : Checked SmtSort :=
  match x with
  | .symbol "Atom" => .ok .atom
  | .symbol "UInt" => .ok .uint
  | .symbol "Bool" => .ok .bool
  | .symbol "Int" => .ok .int
  | .symbol name => .error (.unsupportedSort name)
  | .list [.symbol "Set", element] => do SmtSort.setOf (← sort element)
  | .list (.symbol "Tuple" :: column :: columns) => do
    return .tuple (← sorts (column :: columns))
  | x => .error (.unsupportedSort x.text)

/-- The columns of a tuple sort. -/
def sorts : List SExpr → Checked (List SmtSort)
  | [] => .ok []
  | x :: xs => do return (← sort x) :: (← sorts xs)

end

/-- The sort that the name of a solver's constant mentions. -/
def constantSort (name : String) : Checked SmtSort :=
  match name with
  | "Atom" => .ok .atom
  | "UInt" => .ok .uint
  | other => .error (.unsupportedSort other)

/-- What follows `start`, if the text starts so. -/
def after? (start : List Char) (cs : List Char) : Option (List Char) :=
  if start.isPrefixOf cs then some (cs.drop start.length) else none

/-- What stands before the first occurrence of a mark. -/
def beforeFirst? (mark : List Char) : List Char → Option (List Char)
  | [] => if mark.isEmpty then some [] else none
  | c :: cs =>
    if mark.isPrefixOf (c :: cs) then some []
    else (beforeFirst? mark cs).map (c :: ·)

/-- What stands before the last occurrence of a character. -/
def beforeLast? (mark : Char) : List Char → Option (List Char)
  | [] => none
  | c :: cs =>
    match beforeLast? mark cs with
    | some front => some (c :: front)
    | none => if c = mark then some [] else none

/-- The sort name in a solver's constant: `@uc_<sort>_<number>` or `<sort>!val!<number>`. -/
def constantSortName? (name : String) : Option String :=
  match after? "@uc_".toList name.toList with
  | some rest => (beforeLast? '_' rest).map String.ofList
  | none => (beforeFirst? "!val!".toList name.toList).map String.ofList

/-! ## Terms -/

/-- Operators by their symbol. -/
inductive Operator where
  | unary (op : UnaryOp)
  | binary (op : BinaryOp)
  | nary (op : NaryOp)
  | quantifier (q : Quantifier)
  | ite

/-- The operator of a symbol. -/
def Operator.ofSymbol? : String → Option Operator
  | "not" => some (.unary .not)
  | "singleton" => some (.unary .singleton)
  | "transpose" => some (.unary .transpose)
  | "tclosure" => some (.unary .closure)
  | "card" => some (.unary .card)
  | "=>" => some (.binary (.connective .implies))
  | "=" => some (.binary .eq)
  | ">" => some (.binary (.comparison .gt))
  | ">=" => some (.binary (.comparison .ge))
  | "<" => some (.binary (.comparison .lt))
  | "<=" => some (.binary (.comparison .le))
  | "+" => some (.binary (.arithmetic .plus))
  | "-" => some (.binary (.arithmetic .minus))
  | "*" => some (.binary (.arithmetic .times))
  | "/" => some (.binary (.arithmetic .div))
  | "div" => some (.binary (.arithmetic .div))
  | "mod" => some (.binary (.arithmetic .mod))
  | "union" => some (.binary (.set .union))
  | "intersection" => some (.binary (.set .intersection))
  | "setminus" => some (.binary (.set .difference))
  | "member" => some (.binary .member)
  | "subset" => some (.binary .subset)
  | "join" => some (.binary .join)
  | "product" => some (.binary .product)
  | "and" => some (.nary .and)
  | "or" => some (.nary .or)
  | "mkTuple" => some (.nary .mkTuple)
  | "forall" => some (.quantifier .all)
  | "exists" => some (.quantifier .ex)
  | "ite" => some .ite
  | _ => none

/-- One binder, a name with its sort. -/
def binder (x : SExpr) : Checked Variable :=
  match x with
  | .list [.symbol name, s] => do return .plain (Symbol.sanitize name) (← sort s)
  | _ => .error (.parse (.binder x))

/-- A list of binders. -/
def binders (x : SExpr) : Checked (List Variable) :=
  match x with
  | .list xs => xs.mapM binder
  | _ => .error (.parse (.binders x))

/-- Binds variables to themselves in a scope of their own. -/
def bindVariables (env : Environment) (vs : List Variable) : Environment :=
  env.enter.putAll (vs.map fun v => (v.name, v.term))

/-- A symbol that stands alone: a boolean, a bound name or a solver's constant. -/
def atom (symbol : String) (env : Environment) : Checked Term :=
  let name := Symbol.sanitize symbol
  if name = "true" then .ok (.bool true)
  else if name = "false" then .ok (.bool false)
  else match env.get? name with
    | some t => .ok t
    | none =>
      match constantSortName? name with
      | some s => do Term.element name (← constantSort s)
      | none => .error (.undefinedVariable name)

/-- The largest integer literal, the largest signed number of 64 bits. -/
def maxInt : Int := 9223372036854775807

/-- The negation of an integer literal, which stays within 64 bits. -/
def negate (n : Int) : Int := (-n).bmod UInt64.size

/-- The empty or the full set of a given sort. -/
def ascribed (name : SExpr) (s : SmtSort) : Checked Term :=
  match name with
  | .symbol "emptyset" => Term.emptyOf s
  | .symbol "univset" => Term.fullOf s
  | x => .error (.unsupportedOperator (.ascription x))

mutual

/-- A term. -/
def term (x : SExpr) (env : Environment) : Checked Term :=
  match x with
  | .number n =>
    if (n : Int) ≤ maxInt then .ok (.int n) else .error (.parse (.integerRange n))
  | .symbol s => atom s env
  | .list [] => .error (.parse .emptyApplication)
  | .list (.symbol head :: args) => application head args env
  | .list (head :: _) => .error (.unsupportedOperator (.head head))

/-- An operator or function applied to arguments. -/
def application (head : String) (args : List SExpr) (env : Environment) : Checked Term :=
  if head = "as" then
    match args with
    | [name, s] => do ascribed name (← sort s)
    | _ => .error (.parse (.operands head 2 args.length))
  else match Operator.ofSymbol? head, args with
    -- a minus with one operand negates
    | some (.binary (.arithmetic .minus)), [a] => do
      let value ← term a env
      match value.int? with
      | some n => return .int (negate n)
      | none => Term.mkBinary (.arithmetic .minus) (.int 0) value
    | some (.unary op), [a] => do Term.mkUnary op (← term a env)
    | some (.unary _), _ => .error (.parse (.operands head 1 args.length))
    | some (.binary op), [a, b] => do Term.mkBinary op (← term a env) (← term b env)
    | some (.binary _), _ => .error (.parse (.operands head 2 args.length))
    | some (.nary op), args => do Term.mkNary op (← terms args env)
    | some (.quantifier q), [vs, body] => do
      let vs ← binders vs
      Term.mkQuantified q vs (← term body (bindVariables env vs))
    | some (.quantifier _), _ => .error (.parse (.operands head 2 args.length))
    | some .ite, [c, y, n] => do
      Term.mkIte (← term c env) (← term y env) (← term n env)
    | some .ite, _ => .error (.parse (.operands head 3 args.length))
    -- only a name that still stands for a function can be applied
    | none, args =>
      match env.get? (Symbol.sanitize head) with
      | some (.symbol f) => do Term.mkCall f (← terms args env)
      | _ => .error (.unsupportedOperator (.operator (Symbol.sanitize head)))

/-- Several terms, from left to right. -/
def terms (xs : List SExpr) (env : Environment) : Checked (List Term) :=
  match xs with
  | [] => .ok []
  | x :: xs => do return (← term x env) :: (← terms xs env)

end

/-! ## Models -/

/-- A definition whose body is not read yet. -/
structure Header where
  symbol : FunctionSymbol
  inputs : List Variable
  body : SExpr

/-- What an item of a model contributes. -/
inductive Item where
  | sort (s : SortDeclaration)
  | function (h : Header)
  | skipped

/-- The items of a reply. They may stand in a list that starts with `model`, in a plain list, or
on their own. -/
def modelItems (xs : List SExpr) : List SExpr :=
  match xs with
  | [.list []] => []
  | [.list (.symbol "model" :: items)] => items
  | [.list (.list first :: items)] => .list first :: items
  | _ => xs

/-- The number of parameters of a declared sort. -/
def sortArity (x : SExpr) : Checked Nat :=
  match x with
  | .number n => .ok n
  | _ => .error (.parse (.sortArity x))

/-- One item. Declarations without a body are skipped, as are the echoes of labelled formulas. -/
def item (x : SExpr) : Checked Item :=
  match x with
  | .list [.symbol "declare-sort", name, arity] =>
    match name with
    | .symbol s => do return .sort ⟨Symbol.sanitize s, ← sortArity arity⟩
    | _ => .error (.parse (.sortDeclaration x))
  | .list [.symbol "define-fun", name, params, s, body] =>
    match name with
    | .symbol raw =>
      let name := Symbol.sanitize raw
      if Position.isMarked name then .ok .skipped
      else do
        let inputs ← binders params
        let output ← sort s
        return .function ⟨⟨name, inputs.map Variable.sort, output⟩, inputs, body⟩
    | _ => .error (.parse (.functionName x))
  | .list (.symbol "declare-fun" :: _) => .ok .skipped
  | _ => .error (.parse (.modelItem x))

/-- The sorts among items. -/
def Item.sort? : Item → Option SortDeclaration
  | .sort s => some s
  | _ => none

/-- The definitions among items. -/
def Item.header? : Item → Option Header
  | .function h => some h
  | _ => none

/-- The environment in which every defined name is bound to its symbol. Of several definitions of a
name the last one counts. -/
def symbolScope (fs : List FunctionSymbol) : Environment :=
  ({} : Environment).putAll (fs.map fun f => (f.name, f.term))

/-- Reads the body of a definition, in which the parameters hide the names of functions. -/
def Header.define (h : Header) (root : Environment) : Checked FunctionDefinition := do
  let body ← term h.body (bindVariables root h.inputs)
  FunctionDefinition.make h.symbol.name h.inputs h.symbol.output body

/-- Reads a model. All names are known before any body is read, so a body may refer to definitions
further on. -/
def model (text : String) : Checked Model := do
  let items ← (modelItems (← sexprs text)).mapM item
  let headers := items.filterMap Item.header?
  let root := symbolScope (headers.map Header.symbol)
  return { sorts := items.filterMap Item.sort?, functions := ← headers.mapM (·.define root) }

/-! ## Values, cores and verdicts -/

/-- The environment of a model's names. -/
def modelScope (m : Model) : Environment := symbolScope (m.functions.map FunctionDefinition.symbol)

/-- One pair of a term and its value. -/
def valuePair (root : Environment) (x : SExpr) : Checked (Term × Term) :=
  match x with
  | .list [t, v] => do return (← term t root, ← term v root)
  | _ => .error (.parse (.valuePair x))

/-- Reads the values of terms over the names of a model. -/
def values (text : String) (m : Model) : Checked Values := do
  match ← sexprs text with
  | [.list pairs] => return ⟨← pairs.mapM (valuePair (modelScope m))⟩
  | _ => .error (.parse .valueList)

/-- One label of a core. -/
def label (x : SExpr) : Checked String :=
  match x with
  | .symbol s => .ok (Symbol.sanitize s)
  | _ => .error (.parse (.label x))

/-- Reads an unsat core. -/
def unsatCore (text : String) : Checked UnsatCore := do
  match ← sexprs text with
  | [.list labels] => return ⟨← labels.mapM label⟩
  | _ => .error (.parse .labelList)

/-- Reads a verdict. -/
def verdict (text : String) : Checked Verdict :=
  match Text.trim text with
  | "sat" => .ok .sat
  | "unsat" => .ok .unsat
  | "unknown" => .ok .unknown
  | other => .error (.parse (.reply other))

end Reply

end RelSmt
