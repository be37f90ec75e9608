import RelSmt.Lowering.Arithmetic
import RelSmt.Lowering.Binding

/-!
# Lowering expressions

Relations become terms of set sorts and formulas become terms of sort `Bool`. Variables are looked
up by name in an environment that maps them to what stands for them.

A call of a user function is replaced by the function's body, lowered in an environment that holds
the arguments alone. Inlining keeps a list of the functions whose bodies are being lowered and refuses
to enter one twice, so it goes no deeper than there are functions. Names without a function may call
the built-in operators on integers.
-/

namespace RelSmt.Lowering

/-- The integer operator that a name calls where no function has that name. -/
def integerOperator? : String → Option Arithmetic
  | "plus" => some .plus
  | "integer/plus" => some .plus
  | "add" => some .plus
  | "integer/add" => some .plus
  | "minus" => some .minus
  | "integer/minus" => some .minus
  | "sub" => some .minus
  | "integer/sub" => some .minus
  | "mul" => some .times
  | "integer/mul" => some .times
  | "div" => some .div
  | "integer/div" => some .div
  | "rem" => some .mod
  | "integer/rem" => some .mod
  | _ => none

/-- A built-in constant. -/
def constant (c : Relational.Constant) : Lower Term :=
  match c with
  | .univ => Term.fullOf .atoms
  | .none => Term.emptyOf .atoms
  | .iden => atomIden
  | .ints => integers
  | .true => return .bool true
  | .false => return .bool false

/-- A unary operator on a lowered operand. Bound markers and grouping leave the operand as it is. -/
def unary (op : Relational.UnaryOp) (t : Term) : Lower Term := do
  match op with
  | .not => t.neg
  | .no => t.isEmpty
  | .some => nonEmpty t
  | .one => exactlyOne t
  | .lone => atMostOne t
  | .transpose => Term.mkUnary .transpose t
  | .closure => Term.mkUnary .closure t
  | .reflexiveClosure => do
    let closure ← Term.mkUnary .closure t
    closure.union (← atomIden)
  | .card => Term.mkUnary .card t
  | .setOf => return t
  | .someOf => return t
  | .loneOf => return t
  | .oneOf => return t
  | .group => return t

/-- A binary operator on two lowered operands. -/
def binary (op : Relational.BinaryOp) (l r : Term) : Lower Term := do
  match op with
  | .join => l.join r
  | .arrow => l.product r
  | .union => l.union r
  | .intersection => l.inter r
  | .minus => l.diff r
  | .override => overrideBy l r
  | .domainRestrict => restrictDomain l r
  | .rangeRestrict => restrictRange l r
  | .isIn => l.within r
  | .notIn => do (← l.within r).neg
  | .eq => equality l r
  | .ne => do (← equality l r).neg
  | .and => l.conj r
  | .or => l.disj r
  | .implies => l.imp r
  | .iff => l.eqTo r
  | .lt => compareIntegers (.comparison .lt) l r
  | .le => compareIntegers (.comparison .le) l r
  | .gt => compareIntegers (.comparison .gt) l r
  | .ge => compareIntegers (.comparison .ge) l r

/-- How calls are inlined: the name and the body of a function, and the environment that holds its
arguments. -/
abbrev Inliner := String → Relational.Expr → Environment → Lower Term

mutual

/-- Lowers an expression inside the bodies of the functions `active`. -/
def exprWith (inline : Inliner) (active : List String) (e : Relational.Expr) (env : Environment) :
    Lower Term :=
  match e with
  | .constant c => constant c
  | .number n => intRelation n
  -- all integers can be named without being declared
  | .sig s => if s.isInt then integers else signature s
  | .field f => field f
  | .var v =>
    match env.get? v.name with
    | some t => return t
    | none => throw (.unresolved (.variable v.name))
  | .unary op e => do unary op (← exprWith inline active e env)
  | .binary op l r => do
    binary op (← exprWith inline active l env) (← exprWith inline active r env)
  | .list op es => do
    let ts ← exprsWith inline active es env
    match op with
    | .and => Term.allOf ts
    | .or => Term.anyOf ts
  | .ite c y n => do
    Term.mkIte (← exprWith inline active c env) (← exprWith inline active y env)
      (← exprWith inline active n env)
  | .letIn v value body => do
    let value ← exprWith inline active value env
    exprWith inline active body (env.enter.put v.name value)
  | .quantified .comprehension ds body => do
    let b ← declsWith inline active ds true { scope := env.enter }
    let body ← exprWith inline active body b.scope
    comprehend (ds.flatMap fun d => d.vars.flatMap Relational.Var.columns) b body
  | .quantified q ds body => do
    let b ← declsWith inline active ds false { scope := env.enter }
    quantify q b (← exprWith inline active body b.scope)
  | .call name args _ => do
    match ← function? name with
    | none =>
      match integerOperator? name with
      | none => throw (.unresolved (.function name))
      | some op =>
        if args.length ≠ 2 then throw (.arityMismatch name 2 args.length)
        match ← exprsWith inline active args env with
        | [a, b] => arithmetic op a b env
        | _ => throw (.arityMismatch name 2 args.length)
    | some f =>
      match f.body with
      | none => throw (.unresolved (.functionBody name))
      | some body =>
        if active.contains name then throw (.recursiveCall name)
        if f.params.length ≠ args.length then
          throw (.arityMismatch name f.params.length args.length)
        let ts ← exprsWith inline active args env
        -- the body sees its parameters and nothing of what is around the call
        inline name body (({} : Environment).putAll ((f.params.map Relational.Var.name).zip ts))

/-- Lowers several expressions, from left to right. -/
def exprsWith (inline : Inliner) (active : List String) (es : List Relational.Expr)
    (env : Environment) : Lower (List Term) :=
  match es with
  | [] => return []
  | e :: es => do
    return (← exprWith inline active e env) :: (← exprsWith inline active es env)

/-- Binds declarations one after the other, each bound in the scope of those before it. A
comprehension takes single elements only. -/
def declsWith (inline : Inliner) (active : List String) (ds : List Relational.Decl)
    (comprehension : Bool) (b : Bound) : Lower Bound :=
  match ds with
  | [] => return b
  | .mk vars m bound disjoint :: ds => do
    if comprehension && m ≠ .one then
      throw (.unsupportedOperator (.comprehension m.name))
    let bound ← exprWith inline active bound b.scope
    let b ← bindDecl vars m bound disjoint b
    declsWith inline active ds comprehension b

end

/-- Lowers an expression with room for `depth` more functions to be inlined into each other. Without
room every function is being inlined, so a call is recursive. -/
def exprWithin : Nat → List String → Relational.Expr → Environment → Lower Term
  | 0, active, e, env => exprWith (fun name _ _ => throw (.recursiveCall name)) active e env
  | depth + 1, active, e, env =>
    exprWith (fun name body scope => exprWithin depth (name :: active) body scope) active e env

/-- Lowers an expression. -/
def expr (e : Relational.Expr) (env : Environment) : Lower Term := do
  exprWithin (← get).functions.length [] e env

/-- Lowers a formula without free variables. -/
def formula (e : Relational.Expr) : Lower Term := do
  let t ← expr e {}
  if t.sort = .bool then return t else throw (.sortMismatch (.notFormula t.sort))

end RelSmt.Lowering
