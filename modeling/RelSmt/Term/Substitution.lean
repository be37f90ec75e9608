import RelSmt.Term.FreeVariables
import RelSmt.Term.Build

/-!
# Substitution and replacement

`substitute` puts a term in the place of a free variable and refuses to let a binder capture one of
the term's own free variables; binders are never renamed. `replace` exchanges whole subterms that
equal a given one. Both rebuild what they change through the checked constructors.
-/

namespace RelSmt.Term

mutual

/-- Puts `new`, whose free variables have the names `taken`, in the place of `old`. A binder of
`old`'s name, or one under which `old` is not free, is left as it is. -/
def substituteIn (t : Term) (old : Variable) (new : Term) (taken : List String) : Checked Term :=
  match t with
  | .literal c => .ok (.literal c)
  | .variable v => .ok (if v == old then new else .variable v)
  | .symbol f => .ok (.symbol f)
  | .emptySet s => .ok (.emptySet s)
  | .fullSet s => .ok (.fullSet s)
  | .unary op t => do mkUnary op (← substituteIn t old new taken)
  | .binary op l r => do
    mkBinary op (← substituteIn l old new taken) (← substituteIn r old new taken)
  | .ite c y n => do
    mkIte (← substituteIn c old new taken) (← substituteIn y old new taken)
      (← substituteIn n old new taken)
  | .nary op ts => do mkNary op (← substituteInList ts old new taken)
  | .quantified q vs body =>
    if bindsName vs old.name || !body.occursFree old then .ok (.quantified q vs body)
    else match vs.find? fun v => taken.contains v.name with
      | some v => .error (.capture v (.quantified q vs body))
      | none => do mkQuantified q vs (← substituteIn body old new taken)
  | .call f ts => do mkCall f (← substituteInList ts old new taken)

/-- Substitution in several terms, from left to right. -/
def substituteInList (ts : List Term) (old : Variable) (new : Term) (taken : List String) :
    Checked (List Term) :=
  match ts with
  | [] => .ok []
  | t :: ts => do
    return (← substituteIn t old new taken) :: (← substituteInList ts old new taken)

end

/-- Puts `new` in the place of the free variable `old`, which has to have the same sort. -/
def substitute (t : Term) (old : Variable) (new : Term) : Checked Term :=
  if new.sort = old.sort then substituteIn t old new (new.freeVariables.map Variable.name)
  else .error (.sortMismatch (.substitution new old))

/-- Is the term a variable whose name one of the binders binds? -/
def isBoundBy (t : Term) (vs : List Variable) : Bool :=
  match t with
  | .variable v => bindsName vs v.name
  | _ => false

mutual

/-- Exchanges every subterm that equals `old` for `new`. When `old` is a variable, a binder of its
name hides it. -/
def replace (t old new : Term) : Checked Term :=
  if t == old then .ok new else
  match t with
  | .literal c => .ok (.literal c)
  | .variable v => .ok (.variable v)
  | .symbol f => .ok (.symbol f)
  | .emptySet s => .ok (.emptySet s)
  | .fullSet s => .ok (.fullSet s)
  | .unary op t => do mkUnary op (← replace t old new)
  | .binary op l r => do mkBinary op (← replace l old new) (← replace r old new)
  | .ite c y n => do
    mkIte (← replace c old new) (← replace y old new) (← replace n old new)
  | .nary op ts => do mkNary op (← replaceList ts old new)
  | .quantified q vs body =>
    if old.isBoundBy vs then .ok (.quantified q vs body)
    else do mkQuantified q vs (← replace body old new)
  | .call f ts => do mkCall f (← replaceList ts old new)

/-- Replacement in several terms, from left to right. -/
def replaceList (ts : List Term) (old new : Term) : Checked (List Term) :=
  match ts with
  | [] => .ok []
  | t :: ts => do return (← replace t old new) :: (← replaceList ts old new)

end

end RelSmt.Term
