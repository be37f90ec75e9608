import RelSmt.Lowering.Session

/-!
# Integers in formulas

An integer shows up in two forms: as a native integer, such as a count, or as a set that is meant to
hold one atom that stands for it. Comparing two integers compares their values. A set contributes the
value of an element that it holds alone, so a comparison with a set of any other size is false.
-/

namespace RelSmt.Lowering

/-- The element that a written-out singleton of a one-column tuple holds. -/
def soleElement? : Term → Option Term
  | .unary .singleton (.nary .mkTuple [t]) => some t
  | _ => none

/-- The value of an integer, with the variables it needs and the conditions on them. -/
structure Value where
  term : Term
  vars : List Variable := []
  conditions : List Term := []

/-- The value of an operand. -/
def integerValue (operand : Term) : Lower Value := do
  if operand.sort = .int then return { term := operand }
  if operand.sort ≠ .uints then throw (.sortMismatch (.notInteger operand))
  match soleElement? operand with
  | some t => return { term := ← valueOf t }
  | none =>
    let x ← freshVariable "x" .uint
    let condition ← operand.eqTo (← (← Term.tuple [x.term]).single)
    return { term := ← valueOf x.term, vars := [x], conditions := [condition] }

/-- Compares the values of two operands. -/
def compareIntegers (op : BinaryOp) (left right : Term) : Lower Term := do
  let l ← integerValue left
  let r ← integerValue right
  let comparison ← Term.mkBinary op l.term r.term
  let vs := l.vars ++ r.vars
  if vs.isEmpty then return comparison
  Term.ex vs (← Term.allOf (l.conditions ++ r.conditions ++ [comparison]))

/-- Equality: of terms of one sort as it is, of different forms of integers by value. -/
def equality (left right : Term) : Lower Term :=
  if left.sort = right.sort then left.eqTo right else compareIntegers .eq left right

end RelSmt.Lowering
