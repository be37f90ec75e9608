import RelSmt.Evaluation.SetValue

/-!
# Folding operators over values

One rule per operator. Operands that are known are folded away, and what is left is rebuilt as a
term. Integer operators work on 64-bit integers: a result that does not fit is an overflow. `div`
and `mod` are Euclidean, with a remainder that is never negative, and have no value at zero.
-/

namespace RelSmt.Term

/-- Does the integer fit 64 bits? -/
def fits64 (n : Int) : Bool :=
  decide (-9223372036854775808 ≤ n) && decide (n < 9223372036854775808)

/-- The order of two integers. -/
def compareInts : Comparison → Int → Int → Bool
  | .gt, a, b => decide (a > b)
  | .ge, a, b => decide (a ≥ b)
  | .lt, a, b => decide (a < b)
  | .le, a, b => decide (a ≤ b)

/-- The mathematical result of an integer operator. -/
def exactResult : Arithmetic → Int → Int → Int
  | .plus, a, b => a + b
  | .minus, a, b => a - b
  | .times, a, b => a * b
  | .div, a, b => Int.ediv a b
  | .mod, a, b => Int.emod a b

/-- Is the operator without value at a zero divisor? -/
def isDivision : Arithmetic → Bool
  | .div => true
  | .mod => true
  | _ => false

/-- Does the machine form of the operator stay within 64 bits? The remainder is taken along with
the quotient, so both have to fit. -/
def resultFits (op : Arithmetic) (a b : Int) : Bool :=
  match op with
  | .mod => fits64 (exactResult .div a b)
  | op => fits64 (exactResult op a b)

/-- An integer operator on two literals. -/
def foldArithmetic (op : Arithmetic) (a b : Int) : Checked Term :=
  if isDivision op && b == 0 then .error (.evaluation (.zeroDivisor op a))
  else if resultFits op a b then .ok (.int (exactResult op a b))
  else .error (.evaluation (.overflow op a b))

/-- A unary operator on an evaluated operand. -/
def foldUnary (op : UnaryOp) (t : Term) : Checked Term :=
  match op with
  | .not =>
    match t.bool? with
    | some b => .ok (.bool !b)
    | none => mkUnary .not t
  | .card => if t.isValue then do return .int (← t.elements).length else mkUnary .card t
  | op => mkUnary op t

/-- A connective on two evaluated formulas. -/
def foldConnective (op : Connective) (l r : Term) : Checked Term :=
  match op, l.bool?, r.bool? with
  | .and, some false, _ => .ok (.bool false)
  | .and, _, some false => .ok (.bool false)
  | .and, some true, _ => .ok r
  | .and, _, some true => .ok l
  | .or, some true, _ => .ok (.bool true)
  | .or, _, some true => .ok (.bool true)
  | .or, some false, _ => .ok r
  | .or, _, some false => .ok l
  | .implies, some false, _ => .ok (.bool true)
  | .implies, _, some true => .ok (.bool true)
  | .implies, some true, _ => .ok r
  | op, _, _ => mkBinary (.connective op) l r

/-- Keeps the elements of one set that are, or are not, in another. -/
def foldFilter (l r : Term) (keep : Bool) : Checked Term := do
  let other ← r.elements
  let elements ← l.elements
  ofElements l.sort (elements.filter fun t => other.contains t == keep)

/-- A binary operator on two evaluated operands. -/
def foldBinary (op : BinaryOp) (l r : Term) : Checked Term :=
  match op with
  | .connective c => foldConnective c l r
  | .comparison c =>
    match l.int?, r.int? with
    | some a, some b => .ok (.bool (compareInts c a b))
    | _, _ => mkBinary op l r
  | .arithmetic o =>
    match l.int?, r.int? with
    | some a, some b => foldArithmetic o a b
    | _, _ => mkBinary op l r
  | _ =>
    -- sets are taken apart only when both are written out
    if l.isValue && r.isValue then
      match op with
      | .eq => do return .bool (← sameValue l r)
      | .member => do return .bool ((← r.elements).contains l)
      | .subset => do
        let larger ← r.elements
        let smaller ← l.elements
        return .bool (smaller.all larger.contains)
      | .set .intersection => foldFilter l r true
      | .set .difference => foldFilter l r false
      | op => mkBinary op l r
    else mkBinary op l r

/-- The n-ary connectives on evaluated formulas: one deciding operand decides, and of the others
only those still open are kept. -/
def foldMany (deciding : Bool) (close : List Term → Checked Term) (ts : List Term) :
    Checked Term :=
  if ts.any fun t => t.bool? == some deciding then .ok (.bool deciding)
  else close (ts.filter fun t => t.bool?.isNone)

/-- An n-ary operator on evaluated operands. -/
def foldNary (op : NaryOp) (ts : List Term) : Checked Term :=
  match op with
  | .and => foldMany false allOf ts
  | .or => foldMany true anyOf ts
  | .mkTuple => tuple ts

end RelSmt.Term
