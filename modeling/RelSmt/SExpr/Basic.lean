import RelSmt.Text.Symbol

/-!
# S-expressions

What a solver writes: numbers, symbols and lists. The written form puts one space between the items
of a list and bars around symbols that are not simple.
-/

namespace RelSmt

/-- A number, a symbol or a list. Symbols hold their content without bars. -/
inductive SExpr where
  | number (n : Nat)
  | symbol (name : String)
  | list (items : List SExpr)

namespace SExpr

/-- The items of a list. -/
def items? : SExpr → Option (List SExpr)
  | .list xs => some xs
  | _ => none

/-- The content of a symbol. -/
def symbol? : SExpr → Option String
  | .symbol s => some s
  | _ => none

/-- Head and arguments of a list that starts with a symbol. -/
def application? : SExpr → Option (String × List SExpr)
  | .list (.symbol head :: args) => some (head, args)
  | _ => none

mutual

/-- The written form. -/
def text : SExpr → String
  | .number n => toString n
  | .symbol s => Symbol.quote s
  | .list xs => "(" ++ " ".intercalate (texts xs) ++ ")"

/-- The written forms of a list's items. -/
def texts : List SExpr → List String
  | [] => []
  | x :: xs => x.text :: texts xs

end

theorem texts_eq_map (xs : List SExpr) : texts xs = xs.map text := by
  induction xs with
  | nil => rfl
  | cons x xs ih => simp [texts, ih]

instance : ToString SExpr := ⟨text⟩

end SExpr

end RelSmt
