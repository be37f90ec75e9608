import RelSmt.Text.Blank

/-!
# Symbols

A symbol stands bare in a script when it is *simple*: not empty, not starting with a digit, and made
of ASCII letters, digits and a fixed set of punctuation. Any other symbol is written between bars.
Reading undoes this: bars are dropped and blanks trimmed.
-/

namespace RelSmt.Symbol

/-- The punctuation of simple symbols. -/
def punctuation : List Char :=
  ['~', '!', '@', '$', '%', '^', '&', '*', '_', '-', '+', '=', '<', '>', '.', '?', '/']

/-- May `c` stand in a symbol without bars? -/
def isSimpleChar (c : Char) : Bool := c.isAlphanum || punctuation.contains c

/-- May the symbol stand without bars? -/
def isSimple (name : String) : Bool :=
  match name.toList with
  | [] => false
  | c :: cs => !c.isDigit && (c :: cs).all isSimpleChar

/-- A symbol as a script writes it. -/
def quote (name : String) : String :=
  if isSimple name then name else "|" ++ name ++ "|"

/-- The name behind a written symbol: no bars, no blanks around it. -/
def sanitize (name : String) : String :=
  Text.trim (String.ofList (name.toList.filter (· != '|')))

theorem quote_of_isSimple {name : String} (h : isSimple name = true) : quote name = name := by
  simp [quote, h]

theorem quote_of_not_isSimple {name : String} (h : isSimple name = false) :
    quote name = "|" ++ name ++ "|" := by
  simp [quote, h]

end RelSmt.Symbol
