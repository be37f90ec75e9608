import RelSmt.SExpr.Basic

/-!
# Reading s-expressions

The reader is an automaton over characters. Its state is the token it stands in and the lists that
are open, so reading a text piece by piece is the same as reading it whole. Numbers are natural
numbers below 2 ^ 64. A symbol is bare, or stands between bars and is trimmed of blanks, or stands
between double quotes and is kept as it is. A comment runs from a semicolon to the end of its line.

Reading stops at the first character that nothing can accept, and the error says what could have
stood there.
-/

namespace RelSmt

/-- One thing the grammar could have accepted where reading stopped. -/
inductive Expected where
  | openList
  | closeList
  | comment
  | doubleQuote
  | bar
  | endOfText
  | notDoubleQuote
  | blank
  | digit
  | notBar
  | notLineFeed
  | largeNumber
  | symbol
deriving DecidableEq

/-- How an error message spells an expectation. -/
def Expected.text : Expected → String
  | .openList => "\"(\""
  | .closeList => "\")\""
  | .comment => "\";\""
  | .doubleQuote => "\"\\\"\""
  | .bar => "\"|\""
  | .endOfText => "EOF"
  | .notDoubleQuote => "[^'\"']"
  | .blank => "[' ' | '\\t' | '\\n' | '\\r']"
  | .digit => "['0'..='9']"
  | .notBar => "[^'|']"
  | .notLineFeed => "[^'\\n']"
  | .largeNumber => "integer literal"
  | .symbol => "symbol"

/-- Where reading stopped, and what could have stood there. Lines and columns count from one, the
column in characters, and the offset counts bytes. -/
structure SyntaxError where
  line : Nat
  column : Nat
  offset : Nat
  expected : List Expected
deriving DecidableEq

/-- The message of a syntax error. -/
def SyntaxError.text (e : SyntaxError) : String :=
  "error at " ++ toString e.line ++ ":" ++ toString e.column ++ ": expected one of "
    ++ ", ".intercalate (e.expected.map Expected.text)

namespace SExpr

/-- The token that the reader stands in. Characters held so far come last first. -/
inductive Token where
  | none
  | comment
  | barred (held : List Char)
  | quoted (held : List Char)
  | number (held : List Char)
  | bare (held : List Char)

/-- The reader's state: the token it stands in, the finished items of the innermost open list and
those of the lists around it. All items come last first, and the outermost level is the text. -/
structure Reader where
  token : Token := .none
  items : List SExpr := []
  outer : List (List SExpr) := []

namespace Reader

/-- What separates tokens without being a comment. -/
def isSeparator (c : Char) : Bool := c == ' ' || c == '\t' || c == '\n' || c == '\r'

/-- What a bare symbol is made of. Solvers write a few more characters than scripts need. -/
def isBareChar (c : Char) : Bool :=
  Symbol.isSimpleChar c || c == ':' || c == '#' || c == '\''

/-- The number that a run of digits denotes, its last digit first. -/
def value (held : List Char) : Nat :=
  held.foldr (fun c n => 10 * n + (c.toNat - 48)) 0

/-- What can stand between tokens, in the order in which messages list it. -/
def expected (r : Reader) : List Expected :=
  [.openList] ++ (if r.outer.isEmpty then [] else [.closeList]) ++ [.comment, .doubleQuote, .bar]
    ++ (if r.outer.isEmpty then [.endOfText] else []) ++ [.blank, .digit]
    ++ (match r.token with | .comment => [.notLineFeed] | _ => []) ++ [.symbol]

/-- Adds a finished item to the innermost open list. -/
def push (r : Reader) (x : SExpr) : Reader :=
  { r with token := .none, items := x :: r.items }

/-- Ends a number or a bare symbol. Numbers have to fit 64 bits. -/
def settle (r : Reader) : Except (List Expected) Reader :=
  match r.token with
  | .number held =>
    if value held < UInt64.size then .ok (r.push (.number (value held)))
    else .error [.digit, .largeNumber]
  | .bare held => .ok (r.push (.symbol (String.ofList held.reverse)))
  | _ => .ok r

/-- Takes a character that stands outside all tokens. -/
def start (r : Reader) (c : Char) : Except (List Expected) Reader :=
  if isSeparator c then .ok r
  else if c = ';' then .ok { r with token := .comment }
  else if c = '|' then .ok { r with token := .barred [] }
  else if c = '"' then .ok { r with token := .quoted [] }
  else if c = '(' then .ok { token := .none, items := [], outer := r.items :: r.outer }
  else if c = ')' then
    match r.outer with
    | [] => .error r.expected
    | around :: outer =>
      .ok { token := .none, items := .list r.items.reverse :: around, outer := outer }
  else if c.isDigit then .ok { r with token := .number [c] }
  else if isBareChar c then .ok { r with token := .bare [c] }
  else .error r.expected

/-- Takes one character. -/
def step (r : Reader) (c : Char) : Except (List Expected) Reader :=
  match r.token with
  | .none => r.start c
  | .comment => .ok (if c = '\n' then { r with token := .none } else r)
  | .barred held =>
    .ok (if c = '|' then r.push (.symbol (Text.trim (String.ofList held.reverse)))
      else { r with token := .barred (c :: held) })
  | .quoted held =>
    .ok (if c = '"' then r.push (.symbol (String.ofList held.reverse))
      else { r with token := .quoted (c :: held) })
  | .number held =>
    if c.isDigit then .ok { r with token := .number (c :: held) }
    else do (← r.settle).start c
  | .bare held =>
    if isBareChar c then .ok { r with token := .bare (c :: held) }
    else do (← r.settle).start c

/-- Takes characters one by one. A failure comes with the characters not taken. -/
def run (r : Reader) : List Char → Except (List Expected × List Char) Reader
  | [] => .ok r
  | c :: cs =>
    match r.step c with
    | .ok r' => run r' cs
    | .error e => .error (e, c :: cs)

/-- Ends the text: no quote and no list may be open. -/
def finish (r : Reader) : Except (List Expected) (List SExpr) :=
  match r.token with
  | .barred _ => .error [.bar, .notBar]
  | .quoted _ => .error [.doubleQuote, .notDoubleQuote]
  | _ => do
    let r ← r.settle
    if r.outer.isEmpty then .ok r.items.reverse else .error r.expected

theorem run_append (r : Reader) (s t : List Char) :
    r.run (s ++ t) = match r.run s with
      | .ok r' => r'.run t
      | .error (e, rest) => .error (e, rest ++ t) := by
  induction s generalizing r with
  | nil => rfl
  | cons c s ih =>
    simp only [List.cons_append, run]
    cases r.step c with
    | ok r' => exact ih r'
    | error e => rfl

end Reader

/-- The error for a text of which the last `left` characters were not taken. -/
def errorAt (cs : List Char) (left : Nat) (expected : List Expected) : SyntaxError :=
  let taken := cs.take (cs.length - left)
  { line := taken.count '\n' + 1
    column := (taken.reverse.takeWhile (· != '\n')).length + 1
    offset := (String.ofList taken).utf8ByteSize
    expected := expected }

/-- Every s-expression of a text, in order. -/
def readAll (text : String) : Except SyntaxError (List SExpr) :=
  let cs := text.toList
  match Reader.run {} cs with
  | .error (e, rest) => .error (errorAt cs rest.length e)
  | .ok r =>
    match r.finish with
    | .error e => .error (errorAt cs 0 e)
    | .ok xs => .ok xs

end SExpr

end RelSmt
