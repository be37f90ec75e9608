import RelSmt.Text.Blank

/-!
# Source positions and the labels made of them

A fact or command that knows where it stands in a file is named by that place, so that an unsat core
can be traced back. The label is a small record in JSON syntax. Its opening key doubles as the
marker by which a model's echo of a named formula is told from a real definition.
-/

namespace RelSmt

/-- A place in a file. An empty file name means that the place is not known. -/
structure Position where
  file : String := ""
  line : Nat := 0
  column : Nat := 0
deriving DecidableEq

namespace Position

/-- What every label contains and no model value is expected to. -/
def labelMarker : String := "\"filename\":"

/-- File names inside a label: a backslash turns into a slash and a double quote into a single
one, so that the label stays one JSON string and one quoted symbol. -/
def labelChar (c : Char) : Char :=
  if c = '\\' then '/' else if c = '"' then '\'' else c

/-- The label that names a place. -/
def label (p : Position) : String :=
  "\x7b" ++ labelMarker ++ " \"" ++ String.ofList (p.file.toList.map labelChar) ++ "\", \"line\": "
    ++ toString p.line ++ ", \"column\": " ++ toString p.column ++ "\x7d"

/-- The label of a known place. -/
def label? (p : Position) : Option String :=
  if p.file.isEmpty then none else some p.label

/-- Does a name look like the label of a formula? -/
def isMarked (name : String) : Bool := Text.occursIn labelMarker.toList name.toList

end Position

end RelSmt
