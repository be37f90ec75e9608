import RelSmt.Program.Basic
import RelSmt.Term.Printer

/-!
# Scripts

The written form of programs, one command to a line. A comment stands on a line of its own before
its assertion, with line feeds turned into spaces so that it stays on that line. A script frames a
program by the options that finite models need and the request for an answer.
-/

namespace RelSmt

/-- The declaration of a sort. -/
def SortDeclaration.text (s : SortDeclaration) : String :=
  inParens ["declare-sort", Symbol.quote s.name, toString s.arity]

/-- A function definition. -/
def FunctionDefinition.text (d : FunctionDefinition) : String :=
  inParens ["define-fun", Symbol.quote d.name, inParens (d.inputs.map Variable.text),
    d.output.text, d.body.text]

/-- A declaration or definition. -/
def FunctionItem.text : FunctionItem → String
  | .declared f => f.text
  | .defined d => d.text

/-- The line of a comment; an empty comment has none. -/
def commentLine (comment : String) : String :=
  if comment.isEmpty then ""
  else "; " ++ String.ofList (comment.toList.map fun c => if c = '\n' then ' ' else c) ++ "\n"

/-- An assertion with its comment. Labels are always quoted. -/
def Assertion.text (a : Assertion) : String :=
  commentLine a.comment ++ inParens ["assert",
    match a.label with
    | some label => inParens ["!", a.formula.text, ":named", "|" ++ label ++ "|"]
    | none => a.formula.text]

/-- Lines, each ended by a line feed. -/
def unlines (lines : List String) : String := String.join (lines.map (· ++ "\n"))

namespace Program

/-- The commands of a program in order. -/
def lines (p : Program) : List String :=
  p.sorts.map SortDeclaration.text ++ p.functions.map FunctionItem.text
    ++ p.assertions.map Assertion.text

/-- A program as a list of commands. -/
def text (p : Program) : String := unlines p.lines

/-- The whole script for a program, which may ask for unsat cores. -/
def script (p : Program) (cores : Bool) : String :=
  unlines (["(set-logic ALL)", "(set-option :produce-models true)",
      "(set-option :finite-model-find true)"]
    ++ (if cores then ["(set-option :produce-unsat-cores true)"] else []))
  ++ p.text ++ unlines ["(check-sat)"]

end Program

end RelSmt
