import RelSmt.Term.Basic
import RelSmt.SExpr.Reader

/-!
# Faults

Everything that can go wrong, by cause. A fault keeps the terms, sorts and names that it is about;
`RelSmt.Fault.Message` puts it into words.

Faults fall into three classes. Most are faults of a *definition*: ill-sorted terms, names that
resolve to nothing, unsupported forms, text that does not parse. Faults of *evaluation* concern one
model only. A *violation* is a misuse of the library's own constructors, such as a union of relations
of different arity.
-/

namespace RelSmt

/-- Ways in which sorts do not fit. -/
inductive SortFault where
  | setElement (sort : SmtSort)
  | connective (op : Connective) (left right : SmtSort)
  | equality (left right : SmtSort)
  | integers (op : BinaryOp) (left right : SmtSort)
  | sets (op : BinaryOp) (left right : SmtSort)
  | membership (left right : SmtSort)
  | relations (op : BinaryOp) (left right : SmtSort)
  | joinColumns (left right : SmtSort)
  | emptyJoin (left right : SmtSort)
  | mixedClosure (sort : SmtSort)
  | unary (op : UnaryOp) (sort : SmtSort)
  | element (sort : SmtSort)
  | emptySet (sort : SmtSort)
  | fullSet (sort : SmtSort)
  | iteCondition (sort : SmtSort)
  | iteBranches (yes no : SmtSort)
  | noOperands (op : NaryOp)
  | operand (op : NaryOp) (sort : SmtSort)
  | noBinders (q : Quantifier)
  | body (q : Quantifier) (sort : SmtSort)
  | argument (function : String) (actual declared : SmtSort)
  | substitution (replacement : Term) (v : Variable)
  | constraint (name : String) (sort : SmtSort)
  | definition (name : String) (actual declared : SmtSort)
  | assertion (sort : SmtSort)
  | notFormula (sort : SmtSort)
  | notInteger (t : Term)
  | arithmeticOperand (t : Term)
  | bound (t : Term)
  | cardinality (t : Term)

/-- Names that resolve to nothing. -/
inductive Missing where
  | signature (label : String)
  | field (signature label : String)
  | variable (name : String)
  | function (name : String)
  | functionBody (name : String)
  | command (label : String)

/-- Forms outside the supported fragment. -/
inductive Unsupported where
  | head (x : SExpr)
  | operator (symbol : String)
  | ascription (x : SExpr)
  | emptyDeclaration (name : String)
  | comprehension (multiplicity : String)
  | comprehensionFormula

/-- Text that does not read as what it should be. -/
inductive ParseFault where
  | syntaxError (e : SyntaxError)
  | operands (symbol : String) (expected actual : Nat)
  | binders (x : SExpr)
  | binder (x : SExpr)
  | integerRange (n : Nat)
  | emptyApplication
  | sortDeclaration (x : SExpr)
  | sortArity (x : SExpr)
  | functionName (x : SExpr)
  | modelItem (x : SExpr)
  | valueList
  | valuePair (x : SExpr)
  | labelList
  | label (x : SExpr)
  | reply (text : String)

/-- Terms that a model gives no value. -/
inductive EvaluationFault where
  | quantified (t : Term)
  | noDefinition (name : String)
  | noValue (name : String)
  | unapplied (name : String)
  | overflow (op : Arithmetic) (a b : Int)
  | zeroDivisor (op : Arithmetic) (a : Int)
  | callDepth (name : String)
  | notInModel (name label : String)

/-- Values that are not in the normal form that instances are read from. -/
inductive NormalFormFault where
  | notSet (t : Term)
  | notAtomTuple (t : Term)
  | notAtom (t : Term)
  | notIntegerValue (element : String)

/-- Misuse of the constructors of relational specifications. -/
inductive Violation where
  | noColumns
  | signatureMultiplicity (multiplicity : String)
  | noParent
  | fieldFormula
  | variableColumns
  | noLabel
  | noVariable
  | variableArity (name : String) (arity bound : Nat)
  | operandArity (op : String) (left right : Nat)
  | joinArity (left right : Nat)
  | notBinary (op : String)
  | noDeclaration

/-- What went wrong. -/
inductive Fault where
  | sortMismatch (cause : SortFault)
  | arityMismatch (function : String) (expected actual : Nat)
  | unresolved (name : Missing)
  | undefinedVariable (name : String)
  | unsupportedOperator (cause : Unsupported)
  | unsupportedSort (name : String)
  | recursiveCall (function : String)
  | capture (v : Variable) (t : Term)
  | parse (cause : ParseFault)
  | evaluation (cause : EvaluationFault)
  | malformedModel (cause : NormalFormFault)
  | violation (cause : Violation)

/-- Results of operations that can fail. -/
abbrev Checked (α : Type) := Except Fault α

/-- How far a fault reaches. -/
inductive Fault.Class where
  | definition
  | evaluation
  | misuse
deriving DecidableEq

/-- The class of a fault. -/
def Fault.kind : Fault → Fault.Class
  | .evaluation _ => .evaluation
  | .malformedModel _ => .evaluation
  | .violation _ => .misuse
  | _ => .definition

end RelSmt
