import RelSmt.Fault
import RelSmt.Term.Printer

/-!
# Faults in words

One wording per cause. A fault of a definition or of an evaluation opens with its subject, then a
colon; a violation is told in its own words.
-/

namespace RelSmt

/-- What does not fit. -/
def SortFault.text : SortFault → String
  | .setElement s => s!"set element sort must be a tuple, got {s}"
  | .connective op l r => s!"{op.text} expects Bool operands, got {l} and {r}"
  | .equality l r => s!"= between {l} and {r}"
  | .integers op l r => s!"{op.text} expects Int operands, got {l} and {r}"
  | .sets op l r => s!"{op.text} expects two sets of the same sort, got {l} and {r}"
  | .membership l r => s!"member of {l} in {r}"
  | .relations op l r => s!"{op.text} expects two relations, got {l} and {r}"
  | .joinColumns l r => s!"join columns do not agree: {l} and {r}"
  | .emptyJoin l r => s!"join of {l} and {r} has no columns"
  | .mixedClosure s => s!"tclosure over mixed columns {s}"
  | .unary op s => s!"{op.text} applied to {s}"
  | .element s => s!"{s} is not an uninterpreted sort"
  | .emptySet s => s!"emptyset of non-set sort {s}"
  | .fullSet s => s!"univset of non-set sort {s}"
  | .iteCondition s => s!"ite condition has sort {s}"
  | .iteBranches y n => s!"ite branches have sorts {y} and {n}"
  | .noOperands op => s!"{op.text} needs at least one operand"
  | .operand op s => s!"{op.text} operand of sort {s}"
  | .noBinders q => s!"{q.text} without bound variables"
  | .body q s => s!"{q.text} body has sort {s}"
  | .argument f actual declared =>
    s!"argument of '{f}' has sort {actual} but {declared} was declared"
  | .substitution t v =>
    s!"cannot substitute {t} of sort {t.sort} for '{v.name}' of sort {v.sort}"
  | .constraint name s => s!"constraint of '{name}' must be Bool, got {s}"
  | .definition name actual declared =>
    s!"body of '{name}' has sort {actual} but {declared} was declared"
  | .assertion s => s!"assertion must be Bool, got {s}"
  | .notFormula s => s!"expected a formula, got a term of sort {s}"
  | .notInteger t => s!"expected an integer, got {t} of sort {t.sort}"
  | .arithmeticOperand t => s!"arithmetic operand {t} has sort {t.sort}"
  | .bound t => s!"quantifier bound {t} is not a set"
  | .cardinality t => s!"cardinality of non-set {t}"

/-- What was looked for. -/
def Missing.text : Missing → String
  | .signature label => label
  | .field sig label => s!"{sig}/{label}"
  | .variable name => name
  | .function name => name
  | .functionBody name => s!"{name} has no body"
  | .command label => s!"command {label}"

/-- What is not supported. -/
def Unsupported.text : Unsupported → String
  | .head x => x.text
  | .operator symbol => symbol
  | .ascription x => s!"as {x}"
  | .emptyDeclaration name => s!"'no' declaration of {name}"
  | .comprehension multiplicity => s!"comprehension over {multiplicity} declarations"
  | .comprehensionFormula => "comprehension in formula position"

/-- What does not read. -/
def ParseFault.text : ParseFault → String
  | .syntaxError e => e.text
  | .operands symbol expected actual => s!"'{symbol}' expects {expected} operands, got {actual}"
  | .binders x => s!"expected a binder list, got {x}"
  | .binder x => s!"bad binder {x}"
  | .integerRange n => s!"integer {n} out of range"
  | .emptyApplication => "empty application"
  | .sortDeclaration x => s!"bad sort declaration {x}"
  | .sortArity x => s!"bad sort arity {x}"
  | .functionName x => s!"bad function name in {x}"
  | .modelItem x => s!"unexpected model item {x}"
  | .valueList => "expected one list of (term value) pairs"
  | .valuePair x => s!"expected a (term value) pair, got {x}"
  | .labelList => "expected one list of labels"
  | .label x => s!"bad core label {x}"
  | .reply text => s!"unexpected check-sat reply '{text}'"

/-- What has no value. -/
def EvaluationFault.text : EvaluationFault → String
  | .quantified t => s!"cannot evaluate quantified term {t}"
  | .noDefinition name => s!"no definition for '{name}'"
  | .noValue name => s!"no value for '{name}'"
  | .unapplied name => s!"function '{name}' used without arguments"
  | .overflow op a b => s!"integer overflow in ({op.text} {a} {b})"
  | .zeroDivisor op a => s!"({op.text} {a} 0) is unspecified"
  | .callDepth name => s!"calls nested too deeply at '{name}'"
  | .notInModel name label => s!"no definition of '{name}' for '{label}' in the model"

/-- What is not in normal form. -/
def NormalFormFault.text : NormalFormFault → String
  | .notSet t => s!"{t} is not a set value"
  | .notAtomTuple t => s!"{t} is not a tuple of atoms"
  | .notAtom t => s!"{t} is not an atom"
  | .notIntegerValue name => s!"intValue({name}) is not an integer"

/-- Which rule of construction was broken. -/
def Violation.text : Violation → String
  | .noColumns => "relation needs at least one column"
  | .signatureMultiplicity m => s!"signature multiplicity must be one, lone or some, got {m}"
  | .noParent => "subset signature needs a parent"
  | .fieldFormula => "field bound must be a relational expression"
  | .variableColumns => "variable needs at least one column"
  | .noLabel => "field declaration needs a label"
  | .noVariable => "declaration needs a variable"
  | .variableArity name arity bound =>
    s!"variable {name} has arity {arity} but its bound has arity {bound}"
  | .operandArity op l r => s!"Incompatible arities for {op}: {l} and {r}"
  | .joinArity l r => s!"Join would result in arity < 1: {l} + {r} - 2"
  | .notBinary op => s!"{op} requires arity 2"
  | .noDeclaration => "quantifier needs a declaration"

/-- The message of a fault. -/
def Fault.message : Fault → String
  | .sortMismatch cause => "sort mismatch: " ++ cause.text
  | .arityMismatch f expected actual =>
    s!"function '{f}' expects {expected} arguments but {actual} were passed"
  | .unresolved name => "unresolved name: " ++ name.text
  | .undefinedVariable name => s!"the variable '{name}' is undefined"
  | .unsupportedOperator cause => "unsupported operator: " ++ cause.text
  | .unsupportedSort name => s!"unknown sort '{name}'"
  | .recursiveCall f => s!"recursive call to function '{f}' cannot be inlined"
  | .capture v t => s!"variable '{v.name}' would be captured in '{t}'"
  | .parse cause => "parse error: " ++ cause.text
  | .evaluation cause => "evaluation error: " ++ cause.text
  | .malformedModel cause => "malformed model: " ++ cause.text
  | .violation cause => cause.text

end RelSmt
