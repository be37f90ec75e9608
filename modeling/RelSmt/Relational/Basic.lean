import RelSmt.Position

/-!
# Relational specifications

Signatures name sets of atoms, fields relate the atoms of a signature to others, and one language of
expressions covers relations and formulas alike: an expression is a formula when it has no columns.

Signatures, fields and variables have an identity. Two of them may share a label and still be
different, so each carries a number that tells it apart. Expressions mention signatures and fields by
reference; what a signature is a child of, or what bounds a field, is kept by the declaration.
-/

namespace RelSmt.Relational

/-- What a column of a relation holds. -/
inductive Column where
  | atom
  | int
deriving DecidableEq, Inhabited

/-- How many elements a set may have. -/
inductive Multiplicity where
  | some
  | one
  | lone
  | no
  | set
deriving DecidableEq

/-- The name of a multiplicity. -/
def Multiplicity.name : Multiplicity → String
  | .some => "Some"
  | .one => "One"
  | .lone => "Lone"
  | .no => "No"
  | .set => "Set"

/-- A reference to a signature: which one it is, its label, what its atoms are, and whether it is
the built-in signature of all integers. -/
structure SigRef where
  id : Nat
  label : String
  column : Column
  isInt : Bool := false
deriving DecidableEq

/-- A reference to a field with all its columns, that of the owner first. -/
structure FieldRef where
  id : Nat
  owner : SigRef
  label : String
  columns : List Column
deriving DecidableEq

/-- Which variable it is: one that a specification declares, the atom at hand in the field bounds of
a signature, or one that the lowering of a field brings in. -/
inductive VarId where
  | declared (n : Nat)
  | this (signature : Nat)
  | auxiliary (n : Nat)
deriving DecidableEq

/-- A variable bound by a quantifier, a `let` or a parameter list. -/
structure Var where
  id : VarId
  name : String
  columns : List Column
deriving DecidableEq

/-- The variable that stands for the owner's atom in the bounds of a signature's fields. -/
def SigRef.this (s : SigRef) : Var := ⟨.this s.id, "this", [s.column]⟩

/-- Built-in constants. -/
inductive Constant where
  | univ
  | none
  | iden
  | ints
  | true
  | false
deriving DecidableEq

/-- Operators on one expression. The `Of` operators mark a bound with a multiplicity, and `group`
has no meaning. -/
inductive UnaryOp where
  | not
  | no
  | some
  | lone
  | one
  | setOf
  | someOf
  | loneOf
  | oneOf
  | transpose
  | closure
  | reflexiveClosure
  | card
  | group
deriving DecidableEq

/-- The multiplicity that a bound marker stands for. -/
def UnaryOp.marker? : UnaryOp → Option Multiplicity
  | .setOf => Option.some .set
  | .someOf => Option.some .some
  | .loneOf => Option.some .lone
  | .oneOf => Option.some .one
  | _ => Option.none

/-- Operators on two expressions. -/
inductive BinaryOp where
  | join
  | arrow
  | union
  | intersection
  | minus
  | override
  | domainRestrict
  | rangeRestrict
  | isIn
  | notIn
  | eq
  | ne
  | and
  | or
  | implies
  | iff
  | lt
  | le
  | gt
  | ge
deriving DecidableEq

/-- Does the operator make a formula? -/
def BinaryOp.isFormula : BinaryOp → Bool
  | .join => false
  | .arrow => false
  | .union => false
  | .intersection => false
  | .minus => false
  | .override => false
  | .domainRestrict => false
  | .rangeRestrict => false
  | _ => true

/-- Connectives over any number of formulas. -/
inductive ListOp where
  | and
  | or
deriving DecidableEq

/-- Quantifiers, and set comprehension among them. -/
inductive Quantifier where
  | all
  | some
  | no
  | lone
  | one
  | comprehension
deriving DecidableEq

mutual

/-- A relational expression or a formula. -/
inductive Expr where
  | constant (c : Constant)
  | number (n : Int)
  | sig (s : SigRef)
  | field (f : FieldRef)
  | var (v : Var)
  | unary (op : UnaryOp) (e : Expr)
  | binary (op : BinaryOp) (left right : Expr)
  | list (op : ListOp) (es : List Expr)
  | ite (condition yes no : Expr)
  | letIn (v : Var) (value body : Expr)
  | quantified (q : Quantifier) (decls : List Decl) (body : Expr)
  | call (name : String) (args : List Expr) (columns : List Column)

/-- Variables declared together, as in `disj x, y : some e`. -/
inductive Decl where
  | mk (vars : List Var) (multiplicity : Multiplicity) (bound : Expr) (disjoint : Bool)

end

instance : Inhabited Expr := ⟨.constant .none⟩

instance : Inhabited Decl := ⟨.mk [] .one default false⟩

namespace Decl

/-- The declared variables. -/
def vars : Decl → List Var
  | .mk vs _ _ _ => vs

/-- How many elements of the bound each variable takes. -/
def multiplicity : Decl → Multiplicity
  | .mk _ m _ _ => m

/-- What the variables range over. -/
def bound : Decl → Expr
  | .mk _ _ e _ => e

/-- Are the variables pairwise disjoint? -/
def disjoint : Decl → Bool
  | .mk _ _ _ d => d

/-- The same declaration with its variables pairwise disjoint. -/
def makeDisjoint : Decl → Decl
  | .mk vs m e _ => .mk vs m e Bool.true

end Decl

namespace Expr

/-- The columns that are left when two relations are joined. -/
def joinColumns (left right : List Column) : List Column := left.dropLast ++ right.tail

/-- The columns of an expression; a formula has none. -/
def columns : Expr → List Column
  | .constant .univ => [.atom]
  | .constant .none => [.atom]
  | .constant .iden => [.atom, .atom]
  | .constant .ints => [.int]
  | .constant _ => []
  | .number _ => [.int]
  | .sig s => [s.column]
  | .field f => f.columns
  | .var v => v.columns
  | .unary op e =>
    match op with
    | .not => []
    | .no => []
    | .some => []
    | .lone => []
    | .one => []
    | .card => [.int]
    | .transpose => e.columns.reverse
    | _ => e.columns
  | .binary op l r =>
    match op with
    | .join => joinColumns l.columns r.columns
    | .arrow => l.columns ++ r.columns
    | .union => l.columns
    | .intersection => l.columns
    | .minus => l.columns
    | .override => l.columns
    | .domainRestrict => r.columns
    | .rangeRestrict => l.columns
    | _ => []
  | .list _ _ => []
  | .ite _ y _ => y.columns
  | .letIn _ _ body => body.columns
  | .quantified .comprehension decls _ => decls.flatMap fun d => d.vars.flatMap Var.columns
  | .quantified _ _ _ => []
  | .call _ _ cs => cs

/-- The number of columns. -/
def arity (e : Expr) : Nat := e.columns.length

/-- Is the expression a formula? -/
def isFormula (e : Expr) : Bool := e.columns.isEmpty

/-- A bound as its multiplicity and the expression that the multiplicity is about. Without a marker
a bound with one column is taken once, a wider one as a set. -/
def splitMarker (e : Expr) : Multiplicity × Expr :=
  let unmarked := (if e.arity = 1 then .one else .set, e)
  match e with
  | .unary op inner =>
    match op.marker? with
    | Option.some m => (m, inner)
    | Option.none => unmarked
  | _ => unmarked

/-! ## Equality -/

mutual

/-- Structural equality. -/
def beq : Expr → Expr → Bool
  | .constant a, .constant b => a == b
  | .number a, .number b => a == b
  | .sig a, .sig b => a == b
  | .field a, .field b => a == b
  | .var a, .var b => a == b
  | .unary op e, .unary op' e' => op == op' && beq e e'
  | .binary op l r, .binary op' l' r' => op == op' && beq l l' && beq r r'
  | .list op es, .list op' es' => op == op' && beqList es es'
  | .ite c y n, .ite c' y' n' => beq c c' && beq y y' && beq n n'
  | .letIn v e b, .letIn v' e' b' => v == v' && beq e e' && beq b b'
  | .quantified q ds b, .quantified q' ds' b' => q == q' && beqDecls ds ds' && beq b b'
  | .call f es cs, .call f' es' cs' => f == f' && beqList es es' && cs == cs'
  | _, _ => Bool.false

/-- Structural equality, expression by expression. -/
def beqList : List Expr → List Expr → Bool
  | [], [] => Bool.true
  | e :: es, e' :: es' => beq e e' && beqList es es'
  | _, _ => Bool.false

/-- Structural equality, declaration by declaration. -/
def beqDecls : List Decl → List Decl → Bool
  | [], [] => Bool.true
  | .mk vs m e d :: ds, .mk vs' m' e' d' :: ds' =>
    vs == vs' && m == m' && beq e e' && d == d' && beqDecls ds ds'
  | _, _ => Bool.false

end

instance : BEq Expr := ⟨beq⟩

/-! ## Substitution -/

mutual

/-- Puts `new` in the place of the free occurrences of a variable. Variables are told apart by
identity, so only a binder of that very variable hides it. -/
def substitute (e : Expr) (v : Var) (new : Expr) : Expr :=
  match e with
  | .constant c => .constant c
  | .number n => .number n
  | .sig s => .sig s
  | .field f => .field f
  | .var w => if w = v then new else .var w
  | .unary op e => .unary op (substitute e v new)
  | .binary op l r => .binary op (substitute l v new) (substitute r v new)
  | .list op es => .list op (substituteList es v new)
  | .ite c y n => .ite (substitute c v new) (substitute y v new) (substitute n v new)
  | .letIn w value body =>
    .letIn w (substitute value v new) (if w = v then body else substitute body v new)
  | .quantified q ds body =>
    .quantified q (substituteDecls ds v new)
      (if ds.any fun d => d.vars.contains v then body else substitute body v new)
  | .call f es cs => .call f (substituteList es v new) cs

/-- Substitution in several expressions. -/
def substituteList (es : List Expr) (v : Var) (new : Expr) : List Expr :=
  match es with
  | [] => []
  | e :: es => substitute e v new :: substituteList es v new

/-- Substitution in the bounds of declarations, up to and including the one that declares the
variable. -/
def substituteDecls (ds : List Decl) (v : Var) (new : Expr) : List Decl :=
  match ds with
  | [] => []
  | .mk vs m bound disjoint :: ds =>
    .mk vs m (substitute bound v new) disjoint
      -- from here on the name means the declared variable
      :: (if vs.contains v then ds else substituteDecls ds v new)

end

end Expr

end RelSmt.Relational
