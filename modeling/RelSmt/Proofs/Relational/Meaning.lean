import Mathlib.Data.List.DropRight
import RelSmt.Proofs.Term.Denotation
import RelSmt.Relational.Specification

/-!
# What relational expressions mean

A structure fixes the atoms, the atoms that stand for integers with their values, and the relations
of signatures and fields. In a structure every expression has a value, and variables have values by
identity. The values are those of terms: a relation is a set of tuples, a formula is true or false,
a count is a native integer.

The meaning is defined without regard to how expressions are lowered: operators act on sets of
tuples, declarations range over what their bound and multiplicity admit, and a call has the value of
the function's body at the arguments. Calls are followed to a given depth, which is enough for any
expression whose calls nest no deeper. Where no function has the name of a call, it may be that of an
operation on integers, which is carried out for all integers that its operands hold.
-/

namespace RelSmt.Relational

variable {E : Type}

/-- What signatures, fields, integers and the operations on these are. -/
structure Structure (E : Type) where
  atoms : Set E
  integers : Set E
  intOf : E → Int
  arithmetic : Arithmetic → Int → Int → Int
  signature : SigRef → Set (Tuple E)
  field : FieldRef → Set (Tuple E)
  functions : List Function

/-- What variables stand for. -/
abbrev Valuation (E : Type) := Var → Value E

namespace Valuation

/-- Another value for one variable. -/
def bind (δ : Valuation E) (v : Var) (a : Value E) : Valuation E := fun w => if w = v then a else δ w

/-- Other values for several variables, one after the other. -/
def bindAll (δ : Valuation E) : List Var → List (Value E) → Valuation E
  | v :: vs, a :: as => (δ.bind v a).bindAll vs as
  | _, _ => δ

@[simp] theorem bind_self (δ : Valuation E) (v : Var) (a : Value E) : δ.bind v a v = a := by
  simp [bind]

theorem bind_of_ne (δ : Valuation E) {v w : Var} (a : Value E) (h : w ≠ v) :
    δ.bind v a w = δ w := by
  simp [bind, h]

@[simp] theorem bindAll_nil (δ : Valuation E) (as : List (Value E)) : δ.bindAll [] as = δ := rfl

@[simp] theorem bindAll_cons (δ : Valuation E) (v : Var) (vs : List Var) (a : Value E)
    (as : List (Value E)) : δ.bindAll (v :: vs) (a :: as) = (δ.bind v a).bindAll vs as := rfl

theorem bindAll_of_not_mem {w : Var} : ∀ (vs : List Var) (as : List (Value E)) (δ : Valuation E),
    w ∉ vs → δ.bindAll vs as w = δ w
  | [], _, _, _ => rfl
  | _ :: _, [], _, _ => rfl
  | v :: vs, a :: as, δ, h => by
    simp only [List.mem_cons, not_or] at h
    rw [bindAll_cons, bindAll_of_not_mem vs as _ h.2, bind_of_ne δ a h.1]

theorem bindAll_append (δ : Valuation E) :
    ∀ (vs ws : List Var) (as bs : List (Value E)), vs.length = as.length →
      δ.bindAll (vs ++ ws) (as ++ bs) = (δ.bindAll vs as).bindAll ws bs
  | [], _, [], _, _ => rfl
  | v :: vs, ws, a :: as, bs, h => by
    simp only [List.cons_append, bindAll_cons]
    exact bindAll_append (δ.bind v a) vs ws as bs (by simpa using h)

end Valuation

/-! ## Operators -/

namespace Structure

variable (M : Structure E)

/-- The function that a name calls. Of several functions of a name the last one counts. -/
def function? (name : String) : Option Function := M.functions.reverse.find? fun f => f.name == name

/-- Is the value one integer, be it a native one or a set that holds a single atom for it? -/
def IsInteger (v : Value E) (n : Int) : Prop :=
  v = .int n ∨ ∃ e ∈ M.integers, v = .set {[.element e]} ∧ M.intOf e = n

/-- Are the values the same, or one integer in different forms? -/
def Equal (v w : Value E) : Prop := v = w ∨ ∃ n, M.IsInteger v n ∧ M.IsInteger w n

/-- Are both values one integer, and in this order? -/
def InOrder (c : Comparison) (v w : Value E) : Prop :=
  ∃ m n, M.IsInteger v m ∧ M.IsInteger w n ∧ c.Holds m n

/-- The pairs of an atom with itself. -/
def identity : Set (Tuple E) := {t | ∃ e ∈ M.atoms, t = [.element e, .element e]}

/-- A built-in constant. -/
def constant : Constant → Value E
  | .univ => .set {t | ∃ e ∈ M.atoms, t = [.element e]}
  | .none => .set ∅
  | .iden => .set M.identity
  | .ints => .set {t | ∃ e ∈ M.integers, t = [.element e]}
  | .true => .truth True
  | .false => .truth False

/-- A unary operator. -/
noncomputable def unary (op : UnaryOp) (v : Value E) : Value E :=
  match op with
  | .not => .truth (¬v.Holds)
  | .no => .truth (v.rows = ∅)
  | .some => .truth v.rows.Nonempty
  | .lone => .truth v.rows.Subsingleton
  | .one => .truth (∃ t, v.rows = {t})
  | .transpose => .set (reverseRows v.rows)
  | .closure => .set (closureRows v.rows)
  | .reflexiveClosure => .set (closureRows v.rows ∪ M.identity)
  | .card => .int v.rows.ncard
  | .setOf => v
  | .someOf => v
  | .loneOf => v
  | .oneOf => v
  | .group => v

/-- A binary operator. The first column of a tuple is what is left when one column is taken from the
front, the last when one is taken from behind. -/
def binary (op : BinaryOp) (v w : Value E) : Value E :=
  match op with
  | .join => .set (joinRows v.rows w.rows)
  | .arrow => .set (productRows v.rows w.rows)
  | .union => .set (v.rows ∪ w.rows)
  | .intersection => .set (v.rows ∩ w.rows)
  | .minus => .set (v.rows \ w.rows)
  | .override => .set ({t ∈ v.rows | ∀ u ∈ w.rows, u.take 1 ≠ t.take 1} ∪ w.rows)
  | .domainRestrict => .set {t ∈ w.rows | t.take 1 ∈ v.rows}
  | .rangeRestrict => .set {t ∈ v.rows | t.rtake 1 ∈ w.rows}
  | .isIn => .truth (v.rows ⊆ w.rows)
  | .notIn => .truth (¬v.rows ⊆ w.rows)
  | .eq => .truth (M.Equal v w)
  | .ne => .truth (¬M.Equal v w)
  | .and => .truth (v.Holds ∧ w.Holds)
  | .or => .truth (v.Holds ∨ w.Holds)
  | .implies => .truth (v.Holds → w.Holds)
  | .iff => .truth (v = w)
  | .lt => .truth (M.InOrder .lt v w)
  | .le => .truth (M.InOrder .le v w)
  | .gt => .truth (M.InOrder .gt v w)
  | .ge => .truth (M.InOrder .ge v w)

/-- Does the value hold the integer, be it as a native one or as an atom for it among others? -/
def HoldsInteger (v : Value E) (n : Int) : Prop :=
  v = .int n ∨ ∃ e ∈ M.integers, [.element e] ∈ v.rows ∧ M.intOf e = n

/-- An operation on integers gives all the results that it has on integers of its two operands. -/
def operation (op : Arithmetic) (v w : Value E) : Value E :=
  .set {t | ∃ e ∈ M.integers, t = [.element e] ∧
    ∃ m n, M.HoldsInteger v m ∧ M.HoldsInteger w n ∧ M.arithmetic op m n = M.intOf e}

end Structure

/-- The names of operations on integers. -/
def operationNames : List (String × Arithmetic) :=
  [("plus", .plus), ("add", .plus), ("minus", .minus), ("sub", .minus), ("mul", .times),
    ("div", .div), ("rem", .mod)]

/-- The operation that a name calls, be it with the name of the module of integers in front or
without. -/
def operation? (name : String) : Option Arithmetic :=
  (operationNames.find? fun o => name == o.1 || name == "integer/" ++ o.1).map Prod.snd

/-- A connective over a list. Over one formula it is that formula. -/
def ListOp.apply (op : ListOp) (vs : List (Value E)) : Value E :=
  match op, vs with
  | _, [v] => v
  | .and, vs => .truth (∀ v ∈ vs, v.Holds)
  | .or, vs => .truth (∃ v ∈ vs, v.Holds)

/-! ## Declarations -/

/-- May a variable of this multiplicity have this value, given what its bound holds? -/
def Multiplicity.Admits (m : Multiplicity) (bound : Set (Tuple E)) (a : Value E) : Prop :=
  match m with
  | .one => ∃ t ∈ bound, a = .set {t}
  | .some => ∃ r ⊆ bound, r.Nonempty ∧ a = .set r
  | .lone => ∃ r ⊆ bound, r.Subsingleton ∧ a = .set r
  | .set => ∃ r ⊆ bound, a = .set r
  | .no => False

/-- May variables declared together have these values? -/
structure Admitted (m : Multiplicity) (bound : Set (Tuple E)) (disjoint : Bool) (vs : List Var)
    (as : List (Value E)) : Prop where
  length : vs.length = as.length
  admits : ∀ a ∈ as, m.Admits bound a
  apart : disjoint = true → as.Pairwise fun a b => a.rows ∩ b.rows = ∅

/-- A quantifier over the choices of values that declarations allow, of which some satisfy the
body. -/
def Quantifier.Holds (q : Quantifier) (allowed : Set (List (Value E)))
    (body : List (Value E) → Prop) : Prop :=
  match q with
  | .all => ∀ as ∈ allowed, body as
  | .some => ∃ as ∈ allowed, body as
  | .no => ¬∃ as ∈ allowed, body as
  | .one => ∃! as, as ∈ allowed ∧ body as
  | .lone => ∀ as ∈ allowed, ∀ bs ∈ allowed, body as → body bs → as = bs
  | .comprehension => False

/-- Do values that each hold a single tuple make up this tuple, one after the other? -/
def MakeUp (as : List (Value E)) (t : Tuple E) : Prop :=
  ∃ us : List (Tuple E), as = us.map (fun u => .set {u}) ∧ t = us.flatten

/-! ## Expressions -/

/-- What calls mean: the value of a function at its arguments. -/
abbrev Callee (E : Type) := String → List (Value E) → Value E

mutual

/-- The value of an expression, given what calls mean. -/
noncomputable def meaningWith (M : Structure E) (call : Callee E) (e : Expr) (δ : Valuation E) :
    Value E :=
  match e with
  | .constant c => M.constant c
  | .number n => .set {t | ∃ e ∈ M.integers, M.intOf e = n ∧ t = [.element e]}
  | .sig s => if s.isInt then M.constant .ints else .set (M.signature s)
  | .field f => .set (M.field f)
  | .var v => δ v
  | .unary op e => M.unary op (meaningWith M call e δ)
  | .binary op l r => M.binary op (meaningWith M call l δ) (meaningWith M call r δ)
  | .list op es => op.apply (meaningsWith M call es δ)
  | .ite c y n =>
    open Classical in
    if (meaningWith M call c δ).Holds then meaningWith M call y δ else meaningWith M call n δ
  | .letIn v value body => meaningWith M call body (δ.bind v (meaningWith M call value δ))
  | .quantified .comprehension ds body =>
    .set {t | ∃ as ∈ allowedWith M call ds δ,
      (meaningWith M call body (δ.bindAll (ds.flatMap Decl.vars) as)).Holds ∧ MakeUp as t}
  | .quantified q ds body =>
    .truth (q.Holds (allowedWith M call ds δ) fun as =>
      (meaningWith M call body (δ.bindAll (ds.flatMap Decl.vars) as)).Holds)
  | .call name args _ => call name (meaningsWith M call args δ)

/-- The values of several expressions. -/
noncomputable def meaningsWith (M : Structure E) (call : Callee E) (es : List Expr)
    (δ : Valuation E) : List (Value E) :=
  match es with
  | [] => []
  | e :: es => meaningWith M call e δ :: meaningsWith M call es δ

/-- The values that declarations allow their variables to have, each bound taken under the
variables before it. -/
noncomputable def allowedWith (M : Structure E) (call : Callee E) (ds : List Decl)
    (δ : Valuation E) : Set (List (Value E)) :=
  match ds with
  | [] => {[]}
  | .mk vs m bound disjoint :: ds =>
    {cs | ∃ as bs, Admitted m (meaningWith M call bound δ).rows disjoint vs as ∧
      bs ∈ allowedWith M call ds (δ.bindAll vs as) ∧ cs = as ++ bs}

end

section Declarations

variable {M : Structure E} {call : Callee E} {δ : Valuation E} {vs ws : List Var} {ds : List Decl}
  {m : Multiplicity} {bound : Expr} {disjoint : Bool} {allowed : Set (List (Value E))}

/-- What declarations allow on top of what is allowed for `vs` before. -/
def allowedAfter (M : Structure E) (call : Callee E) (vs : List Var)
    (allowed : Set (List (Value E))) (ds : List Decl) (δ : Valuation E) : Set (List (Value E)) :=
  {cs | ∃ as ∈ allowed, ∃ bs ∈ allowedWith M call ds (δ.bindAll vs as), cs = as ++ bs}

theorem allowedAfter_empty : allowedAfter M call [] {[]} ds δ = allowedWith M call ds δ := by
  ext cs
  simp [allowedAfter]

theorem allowedAfter_nil : allowedAfter M call vs allowed [] δ = allowed := by
  ext cs
  simp [allowedAfter, allowedWith]

/-- Declarations allow what those after the first one do on top of what the first one admits. -/
theorem allowedAfter_cons (hlen : ∀ as ∈ allowed, vs.length = as.length) :
    allowedAfter M call vs allowed (.mk ws m bound disjoint :: ds) δ =
      allowedAfter M call (vs ++ ws) {es | ∃ as ∈ allowed, ∃ bs,
        Admitted m (meaningWith M call bound (δ.bindAll vs as)).rows disjoint ws bs ∧
          es = as ++ bs} ds δ := by
  have hbind : ∀ as ∈ allowed, ∀ bs, δ.bindAll (vs ++ ws) (as ++ bs)
      = (δ.bindAll vs as).bindAll ws bs := fun as has bs =>
    Valuation.bindAll_append _ _ _ _ _ (hlen as has)
  ext cs
  simp only [allowedAfter, allowedWith, Set.mem_ofPred_eq]
  constructor
  · rintro ⟨as, has, _, ⟨bs, es, hbs, hes, rfl⟩, rfl⟩
    rw [← hbind as has] at hes
    exact ⟨_, ⟨as, has, bs, hbs, rfl⟩, es, hes, (List.append_assoc _ _ _).symm⟩
  · rintro ⟨_, ⟨as, has, bs, hbs, rfl⟩, es, hes, rfl⟩
    rw [hbind as has] at hes
    exact ⟨as, has, _, ⟨bs, es, hbs, hes, rfl⟩, List.append_assoc _ _ _⟩

end Declarations

/-- What a call means, given what the bodies of functions do: the body of the function under its
parameters only, or an operation on integers if there is no function of the name. -/
def Structure.callee (M : Structure E) (value : Expr → Valuation E → Value E) : Callee E :=
  fun name as =>
    match M.function? name with
    | some f =>
      match f.body with
      | some body => value body (Valuation.bindAll (fun _ => default) f.params as)
      | none => default
    | none =>
      match operation? name, as with
      | some op, [v, w] => M.operation op v w
      | _, _ => default

theorem Structure.callee_of_function {M : Structure E} {value : Expr → Valuation E → Value E}
    {name : String} {f : Function} {body : Expr} (hf : M.function? name = some f)
    (hbody : f.body = some body) (as : List (Value E)) :
    M.callee value name as = value body (Valuation.bindAll (fun _ => default) f.params as) := by
  simp only [callee, hf, hbody]

theorem Structure.callee_of_operation {M : Structure E} {value : Expr → Valuation E → Value E}
    {name : String} {op : Arithmetic} (hnone : M.function? name = none) (hop : operation? name = some op)
    (v w : Value E) : M.callee value name [v, w] = M.operation op v w := by
  simp only [callee, hnone, hop]

/-- The value of an expression whose calls nest at most `depth` deep. -/
noncomputable def meaningWithin (M : Structure E) : Nat → Expr → Valuation E → Value E
  | 0 => meaningWith M (M.callee fun _ _ => default)
  | depth + 1 => meaningWith M (M.callee (meaningWithin M depth))

/-! ## Expressions without free variables, recursion and reused names -/

/-- May these variables be bound around a scope? They have different names, none of them in use. -/
def FreshIn (scope vs : List Var) : Prop :=
  (vs.map Var.name).Nodup ∧ ∀ v ∈ vs, ∀ w ∈ scope, v.name ≠ w.name

mutual

/-- Does the expression mention variables in scope only and bind no name again that is in scope?
Comprehensions are left out, and `callable` says which functions may be called. -/
def Expr.ScopedWith (callable : String → Prop) (scope : List Var) (e : Expr) : Prop :=
  match e with
  | .constant _ => True
  | .number _ => True
  | .sig _ => True
  | .field _ => True
  | .var v => v ∈ scope
  | .unary _ e => e.ScopedWith callable scope
  | .binary _ l r => l.ScopedWith callable scope ∧ r.ScopedWith callable scope
  | .list _ es => Expr.ScopedAll callable scope es
  | .ite c y n =>
    c.ScopedWith callable scope ∧ y.ScopedWith callable scope ∧ n.ScopedWith callable scope
  | .letIn v value body =>
    value.ScopedWith callable scope ∧ FreshIn scope [v] ∧ body.ScopedWith callable (scope ++ [v])
  | .quantified q ds body =>
    q ≠ .comprehension ∧ Expr.ScopedDecls callable scope ds ∧
      body.ScopedWith callable (scope ++ ds.flatMap Decl.vars)
  | .call name args _ => callable name ∧ Expr.ScopedAll callable scope args

/-- Are all these expressions scoped? -/
def Expr.ScopedAll (callable : String → Prop) (scope : List Var) (es : List Expr) : Prop :=
  match es with
  | [] => True
  | e :: es => e.ScopedWith callable scope ∧ Expr.ScopedAll callable scope es

/-- Is each bound scoped under the declarations before it? -/
def Expr.ScopedDecls (callable : String → Prop) (scope : List Var) (ds : List Decl) : Prop :=
  match ds with
  | [] => True
  | .mk vs _ bound _ :: ds =>
    bound.ScopedWith callable scope ∧ FreshIn scope vs ∧ Expr.ScopedDecls callable (scope ++ vs) ds

end

/-- Is the expression scoped, as are the bodies of the functions that it calls, which nest at most
`depth` deep? The body of a function has its parameters in scope and nothing else. -/
def Expr.ScopedWithin (M : Structure E) : Nat → List Var → Expr → Prop
  | 0 => Expr.ScopedWith fun _ => False
  | depth + 1 => Expr.ScopedWith fun name =>
    ∃ f body, M.function? name = some f ∧ f.body = some body ∧ FreshIn [] f.params ∧
      Expr.ScopedWithin M depth f.params body

end RelSmt.Relational
