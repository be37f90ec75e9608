import RelSmt.Lowering.Expr

/-!
# Lowering fields

Each field becomes a constant relation whose first column is its signature. What its bound demands is
said by two relational formulas, so that multiplicities and declarations are lowered in one place.
For a field `f` of `S` with bound `e`:

* for each `this` in `S`, the values of `f` at `this` are some `s` taken from `e` as its multiplicity
  says: `all this : one S | some s : e | this <: f = this -> s`;
* `f in S -> e`, with `S` in the place of `this`.
-/

namespace RelSmt.Lowering

/-- The name of a field's constant. -/
def fieldName (f : Relational.FieldRef) : String := f.owner.label ++ "/" ++ f.label

/-- Declares the constant of a field. -/
def declareField (f : Relational.Field) : Lower Unit := do
  let symbol := FunctionSymbol.constant (fieldName f.ref) (relationSort f.ref.columns)
  declare symbol
  modify fun st => { st with fields := st.fields ++ [(f.ref, symbol)] }

/-- The values of a field at each atom are taken from the bound as its multiplicity says. -/
def valuesFormula (f : Relational.Field) : Relational.Expr :=
  let this := f.ref.owner.this
  let s : Relational.Var := ⟨.auxiliary 0, "s", f.bound.columns⟩
  let (m, bound) := f.bound.splitMarker
  .quantified .all [.mk [this] .one (.sig f.ref.owner) false]
    (.quantified .some [.mk [s] m bound false]
      (.binary .eq (.binary .domainRestrict (.var this) (.field f.ref))
        (.binary .arrow (.var this) (.var s))))

/-- A field relates atoms of its signature to what the bound is for the whole signature. -/
def rangeFormula (f : Relational.Field) : Relational.Expr :=
  let owner : Relational.Expr := .sig f.ref.owner
  .binary .isIn (.field f.ref)
    (.binary .arrow owner (f.bound.splitMarker.2.substitute f.ref.owner.this owner))

/-- Different atoms have disjoint values: `all disj a, b : S | no a.f & b.f`. -/
def disjointValuesFormula (f : Relational.Field) : Relational.Expr :=
  let a : Relational.Var := ⟨.auxiliary 1, "a", [f.ref.owner.column]⟩
  let b : Relational.Var := ⟨.auxiliary 2, "b", [f.ref.owner.column]⟩
  .quantified .all [.mk [a, b] .one (.sig f.ref.owner) true]
    (.unary .no (.binary .intersection (.binary .join (.var a) (.field f.ref))
      (.binary .join (.var b) (.field f.ref))))

/-- Asserts a formula about a field. -/
def assertField (f : Relational.Field) (what : String) (e : Relational.Expr) : Lower Unit := do
  assert s!"{f.ref.label} {what}" (← formula e)

/-- Asserts what the bound of a field demands. -/
def assertBound (f : Relational.Field) : Lower Unit := do
  assertField f "multiplicity" (valuesFormula f)
  assertField f "subset" (rangeFormula f)

/-- Asserts that two fields have no tuple in common. -/
def assertDisjointFields (a b : Relational.Field) : Lower Unit := do
  let formula ← disjointSets (← field a.ref) (← field b.ref)
  assert s!"{a.ref.label} and {b.ref.label} are disjoint" formula

/-- Asserts what a group of fields demands. -/
def assertGroup (g : Relational.FieldGroup) : Lower Unit := do
  g.fields.forM assertBound
  if g.disjoint then (pairs g.fields).forM fun p => assertDisjointFields p.1 p.2
  if g.disjointValues then
    g.fields.forM fun f => assertField f "has disjoint values" (disjointValuesFormula f)

/-- Lowers the fields of a specification. All are declared before any bound is lowered, so a bound
may mention fields further on. -/
def fields (groups : List Relational.FieldGroup) : Lower Unit := do
  groups.forM fun g => g.fields.forM declareField
  groups.forM assertGroup

end RelSmt.Lowering
