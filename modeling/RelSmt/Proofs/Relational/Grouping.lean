import Mathlib.Data.List.Forall2
import RelSmt.Proofs.Relational.Columns

/-!
# Grouping

A group may be dropped anywhere in an expression. One expression comes from another by dropping
groups (`Expr.Ungroups`), and a declaration either keeps its multiplicity or is made anew from its
bound, which is then to say the same multiplicity as before: a group hides the marker under it, so
that a bound may say another one without it.

Two such expressions are equal once groups and markers are dropped throughout, which is their *bare*
form. That form keeps columns and is kept by substitution.
-/

namespace RelSmt.Relational

/-! ## Dropping groups -/

mutual

/-- Is the second expression the first with groups dropped? -/
inductive Expr.Ungroups : Expr → Expr → Prop where
  | group {e e'} (h : Expr.Ungroups e e') : Expr.Ungroups (.unary .group e) e'
  | constant (c) : Expr.Ungroups (.constant c) (.constant c)
  | number (n) : Expr.Ungroups (.number n) (.number n)
  | sig (r) : Expr.Ungroups (.sig r) (.sig r)
  | field (f) : Expr.Ungroups (.field f) (.field f)
  | var (v) : Expr.Ungroups (.var v) (.var v)
  | unary {op e e'} (h : Expr.Ungroups e e') : Expr.Ungroups (.unary op e) (.unary op e')
  | binary {op l l' r r'} (hl : Expr.Ungroups l l') (hr : Expr.Ungroups r r') :
      Expr.Ungroups (.binary op l r) (.binary op l' r')
  | list {op es es'} (h : Expr.UngroupsAll es es') : Expr.Ungroups (.list op es) (.list op es')
  | ite {c c' y y' n n'} (hc : Expr.Ungroups c c') (hy : Expr.Ungroups y y')
      (hn : Expr.Ungroups n n') : Expr.Ungroups (.ite c y n) (.ite c' y' n')
  | letIn {v value value' body body'} (hvalue : Expr.Ungroups value value')
      (hbody : Expr.Ungroups body body') :
      Expr.Ungroups (.letIn v value body) (.letIn v value' body')
  | quantified {q ds ds' body body'} (hds : Decl.UngroupsAll ds ds')
      (hbody : Expr.Ungroups body body') :
      Expr.Ungroups (.quantified q ds body) (.quantified q ds' body')
  | call {name args args' columns} (h : Expr.UngroupsAll args args') :
      Expr.Ungroups (.call name args columns) (.call name args' columns)

/-- The same, expression by expression. -/
inductive Expr.UngroupsAll : List Expr → List Expr → Prop where
  | nil : Expr.UngroupsAll [] []
  | cons {e e' es es'} (h : Expr.Ungroups e e') (hs : Expr.UngroupsAll es es') :
      Expr.UngroupsAll (e :: es) (e' :: es')

/-- The same, declaration by declaration. A declaration keeps its multiplicity, or both are made
from bounds that say one multiplicity. -/
inductive Decl.UngroupsAll : List Decl → List Decl → Prop where
  | nil : Decl.UngroupsAll [] []
  | kept {vs m bound bound' disjoint ds ds'} (h : Expr.Ungroups bound bound')
      (hs : Decl.UngroupsAll ds ds') :
      Decl.UngroupsAll (.mk vs m bound disjoint :: ds) (.mk vs m bound' disjoint :: ds')
  | rebuilt {vs bound bound' disjoint ds ds'} (h : Expr.Ungroups bound bound')
      (hm : bound'.splitMarker.1 = bound.splitMarker.1) (hs : Decl.UngroupsAll ds ds') :
      Decl.UngroupsAll (.mk vs bound.splitMarker.1 bound.splitMarker.2 disjoint :: ds)
        (.mk vs bound'.splitMarker.1 bound'.splitMarker.2 disjoint :: ds')

end

/-- Is the second field the first with groups dropped in its bound, which says the same multiplicity
as before? -/
structure Field.Ungroups (f f' : Field) : Prop where
  ref : f'.ref = f.ref
  position : f'.position = f.position
  bound : f.bound.Ungroups f'.bound
  multiplicity : f'.bound.splitMarker.1 = f.bound.splitMarker.1

/-- Is the second group of fields the first with groups dropped in bounds? -/
structure FieldGroup.Ungroups (g g' : FieldGroup) : Prop where
  fields : List.Forall₂ Field.Ungroups g.fields g'.fields
  disjoint : g'.disjoint = g.disjoint
  disjointValues : g'.disjointValues = g.disjointValues

/-- Is the second function the first with groups dropped in its body? -/
structure Function.Ungroups (f f' : Function) : Prop where
  name : f'.name = f.name
  params : f'.params = f.params
  returns : f'.returns = f.returns
  position : f'.position = f.position
  body : Option.Rel Expr.Ungroups f.body f'.body

/-- Is the second fact the first with groups dropped? -/
structure Fact.Ungroups (f f' : Fact) : Prop where
  label : f'.label = f.label
  position : f'.position = f.position
  formula : f.formula.Ungroups f'.formula

/-- Is the second command the first with groups dropped? -/
structure Command.Ungroups (c c' : Command) : Prop where
  label : c'.label = c.label
  check : c'.check = c.check
  position : c'.position = c.position
  formula : c.formula.Ungroups c'.formula

/-- Is the second specification the first with groups dropped in bounds, bodies, facts and
commands? -/
structure Specification.Ungroups (spec spec' : Specification) : Prop where
  signatures : spec'.signatures = spec.signatures
  fieldGroups : List.Forall₂ FieldGroup.Ungroups spec.fieldGroups spec'.fieldGroups
  functions : List.Forall₂ Function.Ungroups spec.functions spec'.functions
  facts : List.Forall₂ Fact.Ungroups spec.facts spec'.facts
  commands : List.Forall₂ Command.Ungroups spec.commands spec'.commands

/-! ### Nothing dropped -/

mutual

theorem Expr.Ungroups.refl : ∀ e : Expr, e.Ungroups e
  | .constant c => .constant c
  | .number n => .number n
  | .sig r => .sig r
  | .field f => .field f
  | .var v => .var v
  | .unary _ e => .unary (Expr.Ungroups.refl e)
  | .binary _ l r => .binary (Expr.Ungroups.refl l) (Expr.Ungroups.refl r)
  | .list _ es => .list (Expr.UngroupsAll.refl es)
  | .ite c y n => .ite (Expr.Ungroups.refl c) (Expr.Ungroups.refl y) (Expr.Ungroups.refl n)
  | .letIn _ value body => .letIn (Expr.Ungroups.refl value) (Expr.Ungroups.refl body)
  | .quantified _ ds body => .quantified (Decl.UngroupsAll.refl ds) (Expr.Ungroups.refl body)
  | .call _ args _ => .call (Expr.UngroupsAll.refl args)

theorem Expr.UngroupsAll.refl : ∀ es : List Expr, Expr.UngroupsAll es es
  | [] => .nil
  | e :: es => .cons (Expr.Ungroups.refl e) (Expr.UngroupsAll.refl es)

theorem Decl.UngroupsAll.refl : ∀ ds : List Decl, Decl.UngroupsAll ds ds
  | [] => .nil
  | .mk _ _ bound _ :: ds => .kept (Expr.Ungroups.refl bound) (Decl.UngroupsAll.refl ds)

end

theorem FieldGroup.Ungroups.refl (g : FieldGroup) : g.Ungroups g :=
  ⟨List.forall₂_same.2 fun f _ => ⟨rfl, rfl, .refl f.bound, rfl⟩, rfl, rfl⟩

theorem Fact.Ungroups.refl (f : Fact) : f.Ungroups f := ⟨rfl, rfl, .refl f.formula⟩

theorem Command.Ungroups.refl (c : Command) : c.Ungroups c := ⟨rfl, rfl, rfl, .refl c.formula⟩

/-! ## Bare expressions -/

/-- Is the operator a group or a marker of bounds? -/
def UnaryOp.isBlank (op : UnaryOp) : Bool := op == .group || op.marker?.isSome

mutual

/-- The expression without groups and markers. -/
def Expr.bare : Expr → Expr
  | .constant c => .constant c
  | .number n => .number n
  | .sig r => .sig r
  | .field f => .field f
  | .var v => .var v
  | .unary op e => if op.isBlank then Expr.bare e else .unary op (Expr.bare e)
  | .binary op l r => .binary op (Expr.bare l) (Expr.bare r)
  | .list op es => .list op (Expr.bareAll es)
  | .ite c y n => .ite (Expr.bare c) (Expr.bare y) (Expr.bare n)
  | .letIn v value body => .letIn v (Expr.bare value) (Expr.bare body)
  | .quantified q ds body => .quantified q (Decl.bareAll ds) (Expr.bare body)
  | .call name args columns => .call name (Expr.bareAll args) columns

/-- Several expressions without groups and markers. -/
def Expr.bareAll : List Expr → List Expr
  | [] => []
  | e :: es => Expr.bare e :: Expr.bareAll es

/-- Declarations whose bounds are without groups and markers. -/
def Decl.bareAll : List Decl → List Decl
  | [] => []
  | .mk vs m bound disjoint :: ds => .mk vs m (Expr.bare bound) disjoint :: Decl.bareAll ds

end

/-- The function with a bare body. -/
def Function.bare (f : Function) : Function := { f with body := f.body.map Expr.bare }

theorem Expr.bare_splitMarker (e : Expr) : e.splitMarker.2.bare = e.bare := by
  cases e with
  | unary op e => cases op <;> rfl
  | _ => rfl

theorem Expr.length_bareAll : ∀ es : List Expr, (Expr.bareAll es).length = es.length
  | [] => rfl
  | _ :: es => congrArg Nat.succ (Expr.length_bareAll es)

/-- The declared variables are the same. -/
theorem Decl.vars_bareAll : ∀ ds : List Decl, (Decl.bareAll ds).map Decl.vars = ds.map Decl.vars
  | [] => rfl
  | .mk _ _ _ _ :: ds => congrArg (List.cons _) (Decl.vars_bareAll ds)

theorem Decl.flatMap_bareAll {α : Type} (f : Var → List α) (ds : List Decl) :
    ((Decl.bareAll ds).flatMap fun d => d.vars.flatMap f) = ds.flatMap fun d => d.vars.flatMap f := by
  have hmap : ∀ ds : List Decl, (ds.flatMap fun d => d.vars.flatMap f)
      = (ds.map Decl.vars).flatMap fun vs => vs.flatMap f :=
    fun ds => (List.flatMap_map Decl.vars (fun vs => vs.flatMap f) ds).symm
  rw [hmap, hmap, Decl.vars_bareAll]

/-- The columns of an expression are those of its bare form. -/
theorem Expr.columns_bare : ∀ e : Expr, e.bare.columns = e.columns
  | .constant _ => rfl
  | .number _ => rfl
  | .sig _ => rfl
  | .field _ => rfl
  | .var _ => rfl
  | .unary op e => by
    have he := Expr.columns_bare e
    cases op <;> simp [bare, UnaryOp.isBlank, UnaryOp.marker?, columns, he]
  | .binary op l r => by
    have hl := Expr.columns_bare l
    have hr := Expr.columns_bare r
    cases op <;> simp [bare, columns, hl, hr]
  | .list _ _ => by simp [bare, columns]
  | .ite _ y _ => by
    have hy := Expr.columns_bare y
    simp [bare, columns, hy]
  | .letIn _ _ body => by
    have hbody := Expr.columns_bare body
    simp [bare, columns, hbody]
  | .quantified q ds _ => by
    cases q <;> simp [bare, columns, Decl.flatMap_bareAll]
  | .call _ _ _ => by simp [bare, columns]

/-! ## Substitution -/

section

variable {v : Var} {new : Expr}

theorem Decl.any_bareAll (ds : List Decl) :
    ((Decl.bareAll ds).any fun d => d.vars.contains v) = ds.any fun d => d.vars.contains v := by
  have hmap : ∀ ds : List Decl, (ds.any fun d => d.vars.contains v)
      = (ds.map Decl.vars).any fun vs => vs.contains v :=
    fun ds => (List.any_map).symm
  rw [hmap, hmap, Decl.vars_bareAll]

mutual

/-- Substitution in a bare expression is substitution in the expression, made bare. -/
theorem Expr.bare_substitute : ∀ e : Expr,
    (e.substitute v new).bare = e.bare.substitute v new.bare
  | .constant _ => rfl
  | .number _ => rfl
  | .sig _ => rfl
  | .field _ => rfl
  | .var w => by
    simp only [substitute, bare]
    split
    · rfl
    · rfl
  | .unary op e => by
    simp only [substitute, bare, Expr.bare_substitute e]
    split
    · rfl
    · rfl
  | .binary _ l r => by
    simp only [substitute, bare, Expr.bare_substitute l, Expr.bare_substitute r]
  | .list _ es => by
    simp only [substitute, bare, Expr.bareAll_substituteList es]
  | .ite c y n => by
    simp only [substitute, bare, Expr.bare_substitute c, Expr.bare_substitute y,
      Expr.bare_substitute n]
  | .letIn w value body => by
    simp only [substitute, bare, apply_ite Expr.bare, Expr.bare_substitute value,
      Expr.bare_substitute body]
  | .quantified _ ds body => by
    simp only [substitute, bare, apply_ite Expr.bare, Decl.any_bareAll,
      Expr.bareAll_substituteDecls ds, Expr.bare_substitute body]
  | .call _ args _ => by
    simp only [substitute, bare, Expr.bareAll_substituteList args]

theorem Expr.bareAll_substituteList : ∀ es : List Expr,
    Expr.bareAll (Expr.substituteList es v new)
      = Expr.substituteList (Expr.bareAll es) v new.bare
  | [] => rfl
  | e :: es => by
    simp only [substituteList, bareAll, Expr.bare_substitute e, Expr.bareAll_substituteList es]

theorem Expr.bareAll_substituteDecls : ∀ ds : List Decl,
    Decl.bareAll (Expr.substituteDecls ds v new)
      = Expr.substituteDecls (Decl.bareAll ds) v new.bare
  | [] => rfl
  | .mk vs m bound disjoint :: ds => by
    simp only [substituteDecls, Decl.bareAll, apply_ite Decl.bareAll, Expr.bare_substitute bound,
      Expr.bareAll_substituteDecls ds]

end

end

/-! ## Dropped groups are not seen -/

mutual

/-- Dropping groups keeps the bare form. -/
theorem Expr.Ungroups.bare_eq : ∀ {e e' : Expr}, e.Ungroups e' → e'.bare = e.bare
  | _, _, .group h => by
    rw [Expr.Ungroups.bare_eq h]
    rfl
  | _, _, .constant _ => rfl
  | _, _, .number _ => rfl
  | _, _, .sig _ => rfl
  | _, _, .field _ => rfl
  | _, _, .var _ => rfl
  | _, _, .unary h => by rw [Expr.bare, Expr.bare, Expr.Ungroups.bare_eq h]
  | _, _, .binary hl hr => by
    rw [Expr.bare, Expr.bare, Expr.Ungroups.bare_eq hl, Expr.Ungroups.bare_eq hr]
  | _, _, .list h => by rw [Expr.bare, Expr.bare, Expr.UngroupsAll.bareAll_eq h]
  | _, _, .ite hc hy hn => by
    rw [Expr.bare, Expr.bare, Expr.Ungroups.bare_eq hc, Expr.Ungroups.bare_eq hy,
      Expr.Ungroups.bare_eq hn]
  | _, _, .letIn hvalue hbody => by
    rw [Expr.bare, Expr.bare, Expr.Ungroups.bare_eq hvalue, Expr.Ungroups.bare_eq hbody]
  | _, _, .quantified hds hbody => by
    rw [Expr.bare, Expr.bare, Decl.UngroupsAll.bareAll_eq hds, Expr.Ungroups.bare_eq hbody]
  | _, _, .call h => by rw [Expr.bare, Expr.bare, Expr.UngroupsAll.bareAll_eq h]

theorem Expr.UngroupsAll.bareAll_eq : ∀ {es es' : List Expr}, Expr.UngroupsAll es es' →
    Expr.bareAll es' = Expr.bareAll es
  | _, _, .nil => rfl
  | _, _, .cons h hs => by
    rw [Expr.bareAll, Expr.bareAll, Expr.Ungroups.bare_eq h, Expr.UngroupsAll.bareAll_eq hs]

theorem Decl.UngroupsAll.bareAll_eq : ∀ {ds ds' : List Decl}, Decl.UngroupsAll ds ds' →
    Decl.bareAll ds' = Decl.bareAll ds
  | _, _, .nil => rfl
  | _, _, .kept h hs => by
    rw [Decl.bareAll, Decl.bareAll, Expr.Ungroups.bare_eq h, Decl.UngroupsAll.bareAll_eq hs]
  | _, _, .rebuilt h hm hs => by
    rw [Decl.bareAll, Decl.bareAll, Expr.bare_splitMarker, Expr.bare_splitMarker, hm,
      Expr.Ungroups.bare_eq h, Decl.UngroupsAll.bareAll_eq hs]

end

/-- Dropping groups keeps the columns. -/
theorem Expr.Ungroups.columns_eq {e e' : Expr} (h : e.Ungroups e') : e'.columns = e.columns := by
  rw [← e'.columns_bare, h.bare_eq, e.columns_bare]

theorem Function.map_bare_body : ∀ {e e' : Option Expr}, Option.Rel Expr.Ungroups e e' →
    e'.map Expr.bare = e.map Expr.bare
  | _, _, .none => rfl
  | _, _, .some h => congrArg some h.bare_eq

/-- Functions with groups dropped in their bodies have the same bare bodies. -/
theorem Function.map_bare_eq {fs fs' : List Function} (h : List.Forall₂ Function.Ungroups fs fs') :
    fs'.map Function.bare = fs.map Function.bare := by
  induction h with
  | nil => rfl
  | @cons f f' fs fs' hf _ ih =>
    have hbody := Function.map_bare_body hf.body
    rw [List.map_cons, List.map_cons, ih, Function.bare, Function.bare, hbody, hf.name, hf.params,
      hf.returns, hf.position]

end RelSmt.Relational
