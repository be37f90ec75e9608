import RelSmt.Relational.Specification

/-!
# Variables that a specification declares

Quantifiers and comprehensions declare variables, and each of them becomes a variable of terms whose
name starts with that of the declared one. `let` and the parameters of functions declare nothing of
the kind: they only give names to terms.
-/

namespace RelSmt.Relational

namespace Expr

mutual

/-- The variables that quantifiers and comprehensions in an expression declare. -/
def declared : Expr → List Var
  | .constant _ => []
  | .number _ => []
  | .sig _ => []
  | .field _ => []
  | .var _ => []
  | .unary _ e => e.declared
  | .binary _ l r => l.declared ++ r.declared
  | .list _ es => declaredList es
  | .ite c y n => c.declared ++ y.declared ++ n.declared
  | .letIn _ value body => value.declared ++ body.declared
  | .quantified _ ds body => declaredDecls ds ++ body.declared
  | .call _ args _ => declaredList args

/-- The variables declared in several expressions. -/
def declaredList : List Expr → List Var
  | [] => []
  | e :: es => e.declared ++ declaredList es

/-- The variables that some declarations bring in, those declared inside their bounds included. -/
def declaredDecls : List Decl → List Var
  | [] => []
  | .mk vs _ bound _ :: ds => vs ++ bound.declared ++ declaredDecls ds

end

mutual

/-- Substitution declares nothing that neither part declares. -/
theorem mem_declared_substitute {v x : Var} {new : Expr} : ∀ {e : Expr},
    x ∈ (e.substitute v new).declared → x ∈ e.declared ∨ x ∈ new.declared
  | .constant _, h => Or.inl h
  | .number _, h => Or.inl h
  | .sig _, h => Or.inl h
  | .field _, h => Or.inl h
  | .var w, h => by
    rw [substitute] at h
    split at h
    · exact Or.inr h
    · exact Or.inl h
  | .unary _ e, h => mem_declared_substitute (e := e) h
  | .binary _ l r, h => by
    simp only [substitute, declared, List.mem_append] at h ⊢
    rcases h with h | h
    · exact (mem_declared_substitute h).imp_left Or.inl
    · exact (mem_declared_substitute h).imp_left Or.inr
  | .list _ es, h => mem_declaredList_substitute (l := es) h
  | .ite c y n, h => by
    simp only [substitute, declared, List.mem_append] at h ⊢
    rcases h with (h | h) | h
    · exact (mem_declared_substitute h).imp_left fun h => Or.inl (Or.inl h)
    · exact (mem_declared_substitute h).imp_left fun h => Or.inl (Or.inr h)
    · exact (mem_declared_substitute h).imp_left Or.inr
  | .letIn w value body, h => by
    simp only [substitute, declared, List.mem_append] at h ⊢
    rcases h with h | h
    · exact (mem_declared_substitute h).imp_left Or.inl
    -- a declaration of the variable hides it, and the rest stays as it is
    · split at h
      · exact Or.inl (Or.inr h)
      · exact (mem_declared_substitute h).imp_left Or.inr
  | .quantified _ ds body, h => by
    simp only [substitute, declared, List.mem_append] at h ⊢
    rcases h with h | h
    · exact (mem_declaredDecls_substitute h).imp_left Or.inl
    · split at h
      · exact Or.inl (Or.inr h)
      · exact (mem_declared_substitute h).imp_left Or.inr
  | .call _ es _, h => mem_declaredList_substitute (l := es) h

theorem mem_declaredList_substitute {v x : Var} {new : Expr} : ∀ {l : List Expr},
    x ∈ declaredList (substituteList l v new) → x ∈ declaredList l ∨ x ∈ new.declared
  | [], h => Or.inl h
  | e :: es, h => by
    simp only [substituteList, declaredList, List.mem_append] at h ⊢
    rcases h with h | h
    · exact (mem_declared_substitute h).imp_left Or.inl
    · exact (mem_declaredList_substitute h).imp_left Or.inr

theorem mem_declaredDecls_substitute {v x : Var} {new : Expr} : ∀ {ds : List Decl},
    x ∈ declaredDecls (substituteDecls ds v new) → x ∈ declaredDecls ds ∨ x ∈ new.declared
  | [], h => Or.inl h
  | .mk vs m bound d :: ds, h => by
    simp only [substituteDecls, declaredDecls, List.mem_append] at h ⊢
    rcases h with (h | h) | h
    · exact Or.inl (Or.inl (Or.inl h))
    · exact (mem_declared_substitute h).imp_left fun h => Or.inl (Or.inr h)
    · split at h
      · exact Or.inl (Or.inr h)
      · exact (mem_declaredDecls_substitute h).imp_left Or.inr

end

/-- A multiplicity marker declares nothing. -/
theorem declared_splitMarker (e : Expr) : e.splitMarker.2.declared = e.declared := by
  cases e with
  | unary op e =>
    simp only [splitMarker]
    cases op.marker? <;> rfl
  | _ => rfl

end Expr

/-- Every variable that a specification declares: in the bounds of fields, in the bodies of
functions, in facts and in commands. -/
def Specification.declared (spec : Specification) : List Var :=
  spec.fields.flatMap (fun f => f.bound.declared)
    ++ spec.functions.flatMap (fun f => (f.body.map Expr.declared).getD [])
    ++ spec.facts.flatMap (fun f => f.formula.declared)
    ++ spec.commands.flatMap fun c => c.formula.declared

end RelSmt.Relational
