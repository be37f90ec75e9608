import RelSmt.Scoped
import RelSmt.Term.FreeVariables

/-!
# Environments

An environment says which term each name stands for, while relational expressions are lowered and
while solver replies are read. A binder enters a scope of its own, in which its names stand for the
variables that it brings in.
-/

namespace RelSmt

/-- What names stand for. -/
abbrev Environment := Scoped Term

/-- Does some name, hidden or not, stand for a term in which the variable is free? Binders map names
to terms over their own variables, so this tells whether an enclosing binder has the variable. -/
def Environment.mentions (env : Environment) (v : Variable) : Bool :=
  env.anyBound fun t => t.occursFree v

end RelSmt
