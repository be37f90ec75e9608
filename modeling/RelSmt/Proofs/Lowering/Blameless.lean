import RelSmt.Lowering.Encoding
import RelSmt.Proofs.Term.Faults

/-!
# Faults that lowering avoids

The checks that lowering makes are put together from checked constructors, so what these avoid the
checks avoid too: no call is found to be recursive by any of them, and a capture only where a
variable makes way for a term.
-/

namespace RelSmt.Lowering

variable {B : Fault → Prop} [Foreign B]

section

variable {vs ws : List Variable} {t u : Term}

/-! ## Relations and integers -/

instance : Avoids B (nonEmpty t) := by
  unfold nonEmpty
  infer_instance

instance {columns : List SmtSort} : Avoids B (fullRelation columns) := by
  unfold fullRelation
  infer_instance

instance : Avoids B (firstColumn t) := by
  unfold firstColumn
  infer_instance

instance : Avoids B (restrictDomain t u) := by
  unfold restrictDomain
  rcases u.sort.columns with _ | ⟨_, _ | ⟨_, _⟩⟩ <;> infer_instance

instance : Avoids B (restrictRange t u) := by
  unfold restrictRange
  rcases t.sort.columns with _ | ⟨_, _ | ⟨_, _⟩⟩ <;> infer_instance

instance : Avoids B (overrideBy t u) := by
  unfold overrideBy
  infer_instance

instance : Avoids B (disjointSets t u) := by
  unfold disjointSets
  infer_instance

instance : Avoids B (valueOf t) := inferInstanceAs (Avoids B (intValue.apply [t]))

instance : Avoids B (Operand.ofTerm t) := by
  unfold Operand.ofTerm
  infer_instance

instance : Avoids B (allOver vs t) := by
  unfold allOver
  infer_instance

instance : Avoids B (exOver vs t) := by
  unfold exOver
  infer_instance

instance : Avoids B (isAllOf t u) := by
  unfold isAllOf
  infer_instance

instance {op : Arithmetic} {a b : Value} : Avoids B (resultIs op a b t) := by
  unfold resultIs
  infer_instance

/-! ## Binders -/

instance : Avoids B (sameValues vs ws) := by
  unfold sameValues
  infer_instance

instance : Avoids B (tupleOf vs) := by
  cases vs <;> unfold tupleOf <;> infer_instance

end

instance {o : Operand} {old new : Term} : Avoids B (o.replace old new) := by
  cases o <;> unfold Operand.replace <;> infer_instance

end RelSmt.Lowering
