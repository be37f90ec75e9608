import RelSmt.Proofs.Term.Denotation

/-!
# Interpretations from tables

Any table of values for function symbols makes an interpretation in which every element belongs to
every declared sort: an entry that has the wrong sort is replaced by a value of the right one. So
there are interpretations of whatever functions a program declares.
-/

namespace RelSmt

variable {E : Type}

namespace Value

/-- A column of a sort. -/
def columnOf (e : E) : SmtSort → Scalar E
  | .bool => .truth False
  | .int => .int 0
  | _ => .element e

/-- A value of a sort. -/
def ofSort (e : E) : SmtSort → Value E
  | .tuple columns => .tuple (columns.map (columnOf e))
  | .set _ => .set ∅
  | s => .scalar (columnOf e s)

theorem hasSort_columnOf (e : E) {s : SmtSort} (h : s.isAtomic = true) :
    (columnOf e s).HasSort (fun _ => Set.univ) s := by
  cases s with
  | tuple _ => simp [SmtSort.isAtomic] at h
  | set _ => simp [SmtSort.isAtomic] at h
  | bool => trivial
  | int => trivial
  | named _ => exact Set.mem_univ e
  | uint => exact Set.mem_univ e

theorem hasSort_ofSort (e : E) {s : SmtSort} (h : s.IsProper) :
    (ofSort e s).HasSort (fun _ => Set.univ) s := by
  cases s with
  | tuple columns =>
    simp only [ofSort, hasSort_tuple, Tuple.HasSorts, List.forall₂_map_left_iff]
    exact List.forall₂_same.2 fun c hc => hasSort_columnOf e (h c hc)
  | set s => exact fun _ h => h.elim
  | bool => trivial
  | int => trivial
  | named _ => exact Set.mem_univ e
  | uint => exact Set.mem_univ e

end Value

namespace Interpretation

open Classical in
/-- The interpretation in which functions have the values of a table, where these have the right
sort. -/
noncomputable def ofTable (e : E) (table : FunctionSymbol → List (Value E) → Value E) :
    Interpretation E where
  carrier _ := Set.univ
  element _ _ := e
  function f vs :=
    if (table f vs).HasSort (fun _ => Set.univ) f.output then table f vs
    else Value.ofSort e f.output
  quotientByZero _ := 0
  remainderByZero _ := 0
  function_sort f vs hproper _ := by
    split
    · assumption
    · exact Value.hasSort_ofSort e hproper
  element_mem _ _ := Set.mem_univ e

theorem function_ofTable (e : E) (table : FunctionSymbol → List (Value E) → Value E)
    (f : FunctionSymbol) (vs : List (Value E))
    (h : (table f vs).HasSort (fun _ => Set.univ) f.output) :
    (ofTable e table).function f vs = table f vs :=
  if_pos h

end Interpretation

end RelSmt
