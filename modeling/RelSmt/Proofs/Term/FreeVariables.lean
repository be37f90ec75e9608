import Mathlib.Data.List.Basic
import RelSmt.Term.FreeVariables

/-!
# Free and bound variables

Variables are equal when name and sort agree, and then their constraints may still differ. The list
of free variables keeps one variable of each kind, so it holds every free occurrence up to equality
only.
-/

namespace RelSmt

instance : EquivBEq Variable where
  rfl := Variable.beq_iff.2 ⟨rfl, rfl⟩
  symm h := by
    have := Variable.beq_iff.1 h
    exact Variable.beq_iff.2 ⟨this.1.symm, this.2.symm⟩
  trans h h' := by
    have h := Variable.beq_iff.1 h
    have h' := Variable.beq_iff.1 h'
    exact Variable.beq_iff.2 ⟨h.1.trans h'.1, h.2.trans h'.2⟩

namespace Term

/-! ## The list without repeats -/

theorem mem_of_mem_eraseDups {α : Type} [BEq α] {a : α} :
    ∀ {as : List α}, a ∈ as.eraseDups → a ∈ as
  | [], h => by simp at h
  | b :: bs, h => by
    rw [List.eraseDups_cons, List.mem_cons] at h
    rcases h with rfl | h
    · exact List.mem_cons_self
    · exact List.mem_cons_of_mem _ (List.mem_of_mem_filter (mem_of_mem_eraseDups h))
termination_by as => as.length
decreasing_by
  simp only [List.length_cons]
  exact Nat.lt_succ_of_le (List.length_filter_le _ _)

theorem exists_mem_eraseDups {α : Type} [BEq α] [ReflBEq α] {a : α} :
    ∀ {as : List α}, a ∈ as → ∃ b ∈ as.eraseDups, (a == b) = true
  | b :: bs, h => by
    by_cases hab : (a == b) = true
    · exact ⟨b, by simp [List.eraseDups_cons], hab⟩
    · have hmem : a ∈ bs.filter fun c => !(c == b) := by
        rcases List.mem_cons.1 h with rfl | h
        · simp at hab
        · exact List.mem_filter.2 ⟨h, by simpa using hab⟩
      obtain ⟨c, hc, hac⟩ := exists_mem_eraseDups hmem
      exact ⟨c, by rw [List.eraseDups_cons]; exact List.mem_cons_of_mem _ hc, hac⟩
termination_by as => as.length
decreasing_by
  simp only [List.length_cons]
  exact Nat.lt_succ_of_le (List.length_filter_le _ _)

theorem mem_freeOccurrences_of_mem_freeVariables {t : Term} {v : Variable}
    (h : v ∈ t.freeVariables) : v ∈ t.freeOccurrences :=
  mem_of_mem_eraseDups h

/-- Every free occurrence is of some listed variable. -/
theorem exists_mem_freeVariables {t : Term} {v : Variable} (h : v ∈ t.freeOccurrences) :
    ∃ w ∈ t.freeVariables, (v == w) = true :=
  exists_mem_eraseDups h

theorem freeVariables_eq_nil {t : Term} : t.freeVariables = [] ↔ t.freeOccurrences = [] := by
  constructor
  · intro h
    refine List.eq_nil_iff_forall_not_mem.2 fun v hv => ?_
    obtain ⟨w, hw, _⟩ := exists_mem_freeVariables hv
    simp [h] at hw
  · intro h
    simp [freeVariables, h]

theorem occursFree_iff {t : Term} {v : Variable} :
    t.occursFree v = true ↔ ∃ w ∈ t.freeOccurrences, (w == v) = true := by
  simp [occursFree]

/-- A variable is free when it is listed, up to equality of variables. -/
theorem contains_freeVariables {t : Term} {v : Variable} :
    t.freeVariables.contains v = t.occursFree v := by
  rw [Bool.eq_iff_iff, List.contains_iff_exists_mem_beq, occursFree_iff]
  constructor
  · rintro ⟨w, hw, he⟩
    exact ⟨w, mem_freeOccurrences_of_mem_freeVariables hw, BEq.symm he⟩
  · rintro ⟨w, hw, he⟩
    obtain ⟨u, hu, hwu⟩ := exists_mem_freeVariables hw
    exact ⟨u, hu, BEq.trans (BEq.symm he) hwu⟩

/-- What is free in a term differs from a variable that is not. -/
theorem beq_eq_false_of_not_occursFree {t : Term} {v w : Variable} (h : t.occursFree v = false)
    (hw : w ∈ t.freeOccurrences) : (w == v) = false := by
  simp only [occursFree, List.any_eq_false, Bool.not_eq_true] at h
  exact h w hw

/-! ## Binders -/

theorem bindsName_iff {vs : List Variable} {name : String} :
    bindsName vs name = true ↔ ∃ v ∈ vs, v.name = name := by
  simp [bindsName]

theorem mem_freeOccurrences_quantified {q : Quantifier} {vs : List Variable} {body : Term}
    {w : Variable} : w ∈ (Term.quantified q vs body).freeOccurrences ↔
      w ∈ body.freeOccurrences ∧ ∀ v ∈ vs, w.name ≠ v.name := by
  simp only [freeOccurrences, List.mem_filter, bindsName, Bool.not_eq_true',
    List.any_eq_false, beq_iff_eq]
  exact and_congr_right fun _ => forall₂_congr fun v _ => ne_comm

/-- A binder of the name hides the variable, whatever its sort. -/
theorem occursFree_quantified {q : Quantifier} {vs : List Variable} {body : Term} {v : Variable} :
    (Term.quantified q vs body).occursFree v = true ↔
      bindsName vs v.name = false ∧ body.occursFree v = true := by
  simp only [occursFree_iff, mem_freeOccurrences_quantified, ← Bool.not_eq_true, bindsName_iff,
    not_exists, not_and]
  constructor
  · rintro ⟨w, ⟨hw, hfree⟩, he⟩
    exact ⟨fun b hb hname => hfree b hb ((Variable.beq_iff.1 he).1.trans hname.symm), w, hw, he⟩
  · rintro ⟨hfree, w, hw, he⟩
    exact ⟨w, ⟨hw, fun b hb hname => hfree b hb (hname.symm.trans (Variable.beq_iff.1 he).1)⟩, he⟩

mutual

/-- The names that binders inside a term bind. -/
def boundNames : Term → List String
  | .unary _ t => t.boundNames
  | .binary _ l r => l.boundNames ++ r.boundNames
  | .ite c y n => c.boundNames ++ y.boundNames ++ n.boundNames
  | .nary _ ts => boundNamesList ts
  | .quantified _ vs body => vs.map Variable.name ++ body.boundNames
  | .call _ ts => boundNamesList ts
  | _ => []

/-- The names that binders inside several terms bind. -/
def boundNamesList : List Term → List String
  | [] => []
  | t :: ts => t.boundNames ++ boundNamesList ts

end

end Term

end RelSmt
