import Mathlib.Data.Finset.Card
import RelSmt.Proofs.Evaluation.Value

/-!
# What values in normal form stand for

A term in normal form represents a value of its sort: a literal a scalar, a tuple of literals a
tuple, and a set in normal form the finite set of the tuples that it lists. An interpretation is
*distinct* when elements of a sort that differ in name differ. Then two tuples of literals stand for
the same tuple only if they are the same, so questions about sets are questions about lists.
-/

namespace RelSmt

variable {E : Type}

/-- What a literal holds as a column of a tuple. -/
def Literal.column (I : Interpretation E) : Literal → Scalar E
  | .bool b => .truth (b = true)
  | .int n => .int n
  | .element name s => .element (I.element name s)

namespace Term

variable {I : Interpretation E}

theorem literalValue_eq_scalar : ∀ c : Literal, literalValue I c = .scalar (c.column I)
  | .bool _ => rfl
  | .int _ => rfl
  | .element _ _ => rfl

theorem column_injective (hI : I.Distinct) {a b : Literal} (ha : (Term.literal a).WellSorted)
    (hb : (Term.literal b).WellSorted) (hsort : (Term.literal a).sort = (Term.literal b).sort)
    (h : a.column I = b.column I) : a = b := by
  match a, b, ha, hb, hsort, h with
  | .bool p, .bool q, _, _, _, h =>
    have hiff : (p = true) = (q = true) := Scalar.truth.inj h
    rw [Bool.eq_iff_iff.2 (iff_of_eq hiff)]
  | .int m, .int n, _, _, _, h => rw [Scalar.int.inj h]
  | .element x s, .element y s', _, _, hsort, h =>
    have hs : s = s' := hsort
    subst hs
    rw [hI s x y (Scalar.element.inj h)]
  | .element x .bool, .bool _, ha, _, _, _ => exact absurd ha Bool.false_ne_true
  | .element x .int, .int _, ha, _, _, _ => exact absurd ha Bool.false_ne_true
  | .bool _, .element x .bool, _, hb, _, _ => exact absurd hb Bool.false_ne_true
  | .int _, .element x .int, _, hb, _, _ => exact absurd hb Bool.false_ne_true

/-! ## Tuples -/

/-- The tuple that some literals stand for. -/
def rowOf (I : Interpretation E) (cs : List Literal) : Tuple E := cs.map (Literal.column I)

/-- The tuples that a list stands for. -/
def rowsOf (I : Interpretation E) (xs : List (List Literal)) : Set (Tuple E) :=
  {t | ∃ cs ∈ xs, rowOf I cs = t}

theorem eval_tupleOf (cs : List Literal) (ρ : Assignment E) :
    (tupleOf cs).eval I ρ = .tuple (rowOf I cs) := by
  rw [tupleOf, Term.eval, evalAll_eq_map, naryValue, List.map_map, List.map_map, rowOf]
  exact congrArg _ (List.map_congr_left fun c _ => congrArg Value.column (literalValue_eq_scalar c))

theorem rowOf_injective (hI : I.Distinct) {as bs : List Literal} (ha : (tupleOf as).WellSorted)
    (hb : (tupleOf bs).WellSorted) (hsort : (tupleOf as).sort = (tupleOf bs).sort)
    (h : rowOf I as = rowOf I bs) : as = bs := by
  rw [sort_tupleOf, sort_tupleOf] at hsort
  have hsorts := SmtSort.tuple.inj hsort
  have hwa := List.forall_mem_map.1 (wellSortedAll_iff.1 ha.2.1)
  have hwb := List.forall_mem_map.1 (wellSortedAll_iff.1 hb.2.1)
  clear ha hb hsort
  induction as generalizing bs with
  | nil => exact (List.map_eq_nil_iff.1 h.symm).symm
  | cons a as ih =>
    cases bs with
    | nil => simp [rowOf] at h
    | cons b bs =>
      obtain ⟨hcolumn, hrow⟩ := List.cons.inj h
      obtain ⟨hs, hss⟩ := List.cons.inj hsorts
      obtain ⟨ha, has⟩ := List.forall_mem_cons.1 hwa
      obtain ⟨hb, hbs⟩ := List.forall_mem_cons.1 hwb
      rw [column_injective hI ha hb hs hcolumn, ih hrow hss has hbs]

/-! ## Sets -/

@[simp] theorem rowsOf_nil : rowsOf I [] = ∅ := by simp [rowsOf]

theorem rowsOf_append (xs ys : List (List Literal)) :
    rowsOf I (xs ++ ys) = rowsOf I xs ∪ rowsOf I ys := by
  ext t
  simp [rowsOf, or_and_right, exists_or]

theorem mem_rowsOf_of_mem {xs : List (List Literal)} {cs : List Literal} (h : cs ∈ xs) :
    rowOf I cs ∈ rowsOf I xs := ⟨cs, h, rfl⟩

section Sets

variable {s : SmtSort} {v w : Term} {xs ys : List (List Literal)} {cs : List Literal}

theorem Lists.eval (h : Lists s v xs) (ρ : Assignment E) : v.eval I ρ = .set (rowsOf I xs) := by
  induction h with
  | empty hs => rw [Term.eval, rowsOf_nil]
  | @single cs ht hs =>
    rw [Term.eval, eval_tupleOf, unaryValue]
    refine congrArg _ (Set.ext fun t => ?_)
    simp [rowsOf, eq_comm]
  | union hl hr ihl ihr =>
    rw [Term.eval, ihl, ihr, rowsOf_append]
    rfl

/-- What is listed has the sort of the elements. -/
theorem Lists.sort_of_mem (h : Lists s v xs) :
    ∀ cs ∈ xs, (tupleOf cs).WellSorted ∧ s = .set (tupleOf cs).sort := by
  induction h with
  | empty hs => simp
  | single ht hs => exact List.forall_mem_singleton.2 ⟨ht, hs⟩
  | union hl hr ihl ihr => exact List.forall_mem_append.2 ⟨ihl, ihr⟩

/-- A tuple is in a set exactly if it is listed. -/
theorem Lists.rowOf_mem_iff (hI : I.Distinct) (h : Lists s v xs) (ht : (tupleOf cs).WellSorted)
    (hs : s = .set (tupleOf cs).sort) : rowOf I cs ∈ rowsOf I xs ↔ cs ∈ xs := by
  refine ⟨fun ⟨ds, hds, hrow⟩ => ?_, mem_rowsOf_of_mem⟩
  obtain ⟨htd, hsd⟩ := h.sort_of_mem ds hds
  have hsort : (tupleOf ds).sort = (tupleOf cs).sort := SmtSort.set.inj (hsd.symm.trans hs)
  exact rowOf_injective hI htd ht hsort hrow ▸ hds

theorem Lists.rowsOf_subset_iff (hI : I.Distinct) (hv : Lists s v xs) (hw : Lists s w ys) :
    rowsOf I xs ⊆ rowsOf I ys ↔ ∀ cs ∈ xs, cs ∈ ys := by
  constructor
  · intro h cs hcs
    obtain ⟨ht, hs⟩ := hv.sort_of_mem cs hcs
    exact (hw.rowOf_mem_iff hI ht hs).1 (h (mem_rowsOf_of_mem hcs))
  · rintro h _ ⟨cs, hcs, rfl⟩
    exact mem_rowsOf_of_mem (h cs hcs)

/-- A set has as many elements as are listed, repeats not counted. -/
theorem Lists.ncard_rowsOf (hI : I.Distinct) (h : Lists s v xs) :
    (rowsOf I xs).ncard = xs.eraseDups.length := by
  have himage : rowsOf I xs = rowOf I '' (xs.eraseDups.toFinset : Set (List Literal)) := by
    ext t
    simp [rowsOf]
  have hinjective : Set.InjOn (rowOf I) (xs.eraseDups.toFinset : Set (List Literal)) := by
    intro as ha bs hb hrow
    obtain ⟨hta, hsa⟩ := h.sort_of_mem as (by simpa using ha)
    obtain ⟨htb, hsb⟩ := h.sort_of_mem bs (by simpa using hb)
    exact rowOf_injective hI hta htb (SmtSort.set.inj (hsa.symm.trans hsb)) hrow
  rw [himage, hinjective.ncard_image, Set.ncard_coe_finset,
    List.toFinset_card_of_nodup (nodup_eraseDups xs)]

end Sets

/-! ## Normal forms and their values -/

/-- Is this a literal, a tuple of literals or a set in normal form? -/
inductive IsNormal : Term → Prop
  | literal {c : Literal} (h : (Term.literal c).WellSorted) : IsNormal (.literal c)
  | tuple {cs : List Literal} (h : (tupleOf cs).WellSorted) : IsNormal (tupleOf cs)
  | set {s : SmtSort} {v : Term} {xs : List (List Literal)} (h : Lists s v xs) : IsNormal v

/-- Is the term in normal form and of the sort, and does it stand for the value? -/
structure Represents (I : Interpretation E) (s : SmtSort) (x : Value E) (v : Term) : Prop where
  normal : v.IsNormal
  sort : v.sort = s
  eval : ∀ ρ, v.eval I ρ = x

section Represents

variable {s : SmtSort} {x : Value E} {v : Term}

theorem represents_literal {c : Literal} (h : (Term.literal c).WellSorted) :
    Represents I (Term.literal c).sort (.scalar (c.column I)) (.literal c) :=
  ⟨.literal h, rfl, fun _ => literalValue_eq_scalar c⟩

theorem represents_bool {b : Bool} {p : Prop} (h : b = true ↔ p) :
    Represents I .bool (.truth p) (.bool b) :=
  ⟨.literal trivial, rfl, fun _ => Value.truth_inj.2 h⟩

theorem represents_int (n : Int) : Represents I .int (.int n) (.int n) :=
  ⟨.literal trivial, rfl, fun _ => rfl⟩

theorem represents_tupleOf {cs : List Literal} (h : (tupleOf cs).WellSorted) :
    Represents I (tupleOf cs).sort (.tuple (rowOf I cs)) (tupleOf cs) :=
  ⟨.tuple h, rfl, eval_tupleOf cs⟩

theorem Lists.represents {xs : List (List Literal)} (h : Lists s v xs) :
    Represents I s (.set (rowsOf I xs)) v :=
  ⟨.set h, h.sort, h.eval⟩

/-- What has an atomic sort is a literal. -/
theorem Represents.exists_literal (h : Represents I s x v) (hs : s.isAtomic = true) :
    ∃ c, v = .literal c ∧ (Term.literal c).WellSorted ∧ x = .scalar (c.column I) := by
  obtain ⟨hnormal, rfl, heval⟩ := h
  cases hnormal with
  | @literal c hc =>
    exact ⟨c, rfl, hc, (heval fun _ _ => default).symm.trans (literalValue_eq_scalar c)⟩
  | @tuple cs hcs =>
    rw [sort_tupleOf] at hs
    cases hs
  | set hlists =>
    obtain ⟨e, he⟩ := SmtSort.isSet_iff.1 hlists.isSet
    rw [hlists.sort, he] at hs
    cases hs

theorem Represents.exists_bool (h : Represents I .bool x v) :
    ∃ b, v = .bool b ∧ x = .truth (b = true) := by
  obtain ⟨c, rfl, hc, rfl⟩ := h.exists_literal rfl
  match c, hc, h.sort with
  | .bool b, _, _ => exact ⟨b, rfl, rfl⟩
  | .element _ .bool, hc, _ => exact absurd hc Bool.false_ne_true

theorem Represents.exists_int (h : Represents I .int x v) : ∃ n, v = .int n ∧ x = .int n := by
  obtain ⟨c, rfl, hc, rfl⟩ := h.exists_literal rfl
  match c, hc, h.sort with
  | .int n, _, _ => exact ⟨n, rfl, rfl⟩
  | .element _ .int, hc, _ => exact absurd hc Bool.false_ne_true

theorem Represents.exists_tuple (h : Represents I s x v) (hs : s.isTuple = true) :
    ∃ cs, v = tupleOf cs ∧ (tupleOf cs).WellSorted ∧ x = .tuple (rowOf I cs) := by
  obtain ⟨hnormal, rfl, heval⟩ := h
  cases hnormal with
  | @literal c hc =>
    match c, hc, hs with
    | .element _ (.tuple _), hc, _ => exact absurd hc Bool.false_ne_true
  | @tuple cs hcs =>
    exact ⟨cs, rfl, hcs, (heval fun _ _ => default).symm.trans (eval_tupleOf cs _)⟩
  | set hlists =>
    obtain ⟨e, he⟩ := SmtSort.isSet_iff.1 hlists.isSet
    rw [hlists.sort, he] at hs
    cases hs

theorem Represents.exists_lists (h : Represents I s x v) (hs : s.isSet = true) :
    ∃ xs, Lists s v xs ∧ x = .set (rowsOf I xs) := by
  obtain ⟨hnormal, rfl, heval⟩ := h
  cases hnormal with
  | @literal c hc =>
    match c, hc, hs with
    | .element _ (.set _), hc, _ => exact absurd hc Bool.false_ne_true
  | @tuple cs hcs =>
    rw [sort_tupleOf] at hs
    cases hs
  | @set s v xs hlists =>
    rw [hlists.sort]
    exact ⟨xs, hlists, (heval fun _ _ => default).symm.trans (hlists.eval _)⟩

/-- Normal forms are taken for values. -/
theorem IsNormal.isValue (h : v.IsNormal) : v.isValue = true := by
  cases h with
  | literal _ => rfl
  | tuple _ => exact isValue_tupleOf _
  | set hlists => exact hlists.isValue

theorem IsNormal.wellSorted (h : v.IsNormal) : v.WellSorted := by
  cases h with
  | literal hc => exact hc
  | tuple hcs => exact hcs
  | set hlists => exact hlists.wellSorted

theorem freeOccurrences_tupleOf (cs : List Literal) : (tupleOf cs).freeOccurrences = [] := by
  rw [tupleOf, freeOccurrences, freeOccurrencesList_eq_flatMap, List.flatMap_map]
  simp [freeOccurrences]

theorem IsNormal.freeOccurrences (h : v.IsNormal) : v.freeOccurrences = [] := by
  cases h with
  | literal _ => rfl
  | tuple _ => exact freeOccurrences_tupleOf _
  | set hlists =>
    induction hlists with
    | empty hs => rfl
    | single ht hs => exact freeOccurrences_tupleOf _
    | union hl hr ihl ihr =>
      rw [Term.freeOccurrences, ihl, ihr]
      rfl

/-- What a term of a sort represents is a value of the sort. -/
theorem Represents.hasSort (h : Represents I s x v) : x.HasSort I.carrier s := by
  have hvalue := eval_hasSort I (ρ := fun _ _ => default) h.normal.wellSorted
    (by simp [h.normal.freeOccurrences])
  rwa [h.eval, h.sort] at hvalue

end Represents

end Term

end RelSmt
