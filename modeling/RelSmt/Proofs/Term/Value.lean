import Mathlib.Data.Set.Card
import Mathlib.Logic.Relation
import RelSmt.Term.Basic

/-!
# Values of terms

What terms stand for once it is fixed which elements the declared sorts have: truth values,
integers, elements, tuples of these, and sets of tuples. Truth values are propositions, so a
quantifier needs no test for a witness.

Sets hold tuples and nothing else. A set sort over anything but a tuple sort therefore has the empty
set as its only value.
-/

namespace RelSmt

/-- What a column of a tuple holds. -/
inductive Scalar (E : Type) where
  | truth (p : Prop)
  | int (n : Int)
  | element (e : E)

/-- The columns of a tuple, from left to right. -/
abbrev Tuple (E : Type) := List (Scalar E)

/-- What a term stands for. -/
inductive Value (E : Type) where
  | scalar (a : Scalar E)
  | tuple (t : Tuple E)
  | set (r : Set (Tuple E))

variable {E : Type}

namespace Value

/-- A truth value. -/
def truth (p : Prop) : Value E := .scalar (.truth p)

/-- An integer. -/
def int (n : Int) : Value E := .scalar (.int n)

/-- An element of a declared sort. -/
def element (e : E) : Value E := .scalar (.element e)

instance : Inhabited (Value E) := ⟨truth False⟩

/-- Is this the value of a formula that holds? -/
def Holds : Value E → Prop
  | .scalar (.truth p) => p
  | _ => False

/-- The integer that this is. -/
def number : Value E → Int
  | .scalar (.int n) => n
  | _ => 0

/-- This as a column of a tuple. -/
def column : Value E → Scalar E
  | .scalar a => a
  | _ => .truth False

/-- The tuple that this is. -/
def row : Value E → Tuple E
  | .tuple t => t
  | _ => []

/-- The tuples in this set. -/
def rows : Value E → Set (Tuple E)
  | .set r => r
  | _ => ∅

@[simp] theorem holds_truth (p : Prop) : (truth p : Value E).Holds = p := rfl

@[simp] theorem number_int (n : Int) : (int n : Value E).number = n := rfl

@[simp] theorem column_element (e : E) : (element e).column = .element e := rfl

@[simp] theorem column_scalar (a : Scalar E) : (scalar a).column = a := rfl

@[simp] theorem row_tuple (t : Tuple E) : (tuple t).row = t := rfl

@[simp] theorem rows_set (r : Set (Tuple E)) : (set r).rows = r := rfl

@[simp] theorem truth_inj {p q : Prop} : (truth p : Value E) = truth q ↔ (p ↔ q) := by
  simp [truth]

@[simp] theorem int_inj {m n : Int} : (int m : Value E) = int n ↔ m = n := by
  simp [int]

@[simp] theorem element_inj {d e : E} : element d = element e ↔ d = e := by
  simp [element]

end Value

/-! ## Sorts of values -/

section Sorts

variable (D : SmtSort → Set E)

/-- Is this a value of the sort? `D` says which elements a declared sort has. -/
def Scalar.HasSort : Scalar E → SmtSort → Prop
  | .truth _, .bool => True
  | .int _, .int => True
  | .element e, .named name => e ∈ D (.named name)
  | .element e, .uint => e ∈ D .uint
  | _, _ => False

/-- Does each column have the sort that stands in its place? -/
def Tuple.HasSorts (t : Tuple E) (columns : List SmtSort) : Prop :=
  List.Forall₂ (Scalar.HasSort D) t columns

/-- Is this a tuple of the sort? -/
def Tuple.HasSort (t : Tuple E) : SmtSort → Prop
  | .tuple columns => t.HasSorts D columns
  | _ => False

/-- Is this a value of the sort? -/
def Value.HasSort : Value E → SmtSort → Prop
  | .scalar a, s => a.HasSort D s
  | .tuple t, s => t.HasSort D s
  | .set r, .set s => ∀ t ∈ r, t.HasSort D s
  | _, _ => False

end Sorts

section

variable {D : SmtSort → Set E}

namespace Value

@[simp] theorem hasSort_truth (p : Prop) : (truth p : Value E).HasSort D .bool := trivial

@[simp] theorem hasSort_int (n : Int) : (int n : Value E).HasSort D .int := trivial

@[simp] theorem hasSort_element_uint {e : E} : (element e).HasSort D .uint ↔ e ∈ D .uint := Iff.rfl

@[simp] theorem hasSort_element_atom {e : E} : (element e).HasSort D .atom ↔ e ∈ D .atom := Iff.rfl

@[simp] theorem hasSort_tuple {t : Tuple E} {columns : List SmtSort} :
    (tuple t).HasSort D (.tuple columns) ↔ t.HasSorts D columns := Iff.rfl

@[simp] theorem hasSort_set {r : Set (Tuple E)} {s : SmtSort} :
    (set r).HasSort D (.set s) ↔ ∀ t ∈ r, t.HasSort D s := Iff.rfl

@[simp] theorem hasSort_relation {r : Set (Tuple E)} {columns : List SmtSort} :
    (set r).HasSort D (.relation columns) ↔ ∀ t ∈ r, t.HasSorts D columns := Iff.rfl

theorem eq_int_of_hasSort {v : Value E} (h : v.HasSort D .int) : v = int v.number := by
  match v, h with
  | .scalar (.int _), _ => rfl

theorem eq_tuple_of_hasSort {v : Value E} {columns : List SmtSort}
    (h : v.HasSort D (.tuple columns)) : v = tuple v.row := by
  match v, h with
  | .tuple _, _ => rfl
  | .scalar (.truth _), h => exact h.elim
  | .scalar (.int _), h => exact h.elim
  | .scalar (.element _), h => exact h.elim

theorem eq_set_of_hasSort {v : Value E} {s : SmtSort} (h : v.HasSort D (.set s)) :
    v = set v.rows := by
  match v, h with
  | .set _, _ => rfl
  | .tuple _, h => exact h.elim
  | .scalar (.truth _), h => exact h.elim
  | .scalar (.int _), h => exact h.elim
  | .scalar (.element _), h => exact h.elim

/-- Native integers have one sort only. -/
theorem eq_int_of_hasSort_int {n : Int} {s : SmtSort} (h : (int n : Value E).HasSort D s) :
    s = .int := by
  match s, h with
  | .int, _ => rfl

theorem isSet_of_hasSort_set {r : Set (Tuple E)} {s : SmtSort} (h : (Value.set r).HasSort D s) :
    s.isSet = true := by
  match s, h with
  | .set _, _ => rfl

/-- A value of an integer sort is an element of that sort. -/
theorem exists_element_of_hasSort {v : Value E} (h : v.HasSort D .uint) :
    ∃ e ∈ D .uint, v = element e := by
  match v, h with
  | .scalar (.element e), h => exact ⟨e, h, rfl⟩

/-- What is in a set of some sort is a tuple of that sort. -/
theorem hasSort_of_mem_rows {v : Value E} {s : SmtSort} (h : v.HasSort D (.set s)) {t : Tuple E}
    (ht : t ∈ v.rows) : t.HasSort D s := by
  rw [eq_set_of_hasSort h] at h
  exact h t ht

end Value

theorem Scalar.exists_element_uint {a : Scalar E} (h : a.HasSort D .uint) :
    ∃ e ∈ D .uint, a = .element e := by
  match a, h with
  | .element e, h => exact ⟨e, h, rfl⟩

theorem Scalar.exists_element_atom {a : Scalar E} (h : a.HasSort D .atom) :
    ∃ e ∈ D .atom, a = .element e := by
  match a, h with
  | .element e, h => exact ⟨e, h, rfl⟩

theorem Tuple.exists_of_hasSorts_single {t : Tuple E} {s : SmtSort} (h : t.HasSorts D [s]) :
    ∃ a, t = [a] ∧ a.HasSort D s := by
  obtain ⟨a, rest, ha, hrest, rfl⟩ := List.forall₂_cons_right_iff.1 h
  obtain rfl := List.forall₂_nil_right_iff.1 hrest
  exact ⟨a, rfl, ha⟩

theorem Tuple.exists_of_hasSorts_pair {t : Tuple E} {s s' : SmtSort} (h : t.HasSorts D [s, s']) :
    ∃ a b, t = [a, b] ∧ a.HasSort D s ∧ b.HasSort D s' := by
  obtain ⟨a, rest, ha, hrest, rfl⟩ := List.forall₂_cons_right_iff.1 h
  obtain ⟨b, rfl, hb⟩ := Tuple.exists_of_hasSorts_single hrest
  exact ⟨a, b, rfl, ha, hb⟩

/-- A tuple with one integer column holds one such element. -/
theorem Tuple.exists_of_hasSorts_uint {t : Tuple E} (h : t.HasSorts D [.uint]) :
    ∃ e ∈ D .uint, t = [.element e] := by
  obtain ⟨a, rfl, ha⟩ := Tuple.exists_of_hasSorts_single h
  obtain ⟨e, he, rfl⟩ := Scalar.exists_element_uint ha
  exact ⟨e, he, rfl⟩

theorem Tuple.hasSorts_append {t u : Tuple E} {as bs : List SmtSort} (ht : t.HasSorts D as)
    (hu : u.HasSorts D bs) : (t ++ u).HasSorts D (as ++ bs) :=
  List.rel_append ht hu

theorem Tuple.length_of_hasSorts {t : Tuple E} {as : List SmtSort} (ht : t.HasSorts D as) :
    t.length = as.length :=
  List.Forall₂.length_eq ht

end

/-! ## Operations on sets of tuples -/

/-- Tuples of both sets put together where the last column of one is the first of the other, which
is dropped. -/
def joinRows (r s : Set (Tuple E)) : Set (Tuple E) :=
  {t | ∃ u a v, u ++ [a] ∈ r ∧ a :: v ∈ s ∧ t = u ++ v}

/-- Every tuple of one set followed by every tuple of the other. -/
def productRows (r s : Set (Tuple E)) : Set (Tuple E) := {t | ∃ u ∈ r, ∃ v ∈ s, t = u ++ v}

/-- The tuples read backwards. -/
def reverseRows (r : Set (Tuple E)) : Set (Tuple E) := {t | t.reverse ∈ r}

/-- The pairs whose ends some chain of pairs in the set links. -/
def closureRows (r : Set (Tuple E)) : Set (Tuple E) :=
  {t | ∃ a b, t = [a, b] ∧ Relation.TransGen (fun x y => [x, y] ∈ r) a b}

end RelSmt
