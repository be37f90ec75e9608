/-!
# Sorts

The sorts of terms: booleans, integers, declared sorts, tuples and finite sets. A relation is a set
of tuples. Two declared sorts have a role of their own: `Atom` holds the atoms of relations, and
`UInt` holds the atoms that stand for integers, each of which a value function maps to its value.
-/

namespace RelSmt

/-- The sort of a term. `uint` is apart from a declared sort that merely has its name. -/
inductive SmtSort where
  | named (name : String)
  | bool
  | int
  | uint
  | tuple (columns : List SmtSort)
  | set (element : SmtSort)
deriving Inhabited

namespace SmtSort

/-! ## Equality is decided by structure -/

mutual

/-- Structural equality of sorts. -/
def beq : SmtSort → SmtSort → Bool
  | .named a, .named b => a == b
  | .bool, .bool => true
  | .int, .int => true
  | .uint, .uint => true
  | .tuple as, .tuple bs => beqList as bs
  | .set a, .set b => beq a b
  | _, _ => false

/-- Structural equality, column by column. -/
def beqList : List SmtSort → List SmtSort → Bool
  | [], [] => true
  | a :: as, b :: bs => beq a b && beqList as bs
  | _, _ => false

end

mutual

theorem eq_of_beq : ∀ {a b : SmtSort}, beq a b = true → a = b
  | .named a, b, h => by cases b <;> simp_all [beq]
  | .bool, b, h => by cases b <;> simp_all [beq]
  | .int, b, h => by cases b <;> simp_all [beq]
  | .uint, b, h => by cases b <;> simp_all [beq]
  | .tuple as, b, h => by
    cases b with
    | tuple bs => exact congrArg _ (eq_of_beqList (by simpa [beq] using h))
    | _ => simp [beq] at h
  | .set a, b, h => by
    cases b with
    | set b => exact congrArg _ (eq_of_beq (by simpa [beq] using h))
    | _ => simp [beq] at h

theorem eq_of_beqList : ∀ {as bs : List SmtSort}, beqList as bs = true → as = bs
  | [], [], _ => rfl
  | [], _ :: _, h => by simp [beqList] at h
  | _ :: _, [], h => by simp [beqList] at h
  | a :: as, b :: bs, h => by
    simp only [beqList, Bool.and_eq_true] at h
    rw [eq_of_beq h.1, eq_of_beqList h.2]

end

mutual

theorem beq_refl : ∀ a : SmtSort, beq a a = true
  | .named a => by simp [beq]
  | .bool => rfl
  | .int => rfl
  | .uint => rfl
  | .tuple as => by simp [beq, beqList_refl as]
  | .set a => by simp [beq, beq_refl a]

theorem beqList_refl : ∀ as : List SmtSort, beqList as as = true
  | [] => rfl
  | a :: as => by simp [beqList, beq_refl a, beqList_refl as]

end

instance : DecidableEq SmtSort := fun a b =>
  if h : beq a b = true then isTrue (eq_of_beq h)
  else isFalse fun hab => h (hab ▸ beq_refl a)

/-! ## Relations -/

/-- The sort of relational atoms. -/
def atom : SmtSort := .named "Atom"

/-- The sort of relations with the given columns. -/
def relation (columns : List SmtSort) : SmtSort := .set (.tuple columns)

/-- Sets of atoms. -/
def atoms : SmtSort := relation [atom]

/-- Sets of atoms that stand for integers. -/
def uints : SmtSort := relation [.uint]

/-- Is this a set sort? -/
def isSet : SmtSort → Bool
  | .set _ => true
  | _ => false

/-- Is this a tuple sort? -/
def isTuple : SmtSort → Bool
  | .tuple _ => true
  | _ => false

/-- May this sort be a column of a tuple? -/
def isAtomic : SmtSort → Bool
  | .tuple _ => false
  | .set _ => false
  | _ => true

/-- The sort of a set's elements. -/
def element? : SmtSort → Option SmtSort
  | .set e => some e
  | _ => none

/-- The columns of a tuple, or of the tuples in a set. -/
def columns? : SmtSort → Option (List SmtSort)
  | .tuple cs => some cs
  | .set e => columns? e
  | _ => none

/-- The columns of a tuple or relation; other sorts have none. -/
def columns (s : SmtSort) : List SmtSort := s.columns?.getD []

/-- The number of columns. -/
def arity (s : SmtSort) : Nat := s.columns.length

@[simp] theorem columns_relation (cs : List SmtSort) : (relation cs).columns = cs := rfl

@[simp] theorem arity_relation (cs : List SmtSort) : (relation cs).arity = cs.length := rfl

@[simp] theorem isSet_relation (cs : List SmtSort) : (relation cs).isSet = true := rfl

/-! ## Written form -/

mutual

/-- A sort as scripts write it. Names are written bare. -/
def text : SmtSort → String
  | .named name => name
  | .bool => "Bool"
  | .int => "Int"
  | .uint => "UInt"
  | .tuple cs => "(" ++ " ".intercalate ("Tuple" :: texts cs) ++ ")"
  | .set e => "(Set " ++ e.text ++ ")"

/-- The written forms of a tuple's columns. -/
def texts : List SmtSort → List String
  | [] => []
  | c :: cs => c.text :: texts cs

end

theorem texts_eq_map (cs : List SmtSort) : texts cs = cs.map text := by
  induction cs with
  | nil => rfl
  | cons c cs ih => simp [texts, ih]

instance : ToString SmtSort := ⟨text⟩

end SmtSort

end RelSmt
