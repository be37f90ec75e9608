/-!
# Nested scopes

Names bound to values in scopes that nest. An inner scope hides the bindings of an outer one and
leaves them as they are; within one scope a later binding takes the place of an earlier one.
-/

namespace RelSmt

/-- Bindings of the innermost scope, and those of the scopes around it from inside out. Each name is
bound at most once in a scope, the latest first. -/
structure Scoped (α : Type) where
  here : List (String × α) := []
  around : List (List (String × α)) := []

namespace Scoped

variable {α : Type}

/-- Enters a scope of its own. -/
def enter (s : Scoped α) : Scoped α := ⟨[], s.here :: s.around⟩

/-- The scope around this one. -/
def outer? (s : Scoped α) : Option (Scoped α) :=
  match s.around with
  | [] => none
  | f :: fs => some ⟨f, fs⟩

/-- The outermost scope. -/
def root (s : Scoped α) : Scoped α := ⟨s.around.getLastD s.here, []⟩

/-- Binds a name in the innermost scope. -/
def put (s : Scoped α) (name : String) (a : α) : Scoped α :=
  { s with here := (name, a) :: s.here.filter fun b => b.1 != name }

/-- Binds several names, one after the other. -/
def putAll (s : Scoped α) (bs : List (String × α)) : Scoped α :=
  bs.foldl (fun s b => s.put b.1 b.2) s

/-- Looks a name up, from the innermost scope outwards. -/
def get? (s : Scoped α) (name : String) : Option α :=
  (s.here :: s.around).findSome? fun frame => frame.lookup name

/-- Is the name bound in this scope or around it? -/
def contains (s : Scoped α) (name : String) : Bool := (s.get? name).isSome

/-- Is the name bound in the innermost scope itself? -/
def containsHere (s : Scoped α) (name : String) : Bool := (s.here.lookup name).isSome

/-- Does some binding satisfy `p`, be it hidden or not? -/
def anyBound (s : Scoped α) (p : α → Bool) : Bool :=
  (s.here :: s.around).any fun frame => frame.any fun b => p b.2

theorem lookup_filter_ne {name other : String} (h : other ≠ name) (bs : List (String × α)) :
    (bs.filter fun b => b.1 != name).lookup other = bs.lookup other := by
  induction bs with
  | nil => rfl
  | cons b bs ih =>
    obtain ⟨key, a⟩ := b
    by_cases hk : key = name
    · have hne : (other == key) = false := by simp [hk, h]
      simp [hk, List.lookup_cons, ih, show (other == name) = false by simp [h]]
    · simp only [List.filter_cons, bne_iff_ne, ne_eq, hk, not_false_eq_true, if_true,
        List.lookup_cons]
      split <;> simp_all

@[simp] theorem get?_put_self (s : Scoped α) (name : String) (a : α) :
    (s.put name a).get? name = some a := by
  simp [put, get?, List.findSome?]

theorem get?_put_of_ne (s : Scoped α) {name other : String} (a : α) (h : other ≠ name) :
    (s.put name a).get? other = s.get? other := by
  have hne : (other == name) = false := by simp [h]
  simp [put, get?, List.findSome?, List.lookup_cons, hne, lookup_filter_ne h]

@[simp] theorem get?_enter (s : Scoped α) (name : String) : s.enter.get? name = s.get? name := by
  simp [enter, get?, List.findSome?]

end Scoped

end RelSmt
