import RelSmt.Proofs.Model.ReadsBack

/-!
# A solver's constants

A solver names the elements of a declared sort by the sort and a number. Such a name is simple, its
sort is read back from it, and different numbers make different names.
-/

namespace RelSmt

/-- The name of an element of a declared sort. -/
def constantName (s : SmtSort) (i : Nat) : String := "@uc_" ++ s.text ++ "_" ++ toString i

/-- The element as a literal. -/
def solverConstant (s : SmtSort) (i : Nat) : Literal := .element (constantName s i) s

variable {s : SmtSort} {i j : Nat}

theorem toList_constantName (s : SmtSort) (i : Nat) :
    (constantName s i).toList = "@uc_".toList ++ (s.text.toList ++ '_' :: Nat.toDigits 10 i) := by
  simp [constantName]

theorem head_constantName (s : SmtSort) (i : Nat) : (constantName s i).toList.head? = some '@' := by
  rw [toList_constantName]
  rfl

/-- No name that starts otherwise is the name of a constant. -/
theorem ne_constantName {name : String} (h : name.toList.head? ≠ some '@') :
    name ≠ constantName s i := by
  rintro rfl
  exact h (head_constantName s i)

theorem constantName_injective (h : constantName s i = constantName s j) : i = j := by
  have hlist := congrArg String.toList h
  rw [toList_constantName, toList_constantName] at hlist
  have hdigits := (List.cons.inj (List.append_cancel_left (List.append_cancel_left hlist))).2
  have hi := SExpr.Reader.value_reverse_toDigits i
  rw [hdigits, SExpr.Reader.value_reverse_toDigits] at hi
  exact hi.symm

theorem solverConstant_injective (h : solverConstant s i = solverConstant s j) : i = j :=
  constantName_injective (Literal.element.inj h).1

namespace Reply

theorem beforeLast?_append {mark : Char} {cs : List Char} (h : mark ∉ cs) :
    ∀ front : List Char, beforeLast? mark (front ++ mark :: cs) = some front
  | [] => by
    have hnone : beforeLast? mark cs = none := by
      induction cs with
      | nil => rfl
      | cons c cs ih =>
        rw [List.mem_cons, not_or] at h
        rw [beforeLast?, ih h.2, if_neg (Ne.symm h.1)]
    rw [List.nil_append, beforeLast?, hnone, if_pos rfl]
  | c :: front => by rw [List.cons_append, beforeLast?, beforeLast?_append h front]

/-- The sort of a constant is read back from its name. -/
theorem isConstant_constantName (hs : s = .atom ∨ s = .uint) : IsConstant (constantName s i) s := by
  refine ⟨s.text, ?_, constantSort_eq_ok.2 ?_⟩
  · have hdigit : '_' ∉ Nat.toDigits 10 i := fun h =>
      absurd (Nat.isDigit_of_mem_toDigits (by decide) (by decide) h) (by decide)
    have hafter : after? "@uc_".toList (constantName s i).toList
        = some (s.text.toList ++ '_' :: Nat.toDigits 10 i) := by
      rw [toList_constantName, after?, if_pos (List.isPrefixOf_iff_prefix.2 (List.prefix_append ..)),
        List.drop_left]
    rw [constantSortName?, hafter]
    change (beforeLast? '_' _).map String.ofList = _
    rw [beforeLast?_append hdigit, Option.map_some, String.ofList_toList]
  · rcases hs with rfl | rfl
    · exact Or.inl ⟨rfl, rfl⟩
    · exact Or.inr ⟨rfl, rfl⟩

end Reply

theorem clean_constantName (hs : s = .atom ∨ s = .uint) : Symbol.Clean (constantName s i) := by
  refine SExpr.Reader.clean_of_isBareChar fun c hc => SExpr.Reader.isBareChar_of_isSimpleChar ?_
  rw [toList_constantName, List.mem_append, List.mem_append, List.mem_cons] at hc
  have hfixed : ∀ c ∈ "@uc_".toList ++ ("Atom".toList ++ "UInt".toList), Symbol.isSimpleChar c :=
    List.all_eq_true.1 (by decide)
  rcases hc with hc | hc | rfl | hc
  · exact hfixed c (List.mem_append_left _ hc)
  · rcases hs with rfl | rfl
    · exact hfixed c (List.mem_append_right _ (List.mem_append_left _ hc))
    · exact hfixed c (List.mem_append_right _ (List.mem_append_right _ hc))
  · decide
  · have hdigit := Nat.isDigit_of_mem_toDigits (by decide) (by decide) hc
    simp [Symbol.isSimpleChar, Char.isAlphanum, hdigit]

theorem not_isTruthValue_constantName : ¬ Reply.IsTruthValue (constantName s i) := by
  rintro (h | h)
  · exact ne_constantName (by decide) h.symm
  · exact ne_constantName (by decide) h.symm

/-- A solver's constant is read back where no name of the environment hides it. -/
theorem readsBack_solverConstant {env : Environment} (hs : s = .atom ∨ s = .uint)
    (hget : env.get? (constantName s i) = none) :
    (Term.literal (solverConstant s i)).ReadsBack env :=
  Term.readsBack_element (clean_constantName hs) not_isTruthValue_constantName hget
    (Reply.isConstant_constantName hs)

end RelSmt
