import RelSmt.Proofs.Lowering.Discipline
import RelSmt.Proofs.Lowering.Naming

/-!
# Names in lowered expressions

Lowering keeps names in order: its functions and its assertions have the names that `Naming`
allows, and the terms that it returns have variables of fresh names only. All this is a discipline
(`naming`), about any function at all. To be shown is what becomes of names where a symbol is
declared on first use.
-/

namespace RelSmt.Lowering

variable {V : Set String} {lo : Nat} {C : List String} {s m s' : Session} {t : Term}

/-! ## Symbols declared on first use -/

theorem naming_intConstant {n : Int} {f : FunctionSymbol} (h : Runs (intConstant n) s f s') :
    Naming V lo [] s s' := by
  obtain ⟨rfl, ⟨_, rfl⟩ | ⟨hnew, comment, rfl⟩⟩ := intConstant_cases h
  · exact .refl _
  · have hdeclare : Naming V lo [] s { s.declaring (intSymbol n) with
        onDemand := { s.onDemand with ints := n :: s.onDemand.ints } } :=
      naming_onDemand ⟨fun k hk => List.mem_cons_of_mem _ hk, id, id⟩
        (.int n rfl hnew List.mem_cons_self)
    exact hdeclare.trans (naming_asserting ⟨⟨trivial, trivial⟩, trivial⟩)

theorem naming_atomIden (hs : s.Counts lo) (h : Runs atomIden s t s') : Naming V lo [] s s' := by
  obtain ⟨rfl, ⟨_, rfl⟩ | ⟨hnew, comment, rfl⟩⟩ := atomIden_cases h
  · exact .refl _
  · have hdeclare : Naming V lo [] s.next.next { s.next.next.declaring idenSymbol with
        onDemand := { s.onDemand with iden := true } } :=
      naming_onDemand ⟨fun _ hk => hk, fun _ => rfl, id⟩ (.iden rfl hnew rfl)
    have hsecond : Naming V lo [] s.next s.next.next := naming_next s.next
    have ha := hdeclare.bindable (hsecond.bindable (bindable_own hs (h := "a") (by decide)))
    have hb := hdeclare.bindable
      (bindable_own ((naming_next (V := V) s).counts hs) (h := "b") (by decide))
    refine (((naming_next s).trans hsecond).trans hdeclare).trans (naming_asserting ?_)
    exact ⟨List.forall_mem_cons.2 ⟨ha, List.forall_mem_singleton.2 hb⟩,
      ⟨⟨ha, hb, trivial⟩, trivial⟩, ha, hb⟩

theorem naming_integers (hs : s.Counts lo) (h : Runs integers s t s') : Naming V lo [] s s' := by
  obtain ⟨rfl, ⟨_, rfl⟩ | ⟨hnew, comment, rfl⟩⟩ := integers_cases h
  · exact .refl _
  · have hdeclare : Naming V lo [] s.next { s.next.declaring integersSymbol with
        onDemand := { s.onDemand with integers := true } } :=
      naming_onDemand ⟨fun _ hk => hk, id, fun _ => rfl⟩ (.integers rfl hnew rfl)
    have hx := hdeclare.bindable (bindable_own hs (h := "x") (by decide))
    refine ((naming_next s).trans hdeclare).trans (naming_asserting ?_)
    exact ⟨List.forall_mem_singleton.2 hx, ⟨hx, trivial⟩, trivial⟩

/-! ## The discipline -/

/-- A session whose counter is ahead of its functions, and whose user functions declare variables
with names in `V` only. -/
structure Session.Ready (V : Set String) (lo : Nat) (s : Session) : Prop where
  counts : s.Counts lo
  declared : ∀ f ∈ s.functions, ∀ body, f.body = some body → ∀ v ∈ body.declared, Hint V v.name

theorem Naming.ready (h : Naming V lo C s s') (hs : s.Ready V lo) : s'.Ready V lo :=
  ⟨h.counts hs.counts, by rw [h.userFunctions]; exact hs.declared⟩

/-- A copy of a variable has the variable's name for a hint. -/
theorem hint_of_bindable {x : String} (h : Bindable V lo s x) : Hint V x := by
  obtain ⟨hint, k, hhint, _, _, rfl, _⟩ := h
  exact .copy hhint

/-- **Lowering keeps names in order.** -/
def naming (V : Set String) (lo : Nat) : Discipline where
  Fine := Session.Ready V lo
  Leads := Naming V lo []
  Named := Bindable V lo
  Known _ _ := True
  Hinted := Hint V
  refl := .refl
  trans := .trans
  fine h hs := h.ready hs
  named h hx := h.bindable hx
  known _ _ := trivial
  next := naming_next
  asserting _ h := naming_asserting h.namesOnly
  counted hh hf := ⟨naming_declaring hh hf, trivial⟩
  fresh hs hh := bindable_next hs.counts hh
  own := .own
  copy := hint_of_bindable
  inlined hs hf hbody := hs.declared _ hf _ hbody
  value _ := trivial
  signature _ _ := trivial
  field _ _ := trivial
  int _ h := ⟨naming_intConstant h, trivial⟩
  iden hs h := ⟨naming_atomIden hs.counts h, trivial⟩
  integers hs h := ⟨naming_integers hs.counts h, trivial⟩

end RelSmt.Lowering
