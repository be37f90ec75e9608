import RelSmt.Proofs.Lowering.Composition
import RelSmt.Proofs.Lowering.Operator

/-!
# What operators keep

Most operators only put terms together. What the others bring in besides comes down to a few steps:
the test for a single element, the comparison of integers, and the symbols that are declared on
first use. A property of sessions and of the terms lowered in them that these steps keep
(`Operating`) is kept by all operators, and by the bounds of declared variables.
-/

namespace RelSmt.Lowering

/-- What the steps behind operators keep: which sessions are fine, how one of them leads to another,
and which terms fit a session. -/
structure Operating where
  Fine : Session → Prop
  Leads : Session → Session → Prop
  Fits : Session → Term → Prop
  -- sessions follow one another, and what was fine or fitted stays so
  refl (s : Session) : Leads s s
  trans {s m s' : Session} : Leads s m → Leads m s' → Leads s s'
  fine {s s' : Session} : Leads s s' → Fine s → Fine s'
  fits {s s' : Session} {t : Term} : Leads s s' → Fits s t → Fits s' t
  composes (s : Session) : Composes (Fits s)
  -- the steps that do more than put terms together
  exactlyOne {s s' : Session} {t u : Term} (hs : Fine s) (ht : Fits s t)
    (h : Runs (exactlyOne t) s u s') : Leads s s' ∧ Fits s' u
  compareIntegers {op : BinaryOp} {s s' : Session} {l r u : Term} (hs : Fine s) (hl : Fits s l)
    (hr : Fits s r) (h : Runs (compareIntegers op l r) s u s') : Leads s s' ∧ Fits s' u
  atomIden {s s' : Session} {t : Term} (hs : Fine s) (h : Runs atomIden s t s') :
    Leads s s' ∧ Fits s' t
  integers {s s' : Session} {t : Term} (hs : Fine s) (h : Runs integers s t s') :
    Leads s s' ∧ Fits s' t

variable {K : Operating} {s s' : Session} {t u l r : Term}

instance : Composes (K.Fits s) := K.composes s

/-- A step that only checks keeps to the property when its result fits. -/
theorem kept_lift {c : Checked Term} (h : Runs (liftM c : Lower Term) s u s')
    (hc : c = .ok u → K.Fits s u) : K.Leads s s' ∧ K.Fits s' u := by
  obtain ⟨hu, rfl⟩ := runs_lift.1 h
  exact ⟨K.refl _, hc hu⟩

theorem kept_atMostOne (hs : K.Fine s) (ht : K.Fits s t) (h : Runs (atMostOne t) s u s') :
    K.Leads s s' ∧ K.Fits s' u := by
  obtain ⟨o, ho, _, rfl⟩ := runs_atMostOne h
  obtain ⟨hleads, hfits⟩ := K.exactlyOne hs ht ho
  exact ⟨hleads, Composes.binary (Composes.binary (K.fits hleads ht) (Composes.emptySet _)) hfits⟩

theorem kept_equality (hs : K.Fine s) (hl : K.Fits s l) (hr : K.Fits s r)
    (h : Runs (equality l r) s u s') : K.Leads s s' ∧ K.Fits s' u := by
  unfold equality at h
  split at h
  · obtain ⟨heq, rfl⟩ := runs_lift.1 h
    exact ⟨K.refl _, Composes.mkBinary heq hl hr⟩
  · exact K.compareIntegers hs hl hr h

theorem kept_constant (hs : K.Fine s) {c : Relational.Constant} (h : Runs (constant c) s t s') :
    K.Leads s s' ∧ K.Fits s' t := by
  cases c with
  | univ =>
    obtain ⟨hfull, rfl⟩ := runs_lift.1 h
    obtain ⟨_, rfl⟩ := Term.fullOf_eq_ok.1 hfull
    exact ⟨K.refl _, Composes.fullSet _⟩
  | none =>
    obtain ⟨hempty, rfl⟩ := runs_lift.1 h
    obtain ⟨_, rfl⟩ := Term.emptyOf_eq_ok.1 hempty
    exact ⟨K.refl _, Composes.emptySet _⟩
  | iden => exact K.atomIden hs h
  | ints => exact K.integers hs h
  | true =>
    obtain ⟨rfl, rfl⟩ := runs_pure.1 h
    exact ⟨K.refl _, Composes.literal _⟩
  | false =>
    obtain ⟨rfl, rfl⟩ := runs_pure.1 h
    exact ⟨K.refl _, Composes.literal _⟩

theorem kept_unary (hs : K.Fine s) (ht : K.Fits s t) {op : Relational.UnaryOp}
    (h : Runs (unary op t) s u s') : K.Leads s s' ∧ K.Fits s' u := by
  cases op with
  | not => exact kept_lift h fun h => Composes.mkUnary h ht
  | no => exact kept_lift h fun h => composed_isEmpty h ht
  | some => exact kept_lift h fun h => composed_nonEmpty h ht
  | one => exact K.exactlyOne hs ht h
  | lone => exact kept_atMostOne hs ht h
  | transpose => exact kept_lift h fun h => Composes.mkUnary h ht
  | closure => exact kept_lift h fun h => Composes.mkUnary h ht
  | card => exact kept_lift h fun h => Composes.mkUnary h ht
  | reflexiveClosure =>
    simp only [unary, runs_bind, runs_lift] at h
    obtain ⟨_, _, ⟨hclosure, rfl⟩, _, _, hiden, hunion, rfl⟩ := h
    obtain ⟨hleads, hfits⟩ := K.atomIden hs hiden
    exact ⟨hleads, Composes.mkBinary hunion (K.fits hleads (Composes.mkUnary hclosure ht)) hfits⟩
  | _ =>
    obtain ⟨rfl, rfl⟩ := runs_pure.1 h
    exact ⟨K.refl _, ht⟩

theorem kept_binary (hs : K.Fine s) (hl : K.Fits s l) (hr : K.Fits s r)
    {op : Relational.BinaryOp} (h : Runs (binary op l r) s u s') :
    K.Leads s s' ∧ K.Fits s' u := by
  cases op with
  | override => exact kept_lift h fun h => composed_overrideBy h hl hr
  | domainRestrict => exact kept_lift h fun h => composed_restrictDomain h hl hr
  | rangeRestrict => exact kept_lift h fun h => composed_restrictRange h hl hr
  | notIn =>
    simp only [binary, runs_bind, runs_lift] at h
    obtain ⟨_, _, ⟨hin, rfl⟩, hneg, rfl⟩ := h
    exact ⟨K.refl _, Composes.mkUnary hneg (Composes.mkBinary hin hl hr)⟩
  | eq => exact kept_equality hs hl hr h
  | ne =>
    simp only [binary, runs_bind, runs_lift] at h
    obtain ⟨_, _, heq, hneg, rfl⟩ := h
    obtain ⟨hleads, hfits⟩ := kept_equality hs hl hr heq
    exact ⟨hleads, Composes.mkUnary hneg hfits⟩
  | lt => exact K.compareIntegers hs hl hr h
  | le => exact K.compareIntegers hs hl hr h
  | gt => exact K.compareIntegers hs hl hr h
  | ge => exact K.compareIntegers hs hl hr h
  | _ => exact kept_lift h fun h => Composes.mkBinary h hl hr

theorem kept_boundConstraint (hs : K.Fine s) {m : Relational.Multiplicity} {bound : Term}
    (ht : K.Fits s t) (hbound : K.Fits s bound)
    (h : Runs (boundConstraint m t bound) s u s') : K.Leads s s' ∧ K.Fits s' u := by
  cases m with
  | some =>
    simp only [boundConstraint, runs_bind, runs_lift] at h
    obtain ⟨_, _, ⟨hw, rfl⟩, _, _, ⟨hn, rfl⟩, hconj, rfl⟩ := h
    exact ⟨K.refl _,
      Composes.mkBinary hconj (Composes.mkBinary hw ht hbound) (composed_nonEmpty hn ht)⟩
  | lone =>
    simp only [boundConstraint, runs_bind, runs_lift] at h
    obtain ⟨_, _, ⟨hw, rfl⟩, _, _, hlone, hconj, rfl⟩ := h
    obtain ⟨hleads, hfits⟩ := kept_atMostOne hs ht hlone
    exact ⟨hleads, Composes.mkBinary hconj (K.fits hleads (Composes.mkBinary hw ht hbound)) hfits⟩
  | _ => exact kept_lift h fun h => Composes.mkBinary h ht hbound

end RelSmt.Lowering
