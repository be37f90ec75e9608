import RelSmt.Proofs.Lowering.Extension
import RelSmt.Proofs.Relational.Meaning

/-!
# Symbols declared on first use

The constant of an integer, the identity relation and the set of all integers come with an axiom
where they are first used. After any use the symbol is on demand, so an interpretation that supports
the session gives it the intended value: the atoms of an integer, the pairs of an atom with itself,
all atoms that stand for integers.
-/

namespace RelSmt

variable {E : Type}

namespace Lowering

variable {s s' : Session}

theorem valueOf_eq_ok {t u : Term} :
    valueOf t = .ok u ↔ t.sort = .uint ∧ .call intValue [t] = u := by
  simp [valueOf, FunctionSymbol.apply_eq_ok, Term.sorts, intValue]

/-! ## Integers -/

/-- The constant of an integer is declared with its axiom where it is first used. -/
theorem intConstant_cases {n : Int} {f : FunctionSymbol} (h : Runs (intConstant n) s f s') :
    f = intSymbol n ∧ (n ∈ s.onDemand.ints ∧ s' = s ∨ n ∉ s.onDemand.ints ∧ ∃ comment,
      s' = { (s.declaring (intSymbol n)).asserting
          ⟨comment, .binary .eq (.call intValue [.symbol (intSymbol n)]) (.int n), none⟩ with
        onDemand := { s.onDemand with ints := n :: s.onDemand.ints } }) := by
  simp only [intConstant, runs_bind, runs_get] at h
  obtain ⟨_, _, ⟨rfl, rfl⟩, h⟩ := h
  split at h
  · rename_i hold
    obtain ⟨rfl, rfl⟩ := runs_pure.1 h
    exact ⟨rfl, Or.inl ⟨by simpa using hold, rfl⟩⟩
  · rename_i hnew
    simp only [runs_bind, runs_declare, runs_lift, runs_assert, runs_modify, runs_pure,
      valueOf_eq_ok, Term.eqTo_eq_ok] at h
    obtain ⟨_, _, rfl, _, _, ⟨⟨_, rfl⟩, rfl⟩, _, _, ⟨⟨_, rfl⟩, rfl⟩, _, _, ⟨_, rfl⟩, _, _, rfl, rfl,
      rfl⟩ := h
    exact ⟨rfl, Or.inr ⟨by simpa using hnew, _, rfl⟩⟩

theorem extends_intConstant {n : Int} {f : FunctionSymbol} (h : Runs (intConstant n) s f s') :
    f = intSymbol n ∧ n ∈ s'.onDemand.ints ∧ Extends s s' := by
  obtain ⟨rfl, ⟨hmem, rfl⟩ | ⟨_, comment, rfl⟩⟩ := intConstant_cases h
  · exact ⟨rfl, hmem, .refl _⟩
  · have hdecl := extends_declaring s (intSymbol n)
    refine ⟨rfl, by simp, ?_⟩
    refine (hdecl.trans (extends_asserting (Or.inl rfl))).with_onDemand _
      ⟨fun k hk => List.mem_cons_of_mem _ hk, id, id⟩ fun I hI ha => ?_
    refine ⟨fun k hk => ?_, hI.iden, hI.integers⟩
    rcases List.mem_cons.1 hk with rfl | hk
    · simpa [Term.eval, Term.evalAll, Term.binaryValue, Term.int, Term.literalValue]
        using valid_of_asserting hdecl ha default
    · exact hI.ints k hk

/-- The relation of an integer is written out as the singleton of its constant. -/
theorem runs_intRelation {n : Int} {t : Term} (h : Runs (intRelation n) s t s') :
    t = .unary .singleton (.nary .mkTuple [.symbol (intSymbol n)]) ∧ n ∈ s'.onDemand.ints ∧
      Extends s s' := by
  simp only [intRelation, runs_bind, runs_lift, Term.tuple_eq_ok, Term.single_eq_ok] at h
  obtain ⟨_, _, hc, _, _, ⟨⟨_, _, rfl⟩, rfl⟩, ⟨_, rfl⟩, rfl⟩ := h
  obtain ⟨rfl, hmem, hext⟩ := extends_intConstant hc
  exact ⟨rfl, hmem, hext⟩

/-- The relation of an integer holds the atom that stands for it. -/
theorem denotes_intRelation {I : Interpretation E} {ρ : Assignment E} {n : Int} {t : Term}
    (hinj : I.IntInjective) (h : Runs (intRelation n) s t s') (hI : I.Supports s'.onDemand) :
    t.Denotes I ρ (.set {r | ∃ e ∈ I.carrier .uint, I.intOf e = n ∧ r = [.element e]}) := by
  obtain ⟨rfl, hmem, _⟩ := runs_intRelation h
  obtain ⟨e, he, hval⟩ := Value.exists_element_of_hasSort
    (I.function_sort (intSymbol n) [] trivial List.Forall₂.nil)
  have hint : I.intOf e = n := by
    have := hI.ints n hmem
    rw [hval] at this
    simp [Interpretation.intOf, this]
  have hrows : ({[.element e]} : Set (Tuple E))
      = {r | ∃ e ∈ I.carrier .uint, I.intOf e = n ∧ r = [.element e]} := by
    ext r
    constructor
    · rintro rfl
      exact ⟨e, he, hint, rfl⟩
    · rintro ⟨d, hd, hdn, rfl⟩
      rw [hinj d hd e he (hdn.trans hint.symm)]
      rfl
  refine ⟨?_, ?_⟩
  · simp only [Term.eval, Term.evalAll, Term.unaryValue, Term.naryValue, hval, List.map_cons,
      List.map_nil, Value.column_element, Value.row_tuple]
    rw [hrows]
  · rintro _ ⟨d, hd, _, rfl⟩
    exact List.Forall₂.cons hd List.Forall₂.nil

/-! ## The identity relation -/

/-- The axiom of the identity relation. -/
def idenAxiom (a b : Variable) : Term :=
  .quantified .all [a, b] (.binary .eq
    (.binary .member (.nary .mkTuple [.variable a, .variable b]) (.symbol idenSymbol))
    (.binary .eq (.variable a) (.variable b)))

/-- Under its axiom the identity relation holds the pairs of an atom with itself. -/
theorem function_idenSymbol {I : Interpretation E} {a b : Variable} (ha : a.sort = .atom)
    (hb : b.sort = .atom) (hne : a.name ≠ b.name) (h : (idenAxiom a b).Valid I) :
    I.function idenSymbol [] = .set I.diagonal := by
  have hsort : (I.function idenSymbol []).HasSort I.carrier (.relation [.atom, .atom]) :=
    I.function_sort idenSymbol [] trivial List.Forall₂.nil
  have hpair : ∀ d ∈ I.carrier .atom, ∀ e ∈ I.carrier .atom,
      ([.element d, .element e] ∈ (I.function idenSymbol []).rows ↔ d = e) := by
    intro d hd e he
    have := h default [.element d, .element e]
      (List.Forall₂.cons (by rw [ha]; exact hd) (List.Forall₂.cons (by rw [hb]; exact he) .nil))
    simpa [Term.eval, Term.evalAll, Term.binaryValue, Term.naryValue,
      Assignment.get_bind_of_ne _ _ hne] using this
  rw [Value.eq_set_of_hasSort hsort]
  congr 1
  ext r
  constructor
  · intro hr
    obtain ⟨x, y, rfl, hx, hy⟩ :=
      Tuple.exists_of_hasSorts_pair (Value.hasSort_of_mem_rows hsort hr)
    obtain ⟨d, hd, rfl⟩ := Scalar.exists_element_atom hx
    obtain ⟨e, he, rfl⟩ := Scalar.exists_element_atom hy
    obtain rfl := (hpair d hd e he).1 hr
    exact ⟨d, hd, rfl⟩
  · rintro ⟨d, hd, rfl⟩
    exact (hpair d hd d hd).2 rfl

/-- The identity relation is declared with its axiom where it is first used. -/
theorem atomIden_cases {t : Term} (h : Runs atomIden s t s') : t = .symbol idenSymbol ∧
    (s.onDemand.iden = true ∧ s' = s ∨ s.onDemand.iden = false ∧ ∃ comment,
      s' = { (s.next.next.declaring idenSymbol).asserting
          ⟨comment, idenAxiom (.plain (numbered "a" (s.fresh + 1)) .atom)
            (.plain (numbered "b" (s.next.fresh + 1)) .atom), none⟩ with
        onDemand := { s.onDemand with iden := true } }) := by
  simp only [atomIden, runs_bind, runs_get] at h
  obtain ⟨_, _, ⟨rfl, rfl⟩, h⟩ := h
  split at h
  · rename_i hold
    obtain ⟨rfl, rfl⟩ := runs_pure.1 h
    exact ⟨rfl, Or.inl ⟨hold, rfl⟩⟩
  · rename_i hnew
    simp only [runs_bind, runs_declare, runs_freshVariable, runs_lift, runs_assert, runs_modify,
      runs_pure, Term.tuple_eq_ok, Term.isIn_eq_ok, Term.eqTo_eq_ok, Term.all,
      Term.mkQuantified_eq_ok] at h
    obtain ⟨_, _, rfl, _, _, ⟨rfl, rfl⟩, _, _, ⟨rfl, rfl⟩, _, _, ⟨⟨_, _, rfl⟩, rfl⟩, _, _,
      ⟨⟨_, rfl⟩, rfl⟩, _, _, ⟨⟨_, rfl⟩, rfl⟩, _, _, ⟨⟨_, rfl⟩, rfl⟩, _, _, ⟨⟨_, _, rfl⟩, rfl⟩, _, _,
      ⟨_, rfl⟩, _, _, rfl, rfl, rfl⟩ := h
    exact ⟨rfl, Or.inr ⟨by simpa using hnew, _, rfl⟩⟩

/-- The identity relation is the symbol, and it is on demand from now on. -/
theorem runs_atomIden {t : Term} (h : Runs atomIden s t s') :
    t = .symbol idenSymbol ∧ s'.onDemand.iden = true ∧ Extends s s' := by
  obtain ⟨rfl, ⟨hmem, rfl⟩ | ⟨_, comment, rfl⟩⟩ := atomIden_cases h
  · exact ⟨rfl, hmem, .refl _⟩
  · have hext := ((extends_next s).trans (extends_next s.next)).trans
      (extends_declaring s.next.next idenSymbol)
    refine ⟨rfl, rfl, ?_⟩
    refine (hext.trans (extends_asserting (Or.inl ?_))).with_onDemand _
      ⟨fun _ hk => hk, fun _ => rfl, id⟩ fun I hI ha => ?_
    · simp [idenAxiom, Term.freeOccurrences, Term.freeOccurrencesList, Term.bindsName]
    · refine ⟨hI.ints, fun _ => ?_, hI.integers⟩
      refine function_idenSymbol rfl rfl (fun he => ?_) (valid_of_asserting hext ha)
      have := numbered_injective he
      simp at this

theorem denotes_atomIden {I : Interpretation E} {ρ : Assignment E} {t : Term}
    (h : Runs atomIden s t s') (hI : I.Supports s'.onDemand) :
    t.Denotes I ρ (.set I.diagonal) := by
  obtain ⟨rfl, hmem, _⟩ := runs_atomIden h
  refine ⟨hI.iden hmem, ?_⟩
  rintro _ ⟨e, he, rfl⟩
  exact List.Forall₂.cons he (List.Forall₂.cons he List.Forall₂.nil)

/-! ## The set of all integers -/

/-- The axiom of the set of all integers. -/
def integersAxiom (x : Variable) : Term :=
  .quantified .all [x]
    (.binary .member (.nary .mkTuple [.variable x]) (.symbol integersSymbol))

/-- Under its axiom the set of all integers holds every atom that stands for one. -/
theorem function_integersSymbol {I : Interpretation E} {x : Variable} (hx : x.sort = .uint)
    (h : (integersAxiom x).Valid I) : I.function integersSymbol [] = .set (I.singles .uint) := by
  have hsort : (I.function integersSymbol []).HasSort I.carrier .uints :=
    I.function_sort integersSymbol [] trivial List.Forall₂.nil
  rw [Value.eq_set_of_hasSort hsort]
  congr 1
  ext r
  constructor
  · intro hr
    exact Tuple.exists_of_hasSorts_uint (Value.hasSort_of_mem_rows hsort hr)
  · rintro ⟨e, he, rfl⟩
    have := h default [.element e] (List.Forall₂.cons (by rw [hx]; exact he) .nil)
    simpa [Term.eval, Term.evalAll, Term.binaryValue, Term.naryValue] using this

/-- The axiom holds where the set of all integers holds every atom that stands for one. -/
theorem valid_integersAxiom {I : Interpretation E} {x : Variable} (hx : x.sort = .uint)
    (h : I.function integersSymbol [] = .set (I.singles .uint)) : (integersAxiom x).Valid I := by
  intro ρ as has
  obtain ⟨a, rest, ha, hrest, rfl⟩ := List.forall₂_cons_left_iff.1 has
  obtain rfl := List.forall₂_nil_left_iff.1 hrest
  rw [hx] at ha
  obtain ⟨e, he, rfl⟩ := Value.exists_element_of_hasSort ha
  simp [Term.eval, Term.evalAll, Term.binaryValue, Term.naryValue, h, Interpretation.singles, he]

/-- The set of all integers is declared with its axiom where it is first used. -/
theorem integers_cases {t : Term} (h : Runs integers s t s') : t = .symbol integersSymbol ∧
    (s.onDemand.integers = true ∧ s' = s ∨ s.onDemand.integers = false ∧ ∃ comment,
      s' = { (s.next.declaring integersSymbol).asserting
          ⟨comment, integersAxiom (.plain (numbered "x" (s.fresh + 1)) .uint), none⟩ with
        onDemand := { s.onDemand with integers := true } }) := by
  simp only [integers, runs_bind, runs_get] at h
  obtain ⟨_, _, ⟨rfl, rfl⟩, h⟩ := h
  split at h
  · rename_i hold
    obtain ⟨rfl, rfl⟩ := runs_pure.1 h
    exact ⟨rfl, Or.inl ⟨hold, rfl⟩⟩
  · rename_i hnew
    simp only [runs_bind, runs_declare, runs_freshVariable, runs_lift, runs_assert, runs_modify,
      runs_pure, Term.tuple_eq_ok, Term.isIn_eq_ok, Term.all, Term.mkQuantified_eq_ok] at h
    obtain ⟨_, _, rfl, _, _, ⟨rfl, rfl⟩, _, _, ⟨⟨_, _, rfl⟩, rfl⟩, _, _, ⟨⟨_, rfl⟩, rfl⟩, _, _,
      ⟨⟨_, _, rfl⟩, rfl⟩, _, _, ⟨_, rfl⟩, _, _, rfl, rfl, rfl⟩ := h
    exact ⟨rfl, Or.inr ⟨by simpa using hnew, _, rfl⟩⟩

/-- The set of all integers is the symbol, and it is on demand from now on. -/
theorem runs_integers {t : Term} (h : Runs integers s t s') :
    t = .symbol integersSymbol ∧ s'.onDemand.integers = true ∧ Extends s s' := by
  obtain ⟨rfl, ⟨hmem, rfl⟩ | ⟨_, comment, rfl⟩⟩ := integers_cases h
  · exact ⟨rfl, hmem, .refl _⟩
  · have hext := (extends_next s).trans (extends_declaring s.next integersSymbol)
    refine ⟨rfl, rfl, ?_⟩
    refine (hext.trans (extends_asserting (Or.inl ?_))).with_onDemand _
      ⟨fun _ hk => hk, id, fun _ => rfl⟩ fun I hI ha => ?_
    · simp [integersAxiom, Term.freeOccurrences, Term.freeOccurrencesList, Term.bindsName]
    · exact ⟨hI.ints, hI.iden,
        fun _ => function_integersSymbol rfl (valid_of_asserting hext ha)⟩

theorem denotes_integers {I : Interpretation E} {ρ : Assignment E} {t : Term}
    (h : Runs integers s t s') (hI : I.Supports s'.onDemand) :
    t.Denotes I ρ (.set (I.singles .uint)) := by
  obtain ⟨rfl, hmem, _⟩ := runs_integers h
  refine ⟨hI.integers hmem, ?_⟩
  rintro _ ⟨e, he, rfl⟩
  exact List.Forall₂.cons he List.Forall₂.nil

/-! ## Signatures, fields and functions -/

namespace Session

/-- The relational structure that an interpretation of the session's symbols is. -/
def relations (s : Session) (I : Interpretation E) : Relational.Structure E where
  atoms := I.carrier .atom
  integers := I.carrier .uint
  intOf := I.intOf
  arithmetic := I.arithmetic
  signature r := ((s.signatures.lookup r).map fun f => (I.function f []).rows).getD ∅
  field r := ((s.fields.lookup r).map fun f => (I.function f []).rows).getD ∅
  functions := s.functions

/-- Is the symbol a constant that stands for a relation with these columns? -/
def IsRelation (f : FunctionSymbol) (columns : List Relational.Column) : Prop :=
  f.inputs = [] ∧ f.output = relationSort columns

/-- Do signatures and fields stand for relations, which have one column for signatures? -/
structure Proper (s : Session) : Prop where
  signatures : ∀ r f, s.signatures.lookup r = some f → ∃ c, IsRelation f [c]
  fields : ∀ r f, s.fields.lookup r = some f → IsRelation f r.columns

end Session

theorem relations_of_extends {I : Interpretation E} (h : Extends s s') :
    s'.relations I = s.relations I := by
  simp [Session.relations, h.signatures, h.fields, h.functions]

theorem proper_of_extends (hs : s.Proper) (h : Extends s s') : s'.Proper := by
  refine ⟨?_, ?_⟩
  · rw [h.signatures]
    exact hs.signatures
  · rw [h.fields]
    exact hs.fields

theorem runs_signature {r : Relational.SigRef} {t : Term} :
    Runs (signature r) s t s' ↔ ∃ f, s.signatures.lookup r = some f ∧ .symbol f = t ∧ s = s' := by
  simp only [signature, runs_bind, runs_get]
  constructor
  · rintro ⟨_, _, ⟨rfl, rfl⟩, h⟩
    split at h
    · rename_i f hf
      exact ⟨f, hf, runs_pure.1 h⟩
    · exact (runs_throw h).elim
  · rintro ⟨f, hf, rfl, rfl⟩
    exact ⟨s, s, ⟨rfl, rfl⟩, by rw [hf]; exact runs_pure.2 ⟨rfl, rfl⟩⟩

theorem runs_field {r : Relational.FieldRef} {t : Term} :
    Runs (field r) s t s' ↔ ∃ f, s.fields.lookup r = some f ∧ .symbol f = t ∧ s = s' := by
  simp only [field, runs_bind, runs_get]
  constructor
  · rintro ⟨_, _, ⟨rfl, rfl⟩, h⟩
    split at h
    · rename_i f hf
      exact ⟨f, hf, runs_pure.1 h⟩
    · exact (runs_throw h).elim
  · rintro ⟨f, hf, rfl, rfl⟩
    exact ⟨s, s, ⟨rfl, rfl⟩, by rw [hf]; exact runs_pure.2 ⟨rfl, rfl⟩⟩

/-- A constant that stands for a relation denotes it. -/
theorem denotes_constant {I : Interpretation E} {ρ : Assignment E} {f : FunctionSymbol}
    {columns : List Relational.Column} (h : Session.IsRelation f columns) :
    (Term.symbol f).Denotes I ρ (.set (I.function f []).rows) := by
  obtain ⟨hin, hout⟩ := h
  have hproper : f.output.IsProper := by
    rw [hout]
    trivial
  have hset : f.output.isSet = true := by
    rw [hout]
    rfl
  have := Term.denotes_symbol (I := I) (ρ := ρ) hin hproper
  rwa [this.eq_set hset] at this

theorem denotes_signature {I : Interpretation E} {ρ : Assignment E} {r : Relational.SigRef}
    {t : Term} (hs : s.Proper) (h : Runs (signature r) s t s') :
    t.Denotes I ρ (.set ((s.relations I).signature r)) := by
  obtain ⟨f, hf, rfl, rfl⟩ := runs_signature.1 h
  obtain ⟨_, hrelation⟩ := hs.signatures r f hf
  simpa [Session.relations, hf] using denotes_constant (I := I) (ρ := ρ) hrelation

theorem denotes_field {I : Interpretation E} {ρ : Assignment E} {r : Relational.FieldRef}
    {t : Term} (hs : s.Proper) (h : Runs (field r) s t s') :
    t.Denotes I ρ (.set ((s.relations I).field r)) := by
  obtain ⟨f, hf, rfl, rfl⟩ := runs_field.1 h
  simpa [Session.relations, hf] using denotes_constant (I := I) (ρ := ρ) (hs.fields r f hf)

end Lowering

end RelSmt
