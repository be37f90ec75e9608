import RelSmt.Proofs.Lowering.Naming
import RelSmt.Proofs.Lowering.Operating
import RelSmt.Proofs.Relational.Declared
import RelSmt.Proofs.Term.Parts

/-!
# Disciplines of lowering

What lowering does to a session comes down to a few elementary steps: it counts, declares a
function of a counted name, declares a symbol on first use, and asserts a formula, without a label
unless it is that of a fact or a command. A property of sessions that these steps keep is kept by
lowering as a whole, provided that a formula is made of names and functions that fit the session
that it is asserted in.

A `Discipline` is such a property: which sessions are fine, how one of them leads to another, which
names variables may have there and which functions terms may mention. That lowering keeps to it is
proved here once, with one lemma for each step, for all disciplines. The names of variables are one
(`naming`), that functions are declared before they are used is another.
-/

namespace RelSmt.Lowering

/-- What the elementary steps of lowering keep. -/
structure Discipline where
  /-- The sessions that keep to it. -/
  Fine : Session → Prop
  /-- How a session goes on to another. -/
  Leads : Session → Session → Prop
  /-- The names that variables may have. -/
  Named : Session → String → Prop
  /-- The functions that terms may mention. -/
  Known : Session → FunctionSymbol → Prop
  /-- What the names of variables may be made from. -/
  Hinted : String → Prop
  refl (s : Session) : Leads s s
  trans {s m s' : Session} : Leads s m → Leads m s' → Leads s s'
  fine {s s' : Session} : Leads s s' → Fine s → Fine s'
  named {s s' : Session} {x : String} : Leads s s' → Named s x → Named s' x
  known {s s' : Session} {f : FunctionSymbol} : Leads s s' → Known s f → Known s' f
  next (s : Session) : Leads s s.next
  asserting {s : Session} {a : Assertion} (hlabel : a.label = none)
    (h : a.formula.MadeOf (Named s) (Known s)) : Leads s (s.asserting a)
  counted {s : Session} {f : FunctionSymbol} {h : String} (hh : h ∈ functionHints)
    (hf : f.name = numbered h (s.fresh + 1)) :
    Leads s (s.next.declaring f) ∧ Known (s.next.declaring f) f
  fresh {s : Session} {h : String} (hs : Fine s) (hh : Hinted h) :
    Named s.next (numbered h (s.fresh + 1))
  own {h : String} (hh : h ∈ ownHints) : Hinted h
  copy {s : Session} {x : String} (hx : Named s x) : Hinted x
  inlined {s : Session} {f : Relational.Function} {body : Relational.Expr} (hs : Fine s)
    (hf : f ∈ s.functions) (hbody : f.body = some body) : ∀ v ∈ body.declared, Hinted v.name
  value {s : Session} (hs : Fine s) : Known s intValue
  signature {s : Session} {r : Relational.SigRef} {f : FunctionSymbol} (hs : Fine s)
    (hf : s.signatures.lookup r = some f) : Known s f
  field {s : Session} {r : Relational.FieldRef} {f : FunctionSymbol} (hs : Fine s)
    (hf : s.fields.lookup r = some f) : Known s f
  int {s s' : Session} {n : Int} {f : FunctionSymbol} (hs : Fine s)
    (h : Runs (intConstant n) s f s') : Leads s s' ∧ Known s' (intSymbol n)
  iden {s s' : Session} {t : Term} (hs : Fine s) (h : Runs atomIden s t s') :
    Leads s s' ∧ Known s' idenSymbol
  integers {s s' : Session} {t : Term} (hs : Fine s) (h : Runs integers s t s') :
    Leads s s' ∧ Known s' integersSymbol

/-! ## Terms that fit a session -/

namespace Discipline

variable (D : Discipline) {s m s' : Session}

/-- Is the term made of names and functions that fit the session? -/
abbrev Fits (s : Session) (t : Term) : Prop := t.MadeOf (D.Named s) (D.Known s)

/-- Is the variable made of names and functions that fit the session? -/
abbrev FitsVariable (s : Session) (v : Variable) : Prop := v.MadeOf (D.Named s) (D.Known s)

theorem fits {t : Term} (h : D.Leads s s') (ht : D.Fits s t) : D.Fits s' t :=
  ht.mono (fun _ => D.named h) fun _ => D.known h

theorem fitsVariable {v : Variable} (h : D.Leads s s') (hv : D.FitsVariable s v) :
    D.FitsVariable s' v :=
  hv.mono (fun _ => D.named h) fun _ => D.known h

instance : Composes (D.Fits s) := inferInstanceAs (Composes (Term.MadeOf _ _))

/-- The session's own hints make names for variables. -/
theorem ownFresh {h : String} (hs : D.Fine s) (hh : h ∈ ownHints) :
    D.Named s.next (numbered h (s.fresh + 1)) :=
  D.fresh hs (D.own hh)

end Discipline

section

variable {D : Discipline} {s m s' : Session} {t u l r : Term}

theorem madeOf_apply {p : String → Prop} {q : FunctionSymbol → Prop} {f : FunctionSymbol}
    {vs : List Variable} (h : f.apply (vs.map Variable.term) = .ok u) (hf : q f)
    (hvs : ∀ v ∈ vs, v.MadeOf p q) : u.MadeOf p q := by
  refine .apply h hf fun t ht => ?_
  obtain ⟨v, hv, rfl⟩ := List.mem_map.1 ht
  exact hvs v hv

theorem kept_intRelation (hs : D.Fine s) {n : Int} (h : Runs (intRelation n) s t s') :
    D.Leads s s' ∧ D.Fits s' t := by
  obtain ⟨f, m, hf, hrest⟩ := runs_bind.1 h
  obtain ⟨rfl, _, _⟩ := extends_intConstant hf
  simp only [runs_bind, runs_lift, Term.tuple_eq_ok, Term.single_eq_ok] at hrest
  obtain ⟨_, _, ⟨⟨_, _, rfl⟩, rfl⟩, ⟨_, rfl⟩, rfl⟩ := hrest
  obtain ⟨hleads, hknown⟩ := D.int hs hf
  exact ⟨hleads, hknown, trivial⟩

theorem kept_atomIden (hs : D.Fine s) (h : Runs atomIden s t s') :
    D.Leads s s' ∧ D.Fits s' t := by
  obtain ⟨rfl, _, _⟩ := runs_atomIden h
  exact D.iden hs h

theorem kept_integers (hs : D.Fine s) (h : Runs integers s t s') :
    D.Leads s s' ∧ D.Fits s' t := by
  obtain ⟨rfl, _, _⟩ := runs_integers h
  exact D.integers hs h

/-! ## Cardinalities and integers -/

theorem kept_exactlyOne (hs : D.Fine s) (ht : D.Fits s t)
    (h : Runs (exactlyOne t) s u s') : D.Leads s s' ∧ D.Fits s' u := by
  obtain ⟨element, _, _, rfl, rfl⟩ := runs_exactlyOne h
  have hnext : D.Leads s s.next := D.next s
  have hx : D.Named s.next (numbered "x" (s.fresh + 1)) := D.ownFresh hs (by decide)
  exact ⟨hnext, List.forall_mem_singleton.2 hx, D.fits hnext ht, hx⟩

/-- Is all that a value is made of made of names and functions that fit the session? -/
structure Value.Fits (D : Discipline) (s : Session) (a : Value) : Prop where
  term : D.Fits s a.term
  vars : ∀ v ∈ a.vars, D.Named s v.name
  conditions : ∀ c ∈ a.conditions, D.Fits s c

theorem Value.Fits.mono {a : Value} (ha : a.Fits D s) (h : D.Leads s s') : a.Fits D s' :=
  ⟨D.fits h ha.term, fun v hv => D.named h (ha.vars v hv),
    fun c hc => D.fits h (ha.conditions c hc)⟩

/-- What two readings have for variables may be bound together. -/
theorem named_both {a b : Value} (ha : a.Fits D s) (hb : b.Fits D s) :
    ∀ v ∈ a.vars ++ b.vars, D.Named s v.name :=
  fun v hv => (List.mem_append.1 hv).elim (ha.vars v) (hb.vars v)

theorem kept_integerValue (hs : D.Fine s) (ht : D.Fits s t) {a : Value}
    (h : Runs (integerValue t) s a s') : D.Leads s s' ∧ a.Fits D s' := by
  rcases runs_integerValue h with
    ⟨_, rfl, rfl⟩ | ⟨_, ⟨e, rfl, _, rfl⟩, rfl⟩ | ⟨_, ⟨x, rfl, rfl⟩, rfl⟩
  · exact ⟨D.refl _, ht, by simp, by simp⟩
  · exact ⟨D.refl _, ⟨D.value hs, ht.1, trivial⟩, by simp, by simp⟩
  · have hnext : D.Leads s s.next := D.next s
    have hx : D.Named s.next (numbered "x" (s.fresh + 1)) := D.ownFresh hs (by decide)
    exact ⟨hnext, ⟨D.value (D.fine hnext hs), hx, trivial⟩, List.forall_mem_singleton.2 hx,
      List.forall_mem_singleton.2 ⟨D.fits hnext ht, hx, trivial⟩⟩

theorem kept_compareIntegers {op : BinaryOp} (hs : D.Fine s) (hl : D.Fits s l)
    (hr : D.Fits s r) (h : Runs (compareIntegers op l r) s u s') :
    D.Leads s s' ∧ D.Fits s' u := by
  obtain ⟨a, b, m, ha, hb, hu⟩ := runs_compareIntegers h
  obtain ⟨hm, ha⟩ := kept_integerValue hs hl ha
  obtain ⟨hs', hb⟩ := kept_integerValue (D.fine hm hs) (D.fits hm hr) hb
  have ha := ha.mono hs'
  refine ⟨D.trans hm hs', ?_⟩
  have hcomparison : D.Fits s' (.binary op a.term b.term) := ⟨ha.term, hb.term⟩
  -- without variables the comparison stands alone, else it is bound with their conditions
  rcases hu with ⟨_, rfl⟩ | ⟨body, hbody, rfl⟩
  · exact hcomparison
  · refine ⟨named_both ha hb, Composes.allOf hbody fun c hc => ?_⟩
    simp only [List.mem_append, List.mem_singleton] at hc
    rcases hc with (hc | hc) | rfl
    · exact ha.conditions c hc
    · exact hb.conditions c hc
    · exact hcomparison

end

/-- What the operators of a discipline keep to. -/
def Discipline.operating (D : Discipline) : Operating where
  Fine := D.Fine
  Leads := D.Leads
  Fits := D.Fits
  refl := D.refl
  trans := D.trans
  fine := D.fine
  fits := D.fits
  composes _ := inferInstance
  exactlyOne := kept_exactlyOne
  compareIntegers := kept_compareIntegers
  atomIden := kept_atomIden
  integers := kept_integers

end RelSmt.Lowering
