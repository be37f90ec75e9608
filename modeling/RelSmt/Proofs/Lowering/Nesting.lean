import RelSmt.Proofs.Lowering.Operating
import RelSmt.Proofs.Term.Rebinding

/-!
# Names of nested binders

No lowered formula binds a name below a quantifier that binds it already. A formula is lowered
inside out: the body of a quantifier is there before the quantifier is, and copies of it may end up
elsewhere. So the names that a term binds are kept apart from two kinds of name at once: from those
of the variables that are known where the term is lowered, which quantifiers around it may bind, and
from those of later calls, which quantifiers around it may bind as well (`Unused`). Then a
quantifier over known or over new variables can be put around the term, and what it binds is unused
further out.

This module has that invariant (`Clear`) and shows that operators keep it (`nesting`).
-/

namespace RelSmt.Lowering

variable {V W : Set Variable} {m n : Nat} {x : String} {v : Variable} {s s' : Session}
  {t u l r : Term}

/-! ## Names that are not in use -/

/-- Is the name one of no known variable and of no later call? -/
structure Unused (V : Set Variable) (n : Nat) (x : String) : Prop where
  settled : Settled n x
  unknown : ∀ v ∈ V, x ≠ v.name

/-- Has the variable a name that was taken in between? -/
def Born (m n : Nat) (v : Variable) : Prop := ∃ hint k, m < k ∧ k ≤ n ∧ v.name = numbered hint k

/-- Is the variable known, or has it a name that is taken later? -/
def Later (V : Set Variable) (m : Nat) (v : Variable) : Prop :=
  v ∈ V ∨ ∃ hint k, m < k ∧ v.name = numbered hint k

/-- Are the names of all known variables settled? -/
def AllSettled (n : Nat) (V : Set Variable) : Prop := ∀ v ∈ V, Settled n v.name

theorem AllSettled.mono (h : AllSettled m V) (hmn : m ≤ n) : AllSettled n V :=
  fun v hv => (h v hv).mono hmn

theorem Born.mono {m' n' : Nat} (h : Born m n v) (hm : m' ≤ m) (hn : n ≤ n') : Born m' n' v := by
  obtain ⟨hint, k, hmk, hkn, hname⟩ := h
  exact ⟨hint, k, Nat.lt_of_le_of_lt hm hmk, Nat.le_trans hkn hn, hname⟩

theorem Born.later (h : Born m n v) : Later V m v := by
  obtain ⟨hint, k, hk, _, hname⟩ := h
  exact Or.inr ⟨hint, k, hk, hname⟩

theorem Born.settled (h : Born m n v) : Settled n v.name := by
  obtain ⟨hint, k, _, hk, hname⟩ := h
  exact hname ▸ settled_numbered hk

/-- A fresh variable is born with the call for its name. -/
theorem born_next (hint : String) (sort : SmtSort) (s : Session) :
    Born s.fresh s.next.fresh (.plain (numbered hint (s.fresh + 1)) sort) :=
  ⟨hint, s.fresh + 1, Nat.lt_succ_self _, Nat.le_refl _, rfl⟩

/-- The name of a variable that was born in between is unused after that. -/
theorem Born.unused (h : Born m n v) (hV : AllSettled m V) : Unused V n v.name := by
  refine ⟨h.settled, fun w hw he => ?_⟩
  obtain ⟨hint, k, hk, _, hname⟩ := h
  exact (hV w hw).ne_numbered hk (he.symm.trans hname)

theorem Unused.ne_later (h : Unused V m x) (hv : Later V m v) : x ≠ v.name := by
  rcases hv with hv | ⟨hint, k, hk, hname⟩
  · exact h.unknown v hv
  · exact hname ▸ h.settled.ne_numbered hk

/-- New variables may become known. -/
theorem Unused.widen (h : Unused V m x) (hmn : m ≤ n) (hW : ∀ v ∈ W, Later V m v) : Unused W n x :=
  ⟨h.settled.mono hmn, fun v hv => h.ne_later (hW v hv)⟩

theorem Unused.mono (h : Unused V m x) (hmn : m ≤ n) : Unused V n x :=
  h.widen hmn fun _ => Or.inl

/-! ## Clear terms -/

/-- Does the term bind no name again, and are all names that it binds unused? -/
abbrev Clear (V : Set Variable) (n : Nat) (t : Term) : Prop := t.Unshadowed (Unused V n)

theorem Clear.widen (h : Clear V m t) (hmn : m ≤ n) (hW : ∀ v ∈ W, Later V m v) : Clear W n t :=
  Term.Unshadowed.mono h fun _ hx => hx.widen hmn hW

theorem Clear.later (h : Clear V m t) (hmn : m ≤ n) : Clear V n t :=
  h.widen hmn fun _ => Or.inl

/-- A quantifier over known variables binds no name again. What it binds has to be unused further
out. -/
theorem clear_quantified {q : Quantifier} {vs : List Variable} (ht : Clear W n t) (hVW : V ⊆ W)
    (hvs : ∀ v ∈ vs, v ∈ W) (hunused : ∀ v ∈ vs, Unused V n v.name) :
    Clear V n (.quantified q vs t) :=
  Term.unshadowed_quantified (ht.mono fun _ hx => ⟨hx.settled, fun v hv => hx.unknown v (hVW hv)⟩)
    hunused fun _ hx v hv => (ht.names _ hx).unknown v (hvs v hv)

/-- A quantifier over variables that were born after the term. -/
theorem Clear.quantified {q : Quantifier} {vs : List Variable} (ht : Clear V m t) (hmn : m ≤ n)
    (hV : AllSettled m V) (hvs : ∀ v ∈ vs, Born m n v) : Clear V n (.quantified q vs t) :=
  -- the new variables are known below the quantifier and nowhere else
  clear_quantified (W := V ∪ {v | v ∈ vs})
    (ht.widen hmn fun v hv => hv.elim Or.inl fun hv => (hvs v hv).later)
    Set.subset_union_left (fun _ hv => Or.inr hv) fun v hv => (hvs v hv).unused hV

/-- A quantifier over known variables, with nothing further out. -/
theorem Clear.once_quantified {q : Quantifier} {vs : List Variable} (ht : Clear V n t)
    (hvs : ∀ v ∈ vs, v ∈ V) : (Term.quantified q vs t).rebinds [] = false :=
  (Term.unshadowed_quantified (p := fun _ => True) (ht.mono fun _ _ => trivial) (fun _ _ => trivial)
    fun _ hx v hv => (ht.names _ hx).unknown v (hvs v hv)).once

/-! ## Sessions -/

/-- Does the session go on with formulas that bind no name again? -/
structure Nests (s s' : Session) : Prop where
  fresh : s.fresh ≤ s'.fresh
  assertions : ∀ a ∈ s'.program.assertions,
    a ∈ s.program.assertions ∨ a.formula.rebinds [] = false

theorem nests_of_eq (hfresh : s.fresh ≤ s'.fresh)
    (has : s'.program.assertions = s.program.assertions) : Nests s s' :=
  ⟨hfresh, fun _ ha => Or.inl (has ▸ ha)⟩

theorem Nests.refl (s : Session) : Nests s s := nests_of_eq (Nat.le_refl _) rfl

theorem Nests.trans {k : Session} (h : Nests s k) (h' : Nests k s') : Nests s s' :=
  ⟨Nat.le_trans h.fresh h'.fresh, fun a ha => (h'.assertions a ha).elim (h.assertions a) Or.inr⟩

theorem nests_next (s : Session) : Nests s s.next := nests_of_eq (Nat.le_succ _) rfl

theorem nests_declaring (s : Session) (f : FunctionSymbol) : Nests s (s.declaring f) :=
  nests_of_eq (Nat.le_refl _) rfl

theorem nests_asserting {a : Assertion} (ha : a.formula.rebinds [] = false) :
    Nests s (s.asserting a) where
  fresh := Nat.le_refl _
  assertions b hb := by
    refine (List.mem_append.1 hb).imp_right fun hb => ?_
    rw [List.mem_singleton.1 hb]
    exact ha

theorem Nests.remembering {o : OnDemand} (h : Nests s s') : Nests s { s' with onDemand := o } :=
  ⟨h.fresh, h.assertions⟩

/-! ## Symbols declared on first use -/

theorem nests_intConstant {k : Int} {f : FunctionSymbol} (h : Runs (intConstant k) s f s') :
    Nests s s' := by
  obtain ⟨rfl, ⟨_, rfl⟩ | ⟨_, comment, rfl⟩⟩ := intConstant_cases h
  · exact .refl _
  · exact ((nests_declaring s _).trans (nests_asserting rfl)).remembering

theorem nests_atomIden (h : Runs atomIden s t s') : Nests s s' := by
  obtain ⟨rfl, ⟨_, rfl⟩ | ⟨_, comment, rfl⟩⟩ := atomIden_cases h
  · exact .refl _
  · exact ((((nests_next s).trans (nests_next _)).trans (nests_declaring _ _)).trans
      (nests_asserting rfl)).remembering

theorem nests_integers (h : Runs integers s t s') : Nests s s' := by
  obtain ⟨rfl, ⟨_, rfl⟩ | ⟨_, comment, rfl⟩⟩ := integers_cases h
  · exact .refl _
  · exact (((nests_next s).trans (nests_declaring _ _)).trans (nests_asserting rfl)).remembering

theorem clear_intRelation {k : Int} (h : Runs (intRelation k) s t s') :
    Nests s s' ∧ Clear V s'.fresh t := by
  obtain ⟨f, m, hf, hrest⟩ := runs_bind.1 h
  simp only [runs_bind, runs_lift, Term.tuple_eq_ok, Term.single_eq_ok] at hrest
  obtain ⟨_, _, ⟨⟨_, _, rfl⟩, rfl⟩, ⟨_, rfl⟩, rfl⟩ := hrest
  exact ⟨nests_intConstant hf, Composes.unary (Composes.nary
    (List.forall_mem_singleton.2 (Term.unshadowed_symbol f)))⟩

/-! ## Tests and comparisons -/

theorem clear_call_variable (f : FunctionSymbol) (v : Variable) :
    Clear V n (.call f [.variable v]) :=
  Term.unshadowed_call (List.forall_mem_singleton.2 (Term.unshadowed_variable v))

theorem clear_tuple_variable (v : Variable) : Clear V n (.nary .mkTuple [.variable v]) :=
  Composes.nary (List.forall_mem_singleton.2 (Term.unshadowed_variable v))

theorem clear_exactlyOne (hV : AllSettled s.fresh V) (ht : Clear V s.fresh t)
    (h : Runs (exactlyOne t) s u s') : Nests s s' ∧ Clear V s'.fresh u := by
  obtain ⟨element, _, _, rfl, rfl⟩ := runs_exactlyOne h
  refine ⟨nests_next s, Clear.quantified (m := s.fresh) ?_ (Nat.le_succ _) hV
    (List.forall_mem_singleton.2 (born_next "x" element s))⟩
  exact Composes.binary ht (Composes.unary (Term.unshadowed_variable _))

/-- Is all that a value is made of clear, and are the variables of its reading born after that? -/
structure Value.Clear (V : Set Variable) (m n : Nat) (a : Value) : Prop where
  term : Lowering.Clear V m a.term
  vars : ∀ v ∈ a.vars, Born m n v
  conditions : ∀ c ∈ a.conditions, Lowering.Clear V m c

theorem Value.Clear.mono {a : Value} {n' : Nat} (ha : a.Clear V m n) (hn : n ≤ n') :
    a.Clear V m n' :=
  ⟨ha.term, fun v hv => (ha.vars v hv).mono (Nat.le_refl _) hn, ha.conditions⟩

/-- What two readings have for variables is born in between. -/
theorem born_both {a b : Value} (ha : a.Clear V m n) (hb : b.Clear V m n) :
    ∀ v ∈ a.vars ++ b.vars, Born m n v :=
  fun v hv => (List.mem_append.1 hv).elim (ha.vars v) (hb.vars v)

theorem clear_integerValue (ht : Clear V m t) (hm : m ≤ s.fresh) {a : Value}
    (h : Runs (integerValue t) s a s') : Nests s s' ∧ a.Clear V m s'.fresh := by
  rcases runs_integerValue h with
    ⟨_, rfl, rfl⟩ | ⟨_, ⟨e, rfl, _, rfl⟩, rfl⟩ | ⟨_, ⟨x, rfl, rfl⟩, rfl⟩
  · exact ⟨.refl _, ht, by simp, by simp⟩
  · have he : Clear V m e := ⟨by simpa [Term.rebinds, Term.rebindsList] using ht.once,
      by simpa [Term.boundNames, Term.boundNamesList] using ht.names⟩
    exact ⟨.refl _, Term.unshadowed_call (List.forall_mem_singleton.2 he), by simp, by simp⟩
  · have hx := (born_next "x" .uint s).mono hm (Nat.le_refl _)
    exact ⟨nests_next s, clear_call_variable _ _, List.forall_mem_singleton.2 hx,
      List.forall_mem_singleton.2 (Composes.binary ht (Composes.unary (clear_tuple_variable _)))⟩

theorem clear_compareIntegers {op : BinaryOp} (hV : AllSettled s.fresh V) (hl : Clear V s.fresh l)
    (hr : Clear V s.fresh r) (h : Runs (compareIntegers op l r) s u s') :
    Nests s s' ∧ Clear V s'.fresh u := by
  obtain ⟨a, b, m, ha, hb, hu⟩ := runs_compareIntegers h
  obtain ⟨hm, ha⟩ := clear_integerValue hl (Nat.le_refl _) ha
  obtain ⟨hs', hb⟩ := clear_integerValue hr hm.fresh hb
  have ha := ha.mono hs'.fresh
  have hgrows := hm.trans hs'
  have hcomparison : Clear V s.fresh (.binary op a.term b.term) := Composes.binary ha.term hb.term
  refine ⟨hgrows, ?_⟩
  -- without variables the comparison stands alone, else it is bound with their conditions
  rcases hu with ⟨_, rfl⟩ | ⟨body, hbody, rfl⟩
  · exact hcomparison.later hgrows.fresh
  · have hbody : Clear V s.fresh body := Composes.allOf hbody fun c hc => by
      simp only [List.mem_append, List.mem_singleton] at hc
      rcases hc with (hc | hc) | rfl
      · exact ha.conditions c hc
      · exact hb.conditions c hc
      · exact hcomparison
    exact hbody.quantified hgrows.fresh hV (born_both ha hb)

/-- **Operators bind no name again.** -/
def nesting (V : Set Variable) : Operating where
  Fine s := AllSettled s.fresh V
  Leads := Nests
  Fits s := Clear V s.fresh
  refl := .refl
  trans := .trans
  fine h hV := hV.mono h.fresh
  fits h ht := ht.later h.fresh
  composes _ := inferInstance
  exactlyOne := clear_exactlyOne
  compareIntegers := clear_compareIntegers
  atomIden _ h := ⟨nests_atomIden h, (atomIden_cases h).1 ▸ Term.unshadowed_symbol _⟩
  integers _ h := ⟨nests_integers h, (integers_cases h).1 ▸ Term.unshadowed_symbol _⟩

end RelSmt.Lowering
