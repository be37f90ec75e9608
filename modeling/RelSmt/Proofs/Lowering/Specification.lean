import RelSmt.Lowering.Encoding
import RelSmt.Proofs.Lowering.Meaning

/-!
# Lowering specifications

While a specification is lowered its session only grows. Signatures and fields become constants that
are sets, what is asserted about them is closed, and facts and commands are closed formulas, so all
assertions are accounted for: each is closed or is an axiom of an operation on integers.

An axiom closes over the variables of enclosing binders that the environment mentions. The
constraint of such a variable may mention another one that the environment does not mention: inside
the body of an inlined function, or where a name has been bound a second time. That variable escapes
the axiom, and this is the only way for an assertion not to be closed (`closed_iff_not_escapes`).
-/

namespace RelSmt

variable {E : Type}

namespace Lowering

variable {s s' m : Session} {t u : Term}

/-! ## Progress -/

/-- The second session is reached from the first in the course of lowering a specification. What is
asserted in between is accounted for, and signatures and fields go on to stand for relations. -/
structure Progress (s s' : Session) : Prop where
  fresh : s.fresh ≤ s'.fresh
  singletonsOnly : s'.singletonsOnly = s.singletonsOnly
  functions : s'.functions = s.functions
  onDemand : s.onDemand.Within s'.onDemand
  assertions : s'.program.assertions = s.program.assertions ++ added s s'
  accounted : ∀ a ∈ added s s', a.formula.freeOccurrences = [] ∨ IntegerAxiom a
  supported : ∀ {E : Type} (I : Interpretation E), I.Supports s.onDemand →
    I.Satisfies (added s s') → I.Supports s'.onDemand
  proper : s.Proper → s'.Proper

theorem Extends.progress (h : Extends s s') : Progress s s' where
  fresh := h.fresh
  singletonsOnly := h.singletonsOnly
  functions := h.functions
  onDemand := h.onDemand
  assertions := h.assertions
  accounted := h.accounted
  supported := h.supported
  proper hs := proper_of_extends hs h

theorem Progress.trans (h : Progress s m) (h' : Progress m s') : Progress s s' := by
  have hadded : added s s' = added s m ++ added m s' :=
    added_eq (by rw [h'.assertions, h.assertions, List.append_assoc])
  refine ⟨Nat.le_trans h.fresh h'.fresh, h'.singletonsOnly.trans h.singletonsOnly,
    h'.functions.trans h.functions, h.onDemand.trans h'.onDemand, ?_, ?_, ?_,
    fun hs => h'.proper (h.proper hs)⟩
  · rw [hadded, h'.assertions, h.assertions, List.append_assoc]
  · intro a ha
    rw [hadded, List.mem_append] at ha
    exact ha.elim (h.accounted a) (h'.accounted a)
  · intro E I hI ha
    rw [hadded] at ha
    exact h'.supported I (h.supported I hI fun a h => ha a (List.mem_append_left _ h))
      fun a h => ha a (List.mem_append_right _ h)

theorem Progress.refl (s : Session) : Progress s s := (Extends.refl s).progress

/-- Labels play no part in what has been asserted. -/
theorem Progress.with_labels (h : Progress s m) (labels : List String) :
    Progress s { m with labels := labels } :=
  ⟨h.fresh, h.singletonsOnly, h.functions, h.onDemand, h.assertions, h.accounted, h.supported,
    fun hs => ⟨(h.proper hs).signatures, (h.proper hs).fields⟩⟩

/-- Steps that make progress one by one make progress together. -/
theorem progress_forM {α : Type} {f : α → Lower Unit}
    (hf : ∀ {a : α} {s s' : Session}, Runs (f a) s () s' → Progress s s') {as : List α}
    (h : Runs (as.forM f) s () s') : Progress s s' :=
  h.forM .refl (fun h h' => h.trans h') fun _ _ => hf

/-- Steps that extend a session one by one extend it together. -/
theorem extends_forM {α : Type} {f : α → Lower Unit}
    (hf : ∀ {a : α} {s s' : Session}, Runs (f a) s () s' → Extends s s') {as : List α}
    (h : Runs (as.forM f) s () s') : Extends s s' :=
  h.forM .refl (fun h h' => h.trans h') fun _ _ => hf

/-- Asserting a closed formula extends the session. -/
theorem extends_assert {comment : String} (ht : t.freeOccurrences = [])
    (h : Runs (assert comment t) s () s') : Extends s s' := by
  obtain ⟨_, rfl⟩ := runs_assert.1 h
  exact extends_asserting (Or.inl ht)

/-! ## Signatures -/

/-- A symbol that is known after one more has been added was known before or is the new one. -/
theorem lookup_append {α : Type} [DecidableEq α] {known : List (α × FunctionSymbol)} {q r : α}
    {f g : FunctionSymbol} (h : (known ++ [(r, f)]).lookup q = some g) :
    known.lookup q = some g ∨ q = r ∧ f = g := by
  rw [List.lookup_append] at h
  rcases Option.or_eq_some_iff.1 h with h | ⟨_, h⟩
  · exact Or.inl h
  · rw [List.lookup_cons] at h
    split at h
    · rename_i he
      exact Or.inr ⟨eq_of_beq he, Option.some.inj h⟩
    · simp at h

/-- A relation with one column may stand for a signature. -/
theorem progress_signatures {r : Relational.SigRef} {f : FunctionSymbol} {c : Relational.Column}
    (hf : Session.IsRelation f [c]) :
    Progress s { s with signatures := s.signatures ++ [(r, f)] } where
  fresh := Nat.le_refl _
  singletonsOnly := rfl
  functions := rfl
  onDemand := .refl _
  assertions := by simp [added]
  accounted := by simp [added]
  supported _ h _ := h
  proper hs := by
    refine ⟨fun q g hg => ?_, hs.fields⟩
    rcases lookup_append hg with hg | ⟨rfl, rfl⟩
    · exact hs.signatures q g hg
    · exact ⟨c, hf⟩

/-- A relation with the columns of a field may stand for it. -/
theorem progress_fields {r : Relational.FieldRef} {f : FunctionSymbol}
    (hf : Session.IsRelation f r.columns) :
    Progress s { s with fields := s.fields ++ [(r, f)] } where
  fresh := Nat.le_refl _
  singletonsOnly := rfl
  functions := rfl
  onDemand := .refl _
  assertions := by simp [added]
  accounted := by simp [added]
  supported _ h _ := h
  proper hs := by
    refine ⟨hs.signatures, fun q g hg => ?_⟩
    rcases lookup_append hg with hg | ⟨rfl, rfl⟩
    · exact hs.fields q g hg
    · exact hf

/-- The signature of integers stands for the set of all integers, and any other signature for a set
of its own name. -/
theorem declareSignature_cases {r : Relational.Signature}
    (h : Runs (declareSignature r) s () s') :
    (r.ref.isInt = true ∧ ∃ t m, Runs integers s t m ∧
      s' = { m with signatures := m.signatures ++ [(r.ref, integersSymbol)] }) ∨
    (r.ref.isInt = false ∧
      s' = { s.declaring (.constant r.ref.label (relationSort [r.ref.column])) with
        signatures := s.signatures ++
          [(r.ref, .constant r.ref.label (relationSort [r.ref.column]))] }) := by
  unfold declareSignature at h
  split at h
  · rename_i hint
    simp only [runs_bind, runs_modify] at h
    obtain ⟨t, m, hints, rfl⟩ := h
    exact Or.inl ⟨hint, t, m, hints, rfl⟩
  · rename_i hint
    simp only [runs_bind, runs_declare, runs_modify] at h
    obtain ⟨_, _, rfl, rfl⟩ := h
    exact Or.inr ⟨by simpa using hint, rfl⟩

theorem progress_declareSignature {r : Relational.Signature}
    (h : Runs (declareSignature r) s () s') : Progress s s' := by
  rcases declareSignature_cases h with ⟨_, _, m, hints, rfl⟩ | ⟨_, rfl⟩
  · obtain ⟨_, _, hext⟩ := runs_integers hints
    exact hext.progress.trans (progress_signatures (c := .int) ⟨rfl, rfl⟩)
  · exact (extends_declaring s _).progress.trans (progress_signatures ⟨rfl, rfl⟩)

theorem free_signature {r : Relational.SigRef} (h : Runs (signature r) s t s') :
    t.freeOccurrences = [] ∧ s' = s := by
  obtain ⟨f, _, rfl, rfl⟩ := runs_signature.1 h
  exact ⟨by simp [Term.freeOccurrences], rfl⟩

theorem free_field {r : Relational.FieldRef} (h : Runs (field r) s t s') :
    t.freeOccurrences = [] ∧ s' = s := by
  obtain ⟨f, _, rfl, rfl⟩ := runs_field.1 h
  exact ⟨by simp [Term.freeOccurrences], rfl⟩

theorem free_eq_nil_of_binary {l r : Term} (hl : l.freeOccurrences = [])
    (hr : r.freeOccurrences = [])
    (h : ∀ {x : Variable}, x ∈ t.freeOccurrences → x ∈ l.freeOccurrences ∨ x ∈ r.freeOccurrences) :
    t.freeOccurrences = [] := by
  refine List.eq_nil_iff_forall_not_mem.2 fun x hx => ?_
  have := h hx
  simp [hl, hr] at this

theorem extends_assertDisjoint {rs : List Relational.Signature}
    (h : Runs (assertDisjoint rs) s () s') : Extends s s' := by
  refine extends_forM (fun {p s s'} h => ?_) h
  simp only [runs_bind, runs_lift] at h
  obtain ⟨a, _, ha, b, _, hb, f, _, ⟨hf, rfl⟩, hassert⟩ := h
  obtain ⟨hfa, rfl⟩ := free_signature ha
  obtain ⟨hfb, rfl⟩ := free_signature hb
  exact extends_assert (free_eq_nil_of_binary hfa hfb fun hx => mem_free_disjointSets hf hx) hassert

theorem free_unionOf {first : Relational.SigRef} : ∀ {others : List Relational.SigRef}
    {s s' : Session} {t : Term}, Runs (unionOf first others) s t s' →
    t.freeOccurrences = [] ∧ s' = s := by
  have hfold : ∀ (others : List Relational.SigRef) {s s' : Session} {t u : Term},
      u.freeOccurrences = [] →
      Runs (others.foldlM (fun t r => do t.union (← signature r)) u) s t s' →
      t.freeOccurrences = [] ∧ s' = s := by
    intro others
    induction others with
    | nil =>
      intro s s' t u hu h
      obtain ⟨rfl, rfl⟩ := runs_pure.1 h
      exact ⟨hu, rfl⟩
    | cons r others ih =>
      intro s s' t u hu h
      simp only [List.foldlM_cons, runs_bind, runs_lift] at h
      obtain ⟨v, _, ⟨w, _, hw, hv, rfl⟩, h⟩ := h
      obtain ⟨hfw, rfl⟩ := free_signature hw
      exact ih (free_eq_nil_of_binary hu hfw fun hx => mem_free_binary hv hx) h
  intro others s s' t h
  obtain ⟨u, m, hu, hothers⟩ := runs_bind.1 h
  obtain ⟨hfu, rfl⟩ := free_signature hu
  exact hfold others hfu hothers

theorem extends_assertParents {r : Relational.Signature} (h : Runs (assertParents r) s () s') :
    Extends s s' := by
  unfold assertParents at h
  split at h
  · simp only [runs_bind, runs_lift] at h
    obtain ⟨a, _, ha, b, _, hb, f, _, ⟨hf, rfl⟩, hassert⟩ := h
    obtain ⟨hfa, rfl⟩ := free_signature ha
    obtain ⟨hfb, rfl⟩ := free_signature hb
    exact extends_assert (free_eq_nil_of_binary hfa hfb fun hx => mem_free_binary hf hx) hassert
  · simp only [runs_bind, runs_lift] at h
    obtain ⟨b, _, hb, a, _, ha, f, _, ⟨hf, rfl⟩, hassert⟩ := h
    obtain ⟨hfb, rfl⟩ := free_unionOf hb
    obtain ⟨hfa, rfl⟩ := free_signature ha
    exact extends_assert (free_eq_nil_of_binary hfa hfb fun hx => mem_free_binary hf hx) hassert
  · obtain ⟨_, rfl⟩ := runs_pure.1 h
    exact .refl _

theorem extends_assertChildren {all : List Relational.Signature} {r : Relational.Signature}
    (h : Runs (assertChildren all r) s () s') : Extends s s' := by
  obtain ⟨_, m, hdisjoint, h⟩ := runs_bind.1 h
  refine (extends_assertDisjoint hdisjoint).trans ?_
  split at h
  · simp only [runs_bind, runs_lift] at h
    obtain ⟨b, _, hb, a, _, ha, f, _, ⟨hf, rfl⟩, hassert⟩ := h
    obtain ⟨hfb, rfl⟩ := free_unionOf hb
    obtain ⟨hfa, rfl⟩ := free_signature ha
    exact extends_assert (free_eq_nil_of_binary hfa hfb fun hx => mem_free_binary hf hx) hassert
  · obtain ⟨_, rfl⟩ := runs_pure.1 h
    exact .refl _

theorem extends_assertMultiplicity {r : Relational.Signature}
    (h : Runs (assertMultiplicity r) s () s') : Extends s s' := by
  unfold assertMultiplicity at h
  split at h
  · rename_i q demand hdemand
    simp only [runs_bind] at h
    obtain ⟨a, _, ha, f, m, hf, hassert⟩ := h
    obtain ⟨hfa, rfl⟩ := free_signature ha
    obtain ⟨q', _, hq'⟩ := Option.bind_eq_some_iff.1 hdemand
    obtain ⟨demand', hdemand', he⟩ := Option.map_eq_some_iff.1 hq'
    obtain ⟨rfl, rfl⟩ := Prod.mk.inj he
    -- the demand mentions nothing but the signature, which has no free variable
    have hclosed : (∀ x ∈ f.freeOccurrences, x ∈ a.freeOccurrences) → f.freeOccurrences = [] := by
      intro hsub
      refine List.eq_nil_iff_forall_not_mem.2 fun x hx => ?_
      have := hsub x hx
      simp [hfa] at this
    cases q' <;> simp only [multiplicityFormula?, Option.some.injEq, reduceCtorEq] at hdemand'
    case one =>
      subst hdemand'
      exact (extends_exactlyOne hf).trans
        (extends_assert (hclosed fun x hx => mem_free_exactlyOne hf hx) hassert)
    case lone =>
      subst hdemand'
      exact (extends_atMostOne hf).trans
        (extends_assert (hclosed fun x hx => mem_free_atMostOne hf hx) hassert)
    case some =>
      subst hdemand'
      obtain ⟨hnonEmpty, rfl⟩ := runs_lift.1 hf
      exact extends_assert (hclosed fun x hx => mem_free_nonEmpty hnonEmpty ▸ hx) hassert
  · obtain ⟨_, rfl⟩ := runs_pure.1 h
    exact .refl _

/-- The assertions about one signature and its place in the hierarchy. -/
theorem extends_assertHierarchy {all : List Relational.Signature} {r : Relational.Signature}
    (h : Runs (do assertParents r; assertChildren all r; assertMultiplicity r) s () s') :
    Extends s s' := by
  simp only [runs_bind] at h
  obtain ⟨_, _, hparents, _, _, hchildren, hmultiplicity⟩ := h
  exact ((extends_assertParents hparents).trans (extends_assertChildren hchildren)).trans
    (extends_assertMultiplicity hmultiplicity)

/-- All signatures are declared before anything is asserted about them. -/
theorem runs_signatures {all : List Relational.Signature} (h : Runs (signatures all) s () s') :
    ∃ m, Runs (all.forM declareSignature) s () m ∧ Extends m s' := by
  simp only [signatures, runs_bind] at h
  obtain ⟨_, m, hdeclare, _, _, hdisjoint, hrest⟩ := h
  exact ⟨m, hdeclare, (extends_assertDisjoint hdisjoint).trans (extends_forM (fun h =>
    extends_assertHierarchy (by simpa only [runs_bind] using h)) hrest)⟩

theorem progress_allSignatures {all : List Relational.Signature}
    (h : Runs (signatures all) s () s') : Progress s s' := by
  obtain ⟨m, hdeclare, hext⟩ := runs_signatures h
  exact (progress_forM progress_declareSignature hdeclare).trans hext.progress

/-! ## Fields -/

/-- A field stands for a relation of its own name. -/
theorem declareField_eq {f : Relational.Field} (h : Runs (declareField f) s () s') :
    s' = { s.declaring (.constant (fieldName f.ref) (relationSort f.ref.columns)) with
      fields := s.fields ++
        [(f.ref, .constant (fieldName f.ref) (relationSort f.ref.columns))] } := by
  simp only [declareField, runs_bind, runs_declare, runs_modify] at h
  obtain ⟨_, _, rfl, rfl⟩ := h
  rfl

theorem progress_declareField {f : Relational.Field} (h : Runs (declareField f) s () s') :
    Progress s s' := by
  obtain rfl := declareField_eq h
  exact (extends_declaring s _).progress.trans (progress_fields ⟨rfl, rfl⟩)

theorem extends_assertField {f : Relational.Field} {what : String} {e : Relational.Expr}
    (h : Runs (assertField f what e) s () s') : Extends s s' := by
  obtain ⟨t, m, ht, hassert⟩ := runs_bind.1 h
  obtain ⟨_, hfree, hext⟩ := closed_formula ht
  exact hext.trans (extends_assert hfree hassert)

theorem extends_assertBound {f : Relational.Field} (h : Runs (assertBound f) s () s') :
    Extends s s' := by
  obtain ⟨_, m, hvalues, hrange⟩ := runs_bind.1 h
  exact (extends_assertField hvalues).trans (extends_assertField hrange)

theorem extends_assertDisjointFields {a b : Relational.Field}
    (h : Runs (assertDisjointFields a b) s () s') : Extends s s' := by
  simp only [assertDisjointFields, runs_bind, runs_lift] at h
  obtain ⟨a, _, ha, b, _, hb, f, _, ⟨hf, rfl⟩, hassert⟩ := h
  obtain ⟨hfa, rfl⟩ := free_field ha
  obtain ⟨hfb, rfl⟩ := free_field hb
  exact extends_assert (free_eq_nil_of_binary hfa hfb fun hx => mem_free_disjointSets hf hx) hassert

theorem extends_assertGroup {g : Relational.FieldGroup} (h : Runs (assertGroup g) s () s') :
    Extends s s' := by
  obtain ⟨_, m, hbounds, hrest⟩ := runs_bind.1 h
  refine (extends_forM extends_assertBound hbounds).trans ?_
  have hvalues : ∀ {m : Session}, Runs (if g.disjointValues then g.fields.forM fun f =>
      assertField f "has disjoint values" (disjointValuesFormula f) else pure ()) m () s' →
      Extends m s' := by
    intro m h
    split at h
    · exact extends_forM extends_assertField h
    · obtain ⟨_, rfl⟩ := runs_pure.1 h
      exact .refl _
  dsimp only at hrest
  split at hrest
  · obtain ⟨_, k, hpairs, hrest⟩ := runs_bind.1 hrest
    exact (extends_forM extends_assertDisjointFields hpairs).trans (hvalues hrest)
  · exact hvalues hrest

/-- All fields are declared before anything is asserted about them. -/
theorem progress_allFields {groups : List Relational.FieldGroup}
    (h : Runs (fields groups) s () s') : Progress s s' := by
  obtain ⟨_, m, hdeclare, hassert⟩ := runs_bind.1 h
  exact (progress_forM (progress_forM progress_declareField) hdeclare).trans
    (extends_forM extends_assertGroup hassert).progress

/-! ## Facts and commands -/

theorem progress_fact {f : Relational.Fact} (h : Runs (fact f) s () s') : Progress s s' := by
  simp only [fact, Assertion.make, runs_bind, runs_lift, runs_get, runs_modify] at h
  obtain ⟨t, m, ht, a, _, ⟨ha, rfl⟩, _, _, ⟨rfl, rfl⟩, rfl⟩ := h
  obtain ⟨hsort, hfree, hext⟩ := closed_formula ht
  rw [if_pos hsort, Except.ok.injEq] at ha
  subst ha
  exact (hext.progress.trans (extends_asserting (Or.inl hfree)).progress).with_labels _

/-- What a command adds is what lowering its formula has asserted in an empty program, and the
formula. The base program is left as it was. -/
theorem runs_command {c : Relational.Command} {delta : Program}
    (h : Runs (command c) s delta s') :
    ∃ t m u label, Runs (formula c.formula) { s with program := {} } t m ∧
      (if c.check then .unary .not t else t) = u ∧
      delta = m.program.assert ⟨c.label, u, label⟩ ∧
      s' = { m with program := s.program, onDemand := s.onDemand } := by
  simp only [command, commandFormula, Assertion.make, runs_bind, runs_lift, runs_get, runs_modify,
    runs_pure] at h
  obtain ⟨_, _, ⟨rfl, rfl⟩, _, _, rfl, u, m, ⟨t, m', ht, hu⟩, a, _, ⟨ha, rfl⟩, _, _, ⟨rfl, rfl⟩, _,
    _, rfl, rfl, rfl⟩ := h
  have hformula : m' = m ∧ (if c.check then .unary .not t else t) = u := by
    split at hu
    · rename_i hcheck
      obtain ⟨hneg, rfl⟩ := runs_lift.1 hu
      rw [if_pos hcheck]
      exact ⟨rfl, (Term.neg_eq_ok.1 hneg).2⟩
    · rename_i hcheck
      obtain ⟨rfl, rfl⟩ := runs_pure.1 hu
      rw [if_neg hcheck]
      exact ⟨rfl, rfl⟩
  obtain ⟨rfl, hu'⟩ := hformula
  split at ha
  · obtain rfl := Except.ok.inj ha
    exact ⟨t, m', u, _, ht, hu', rfl, rfl⟩
  · simp at ha

theorem progress_command {c : Relational.Command} {delta : Program}
    (h : Runs (command c) s delta s') :
    Progress s s' ∧ s'.program = s.program ∧ s'.onDemand = s.onDemand := by
  obtain ⟨t, m, u, label, ht, _, _, rfl⟩ := runs_command h
  obtain ⟨_, _, hext⟩ := closed_formula ht
  refine ⟨⟨hext.fresh, hext.singletonsOnly, hext.functions, .refl _, ?_, ?_, fun _ hI _ => hI,
    fun hs => ⟨?_, ?_⟩⟩, rfl, rfl⟩
  · simp [added]
  · simp [added]
  · rw [hext.signatures]
    exact hs.signatures
  · rw [hext.fields]
    exact hs.fields

/-- What a command adds is accounted for. -/
theorem accounted_command {c : Relational.Command} {delta : Program}
    (h : Runs (command c) s delta s') {a : Assertion} (ha : a ∈ delta.assertions) :
    a.formula.freeOccurrences = [] ∨ IntegerAxiom a := by
  obtain ⟨t, m, u, label, ht, hu, hdelta, _⟩ := runs_command h
  obtain ⟨_, hfree, hext⟩ := closed_formula ht
  rw [hdelta, Program.assert, List.mem_append, List.mem_singleton] at ha
  rcases ha with ha | rfl
  · refine hext.accounted a ?_
    rw [hext.assertions] at ha
    simpa using ha
  · left
    rw [← hu]
    split
    · rw [Term.freeOccurrences, hfree]
    · exact hfree

/-! ## Specifications -/

/-- A session that has asserted the preamble and knows the functions of a specification. -/
def Session.initial (singletonsOnly : Bool) (functions : List Relational.Function) : Session :=
  { (Session.start singletonsOnly).asserting
      ⟨"intValue is injective", injectivityFormula, none⟩ with functions := functions }

theorem free_injectivityFormula : injectivityFormula.freeOccurrences = [] := by
  simp [injectivityFormula, Term.freeOccurrences, Term.freeOccurrencesList, Term.bindsName]

theorem proper_initial (singletonsOnly : Bool) (functions : List Relational.Function) :
    (Session.initial singletonsOnly functions).Proper :=
  ⟨fun _ _ h => by simp [Session.initial, Session.start, Session.asserting] at h,
    fun _ _ h => by simp [Session.initial, Session.start, Session.asserting] at h⟩

theorem supports_initial {I : Interpretation E} (singletonsOnly : Bool)
    (functions : List Relational.Function) :
    I.Supports (Session.initial singletonsOnly functions).onDemand :=
  ⟨fun _ h => by simp [Session.initial, Session.start, Session.asserting] at h,
    fun h => by simp [Session.initial, Session.start, Session.asserting] at h,
    fun h => by simp [Session.initial, Session.start, Session.asserting] at h⟩

/-- Commands are lowered one after another, each from the program that the first one finds. -/
theorem runs_commands : ∀ {cs : List Relational.Command} {s s' : Session}
    {lowered : List (Relational.Command × Program)},
    Runs (cs.mapM fun c => do return (c, ← command c)) s lowered s' →
    s'.program = s.program ∧ ∀ c delta, (c, delta) ∈ lowered →
      c ∈ cs ∧ ∃ k k', Progress s k ∧ k.program = s.program ∧ k.onDemand = s.onDemand ∧
        Runs (command c) k delta k'
  | [], s, s', lowered, h => by
    obtain ⟨rfl, rfl⟩ := runs_pure.1 h
    exact ⟨rfl, fun _ _ hc => absurd hc (by simp)⟩
  | c :: cs, s, s', lowered, h => by
    simp only [List.mapM_cons, runs_bind, runs_pure] at h
    obtain ⟨_, _, ⟨delta, m, hdelta, rfl, rfl⟩, rest, _, hrest, rfl, rfl⟩ := h
    obtain ⟨hprogress, hprogram, hdemand⟩ := progress_command hdelta
    obtain ⟨hlast, hothers⟩ := runs_commands hrest
    refine ⟨hlast.trans hprogram, fun c' delta' hc => ?_⟩
    rcases List.mem_cons.1 hc with hc | hc
    · obtain ⟨rfl, rfl⟩ := Prod.mk.inj hc
      exact ⟨List.mem_cons_self, s, m, .refl s, rfl, rfl, hdelta⟩
    · obtain ⟨hmem, k, k', hk, hkprogram, hkdemand, hrun⟩ := hothers c' delta' hc
      exact ⟨List.mem_cons_of_mem _ hmem, k, k', hprogress.trans hk, hkprogram.trans hprogram,
        hkdemand.trans hdemand, hrun⟩

/-- How a specification is lowered, step by step. -/
theorem runs_lower {spec : Relational.Specification} {singletonsOnly : Bool} {enc : Encoding}
    (h : spec.lower singletonsOnly = .ok enc) :
    ∃ m₁ m₂ m₃ m₄, Runs (signatures spec.signatures) (.initial singletonsOnly spec.functions) () m₁ ∧
      Runs (fields spec.fieldGroups) m₁ () m₂ ∧ Runs (spec.facts.forM fact) m₂ () m₃ ∧
      Runs (spec.commands.mapM fun c => do return (c, ← command c)) m₃ enc.commands m₄ ∧
      enc.base = m₄.program ∧ enc.signatures = (m₄.signatures.filter fun p => !p.1.isInt) ∧
      enc.fields = m₄.fields := by
  obtain ⟨s', h⟩ : ∃ s', Runs (specification spec) (.start singletonsOnly) enc s' :=
    ⟨_, Prod.ext h rfl⟩
  simp only [specification, injectivity_eq, runs_bind, runs_lift, runs_modify, runs_get,
    runs_pure, Except.ok.injEq] at h
  obtain ⟨_, _, ⟨rfl, rfl⟩, _, _, rfl, _, m₁, hsignatures, _, m₂, hfields, _, m₃, hfacts, cs, m₄,
    hcommands, _, _, ⟨rfl, rfl⟩, rfl, rfl⟩ := h
  exact ⟨m₁, m₂, m₃, m₄, hsignatures, hfields, hfacts, hcommands, rfl, rfl, rfl⟩

/-- Signatures, fields and facts make the base program, which every command starts from. -/
theorem runs_specification {spec : Relational.Specification} {singletonsOnly : Bool}
    {enc : Encoding} (h : spec.lower singletonsOnly = .ok enc) :
    ∃ m, Progress (.initial singletonsOnly spec.functions) m ∧
      enc.base.assertions = m.program.assertions ∧
      ∀ c delta, (c, delta) ∈ enc.commands →
        ∃ k k', Progress m k ∧ k.program = m.program ∧ Runs (command c) k delta k' := by
  obtain ⟨m₁, m₂, m₃, m₄, hsignatures, hfields, hfacts, hcommands, hbase, _⟩ := runs_lower h
  have hm₃ : Progress (.initial singletonsOnly spec.functions) m₃ :=
    ((progress_allSignatures hsignatures).trans (progress_allFields hfields)).trans
      (progress_forM progress_fact hfacts)
  obtain ⟨hprogram, hcs⟩ := runs_commands hcommands
  refine ⟨_, hm₃, congrArg Program.assertions (hbase.trans hprogram), fun c delta hc => ?_⟩
  obtain ⟨_, k, k', hk, hkprogram, _, hrun⟩ := hcs c delta hc
  exact ⟨k, k', hk, hkprogram, hrun⟩

/-! ## Preservation of meaning -/

/-- A session in which a formula of a specification is lowered. Formulas of commands are lowered
with an empty program, those of fields and facts with all that has been asserted before. -/
inductive Reached (m : Session) : Session → Prop where
  | base : Reached m m
  | command : Reached m { m with program := {} }

/-- **Lowering a formula preserves its meaning.** Wherever lowering a specification has got to, in
every interpretation that satisfies the assertions so far and those that lowering the formula adds,
the lowered formula is true exactly when the formula is true of the relations that the symbols stand
for. -/
theorem holds_formula {I : Interpretation E} {singletonsOnly : Bool}
    {functions : List Relational.Function} (hm : Progress (.initial singletonsOnly functions) m)
    (hs : Reached m s) {e : Relational.Expr} (h : Runs (formula e) s t s')
    (hbase : I.Satisfies m.program.assertions) (hadded : I.Satisfies (added s s')) {depth : Nat}
    (hscoped : e.ScopedWithin (s.relations I) depth []) (ρ : Assignment E)
    (δ : Relational.Valuation E) :
    (t.eval I ρ).Holds ↔ (Relational.meaningWithin (s.relations I) depth e δ).Holds := by
  rw [hm.assertions] at hbase
  have hinj : I.IntInjective := valid_injectivityFormula.1
    (hbase ⟨_, injectivityFormula, none⟩ (List.mem_append_left _ List.mem_cons_self))
  have hsupports : I.Supports m.onDemand := hm.supported I (supports_initial _ _)
    fun a ha => hbase a (List.mem_append_right _ ha)
  have hproper : m.Proper := hm.proper (proper_initial _ _)
  obtain ⟨_, _, hext⟩ := closed_formula h
  have hreached : s.Proper ∧ I.Supports s.onDemand := by
    cases hs with
    | base => exact ⟨hproper, hsupports⟩
    | command => exact ⟨⟨hproper.signatures, hproper.fields⟩, hsupports⟩
  exact holds_formula_of_upholds h hreached.1 hinj
    ⟨hext.supported I hreached.2 hadded, hadded, fun _ _ => trivial⟩ hscoped ρ δ

/-- The formula that every integer and one are integers. -/
def allIntegers : Relational.Expr :=
  let x : Relational.Var := ⟨.declared 0, "x", [.int]⟩
  .quantified .all [.mk [x] .one (.constant .ints) false]
    (.binary .isIn (.binary .union (.var x) (.number 1)) (.constant .ints))

/-- The axioms of the set of integers and of the constant hold where integers stand for themselves.
-/
theorem satisfies_allIntegers :
    ∃ t s', Runs (formula allIntegers) (.initial false []) t s' ∧
      integerModel.Satisfies (added (.initial false []) s') := by
  refine ⟨_, _, rfl, fun a ha => ?_⟩
  have hone : integerModel.function (intSymbol 1) [] = .element 1 :=
    Interpretation.function_ofTable 0 integerTable (intSymbol 1) [] (Set.mem_univ _)
  have hints : integerModel.function integersSymbol [] = .set (integerModel.singles .uint) := by
    refine (Interpretation.function_ofTable 0 integerTable integersSymbol [] ?_).trans ?_
    · rintro _ ⟨n, rfl⟩
      exact .cons (Set.mem_univ n) .nil
    · simp [integerTable, Interpretation.singles, integerModel, Interpretation.ofTable]
  rcases List.mem_cons.1 ha with rfl | ha
  · exact valid_integersAxiom rfl hints
  · obtain rfl := List.mem_singleton.1 ha
    intro ρ
    simp [Term.eval, Term.evalAll, Term.binaryValue, FunctionSymbol.term, hone,
      function_intValue_integerModel, Term.int, Term.literalValue]

/-- Where integers stand for themselves, the lowered formula that every integer and one are integers
is true exactly when the formula is. -/
theorem holds_formula_allIntegers :
    ∃ t s', Runs (formula allIntegers) (.initial false []) t s' ∧
      ∀ ρ δ, (t.eval integerModel ρ).Holds ↔ (Relational.meaningWithin
        ((Session.initial false []).relations integerModel) 0 allIntegers δ).Holds := by
  obtain ⟨t, s', h, hsatisfies⟩ := satisfies_allIntegers
  have hbase : integerModel.Satisfies (Session.initial false []).program.assertions := by
    intro a ha
    obtain rfl := List.mem_singleton.1 ha
    exact valid_injectivityFormula.2 intInjective_integerModel
  refine ⟨t, s', h, fun ρ δ => holds_formula (.refl _) .base h hbase hsatisfies ?_ ρ δ⟩
  simp [allIntegers, Relational.Expr.ScopedWithin, Relational.Expr.ScopedWith,
    Relational.Expr.ScopedDecls, Relational.FreshIn, Relational.Decl.vars]

/-! ## Closed assertions -/

/-- Does the constraint of a parameter of an operation on two terms mention a variable that the
environment does not mention? -/
def Escapes (x y : Term) (env : Environment) : Prop :=
  ∃ p ∈ parametersOf x y env, ∃ w ∈ constraintVariables p, env.mentions w = false

/-- An axiom of an operation on integers from which a variable escapes. -/
def EscapingAxiom (a : Assertion) : Prop :=
  ∃ (V : Set Variable) (op : Arithmetic) (x y : Term) (env : Environment) (s : Session) (t : Term)
    (s' : Session), Hygienic s.fresh V ∧ env.Within V ∧ env.Covers V x ∧ env.Covers V y ∧
      Runs (arithmetic op x y env) s t s' ∧ a ∈ added s s' ∧ Escapes x y env

/-- No variable escapes a closed axiom, however the axiom comes about. -/
theorem closed_arithmetic_iff {V : Set Variable} {op : Arithmetic} {x y : Term}
    {env : Environment} (hV : Hygienic s.fresh V) (hx : env.Covers V x) (hy : env.Covers V y)
    (h : Runs (arithmetic op x y env) s t s') {a : Assertion} (ha : a ∈ added s s') :
    a.formula.freeOccurrences = [] ↔ ¬ Escapes x y env := by
  obtain ⟨o, m, as, ho, hadds, _, _, hcloses⟩ := runs_arithmetic_adds h
  rw [added_eq hadds.assertions] at ha
  obtain ⟨k, k', hk, hclosesOver⟩ := hcloses a ha
  rw [free_axioms hV hx hy ho hk hclosesOver, parameters_eq ho]
  constructor
  · rintro hall ⟨p, hp, w, hw, hm⟩
    rw [hall p hp w hw] at hm
    exact absurd hm (by simp)
  · intro hnone p hp w hw
    by_contra hm
    exact hnone ⟨p, hp, w, hw, by simpa using hm⟩

theorem accounted_closed {a : Assertion}
    (h : a.formula.freeOccurrences = [] ∨ IntegerAxiom a) :
    a.formula.freeVariables = [] ↔ ¬ EscapingAxiom a := by
  rw [Term.freeVariables_eq_nil]
  constructor
  · rintro hnil ⟨V, op, x, y, env, s, t, s', hV, _, hx, hy, hrun, ha, hescapes⟩
    exact (closed_arithmetic_iff hV hx hy hrun ha).1 hnil hescapes
  · intro hnone
    rcases h with hnil | ⟨V, op, x, y, env, s, t, s', hV, henv, hx, hy, hrun, ha⟩
    · exact hnil
    · exact (closed_arithmetic_iff hV hx hy hrun ha).2 fun hescapes =>
        hnone ⟨V, op, x, y, env, s, t, s', hV, henv, hx, hy, hrun, ha, hescapes⟩

/-- **An assertion of a lowered specification is closed exactly when no variable escapes it.** What
a variable can escape from is an axiom of an operation on integers, and nothing else. -/
theorem closed_iff_not_escaping {spec : Relational.Specification} {singletonsOnly : Bool}
    {enc : Encoding} (h : spec.lower singletonsOnly = .ok enc) {a : Assertion}
    (ha : a ∈ enc.base.assertions ∨
      ∃ c delta, (c, delta) ∈ enc.commands ∧ a ∈ delta.assertions) :
    a.formula.freeVariables = [] ↔ ¬ EscapingAxiom a := by
  obtain ⟨m, hm, hbase, hcommands⟩ := runs_specification h
  refine accounted_closed ?_
  rcases ha with ha | ⟨c, delta, hc, ha⟩
  · rw [hbase, hm.assertions, List.mem_append] at ha
    rcases ha with ha | ha
    · obtain rfl := List.mem_singleton.1 ha
      exact Or.inl free_injectivityFormula
    · exact hm.accounted a ha
  · obtain ⟨k, k', _, _, hrun⟩ := hcommands c delta hc
    exact accounted_command hrun ha

/-- A specification whose one fact calls a predicate on the values of a field. The predicate adds to
its parameter, and the bound of the variable that is the argument mentions another one. -/
def inlinedSum : Relational.Specification :=
  let a : Relational.SigRef := ⟨0, "A", .atom, false⟩
  let f : Relational.FieldRef := ⟨0, a, "f", [.atom, .int]⟩
  let x : Relational.Var := ⟨.declared 0, "x", [.atom]⟩
  let y : Relational.Var := ⟨.declared 1, "y", [.int]⟩
  let n : Relational.Var := ⟨.declared 2, "n", [.int]⟩
  { signatures := [⟨a, .top, false, none, {}⟩]
    fieldGroups := [{ fields := [⟨f, .unary .setOf (.constant .ints), {}⟩] }]
    functions :=
      [.predicate "p" [n] (.binary .eq (.call "plus" [.var n, .number 1] [.int]) (.number 2)) {}]
    facts := [⟨"F", .quantified .all [.mk [x] .one (.sig a) false]
      (.quantified .all [.mk [y] .one (.binary .join (.var x) (.field f)) false]
        (.call "p" [.var y] [])), {}⟩] }

/-- An assertion of the specification is not closed: `x` escapes from the axiom of the sum in the
body of the predicate, whose environment holds the argument only. -/
theorem closed_iff_not_escaping_inlinedSum : ∃ enc a, inlinedSum.lower true = .ok enc ∧
    a ∈ enc.base.assertions ∧ a.formula.freeVariables ≠ [] ∧ EscapingAxiom a := by
  have hopen : (match inlinedSum.lower true with
      | .ok enc => enc.base.assertions.any fun a => !a.formula.freeVariables.isEmpty
      | .error _ => false) = true := by decide +kernel
  split at hopen
  · rename_i enc h
    obtain ⟨a, ha, hfree⟩ := List.any_eq_true.1 hopen
    have hfree : a.formula.freeVariables ≠ [] := by simpa using hfree
    refine ⟨enc, a, h, ha, hfree, ?_⟩
    by_contra hnone
    exact hfree ((closed_iff_not_escaping h (Or.inl ha)).2 hnone)
  · simp at hopen

end Lowering

end RelSmt
