import RelSmt.Proofs.Lowering.Constants
import RelSmt.Proofs.Lowering.ForkedFormula

/-!
# Names in the base program

The base program of a specification is made before any command is lowered. So the names that it
holds, other than those of signatures, fields and symbols declared on first use, are names that its
session does not make any more: they are settled.

A session forked from itself says so. Whatever a step adds to the program is renamed to itself, by
pairs of names that the step has made, and each of these has the number of a call up to now.
-/

namespace RelSmt.Lowering

variable {G : FunctionSymbol → Prop} {C : String → Prop} {k b : Session} {ρ : Renaming}
  {s s' : Session}

/-- The functions that sessions do not name themselves. -/
inductive Given (spec : Relational.Specification) : FunctionSymbol → Prop where
  | value : Given spec intValue
  | int (n) : Given spec (intSymbol n)
  | iden : Given spec idenSymbol
  | integers : Given spec integersSymbol
  | signature {r} (h : r ∈ spec.signatures) : Given spec (signatureSymbol r.ref)
  | field {f} (h : f ∈ spec.fields) : Given spec (fieldSymbol f.ref)

/-- A settled name stands for itself. -/
def Kept (n : Nat) (x y : String) : Prop := x = y ∧ Settled n x

theorem Kept.mono {m n : Nat} {x y : String} (hmn : m ≤ n) (h : Kept m x y) : Kept n x y :=
  ⟨h.1, h.2.mono hmn⟩

/-- All functions that the session knows are given, and all other names in its program are
settled. -/
structure Session.Stable (G : FunctionSymbol → Prop) (s : Session) : Prop where
  gives : s.Gives G fun _ => True
  program : s.program.Renamed G (fun _ => True) (Kept s.fresh) s.program

/-! ## Steps -/

/-- A session is forked from itself. -/
theorem forked_self (h : s.Gives G C) : Forked G C s s [] s s :=
  ⟨h, .nil, {}, {}, s.onDemand, Program.renamed_empty, by simp, by simp⟩

theorem Renaming.Made.kept {n : Nat} (h : ρ.Made n n) {x y : String} (hxy : ρ.Pairs x y) :
    Kept (n + ρ.length) x y := by
  refine ⟨h.diagonal x y hxy, ?_⟩
  obtain ⟨i, hint, hint', hi, he⟩ := h.getElem? hxy
  have hlt : i < ρ.length := (List.getElem?_eq_some_iff.1 hi).1
  obtain ⟨rfl, _⟩ := Prod.mk.inj he
  exact settled_numbered (by omega)

/-- A step that does the same in forked sessions leaves a stable session, and what it returns is
renamed to itself by settled names. -/
theorem Session.Stable.run {α : Type} {R : Renaming → α → α → Prop} {x : Lower α} {a : α}
    (h : Follows G (fun _ => True) s s [] R x x) (hs : s.Stable G) (hrun : Runs x s a s') :
    s'.Stable G ∧ ∃ ρ : Renaming, R ρ a a ∧ ∀ x y, ρ.Pairs x y → Kept s'.fresh x y := by
  obtain ⟨ρ, c, m, _, hrun', hforked, hR⟩ := h s s a s' (forked_self hs.gives) hrun
  -- the two runs are one run, and what it adds is what it adds
  obtain ⟨rfl, rfl⟩ := hrun.unique hrun'
  obtain ⟨p, q, o, hpq, rfl, _⟩ := hforked.states
  obtain rfl := hpq.eq_of_diagonal hforked.made.diagonal
  have hkept : ∀ x y, ρ.Pairs x y → Kept (s.fresh + ρ.length) x y :=
    fun _ _ h => hforked.made.kept h
  refine ⟨⟨?_, ?_⟩, ρ, hR, hkept⟩
  · exact { hs.gives with }
  · exact (hs.program.mono (fun _ h => h) fun _ _ h => h.mono (Nat.le_add_right _ _)).append
      (hpq.mono (fun _ h => h) hkept)

theorem Session.Stable.forM {α : Type} {f : α → Lower Unit} {as : List α}
    (hf : ∀ a ∈ as, ∀ {s s'}, Runs (f a) s () s' → s.Stable G → s'.Stable G)
    (h : Runs (as.forM f) s () s') : s.Stable G → s'.Stable G :=
  h.forM (P := fun s s' => s.Stable G → s'.Stable G) (fun _ hs => hs)
    (fun h h' hs => h' (h hs)) hf

/-- The step does the same in all forked sessions. -/
def Uniform (G : FunctionSymbol → Prop) (x : Lower Unit) : Prop :=
  ∀ {k b : Session} {ρ : Renaming}, Follows G (fun _ => True) k b ρ anyResult x x

theorem Uniform.stable {x : Lower Unit} (h : Uniform G x) (hrun : Runs x s () s')
    (hs : s.Stable G) : s'.Stable G :=
  (hs.run h hrun).1

theorem uniform_forM {α : Type} {f : α → Lower Unit} (hf : ∀ a, Uniform G (f a)) :
    ∀ as : List α, Uniform G (as.forM f)
  | [] => follows_pure trivial
  | a :: as => (hf a).bind fun _ _ _ _ _ => uniform_forM hf as

/-! ## Signatures and fields -/

theorem uniform_assertDisjoint (rs : List Relational.Signature) :
    Uniform G (assertDisjoint rs) := by
  refine uniform_forM (fun p => ?_) _
  refine (follows_signature p.1.ref).bind fun ρ₁ t t' _ ht => ?_
  refine (follows_signature p.2.ref).bind fun ρ₂ u u' h₂ hu => ?_
  refine follows_lift_bind (follows_disjointSets (ht.mono h₂) hu) fun f f' hf => ?_
  exact follows_assert (.given trivial) hf

theorem follows_unionOf (first : Relational.SigRef) (others : List Relational.SigRef) :
    Follows G C k b ρ (Terms G) (unionOf first others) (unionOf first others) := by
  refine (follows_signature first).bind fun ρ₁ t t' _ ht => ?_
  refine Follows.foldlM (S := fun _ => Eq) (fun _ h => h) (fun {ρ u u' r r'} hu hr => ?_)
    (List.forall₂_same.2 fun _ _ => rfl) ht
  subst hr
  refine (follows_signature r).bind fun ρ₂ w w' h₂ hw => ?_
  exact follows_lift ((hu.mono h₂).mkBinary hw)

theorem uniform_assertParents (r : Relational.Signature) : Uniform G (assertParents r) := by
  intro k b ρ
  unfold assertParents
  dsimp only
  split
  · refine (follows_signature r.ref).bind fun ρ₁ t t' _ ht => ?_
    refine (follows_signature _).bind fun ρ₂ u u' h₂ hu => ?_
    refine follows_lift_bind ((ht.mono h₂).mkBinary hu) fun f f' hf => ?_
    exact follows_assert (.given trivial) hf
  · refine (follows_unionOf _ _).bind fun ρ₁ u u' _ hu => ?_
    refine (follows_signature r.ref).bind fun ρ₂ t t' h₂ ht => ?_
    refine follows_lift_bind (ht.mkBinary (hu.mono h₂)) fun f f' hf => ?_
    exact follows_assert (.given trivial) hf
  · exact follows_pure trivial

theorem uniform_assertChildren (all : List Relational.Signature) (r : Relational.Signature) :
    Uniform G (assertChildren all r) := by
  refine (uniform_assertDisjoint _).bind fun ρ₁ _ _ _ _ => ?_
  split
  · refine (follows_unionOf _ _).bind fun ρ₂ u u' _ hu => ?_
    refine (follows_signature r.ref).bind fun ρ₃ t t' h₃ ht => ?_
    refine follows_lift_bind (ht.mkBinary (hu.mono h₃)) fun f f' hf => ?_
    exact follows_assert (.given trivial) hf
  · exact follows_pure trivial

theorem follows_multiplicityFormula {q : Relational.Multiplicity} {demand : Term → Lower Term}
    (h : multiplicityFormula? q = some demand) {t t' : Term} (ht : Terms G ρ t t') :
    Follows G C k b ρ (Terms G) (demand t) (demand t') := by
  cases q <;> simp only [multiplicityFormula?, Option.some.injEq, reduceCtorEq] at h
  case one =>
    subst h
    exact follows_exactlyOne ht
  case lone =>
    subst h
    exact follows_atMostOne ht
  case some =>
    subst h
    exact follows_lift (follows_nonEmpty ht)

theorem uniform_assertMultiplicity (r : Relational.Signature) :
    Uniform G (assertMultiplicity r) := by
  intro k b ρ
  unfold assertMultiplicity
  split
  · rename_i q demand hdemand
    obtain ⟨q', _, hq'⟩ := Option.bind_eq_some_iff.1 hdemand
    obtain ⟨demand', hdemand', he⟩ := Option.map_eq_some_iff.1 hq'
    obtain ⟨rfl, rfl⟩ := Prod.mk.inj he
    refine (follows_signature r.ref).bind fun ρ₁ t t' _ ht => ?_
    refine (follows_multiplicityFormula hdemand' ht).bind fun ρ₂ f f' _ hf => ?_
    exact follows_assert (.given trivial) hf
  · exact follows_pure trivial

theorem uniform_assertField (f : Relational.Field) (what : String) (e : Relational.Expr) :
    Uniform G (assertField f what e) :=
  (follows_formula e).bind fun _ _ _ _ ht => follows_assert (.given trivial) ht

theorem uniform_assertBound (f : Relational.Field) : Uniform G (assertBound f) :=
  (uniform_assertField f _ _).bind fun _ _ _ _ _ => uniform_assertField f _ _

theorem uniform_assertDisjointFields (f g : Relational.Field) :
    Uniform G (assertDisjointFields f g) := by
  refine (follows_field f.ref).bind fun ρ₁ t t' _ ht => ?_
  refine (follows_field g.ref).bind fun ρ₂ u u' h₂ hu => ?_
  refine follows_lift_bind (follows_disjointSets (ht.mono h₂) hu) fun f f' hf => ?_
  exact follows_assert (.given trivial) hf

theorem uniform_assertGroup (g : Relational.FieldGroup) : Uniform G (assertGroup g) := by
  have hvalues : Uniform G (if g.disjointValues then g.fields.forM fun f =>
      assertField f "has disjoint values" (disjointValuesFormula f) else pure ()) := by
    intro k b ρ
    split
    · exact uniform_forM (fun f => uniform_assertField f _ _) _
    · exact follows_pure trivial
  intro k b ρ
  unfold assertGroup
  refine (uniform_forM uniform_assertBound _).bind fun ρ₁ _ _ _ _ => ?_
  dsimp only
  split
  · exact (uniform_forM (fun p => uniform_assertDisjointFields p.1 p.2) _).bind
      fun _ _ _ _ _ => hvalues
  · exact hvalues

/-! ## Declarations -/

theorem Session.Stable.declaring (hs : s.Stable G) {f : FunctionSymbol} (hf : G f) :
    (s.declaring f).Stable G :=
  ⟨{ hs.gives with }, hs.program.declare (.given hf)⟩

theorem Session.Stable.with_signature (hs : s.Stable G) (r : Relational.SigRef)
    {f : FunctionSymbol} (hf : G f) :
    Session.Stable G { s with signatures := s.signatures ++ [(r, f)] } := by
  refine ⟨{ hs.gives with signature := fun h => ?_ }, hs.program⟩
  rcases lookup_append h with h | ⟨_, rfl⟩
  · exact hs.gives.signature h
  · exact hf

theorem Session.Stable.with_field (hs : s.Stable G) (r : Relational.FieldRef) {f : FunctionSymbol}
    (hf : G f) : Session.Stable G { s with fields := s.fields ++ [(r, f)] } := by
  refine ⟨{ hs.gives with field := fun h => ?_ }, hs.program⟩
  rcases lookup_append h with h | ⟨_, rfl⟩
  · exact hs.gives.field h
  · exact hf

theorem stable_declareSignature {r : Relational.Signature} (hr : G (signatureSymbol r.ref))
    (h : Runs (declareSignature r) s () s') (hs : s.Stable G) : s'.Stable G := by
  rcases declareSignature_cases h with ⟨_, _, m, hints, rfl⟩ | ⟨hint, rfl⟩
  · have hm := (hs.run follows_integers hints).1
    exact hm.with_signature r.ref hm.gives.integers
  · rw [signatureSymbol, if_neg (by simp [hint])] at hr
    exact (hs.declaring hr).with_signature r.ref hr

theorem stable_declareField {f : Relational.Field} (hf : G (fieldSymbol f.ref))
    (h : Runs (declareField f) s () s') (hs : s.Stable G) : s'.Stable G := by
  obtain rfl := declareField_eq h
  exact (hs.declaring hf).with_field f.ref hf

theorem stable_signatures {all : List Relational.Signature}
    (hG : ∀ r ∈ all, G (signatureSymbol r.ref)) (h : Runs (signatures all) s () s')
    (hs : s.Stable G) : s'.Stable G := by
  simp only [signatures, runs_bind] at h
  obtain ⟨_, m, hdeclare, _, m', hdisjoint, hrest⟩ := h
  -- only the declarations change what the session knows; the rest does the same in all sessions
  have hm := Session.Stable.forM (fun r hr => stable_declareSignature (hG r hr)) hdeclare hs
  have hm' := Uniform.stable (uniform_assertDisjoint _) hdisjoint hm
  refine Uniform.stable (uniform_forM (fun r => ?_) _) hrest hm'
  exact (uniform_assertParents r).bind fun _ _ _ _ _ =>
    (uniform_assertChildren all r).bind fun _ _ _ _ _ => uniform_assertMultiplicity r

theorem stable_fields {groups : List Relational.FieldGroup}
    (hG : ∀ g ∈ groups, ∀ f ∈ g.fields, G (fieldSymbol f.ref)) (h : Runs (fields groups) s () s')
    (hs : s.Stable G) : s'.Stable G := by
  obtain ⟨_, m, hdeclare, hassert⟩ := runs_bind.1 h
  have hm := Session.Stable.forM (fun g hg _ _ h => Session.Stable.forM
    (fun f hf => stable_declareField (hG g hg f hf)) h) hdeclare hs
  exact Uniform.stable (uniform_forM uniform_assertGroup _) hassert hm

/-! ## Facts -/

/-- What a fact adds is its formula, under the label of its position unless that is taken. -/
theorem runs_fact {f : Relational.Fact} : Runs (fact f) s () s' ↔
    ∃ t m, Runs (formula f.formula) s t m ∧
      s' = { m.asserting ⟨f.label, t, f.position.label?.filter fun l => !m.labels.contains l⟩ with
        labels :=
          (f.position.label?.filter fun l => !m.labels.contains l).toList ++ m.labels } := by
  simp only [fact, Assertion.make, runs_bind, runs_lift, runs_get, runs_modify]
  constructor
  · rintro ⟨t, m, ht, a, _, ⟨ha, rfl⟩, _, _, ⟨rfl, rfl⟩, rfl⟩
    rw [if_pos (closed_formula ht).1, Except.ok.injEq] at ha
    subst ha
    exact ⟨t, m, ht, rfl⟩
  · rintro ⟨t, m, ht, rfl⟩
    exact ⟨t, m, ht, ⟨f.label, t, none⟩, m, ⟨if_pos (closed_formula ht).1, rfl⟩, m, m, ⟨rfl, rfl⟩,
      rfl⟩

theorem stable_fact {f : Relational.Fact} (h : Runs (fact f) s () s') (hs : s.Stable G) :
    s'.Stable G := by
  obtain ⟨t, m, ht, rfl⟩ := runs_fact.1 h
  obtain ⟨hm, ρ, htt, hkept⟩ := hs.run (follows_formula _) ht
  exact ⟨{ hm.gives with }, hm.program.assert ⟨.given trivial, htt.mono hkept, rfl⟩⟩

/-! ## Specifications -/

theorem stable_initial (spec : Relational.Specification) (singletonsOnly : Bool) :
    (Session.initial singletonsOnly spec.functions).Stable (Given spec) := by
  have hx : (Variable.plain "x" .uint).Renamed (Given spec) (Kept 0) (.plain "x" .uint) :=
    .plain ⟨rfl, settled_of_no_underscore (by decide) 0⟩
  have hy : (Variable.plain "y" .uint).Renamed (Given spec) (Kept 0) (.plain "y" .uint) :=
    .plain ⟨rfl, settled_of_no_underscore (by decide) 0⟩
  have hvalue : ∀ {v : Variable}, v.Renamed (Given spec) (Kept 0) v →
      (Term.call intValue [.variable v]).Renamed (Given spec) (Kept 0)
        (.call intValue [.variable v]) :=
    fun hv => .call (.given .value) (.cons (.variable hv) .nil)
  have hformula : injectivityFormula.Renamed (Given spec) (Kept 0) injectivityFormula :=
    .quantified (.cons hx (.cons hy .nil)) (.binary
      (.unary (.binary (.variable hx) (.variable hy))) (.unary (.binary (hvalue hx) (hvalue hy))))
  refine ⟨⟨.value, .int, .iden, .integers, ?_, ?_, fun _ => trivial⟩, rfl,
    .cons (.declared (.given .value)) .nil, .cons ⟨.given trivial, hformula, rfl⟩ .nil⟩
  · simp [Session.initial, Session.start, Session.asserting]
  · simp [Session.initial, Session.start, Session.asserting]

/-- **All names in the base program that are not given are settled when the first command is
lowered.** -/
theorem stable_facts {spec : Relational.Specification} {singletonsOnly : Bool} {m₁ m₂ m₃ : Session}
    (hsignatures : Runs (signatures spec.signatures) (.initial singletonsOnly spec.functions) () m₁)
    (hfields : Runs (fields spec.fieldGroups) m₁ () m₂)
    (hfacts : Runs (spec.facts.forM fact) m₂ () m₃) : m₃.Stable (Given spec) := by
  have hm₁ := stable_signatures (fun _ => .signature) hsignatures
    (stable_initial spec singletonsOnly)
  have hm₂ := stable_fields (fun g hg f hf => .field (List.mem_flatMap.2 ⟨g, hg, hf⟩)) hfields hm₁
  exact Session.Stable.forM (fun _ _ _ _ => stable_fact) hfacts hm₂

end RelSmt.Lowering
