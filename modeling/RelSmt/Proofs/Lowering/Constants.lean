import RelSmt.Proofs.Lowering.Field

/-!
# The constants of an encoding

Each signature of a specification, the integers apart, stands for a constant of its label, and each
field for a constant of its name. Encodings list them in the order of the specification
(`constants_lower`). Each constant is a relation with at least one column: a field without columns
would not have the sort of its bound, which the owner's column starts.
-/

namespace RelSmt.Lowering

variable {s s' : Session}

/-- The constant of a signature. -/
def signatureSymbol (r : Relational.SigRef) : FunctionSymbol :=
  if r.isInt then integersSymbol else .constant r.label (relationSort [r.column])

/-- The constant of a field. -/
def fieldSymbol (r : Relational.FieldRef) : FunctionSymbol :=
  .constant (fieldName r) (relationSort r.columns)

/-! ## What is declared -/

/-- Steps that each add something to a part of the session add all of it in order. -/
theorem forM_appends {α β : Type} {f : α → Lower Unit} (view : Session → List β) {new : α → List β}
    (hf : ∀ {a : α} {s s' : Session}, Runs (f a) s () s' → view s' = view s ++ new a) :
    ∀ {as : List α} {s s' : Session}, Runs (as.forM f) s () s' →
      view s' = view s ++ as.flatMap new
  | [], s, s', h => by
    obtain ⟨_, rfl⟩ := runs_pure.1 h
    simp
  | a :: as, s, s', h => by
    obtain ⟨m, ha, has⟩ := runs_forM_cons.1 h
    rw [forM_appends view hf has, hf ha, List.flatMap_cons, List.append_assoc]

/-- Steps that each leave a part of the session alone leave it alone together. -/
theorem forM_keeps {α β : Type} {f : α → Lower Unit} (view : Session → β)
    (hf : ∀ {a : α} {s s' : Session}, Runs (f a) s () s' → view s' = view s) {as : List α}
    (h : Runs (as.forM f) s () s') : view s' = view s :=
  h.forM (P := fun s s' => view s' = view s) (fun _ => rfl) (fun h h' => h'.trans h) fun _ _ => hf

theorem runs_declareSignature {r : Relational.Signature} (h : Runs (declareSignature r) s () s') :
    s'.signatures = s.signatures ++ [(r.ref, signatureSymbol r.ref)] ∧ s'.fields = s.fields := by
  rcases declareSignature_cases h with ⟨hint, _, m, hints, rfl⟩ | ⟨hint, rfl⟩
  · obtain ⟨_, _, hext⟩ := runs_integers hints
    exact ⟨by rw [signatureSymbol, if_pos hint, ← hext.signatures], hext.fields⟩
  · exact ⟨by rw [signatureSymbol, hint]; rfl, rfl⟩

theorem runs_declareField {f : Relational.Field} (h : Runs (declareField f) s () s') :
    s'.signatures = s.signatures ∧ s'.fields = s.fields ++ [(f.ref, fieldSymbol f.ref)] := by
  obtain rfl := declareField_eq h
  exact ⟨rfl, rfl⟩

theorem constants_signatures {all : List Relational.Signature}
    (h : Runs (signatures all) s () s') :
    s'.signatures = s.signatures ++ (all.map fun r => (r.ref, signatureSymbol r.ref)) ∧
      s'.fields = s.fields := by
  obtain ⟨m, hdeclare, hext⟩ := runs_signatures h
  have hsignatures := forM_appends Session.signatures (fun h => (runs_declareSignature h).1) hdeclare
  have hfields := forM_keeps Session.fields (fun h => (runs_declareSignature h).2) hdeclare
  rw [← List.map_eq_flatMap] at hsignatures
  exact ⟨hext.signatures.trans hsignatures, hext.fields.trans hfields⟩

theorem constants_fields {groups : List Relational.FieldGroup}
    (h : Runs (fields groups) s () s') :
    s'.signatures = s.signatures ∧
      s'.fields = s.fields ++ ((groups.flatMap Relational.FieldGroup.fields).map fun f =>
        (f.ref, fieldSymbol f.ref)) := by
  obtain ⟨_, m, hdeclare, hassert⟩ := runs_bind.1 h
  have hext : Extends m s' := extends_forM extends_assertGroup hassert
  have hsignatures := forM_keeps Session.signatures
    (fun h => forM_keeps Session.signatures (fun h => (runs_declareField h).1) h) hdeclare
  have hfields := forM_appends Session.fields
    (fun h => forM_appends Session.fields (fun h => (runs_declareField h).2) h) hdeclare
  simp only [← List.map_eq_flatMap] at hfields
  refine ⟨hext.signatures.trans hsignatures, hext.fields.trans ?_⟩
  rw [hfields, List.map_flatMap]

/-! ## Fields have columns -/

/-- A field that can be compared with its owner's product with something has columns. -/
theorem columns_ne_nil_of_rangeFormula {f : Relational.Field} {t : Term} (hs : s.Proper)
    (h : Runs (formula (rangeFormula f)) s t s') : f.ref.columns ≠ [] := by
  obtain ⟨hu, _⟩ := runs_formula.1 h
  obtain ⟨inline, _, _, hinline⟩ := exists_inliner s.functions.length []
  rw [hinline, rangeFormula] at hu
  simp only [exprWith, runs_bind] at hu
  obtain ⟨F, _, hF, product, _, ⟨S, _, _, whole, _, _, hproduct⟩, hsubset⟩ := hu
  obtain ⟨g, hg, rfl, rfl⟩ := runs_field.1 hF
  obtain ⟨hp, rfl⟩ := runs_lift.1 hproduct
  obtain ⟨hw, rfl⟩ := runs_lift.1 hsubset
  obtain ⟨⟨_, _, hS, _⟩, rfl⟩ := Term.product_eq_ok.1 hp
  obtain ⟨⟨_, hsort⟩, _⟩ := Term.within_eq_ok.1 hw
  intro hnil
  have hcolumns := congrArg SmtSort.columns hsort
  rw [Term.sort, (hs.fields _ _ hg).2, hnil] at hcolumns
  exact hS (List.append_eq_nil_iff.1 hcolumns.symm).1

/-- A run over a list has a run of each element, each begun further on. -/
theorem exists_runs_of_forM {α : Type} {f : α → Lower Unit}
    (hf : ∀ {a : α} {s s' : Session}, Runs (f a) s () s' → Progress s s') :
    ∀ {as : List α} {s s' : Session}, Runs (as.forM f) s () s' → ∀ a ∈ as,
      ∃ k k', Progress s k ∧ Runs (f a) k () k'
  | [], _, _, _ => by simp
  | b :: as, s, s', h => by
    obtain ⟨m, hb, has⟩ := runs_forM_cons.1 h
    refine List.forall_mem_cons.2 ⟨⟨s, m, .refl s, hb⟩, fun a ha => ?_⟩
    obtain ⟨k, k', hk, hrun⟩ := exists_runs_of_forM hf has a ha
    exact ⟨k, k', (hf hb).trans hk, hrun⟩

theorem columns_ne_nil_of_fields {groups : List Relational.FieldGroup} (hs : s.Proper)
    (h : Runs (fields groups) s () s') :
    ∀ f ∈ groups.flatMap Relational.FieldGroup.fields, f.ref.columns ≠ [] := by
  intro f hf
  obtain ⟨g, hg, hf⟩ := List.mem_flatMap.1 hf
  obtain ⟨_, m, hdeclare, hassert⟩ := runs_bind.1 h
  have hm := (progress_forM (progress_forM progress_declareField) hdeclare).proper hs
  obtain ⟨k, k', hk, hgroup⟩ :=
    exists_runs_of_forM (fun h => (extends_assertGroup h).progress) hassert g hg
  obtain ⟨_, _, hbounds, _⟩ := runs_bind.1 hgroup
  obtain ⟨l, l', hl, hbound⟩ :=
    exists_runs_of_forM (fun h => (extends_assertBound h).progress) hbounds f hf
  obtain ⟨_, n, hvalues, hrange⟩ := runs_bind.1 hbound
  obtain ⟨t, _, ht, _⟩ := runs_assertField hrange
  exact columns_ne_nil_of_rangeFormula
    (proper_of_extends (hl.proper (hk.proper hm)) (extends_assertField hvalues)) ht

/-! ## Encodings -/

theorem runs_fact_constants {f : Relational.Fact} (h : Runs (fact f) s () s') :
    s'.signatures = s.signatures ∧ s'.fields = s.fields := by
  simp only [fact, Assertion.make, runs_bind, runs_lift, runs_get, runs_modify] at h
  obtain ⟨t, m, ht, a, _, ⟨_, rfl⟩, _, _, ⟨rfl, rfl⟩, rfl⟩ := h
  obtain ⟨_, _, hext⟩ := closed_formula ht
  exact ⟨hext.signatures, hext.fields⟩

theorem constants_commands : ∀ {cs : List Relational.Command} {s s' : Session}
    {lowered : List (Relational.Command × Program)},
    Runs (cs.mapM fun c => do return (c, ← command c)) s lowered s' →
    s'.signatures = s.signatures ∧ s'.fields = s.fields
  | [], s, s', lowered, h => by
    obtain ⟨_, rfl⟩ := runs_pure.1 h
    exact ⟨rfl, rfl⟩
  | c :: cs, s, s', lowered, h => by
    simp only [List.mapM_cons, runs_bind, runs_pure] at h
    obtain ⟨_, m, ⟨delta, _, hdelta, _, rfl⟩, rest, _, hrest, _, rfl⟩ := h
    obtain ⟨t, k, u, label, ht, _, _, rfl⟩ := runs_command hdelta
    obtain ⟨_, _, hext⟩ := closed_formula ht
    obtain ⟨hsignatures, hfields⟩ := constants_commands hrest
    exact ⟨hsignatures.trans hext.signatures, hfields.trans hext.fields⟩

/-- **An encoding lists the constants of signatures and fields in the order of the specification.**
-/
theorem constants_lower {spec : Relational.Specification} {singletonsOnly : Bool} {enc : Encoding}
    (h : spec.lower singletonsOnly = .ok enc) :
    enc.signatures = (spec.signatures.map fun r => (r.ref, signatureSymbol r.ref)).filter
      (fun p => !p.1.isInt) ∧
    enc.fields = (spec.fields.map fun f => (f.ref, fieldSymbol f.ref)) ∧
    ∀ f ∈ spec.fields, f.ref.columns ≠ [] := by
  obtain ⟨m₁, m₂, m₃, m₄, hsignatures, hfields, hfacts, hcommands, _, hsigs, hflds⟩ := runs_lower h
  obtain ⟨hs₁, hf₁⟩ := constants_signatures hsignatures
  obtain ⟨hs₂, hf₂⟩ := constants_fields hfields
  have hs₃ := forM_keeps Session.signatures (fun h => (runs_fact_constants h).1) hfacts
  have hf₃ := forM_keeps Session.fields (fun h => (runs_fact_constants h).2) hfacts
  obtain ⟨hs₄, hf₄⟩ := constants_commands hcommands
  refine ⟨?_, ?_, columns_ne_nil_of_fields
    ((progress_allSignatures hsignatures).proper (proper_initial _ _)) hfields⟩
  · rw [hsigs, hs₄, hs₃, hs₂, hs₁]
    rfl
  · rw [hflds, hf₄, hf₃, hf₂, hf₁]
    rfl

theorem symbol_of_mem_signatures {spec : Relational.Specification} {singletonsOnly : Bool}
    {enc : Encoding} (h : spec.lower singletonsOnly = .ok enc) {p : Relational.SigRef × FunctionSymbol}
    (hp : p ∈ enc.signatures) : p.2 = .constant p.1.label (relationSort [p.1.column]) := by
  rw [(constants_lower h).1] at hp
  obtain ⟨hp, hint⟩ := List.mem_filter.1 hp
  obtain ⟨r, _, rfl⟩ := List.mem_map.1 hp
  have hint : r.ref.isInt = false := by simpa using hint
  rw [signatureSymbol, hint]
  rfl

theorem symbol_of_mem_fields {spec : Relational.Specification} {singletonsOnly : Bool}
    {enc : Encoding} (h : spec.lower singletonsOnly = .ok enc) {p : Relational.FieldRef × FunctionSymbol}
    (hp : p ∈ enc.fields) : p.2 = fieldSymbol p.1 ∧ p.1.columns ≠ [] := by
  obtain ⟨_, hfields, hcolumns⟩ := constants_lower h
  rw [hfields] at hp
  obtain ⟨f, hf, rfl⟩ := List.mem_map.1 hp
  exact ⟨rfl, hcolumns f hf⟩

/-- The constants of an encoding are relations with at least one column. -/
theorem exists_columns_of_mem_constants {spec : Relational.Specification} {singletonsOnly : Bool}
    {enc : Encoding} (h : spec.lower singletonsOnly = .ok enc) {f : FunctionSymbol}
    (hf : f ∈ enc.signatures.map Prod.snd ++ enc.fields.map Prod.snd) :
    ∃ cs : List Relational.Column, cs ≠ [] ∧ Session.IsRelation f cs := by
  rcases List.mem_append.1 hf with hf | hf
  · obtain ⟨p, hp, rfl⟩ := List.mem_map.1 hf
    rw [symbol_of_mem_signatures h hp]
    exact ⟨[p.1.column], by simp, rfl, rfl⟩
  · obtain ⟨p, hp, rfl⟩ := List.mem_map.1 hf
    obtain ⟨hsymbol, hne⟩ := symbol_of_mem_fields h hp
    rw [hsymbol]
    exact ⟨p.1.columns, hne, rfl, rfl⟩

end RelSmt.Lowering
