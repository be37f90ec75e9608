import RelSmt.Proofs.Lowering.DisciplineFormula
import RelSmt.Proofs.Lowering.VariableNames

/-!
# Names of a lowered specification

Functions of a script never share a name, provided that the specification's own names for signatures
and fields are different. A bound variable shares one with a function only where the specification
asks for it: a variable declared as `u` gets names such as `u_1`, which is also what the constant of
the integer 1 is called, and a variable with a slash in its name may meet a signature or a field.
-/

namespace RelSmt.Lowering

variable {V : Set String} {lo : Nat} {C : List String} {s m s' : Session} {t : Term}

instance : (naming V lo).keeping.AllowsLabels where
  labelled _ h := (naming_asserting h.namesOnly).trans (naming_of_eq (Nat.le_refl _) rfl rfl rfl)

/-! ## Steps on lists -/

/-- Steps that keep names in order one by one do so together, where they give different names. -/
theorem naming_forM {α : Type} {f : α → Lower Unit} {names : α → List String} :
    ∀ {as : List α} {s s' : Session}, (∀ a ∈ as, ∀ {s s' : Session}, s.Ready V lo →
      Runs (f a) s () s' → Naming V lo (names a) s s') → (as.flatMap names).Nodup →
    s.Ready V lo → Runs (as.forM f) s () s' → Naming V lo (as.flatMap names) s s'
  | [], s, s', _, _, _, h => by
    obtain ⟨_, rfl⟩ := runs_pure.1 h
    exact .refl s
  | a :: as, s, s', hf, hnodup, hs, h => by
    obtain ⟨m, ha, has⟩ := runs_forM_cons.1 h
    rw [List.flatMap_cons, List.nodup_append] at hnodup
    obtain ⟨_, hrest, hdisjoint⟩ := hnodup
    have hm := hf a List.mem_cons_self hs ha
    have hs' := naming_forM (fun b hb => hf b (List.mem_cons_of_mem _ hb)) hrest (hm.ready hs) has
    exact hm.append hs' fun x hx hx' => hdisjoint x hx x hx' rfl

/-! ## Signatures -/

/-- The specification may name a function. -/
theorem naming_given {f : FunctionSymbol} (hslash : '/' ∈ f.name.toList) :
    Naming V lo [f.name] s (s.declaring f) where
  fresh := Nat.le_refl _
  onDemand := .refl _
  userFunctions := rfl
  slashes x hx := List.mem_singleton.1 hx ▸ hslash
  functions := ⟨[.declared f], rfl, by simp, fun g hg => by
    rw [List.mem_singleton.1 hg]
    exact .given List.mem_cons_self⟩
  assertions := ⟨[], by simp, by simp⟩

/-- The name that a signature gives to a function. That of all integers is not declared as one. -/
def signatureNames (r : Relational.Signature) : List String :=
  if r.ref.isInt then [] else [r.ref.label]

theorem naming_declareSignature {r : Relational.Signature}
    (hslash : r.ref.isInt = false → '/' ∈ r.ref.label.toList) (hs : s.Ready V lo)
    (h : Runs (declareSignature r) s () s') : Naming V lo (signatureNames r) s s' := by
  rcases declareSignature_cases h with ⟨hint, _, m, hints, rfl⟩ | ⟨hint, rfl⟩
  · rw [signatureNames, if_pos hint]
    exact (naming_integers hs.counts hints).trans (naming_of_eq (Nat.le_refl _) rfl rfl rfl)
  · rw [signatureNames, if_neg (by simp [hint])]
    have hgiven : Naming V lo _ s _ := naming_given
      (f := .constant r.ref.label (relationSort [r.ref.column])) (hslash hint)
    exact hgiven.append (naming_of_eq (Nat.le_refl _) rfl rfl rfl) (by simp)

theorem naming_allSignatures {all : List Relational.Signature}
    (hslash : ∀ r ∈ all, r.ref.isInt = false → '/' ∈ r.ref.label.toList)
    (hnodup : (all.flatMap signatureNames).Nodup) (hs : s.Ready V lo)
    (h : Runs (signatures all) s () s') : Naming V lo (all.flatMap signatureNames) s s' := by
  obtain ⟨m, hdeclare, hrest⟩ := kept_signatures (K := (naming V lo).keeping) h
  have hm := naming_forM (fun r hr {s s'} hs h => naming_declareSignature (hslash r hr) hs h)
    hnodup hs hdeclare
  have hall := hm.append (hrest (hm.ready hs)) (by simp)
  rwa [List.append_nil] at hall

/-! ## Fields -/

theorem naming_declareField {f : Relational.Field} (h : Runs (declareField f) s () s') :
    Naming V lo [fieldName f.ref] s s' := by
  obtain rfl := declareField_eq h
  have hgiven : Naming V lo _ s _ := naming_given
    (f := .constant (fieldName f.ref) (relationSort f.ref.columns)) (slash_mem_fieldName f.ref)
  exact hgiven.append (naming_of_eq (Nat.le_refl _) rfl rfl rfl) (by simp)

/-- The names that fields give to functions. -/
def fieldNames (groups : List Relational.FieldGroup) : List String :=
  groups.flatMap fun g => g.fields.flatMap fun f => [fieldName f.ref]

theorem naming_allFields {groups : List Relational.FieldGroup}
    (hV : ∀ g ∈ groups, ∀ f ∈ g.fields, ∀ v ∈ f.bound.declared, Hint V v.name)
    (hnodup : (fieldNames groups).Nodup) (hs : s.Ready V lo)
    (h : Runs (fields groups) s () s') : Naming V lo (fieldNames groups) s s' := by
  obtain ⟨m, hdeclare, hrest⟩ := kept_fields (K := (naming V lo).keeping) hV h
  have hm := naming_forM (fun g hg {s s'} hs h => naming_forM
    (fun f _ {s s'} _ h => naming_declareField h) ((List.nodup_flatMap.1 hnodup).1 g hg) hs h)
    hnodup hs hdeclare
  have hall := hm.append (hrest (hm.ready hs)) (by simp)
  rwa [List.append_nil] at hall

/-! ## Commands -/

/-- What is lowered with an empty program keeps names in order on top of the program from before,
whose numbers are all taken. -/
theorem Naming.onTop (hs : s.Counts lo) (h : Naming V s.fresh [] { s with program := {} } m) :
    Naming V lo [] s { m with program := s.program ++ m.program } := by
  obtain ⟨fs, hfs, hnodup, hnew⟩ := h.functions
  obtain ⟨as, has, hnames⟩ := h.assertions
  have hfs : m.program.functions = fs := hfs
  have has : m.program.assertions = as := has
  refine ⟨h.fresh, h.onDemand, h.userFunctions, by simp, ⟨fs, ?_, hnodup, fun f hf => ?_⟩,
    ⟨as, ?_, fun a ha => (hnames a ha).mono fun x hx => ?_⟩⟩
  · rw [← hfs]
    rfl
  · have hleft := (hnew f hf).weaken_left (s := s) (.refl _) (Nat.le_refl _) fun _ hx => hx
    exact hleft.weaken_right (.refl _) (Nat.le_refl _) fun _ hx => hx
  · rw [← has]
    rfl
  · obtain ⟨hint, k, hhint, hlo, hk, rfl, hfree⟩ := hx
    refine ⟨hint, k, hhint, Nat.lt_of_le_of_lt hs.start hlo, hk, rfl, fun f hf hmem => ?_⟩
    have hmem : numbered f k ∈ s.names ++ m.names := by
      rw [Session.names, Session.names, ← List.map_append]
      exact hmem
    rcases List.mem_append.1 hmem with hmem | hmem
    · exact absurd hlo (Nat.not_lt.2 (hs.counted f hf k hmem))
    · exact hfree f hf hmem

/-- The base program followed by what a command adds is a program that lowering could have made at
one go. -/
theorem naming_command {c : Relational.Command} {delta : Program}
    (hV : ∀ v ∈ c.formula.declared, Hint V v.name) (hs : s.Ready V lo)
    (h : Runs (command c) s delta s') :
    ∃ m, Naming V lo [] s m ∧ m.program = s.program ++ delta := by
  have hempty : Session.Ready V s.fresh { s with program := {} } :=
    ⟨⟨Nat.le_refl _, by simp [Session.names]⟩, hs.declared⟩
  obtain ⟨m, hm, rfl⟩ := kept_command (K := (naming V s.fresh).keeping) hV hempty h
  exact ⟨_, Naming.onTop hs.counts hm, rfl⟩

/-! ## Specifications -/

/-- The names that a specification gives to functions: the labels of its signatures, but not that of
all integers, and the names of its fields. -/
def givenNames (spec : Relational.Specification) : List String :=
  spec.signatures.flatMap signatureNames ++ fieldNames spec.fieldGroups

theorem names_initial (singletonsOnly : Bool) (functions : List Relational.Function) :
    (Session.initial singletonsOnly functions).names = ["intValue"] := rfl

theorem ready_initial {singletonsOnly : Bool} {functions : List Relational.Function}
    (hV : ∀ f ∈ functions, ∀ body, f.body = some body → ∀ v ∈ body.declared, Hint V v.name) :
    (Session.initial singletonsOnly functions).Ready V 0 := by
  refine ⟨⟨Nat.le_refl _, fun h hh k hk => ?_⟩, hV⟩
  have hname : numbered h k = "intValue" := by simpa [names_initial] using hk
  exact absurd (hname ▸ underscore_mem_numbered h k) (by decide)

/-- Lowering a specification keeps names in order, in the base program alone as well as followed by
what a command adds. -/
theorem naming_lower {spec : Relational.Specification} {singletonsOnly : Bool} {enc : Encoding}
    (hV : ∀ v ∈ spec.declared, Hint V v.name)
    (hslash : ∀ r ∈ spec.signatures, r.ref.isInt = false → '/' ∈ r.ref.label.toList)
    (hnodup : (givenNames spec).Nodup) (h : spec.lower singletonsOnly = .ok enc) {p : Program}
    (hp : p = enc.base ∨ ∃ c delta, (c, delta) ∈ enc.commands ∧ p = enc.base ++ delta) :
    ∃ s, Naming V 0 (givenNames spec) (.initial singletonsOnly spec.functions) s ∧
      s.program = p := by
  obtain ⟨m₁, m₂, m₃, m₄, hsignatures, hfields, hfacts, hcommands, hbase, _⟩ := runs_lower h
  obtain ⟨hprogram, hcs⟩ := runs_commands hcommands
  rw [hprogram] at hbase
  simp only [Relational.Specification.declared, List.mem_append, List.mem_flatMap, or_assoc] at hV
  obtain ⟨hnodupSignatures, hnodupFields, hdisjoint⟩ := List.nodup_append.1 hnodup
  have hs : (Session.initial singletonsOnly spec.functions).Ready _ 0 :=
    ready_initial fun f hf body hbody v hv =>
      hV v (Or.inr (Or.inl ⟨f, hf, by simpa [hbody] using hv⟩))
  have h₁ := naming_allSignatures hslash hnodupSignatures hs hsignatures
  have h₂ := naming_allFields (fun g hg f hf v hv => hV v (Or.inl
    ⟨f, List.mem_flatMap.2 ⟨g, hg, hf⟩, hv⟩)) hnodupFields (h₁.ready hs) hfields
  have h₃ : Naming _ 0 [] m₂ m₃ := kept_forM (K := (naming _ 0).keeping) (fun f hf {s s'} hs h =>
    kept_fact (fun v hv => hV v (Or.inr (Or.inr (Or.inl ⟨f, hf, hv⟩)))) hs h)
    (h₂.ready (h₁.ready hs)) hfacts
  have hm₃ := (h₁.append h₂ fun x hx hx' => hdisjoint x hx x hx' rfl).append h₃ (by simp)
  rw [List.append_nil] at hm₃
  rcases hp with rfl | ⟨c, delta, hc, rfl⟩
  · exact ⟨m₃, hm₃, hbase.symm⟩
  · -- a command starts from the base program, with numbers taken by the commands before it
    obtain ⟨hmem, k, k', hk, hkprogram, hkdemand, hrun⟩ := hcs c delta hc
    have hk := hm₃.append (naming_of_eq hk.fresh hkdemand hk.functions hkprogram : Naming _ 0 _ _ _)
      (by simp)
    obtain ⟨m, hm, hmprogram⟩ := naming_command
      (fun v hv => hV v (Or.inr (Or.inr (Or.inr ⟨c, hmem, hv⟩)))) (hk.ready hs) hrun
    refine ⟨m, ?_, by rw [hmprogram, hkprogram, hbase]⟩
    have := hk.append hm (by simp)
    rwa [List.append_nil, List.append_nil] at this

/-! ## Clashes -/

/-- A slash in a hint comes from the name of a declared variable. -/
theorem Hint.slash {h : String} (hh : Hint V h) (hslash : '/' ∈ h.toList) :
    ∃ x ∈ V, '/' ∈ x.toList := by
  have hown : ∀ h ∈ ownHints, '/' ∉ h.toList := by decide
  induction hh with
  | own hmem => exact absurd hslash (hown _ hmem)
  | declared hmem => exact ⟨_, hmem, hslash⟩
  | copy _ ih => exact ih (slash_mem_numbered.1 hslash)

/-- Only a declared variable makes a hint `u`. -/
theorem Hint.mem_of_eq {h : String} (hh : Hint V h) (hu : h = "u") : "u" ∈ V := by
  cases hh with
  | own hmem => exact absurd (hu ▸ hmem) (by decide)
  | declared hmem => exact hu ▸ hmem
  | copy _ => exact absurd (hu ▸ underscore_mem_numbered _ _) (by decide)

/-- A bound variable has the name of a function only where its hint makes it the constant of an
integer, or where the function is a signature or a field. -/
theorem Naming.clash {x : String} (h : Naming V lo C s s') (hx : Bindable V lo s' x)
    (hnames : ∀ y ∈ s.names, '_' ∉ y.toList) (hmem : x ∈ s'.names) :
    ("u" ∈ V ∧ ∃ n : Nat, x = (intSymbol n).name) ∨ (x ∈ C ∧ ∃ y ∈ V, '/' ∈ y.toList) := by
  obtain ⟨hint, k, hhint, _, _, rfl, hfree⟩ := hx
  rcases h.mem_names.1 hmem with hmem | ⟨_, _, _, hnew⟩
  · exact absurd (underscore_mem_numbered hint k) (hnames _ hmem)
  · cases hnew with
    | given hx => exact Or.inr ⟨hx, hhint.slash (slash_mem_numbered.1 (h.slashes _ hx))⟩
    | int n hx =>
      obtain ⟨hu, rfl⟩ := numbered_eq_intSymbol_iff.1 hx
      exact Or.inl ⟨hhint.mem_of_eq hu, k, hx⟩
    | iden hx => exact absurd (hx ▸ underscore_mem_numbered hint k) (by decide)
    | integers hx => exact absurd (hx ▸ underscore_mem_numbered hint k) (by decide)
    | counted f n hx hf =>
      obtain ⟨rfl, rfl⟩ := numbered_inj hx
      exact absurd hmem (hfree _ hf)

/-- A name without underscore and slash is new only as one of two fixed words. -/
theorem Naming.not_new {x : String} (h : Naming V lo C s s')
    (hx : '_' ∉ x.toList ∧ '/' ∉ x.toList ∧ x ≠ "atomIden" ∧ x ≠ "integers") :
    ¬ NewName C s s' x := by
  obtain ⟨hunderscore, hslash, hiden, hintegers⟩ := hx
  intro hnew
  cases hnew with
  | given hx => exact hslash (h.slashes _ hx)
  | int n hx => exact hunderscore (hx ▸ underscore_mem_intSymbol n)
  | iden hx => exact hiden hx
  | integers hx => exact hintegers hx
  | counted h k hx => exact hunderscore (hx ▸ underscore_mem_numbered h k)

section Initial

variable {singletonsOnly : Bool} {functions : List Relational.Function}

/-- No function that comes in later has the name of the one that is there from the start. -/
theorem Naming.nodup_names (h : Naming V lo C (.initial singletonsOnly functions) s) :
    s.names.Nodup := by
  obtain ⟨fs, hfs, hnodup, hnew⟩ := h.functions
  rw [Session.names, hfs, List.map_append, List.nodup_append]
  refine ⟨List.nodup_singleton _, hnodup, fun x hx y hy hxy => ?_⟩
  obtain rfl : x = "intValue" := List.mem_singleton.1 hx
  obtain ⟨f, hf, rfl⟩ := List.mem_map.1 hy
  exact h.not_new (by decide) (hxy ▸ hnew f hf)

theorem eq_or_eq_of_mem_injectivityFormula {x : String} (hx : x ∈ injectivityFormula.boundNames) :
    x = "x" ∨ x = "y" := by
  simpa [injectivityFormula, Term.boundNames, Term.boundNamesList, Variable.plain, Variable.name]
    using hx

/-- The axiom of the preamble binds names without a number, which no function has. -/
theorem Naming.not_mem_names (h : Naming V lo C (.initial singletonsOnly functions) s) {x : String}
    (hx : x ∈ injectivityFormula.boundNames) : x ∉ s.names := by
  intro hmem
  rcases h.mem_names.1 hmem with hmem | ⟨_, _, _, hnew⟩
  · rw [names_initial, List.mem_singleton] at hmem
    rcases eq_or_eq_of_mem_injectivityFormula hx with rfl | rfl <;> simp at hmem
  · refine h.not_new ?_ hnew
    rcases eq_or_eq_of_mem_injectivityFormula hx with rfl | rfl <;> decide

end Initial

/-- **Functions of a lowered specification have different names, and a bound variable shares one
with a function only where a declared variable is called `u` or has a slash in its name.** In the
first case the function is the constant of an integer, in the second a signature or a field. -/
theorem names_distinct {spec : Relational.Specification} {singletonsOnly : Bool} {enc : Encoding}
    (h : spec.lower singletonsOnly = .ok enc)
    (hslash : ∀ r ∈ spec.signatures, r.ref.isInt = false → '/' ∈ r.ref.label.toList)
    (hnodup : (givenNames spec).Nodup) {p : Program}
    (hp : p = enc.base ∨ ∃ c delta, (c, delta) ∈ enc.commands ∧ p = enc.base ++ delta) :
    (p.functions.map FunctionItem.name).Nodup ∧
      ∀ a ∈ p.assertions, ∀ x ∈ a.formula.boundNames, x ∈ p.functions.map FunctionItem.name →
        (∃ n : Nat, x = (intSymbol n).name ∧ ∃ v ∈ spec.declared, v.name = "u") ∨
          (x ∈ givenNames spec ∧ ∃ v ∈ spec.declared, '/' ∈ v.name.toList) := by
  have hV : ∀ v ∈ spec.declared, Hint {x | ∃ v ∈ spec.declared, v.name = x} v.name :=
    fun v hv => .declared ⟨v, hv, rfl⟩
  obtain ⟨s, hs, rfl⟩ := naming_lower hV hslash hnodup h hp
  refine ⟨hs.nodup_names, fun a ha x hx hmem => ?_⟩
  obtain ⟨as, has, hwell⟩ := hs.assertions
  rw [has, List.mem_append] at ha
  rcases ha with ha | ha
  · -- the axiom of the preamble is there from the start
    obtain rfl := List.mem_singleton.1 ha
    exact absurd hmem (hs.not_mem_names hx)
  · have hclash := hs.clash ((hwell a ha).of_mem_boundNames hx)
      (by rw [names_initial]; decide) hmem
    rcases hclash with ⟨⟨v, hv, hu⟩, n, hn⟩ | ⟨hgiven, _, ⟨v, hv, rfl⟩, hslash⟩
    · exact Or.inl ⟨n, hn, v, hv, hu⟩
    · exact Or.inr ⟨hgiven, v, hv, hslash⟩

/-- A specification whose one fact declares a variable `u` and mentions the integer 1. -/
def variableU : Relational.Specification :=
  let a : Relational.SigRef := ⟨0, "this/A", .atom, false⟩
  let u : Relational.Var := ⟨.declared 0, "u", [.atom]⟩
  { signatures := [⟨a, .top, false, none, {}⟩]
    facts := [⟨"F", .quantified .all [.mk [u] .one (.sig a) false]
      (.binary .eq (.number 1) (.number 1)), {}⟩] }

/-- The fact binds the name of the constant of 1, and only because its variable is called `u`. -/
theorem names_distinct_variableU : ∃ enc a, variableU.lower true = .ok enc ∧
    (enc.base.functions.map FunctionItem.name).Nodup ∧ a ∈ enc.base.assertions ∧
    "u_1" ∈ a.formula.boundNames ∧ "u_1" ∈ enc.base.functions.map FunctionItem.name ∧
    ∃ v ∈ variableU.declared, v.name = "u" := by
  have hclash : (match variableU.lower true with
      | .ok enc => enc.base.assertions.any fun a => a.formula.boundNames.contains "u_1"
          && (enc.base.functions.map FunctionItem.name).contains "u_1"
      | .error _ => false) = true := by decide +kernel
  split at hclash
  · rename_i enc h
    obtain ⟨a, ha, hboth⟩ := List.any_eq_true.1 hclash
    simp only [Bool.and_eq_true, List.contains_iff_mem] at hboth
    obtain ⟨hbound, hmem⟩ := hboth
    obtain ⟨hnodup, hshared⟩ := names_distinct h (by decide) (by decide) (Or.inl rfl)
    refine ⟨enc, a, h, hnodup, ha, hbound, hmem, ?_⟩
    rcases hshared a ha "u_1" hbound hmem with ⟨_, _, hu⟩ | ⟨hgiven, _⟩
    · exact hu
    · exact absurd hgiven (by decide)
  · simp at hclash

end RelSmt.Lowering
