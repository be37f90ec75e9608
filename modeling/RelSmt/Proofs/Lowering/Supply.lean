import RelSmt.Proofs.Lowering.DisciplineFormula
import RelSmt.Proofs.Lowering.Renaming

/-!
# Scripts declare what they use

A solver takes a formula only when all functions in it have been declared. Signatures and fields
are declared before anything is asserted, and fresh functions where they are made. The value
function comes with every session. The constant of an integer, the identity relation and the set of
all integers are declared with their axioms when something first asks for them, and the session
remembers which of them it has (`Used`).

A command is lowered with an empty program that stands behind the base program, so what is said of
a session here is said of the two together. `Program.Supplied` is the invariant: what formulas
mention is declared, and a symbol that comes with an axiom is there exactly where the session
remembers it, once and with the axiom. The two never part: after a command the program and the
memory both go back to where they were.
-/

namespace RelSmt

/-- Is the function declared under this very name and with these very sorts? -/
def Program.Declares (p : Program) (f : FunctionSymbol) : Prop := .declared f ∈ p.functions

/-- The names of the functions of a program. -/
def Program.names (p : Program) : List String := p.functions.map FunctionItem.name

namespace Lowering

/-! ## Symbols that come with an axiom -/

/-- A symbol that a session declares of itself, with an axiom that gives it its meaning. -/
inductive Builtin where
  | value
  | int (n : Int)
  | iden
  | integers

namespace Builtin

/-- The symbol itself. -/
def symbol : Builtin → FunctionSymbol
  | value => intValue
  | int n => intSymbol n
  | iden => idenSymbol
  | integers => integersSymbol

/-- Is the formula the axiom of the symbol? -/
def IsAxiom : Builtin → Term → Prop
  | value, t => t = injectivityFormula
  | int n, t => t = .binary .eq (.call intValue [.symbol (intSymbol n)]) (.int n)
  | iden, t => ∃ x y : String, x ≠ y ∧ t = idenAxiom (.plain x .atom) (.plain y .atom)
  | integers, t => ∃ x : String, t = integersAxiom (.plain x .uint)

/-- Does the session remember that it has declared the symbol? -/
def Used (o : OnDemand) : Builtin → Prop
  | value => True
  | int n => n ∈ o.ints
  | iden => o.iden = true
  | integers => o.integers = true

/-- What a session remembers from then on. -/
def remembered (o : OnDemand) : Builtin → OnDemand
  | value => o
  | int n => { o with ints := n :: o.ints }
  | iden => { o with iden := true }
  | integers => { o with integers := true }

variable {b c : Builtin} {o : OnDemand}

theorem used_remembered : c.Used (b.remembered o) ↔ c.Used o ∨ c = b := by
  cases b <;> cases c <;> simp [Used, remembered, or_comm]

theorem symbol_name_injective (h : b.symbol.name = c.symbol.name) : b = c := by
  -- among these names only those of integers have an underscore
  have hint : ∀ {n : Int} {x : String}, '_' ∉ x.toList → (intSymbol n).name ≠ x :=
    fun hx he => hx (he ▸ underscore_mem_intSymbol _)
  cases b <;> cases c
  case int.int m n => rw [intSymbol_name_injective h]
  case value.int => exact absurd h.symm (hint (by decide))
  case iden.int => exact absurd h.symm (hint (by decide))
  case integers.int => exact absurd h.symm (hint (by decide))
  case int.value => exact absurd h (hint (by decide))
  case int.iden => exact absurd h (hint (by decide))
  case int.integers => exact absurd h (hint (by decide))
  case value.value | iden.iden | integers.integers => rfl
  all_goals exact absurd h (by decide)

/-- No such symbol has the name of a signature or a field. -/
theorem slash_not_mem_name (b : Builtin) : '/' ∉ b.symbol.name.toList := by
  cases b with
  | int n => exact slash_not_mem_intSymbol n
  | _ => decide

/-- No such symbol has the name of a function that the counter names. -/
theorem name_ne_numbered (b : Builtin) {h : String} {k : Nat} (hh : h ∈ functionHints) :
    numbered h k ≠ b.symbol.name := by
  intro he
  cases b with
  | int n =>
    obtain ⟨rfl, _⟩ := numbered_eq_intSymbol_iff.1 he
    exact absurd hh (by decide)
  | _ => exact absurd (he ▸ underscore_mem_numbered h k) (by decide)

end Builtin

/-- The symbol is declared at most once, and with its axiom. -/
structure Introduces (p : Program) (b : Builtin) : Prop where
  once : p.names.count b.symbol.name ≤ 1
  defined : b.symbol.name ∈ p.names → p.Declares b.symbol ∧ ∃ a ∈ p.assertions, b.IsAxiom a.formula

end Lowering

/-! ## Supplied programs -/

open Lowering

/-- The program declares what its formulas mention, and it has the symbols that come with an axiom
exactly where they are remembered. -/
structure Program.Supplied (p : Program) (o : OnDemand) : Prop where
  introduced : ∀ b : Builtin, Introduces p b ∧ (b.symbol.name ∈ p.names ↔ b.Used o)
  assertions : ∀ a ∈ p.assertions, a.formula.MadeOf (fun _ => True) p.Declares

namespace Program

variable {p : Program} {o : OnDemand} {f : FunctionSymbol} {b c : Builtin} {a : Assertion}

theorem declares_declare {g : FunctionSymbol} :
    (p.declare f).Declares g ↔ p.Declares g ∨ g = f := by
  simp [Declares, declare]

theorem declares_self : (p.declare f).Declares f := declares_declare.2 (Or.inr rfl)

theorem names_declare : (p.declare f).names = p.names ++ [f.name] := by
  simp [names, declare, FunctionItem.name, FunctionItem.symbol]

namespace Supplied

theorem declares (h : p.Supplied o) (hb : b.Used o) : p.Declares b.symbol :=
  ((h.introduced b).1.defined ((h.introduced b).2.2 hb)).1

/-- A function of any other name may be declared. -/
theorem declare (h : p.Supplied o) (hf : ∀ b : Builtin, f.name ≠ b.symbol.name) :
    (p.declare f).Supplied o := by
  have hnames : ∀ b : Builtin, b.symbol.name ∈ (p.declare f).names ↔ b.symbol.name ∈ p.names := by
    intro b
    rw [names_declare, List.mem_append, List.mem_singleton]
    exact or_iff_left fun he => hf b he.symm
  refine ⟨fun b => ⟨⟨?_, fun hb => ?_⟩, (hnames b).trans (h.introduced b).2⟩, fun a ha => ?_⟩
  · rw [names_declare, List.count_append,
      List.count_eq_zero_of_not_mem (mt List.mem_singleton.1 (hf b).symm)]
    exact (h.introduced b).1.once
  · obtain ⟨hdeclared, hmeans⟩ := (h.introduced b).1.defined ((hnames b).1 hb)
    exact ⟨declares_declare.2 (Or.inl hdeclared), hmeans⟩
  · exact (h.assertions a ha).mono (fun _ => id) fun g hg => declares_declare.2 (Or.inl hg)

/-- A formula may be asserted that mentions what is declared. -/
theorem assert (h : p.Supplied o) (ha : a.formula.MadeOf (fun _ => True) p.Declares) :
    (p.assert a).Supplied o := by
  refine ⟨fun b => ⟨⟨(h.introduced b).1.once, fun hb => ?_⟩, (h.introduced b).2⟩, fun c hc => ?_⟩
  · obtain ⟨hdeclared, c, hc, hmeans⟩ := (h.introduced b).1.defined hb
    exact ⟨hdeclared, c, List.mem_append_left _ hc, hmeans⟩
  · rcases List.mem_append.1 hc with hc | hc
    · exact h.assertions c hc
    · exact List.mem_singleton.1 hc ▸ ha

/-- A symbol that is not remembered may be declared with its axiom, if it is remembered from then
on. -/
theorem introduce (h : p.Supplied o) (hb : ¬b.Used o) (hmeans : b.IsAxiom a.formula)
    (ha : a.formula.MadeOf (fun _ => True) (p.declare b.symbol).Declares) :
    ((p.declare b.symbol).assert a).Supplied (b.remembered o) := by
  have hnew : b.symbol.name ∉ p.names := fun hmem => hb ((h.introduced b).2.1 hmem)
  have hnames : ((p.declare b.symbol).assert a).names = p.names ++ [b.symbol.name] := names_declare
  refine ⟨fun c => ⟨⟨?_, fun hc => ?_⟩, ?_⟩, fun d hd => ?_⟩
  · -- the new name was not there, and any other is there as often as before
    rw [hnames, List.count_append]
    by_cases hcb : b.symbol.name = c.symbol.name
    · rw [← hcb, List.count_eq_zero_of_not_mem hnew, List.count_singleton_self]
    · rw [List.count_eq_zero_of_not_mem (mt List.mem_singleton.1 (Ne.symm hcb))]
      exact (h.introduced c).1.once
  · -- what was declared before keeps its axiom, and the new symbol brings its own
    rw [hnames, List.mem_append, List.mem_singleton] at hc
    rcases hc with hc | hc
    · obtain ⟨hdeclared, d, hd, hmeans⟩ := (h.introduced c).1.defined hc
      exact ⟨declares_declare.2 (Or.inl hdeclared), d, List.mem_append_left _ hd, hmeans⟩
    · obtain rfl := Builtin.symbol_name_injective hc
      exact ⟨declares_declare.2 (Or.inr rfl), a, by simp [Program.assert], hmeans⟩
  · rw [hnames, List.mem_append, List.mem_singleton, Builtin.used_remembered, (h.introduced c).2]
    exact or_congr_right ⟨Builtin.symbol_name_injective, fun he => he ▸ rfl⟩
  · rcases List.mem_append.1 hd with hd | hd
    · exact (h.assertions d hd).mono (fun _ => id) fun g hg => declares_declare.2 (Or.inl hg)
    · exact List.mem_singleton.1 hd ▸ ha

end Supplied

end Program

namespace Lowering

/-! ## Supplied sessions -/

/-- Behind the base program the session's program is supplied, and the symbols of signatures and
fields are declared. -/
structure Session.Supplied (base : Program) (s : Session) : Prop where
  program : (base ++ s.program).Supplied s.onDemand
  signatures : ∀ r f, s.signatures.lookup r = some f → (base ++ s.program).Declares f
  fields : ∀ r f, s.fields.lookup r = some f → (base ++ s.program).Declares f

/-- Is the second session supplied if the first one is, and does it declare all that the first one
declares? -/
structure Supplies (base : Program) (s s' : Session) : Prop where
  supplied : s.Supplied base → s'.Supplied base
  declares : ∀ f, (base ++ s.program).Declares f → (base ++ s'.program).Declares f

variable {base : Program} {s m s' : Session} {f : FunctionSymbol} {t : Term}

theorem Supplies.refl (s : Session) : Supplies base s s := ⟨id, fun _ => id⟩

theorem Supplies.trans (h : Supplies base s m) (h' : Supplies base m s') : Supplies base s s' :=
  ⟨h'.supplied ∘ h.supplied, fun f hf => h'.declares f (h.declares f hf)⟩

/-- A session with the same program, memory and symbols. -/
theorem supplies_of_eq (hprogram : s'.program = s.program) (hdemand : s'.onDemand = s.onDemand)
    (hsignatures : s'.signatures = s.signatures) (hfields : s'.fields = s.fields) :
    Supplies base s s' := by
  refine ⟨fun hs => ⟨?_, ?_, ?_⟩, ?_⟩
  · rw [hprogram, hdemand]
    exact hs.program
  · rw [hprogram, hsignatures]
    exact hs.signatures
  · rw [hprogram, hfields]
    exact hs.fields
  · rw [hprogram]
    exact fun _ => id

theorem supplies_declaring (hf : ∀ b : Builtin, f.name ≠ b.symbol.name) :
    Supplies base s (s.declaring f) := by
  have hprogram : base ++ (s.declaring f).program = (base ++ s.program).declare f :=
    Program.append_declare base s.program f
  have hdeclares : ∀ g, (base ++ s.program).Declares g →
      (base ++ (s.declaring f).program).Declares g := by
    intro g hg
    rw [hprogram]
    exact Program.declares_declare.2 (Or.inl hg)
  refine ⟨fun hs => ⟨?_, fun r g hg => ?_, fun r g hg => ?_⟩, hdeclares⟩
  · rw [hprogram]
    exact hs.program.declare hf
  · exact hdeclares g (hs.signatures r g hg)
  · exact hdeclares g (hs.fields r g hg)

theorem declares_declaring : (base ++ (s.declaring f).program).Declares f := by
  have hprogram : base ++ (s.declaring f).program = (base ++ s.program).declare f :=
    Program.append_declare base s.program f
  rw [hprogram]
  exact Program.declares_self

theorem supplies_asserting {a : Assertion}
    (ha : a.formula.MadeOf (fun _ => True) (base ++ s.program).Declares) :
    Supplies base s (s.asserting a) := by
  refine ⟨fun hs => ⟨?_, hs.signatures, hs.fields⟩, fun _ => id⟩
  have hprogram : base ++ (s.asserting a).program = (base ++ s.program).assert a :=
    Program.append_assert base s.program a
  rw [hprogram]
  exact hs.program.assert ha

/-- A symbol is declared on first use together with its axiom. -/
theorem supplies_introducing {b : Builtin} {a : Assertion} (hs : s.Supplied base)
    (hb : ¬b.Used s.onDemand)
    (hprogram : s'.program = (s.program.declare b.symbol).assert a)
    (hsignatures : s'.signatures = s.signatures) (hfields : s'.fields = s.fields)
    (hdemand : s'.onDemand = b.remembered s.onDemand) (hmeans : b.IsAxiom a.formula)
    (ha : a.formula.MadeOf (fun _ => True) ((base ++ s.program).declare b.symbol).Declares) :
    Supplies base s s' ∧ (base ++ s'.program).Declares b.symbol := by
  have hprogram : base ++ s'.program = ((base ++ s.program).declare b.symbol).assert a := by
    rw [hprogram, Program.append_assert, Program.append_declare]
  have hdeclares : ∀ g, (base ++ s.program).Declares g ∨ g = b.symbol →
      (base ++ s'.program).Declares g := by
    intro g hg
    rw [hprogram]
    exact Program.declares_declare.2 hg
  refine ⟨⟨fun _ => ⟨?_, fun r g hg => ?_, fun r g hg => ?_⟩, fun g hg => hdeclares g (Or.inl hg)⟩,
    hdeclares _ (Or.inr rfl)⟩
  · rw [hprogram, hdemand]
    exact hs.program.introduce hb hmeans ha
  · exact hdeclares g (Or.inl (hs.signatures r g (hsignatures ▸ hg)))
  · exact hdeclares g (Or.inl (hs.fields r g (hfields ▸ hg)))

/-! ## Lowering under this discipline -/

theorem supplied_intConstant {n : Int} (hs : s.Supplied base) (h : Runs (intConstant n) s f s') :
    Supplies base s s' ∧ (base ++ s'.program).Declares (intSymbol n) := by
  obtain ⟨rfl, ⟨hold, rfl⟩ | ⟨hnew, comment, rfl⟩⟩ := intConstant_cases h
  · exact ⟨.refl _, hs.program.declares (b := .int n) hold⟩
  · have hvalue := hs.program.declares (b := .value) trivial
    exact supplies_introducing (b := .int n) hs hnew rfl rfl rfl rfl rfl
      ⟨⟨Program.declares_declare.2 (Or.inl hvalue), Program.declares_self, trivial⟩, trivial⟩

theorem supplied_atomIden (hs : s.Supplied base) (h : Runs atomIden s t s') :
    Supplies base s s' ∧ (base ++ s'.program).Declares idenSymbol := by
  obtain ⟨rfl, ⟨hold, rfl⟩ | ⟨hnew, comment, rfl⟩⟩ := atomIden_cases h
  · exact ⟨.refl _, hs.program.declares (b := .iden) hold⟩
  · refine supplies_introducing (b := .iden) hs (by simpa [Builtin.Used] using hnew) rfl rfl rfl rfl
      ⟨_, _, fun he => ?_, rfl⟩
      ⟨by simp, ⟨⟨trivial, trivial, trivial⟩, Program.declares_self⟩, trivial, trivial⟩
    exact absurd (numbered_injective he) (by simp)

theorem supplied_integers (hs : s.Supplied base) (h : Runs integers s t s') :
    Supplies base s s' ∧ (base ++ s'.program).Declares integersSymbol := by
  obtain ⟨rfl, ⟨hold, rfl⟩ | ⟨hnew, comment, rfl⟩⟩ := integers_cases h
  · exact ⟨.refl _, hs.program.declares (b := .integers) hold⟩
  · exact supplies_introducing (b := .integers) hs (by simpa [Builtin.Used] using hnew) rfl rfl rfl
      rfl ⟨_, rfl⟩ ⟨by simp, ⟨trivial, trivial⟩, Program.declares_self⟩

/-- **What is lowered behind a base program mentions declared functions only.** -/
def supply (base : Program) : Discipline where
  Fine := Session.Supplied base
  Leads := Supplies base
  Named _ _ := True
  Known s := (base ++ s.program).Declares
  Hinted _ := True
  refl := .refl
  trans := .trans
  fine h := h.supplied
  named _ _ := trivial
  known h := h.declares _
  next _ := supplies_of_eq rfl rfl rfl rfl
  asserting _ := supplies_asserting
  counted {s f h} hh hf := by
    have hne : ∀ b : Builtin, f.name ≠ b.symbol.name := fun b => hf ▸ b.name_ne_numbered hh
    have hnext : Supplies base s s.next := supplies_of_eq rfl rfl rfl rfl
    exact ⟨hnext.trans (supplies_declaring hne), declares_declaring⟩
  fresh _ _ := trivial
  own _ := trivial
  copy _ := trivial
  inlined _ _ _ _ _ := trivial
  value hs := hs.program.declares (b := .value) trivial
  signature hs hf := hs.signatures _ _ hf
  field hs hf := hs.fields _ _ hf
  int := supplied_intConstant
  iden := supplied_atomIden
  integers := supplied_integers

instance (base : Program) : (supply base).keeping.AllowsLabels where
  labelled _ h := (supplies_asserting h).trans (supplies_of_eq rfl rfl rfl rfl)

/-! ## Signatures and fields -/

theorem supplies_signature {r : Relational.SigRef} (hf : (base ++ s.program).Declares f) :
    Supplies base s { s with signatures := s.signatures ++ [(r, f)] } := by
  refine ⟨fun hs => ⟨hs.program, fun q g hg => ?_, hs.fields⟩, fun _ => id⟩
  rcases lookup_append hg with hg | ⟨_, rfl⟩
  · exact hs.signatures q g hg
  · exact hf

theorem supplies_field {r : Relational.FieldRef} (hf : (base ++ s.program).Declares f) :
    Supplies base s { s with fields := s.fields ++ [(r, f)] } := by
  refine ⟨fun hs => ⟨hs.program, hs.signatures, fun q g hg => ?_⟩, fun _ => id⟩
  rcases lookup_append hg with hg | ⟨_, rfl⟩
  · exact hs.fields q g hg
  · exact hf

/-- A function with a slash in its name may be declared. -/
theorem supplies_given (hslash : '/' ∈ f.name.toList) : Supplies base s (s.declaring f) :=
  supplies_declaring fun b he => b.slash_not_mem_name (he ▸ hslash)

theorem supplies_declareSignature {r : Relational.Signature}
    (hslash : r.ref.isInt = false → '/' ∈ r.ref.label.toList) (hs : s.Supplied base)
    (h : Runs (declareSignature r) s () s') : Supplies base s s' := by
  rcases declareSignature_cases h with ⟨_, _, m, hints, rfl⟩ | ⟨hint, rfl⟩
  · obtain ⟨hm, hdeclared⟩ := supplied_integers hs hints
    exact hm.trans (supplies_signature hdeclared)
  · have hname : '/' ∈ r.ref.label.toList := hslash hint
    exact (supplies_given (f := .constant _ _) hname).trans (supplies_signature declares_declaring)

theorem supplies_declareField {r : Relational.Field} (h : Runs (declareField r) s () s') :
    Supplies base s s' := by
  obtain rfl := declareField_eq h
  have hname : '/' ∈ (fieldName r.ref).toList := slash_mem_fieldName r.ref
  exact (supplies_given (f := .constant _ _) hname).trans (supplies_field declares_declaring)

/-! ## Specifications -/

theorem supplied_initial (singletonsOnly : Bool) (functions : List Relational.Function) :
    (Session.initial singletonsOnly functions).Supplied {} := by
  have hvalue : ∀ b : Builtin, b.symbol.name ∈ ["intValue"] ↔ b = .value := by
    intro b
    rw [List.mem_singleton]
    exact ⟨Builtin.symbol_name_injective (c := .value), fun he => he ▸ rfl⟩
  refine ⟨⟨fun b => ⟨⟨List.count_le_length, fun hb => ?_⟩, (hvalue b).trans ?_⟩, fun a ha => ?_⟩,
    fun r f hf => ?_, fun r f hf => ?_⟩
  · obtain rfl := (hvalue b).1 hb
    exact ⟨List.mem_cons_self, _, List.mem_cons_self, rfl⟩
  · cases b <;> simp [Builtin.Used, Session.initial, Session.start, Session.asserting]
  · obtain rfl := List.mem_singleton.1 ha
    have hdeclared :
        Program.Declares ({} ++ (Session.initial singletonsOnly functions).program) intValue :=
      List.mem_cons_self
    simp [injectivityFormula, Variable.plain, Variable.MadeOf, Term.AllMadeOf, hdeclared]
  · simp [Session.initial, Session.start, Session.asserting] at hf
  · simp [Session.initial, Session.start, Session.asserting] at hf

/-- A command starts from an empty program behind the program that all commands start from. -/
theorem Session.Supplied.restart (hs : s.Supplied {}) :
    Session.Supplied s.program { s with program := {} } := by
  have hprogram : s.program ++ ({} : Program) = {} ++ s.program := by
    rw [Program.append_empty]
    rfl
  refine ⟨?_, ?_, ?_⟩
  · rw [hprogram]
    exact hs.program
  · rw [hprogram]
    exact hs.signatures
  · rw [hprogram]
    exact hs.fields

/-- A command leaves the session supplied, and what it adds is supplied behind the base program. -/
theorem supplied_command {c : Relational.Command} {delta : Program} (hs : s.Supplied {})
    (h : Runs (command c) s delta s') : s'.Supplied {} ∧ s'.program = s.program ∧
      ∃ o, (s.program ++ delta).Supplied o := by
  obtain ⟨m, hm, rfl⟩ := kept_command (K := (supply s.program).keeping) (fun _ _ => trivial) hs.restart h
  obtain ⟨t, k, _, _, ht, _, _, rfl⟩ := runs_command h
  obtain ⟨_, _, hext⟩ := closed_formula ht
  -- program and memory are put back, and no formula touches the symbols of signatures and fields
  have heq : Supplies {} s { k with program := s.program, onDemand := s.onDemand } :=
    supplies_of_eq rfl rfl hext.signatures hext.fields
  exact ⟨heq.supplied hs, rfl, _, (hm.supplied hs.restart).program⟩

theorem supplied_commands : ∀ {cs : List Relational.Command} {s s' : Session}
    {lowered : List (Relational.Command × Program)}, s.Supplied {} →
    Runs (cs.mapM fun c => do return (c, ← command c)) s lowered s' →
    ∀ c delta, (c, delta) ∈ lowered → ∃ o, (s.program ++ delta).Supplied o
  | [], s, s', lowered, _, h => by
    obtain ⟨rfl, rfl⟩ := runs_pure.1 h
    simp
  | c :: cs, s, s', lowered, hs, h => by
    simp only [List.mapM_cons, runs_bind, runs_pure] at h
    obtain ⟨_, _, ⟨delta, m, hdelta, rfl, rfl⟩, rest, _, hrest, rfl, rfl⟩ := h
    obtain ⟨hm, hprogram, hsupplied⟩ := supplied_command hs hdelta
    intro c' delta' hc
    rcases List.mem_cons.1 hc with hc | hc
    · obtain ⟨rfl, rfl⟩ := Prod.mk.inj hc
      exact hsupplied
    · rw [← hprogram]
      exact supplied_commands hm hrest c' delta' hc

/-- Signatures, fields and facts leave a supplied session. -/
theorem supplied_lower {spec : Relational.Specification} {singletonsOnly : Bool} {enc : Encoding}
    (h : spec.lower singletonsOnly = .ok enc)
    (hslash : ∀ r ∈ spec.signatures, r.ref.isInt = false → '/' ∈ r.ref.label.toList) :
    ∃ m m', m.Supplied {} ∧ m.program = enc.base ∧
      Runs (spec.commands.mapM fun c => do return (c, ← command c)) m enc.commands m' := by
  obtain ⟨m₁, m₂, m₃, m₄, hsignatures, hfields, hfacts, hcommands, hbase, _⟩ := runs_lower h
  have hs := supplied_initial singletonsOnly spec.functions
  -- signatures and fields are declared one by one before anything is asserted of them
  obtain ⟨k, hdeclare, hk⟩ := kept_signatures (K := (supply {}).keeping) hsignatures
  have hdeclared := hdeclare.forM (P := fun s s' => s.Supplied {} → s'.Supplied {})
    (fun _ => id) (fun h h' => h' ∘ h)
    fun r hr _ _ h hs => (supplies_declareSignature (hslash r hr) hs h).supplied hs
  have hs := hdeclared hs
  have hs := (hk hs).supplied hs
  obtain ⟨k, hdeclare, hk⟩ := kept_fields (K := (supply {}).keeping) (fun _ _ _ _ _ _ => trivial) hfields
  have hdeclared := hdeclare.forM (P := Supplies {}) .refl .trans fun g _ _ _ h =>
    h.forM (P := Supplies {}) .refl .trans fun f _ _ _ h => supplies_declareField h
  have hs := hdeclared.supplied hs
  have hs := (hk hs).supplied hs
  have hfacts := kept_forM (K := (supply {}).keeping)
    (fun f _ {_ _} hs h => kept_fact (fun _ _ => trivial) hs h) hs hfacts
  exact ⟨m₃, m₄, hfacts.supplied hs, (hbase.trans (runs_commands hcommands).1).symm, hcommands⟩

/-- **Every script declares what it uses, and what comes with an axiom once.** In the base program
alone as well as followed by what a command adds, each function that an assertion mentions is
declared, with the sorts that it is mentioned with. The value function, the constants of integers,
the identity relation and the set of all integers are declared at most once, and each has its axiom
where it is declared. -/
theorem declares_used {spec : Relational.Specification} {singletonsOnly : Bool} {enc : Encoding}
    (h : spec.lower singletonsOnly = .ok enc)
    (hslash : ∀ r ∈ spec.signatures, r.ref.isInt = false → '/' ∈ r.ref.label.toList) {p : Program}
    (hp : p = enc.base ∨ ∃ c delta, (c, delta) ∈ enc.commands ∧ p = enc.base ++ delta) :
    (∀ a ∈ p.assertions, ∀ f ∈ a.formula.symbols, p.Declares f) ∧
      ∀ b : Builtin, Introduces p b := by
  obtain ⟨m, m', hs, hbase, hcommands⟩ := supplied_lower h hslash
  obtain ⟨o, hp⟩ : ∃ o, p.Supplied o := by
    rcases hp with rfl | ⟨c, delta, hc, rfl⟩
    · exact ⟨_, hbase ▸ hs.program⟩
    · exact hbase ▸ supplied_commands hs hcommands c delta hc
  exact ⟨fun a ha f hf => (hp.assertions a ha).of_mem_symbols hf, fun b => (hp.introduced b).1⟩

/-- A specification whose fact mentions the integer 1 and whose command mentions 1 and 2. -/
def oneThenTwo : Relational.Specification where
  signatures := [⟨⟨0, "this/A", .atom, false⟩, .top, false, none, {}⟩]
  facts := [⟨"F", .binary .eq (.number 1) (.number 1), {}⟩]
  commands := [⟨"C", .binary .eq (.number 1) (.number 2), false, {}⟩]

/-- The command's script declares 1 for the fact and 2 for the command, each of them once. -/
theorem declares_used_oneThenTwo : ∃ enc c delta, oneThenTwo.lower true = .ok enc ∧
    (c, delta) ∈ enc.commands ∧ (enc.base ++ delta).Declares (intSymbol 1) ∧
    (enc.base ++ delta).Declares (intSymbol 2) ∧
      ∀ b : Builtin, Introduces (enc.base ++ delta) b := by
  have hmentions : (match oneThenTwo.lower true with
      | .ok enc => enc.commands.any fun q => q.2.assertions.any fun a =>
          decide (intSymbol 1 ∈ a.formula.symbols) && decide (intSymbol 2 ∈ a.formula.symbols)
      | .error _ => false) = true := by decide +kernel
  split at hmentions
  · rename_i enc h
    obtain ⟨⟨c, delta⟩, hc, hmentions⟩ := List.any_eq_true.1 hmentions
    obtain ⟨a, ha, hmentions⟩ := List.any_eq_true.1 hmentions
    obtain ⟨hone, htwo⟩ := Bool.and_eq_true_iff.1 hmentions
    obtain ⟨hdeclares, hintroduces⟩ := declares_used h (by decide) (Or.inr ⟨c, delta, hc, rfl⟩)
    have ha : a ∈ (enc.base ++ delta).assertions := List.mem_append_right _ ha
    exact ⟨enc, c, delta, h, hc, hdeclares a ha _ (of_decide_eq_true hone),
      hdeclares a ha _ (of_decide_eq_true htwo), hintroduces⟩
  · simp at hmentions

end Lowering

end RelSmt
