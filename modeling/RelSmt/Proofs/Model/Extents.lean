import RelSmt.Proofs.Evaluation.Sorts
import RelSmt.Proofs.Model.Instance
import RelSmt.Proofs.Model.Resolved

/-!
# What is read off any model

A model that is read may define its names as it likes. Its definitions keep to the sorts that they
declare, so evaluating a constant gives a set of the declared sort or a fault of evaluation. The
value function is the one function that an instance applies itself, and it is applied as its first
definition declares it: this is the only way in which reading an instance can fail for a definition.

Constants are looked up by name. The sort that the encoding gives a constant is never compared with
the sort of the definition, so the extents have the declared columns only where the two agree.
-/

namespace RelSmt

variable {text : String} {m : Model}

/-! ## Calls of a model keep sorts -/

namespace Term

/-- A definition that is read fits the scope of its model. -/
theorem fits_of_model (hread : Reply.model text = .ok m) {d : FunctionDefinition}
    (hd : d ∈ m.functions) : d.Fits (Scope.ofModel m) := by
  have hresolved := Reply.isResolved_of_model hread d hd
  -- a function that the body mentions is hidden by no parameter
  have hmentioned : ∀ f ∈ d.body.symbols, ∀ args, ∃ e, e.symbol = f ∧
      ((Scope.ofModel m).ofCall d args).get? f.name = some (.definition e) := fun f hf args => by
    obtain ⟨e, -, hsymbol, hget⟩ :=
      Reply.get?_ofCall_of_mentioned hread hd hf (Scope.root_ofModel m) args
    exact ⟨e, hsymbol, hget⟩
  refine ⟨hresolved.built, hresolved.sort, fun args hsorts => ⟨fun v hv b hget => ?_,
    fun f hf b hget => ?_, fun f hf e he => ?_⟩⟩
  · have hinputs : List.Forall₂ (fun (v : Variable) u => u.sort = v.sort) d.inputs args := by
      rw [sorts_eq_map, FunctionDefinition.symbol, ← List.forall₂_eq_eq_eq,
        List.forall₂_map_left_iff, List.forall₂_map_right_iff] at hsorts
      exact hsorts.flip
    obtain ⟨front, back, as, u, bs, hsplit, rfl, hlength, hu, hback⟩ :=
      (hresolved.free v hv).exists_split hinputs
    rw [Scope.get?_ofCall_split hsplit hlength hback, Option.some.injEq] at hget
    exact hget ▸ hu
  · obtain ⟨e, rfl, hget'⟩ := hmentioned f (mem_symbols_of_mem_standalone hf) args
    obtain rfl := Option.some.inj (hget.symm.trans hget')
    rfl
  · obtain ⟨e', rfl, hget⟩ := hmentioned f hf args
    obtain rfl := Binding.definition.inj
      (Option.some.inj ((Scope.definition?_eq_some.1 he).symm.trans hget))
    rfl

theorem isSorted_ofModel (hread : Reply.model text = .ok m) : (Scope.ofModel m).IsSorted := by
  have hfits : (Scope.ofModel m).Resolves fun _ b => b.Fits (Scope.ofModel m) := by
    intro name b hget
    rw [Scope.get?_ofModel_eq, Option.map_eq_some_iff] at hget
    obtain ⟨d, hd, rfl⟩ := hget
    exact .definition (fits_of_model hread (Model.mem_of_last? hd).1)
  constructor <;> rwa [Scope.root_ofModel]

/-- **Calls of a model that is read keep sorts**, however many may be in progress. -/
theorem keepsSorts_of_model (hread : Reply.model text = .ok m) (depth : Nat)
    {d : FunctionDefinition} (hd : d ∈ m.functions) :
    KeepsSorts (callerWithin depth (Scope.ofModel m)) d := by
  refine keepsSorts_callerWithin depth (isSorted_ofModel hread).outermost d ?_
  rw [Scope.root_ofModel]
  exact fits_of_model hread hd

/-- **A constant has a value of the sort of its last definition**, whatever sort it is used with. -/
theorem yields_evaluate_constant (hread : Reply.model text = .ok m) {f : FunctionSymbol}
    {d : FunctionDefinition} (hd : m.last? f.name = some d) :
    Yields (fun v => v.OfSort d.output ∧ d.inputs = []) (evaluate (Scope.ofModel m) f.term) := by
  have hget : (Scope.ofModel m).get? f.name = some (.definition d) := by
    rw [Scope.get?_ofModel_eq, hd, Option.map_some]
  rw [evaluate, evaluateWithin_eq, FunctionSymbol.term, evaluateWith, evaluateName_definition hget]
  split
  · rename_i hvalue
    have hnil : d.inputs = [] := List.isEmpty_iff.1 hvalue
    have hkeeps := keepsSorts_of_model hread ((Scope.ofModel m).size + callAllowance)
      (Model.mem_of_last? hd).1
    have hcall := yields_apply hkeeps (List.forall_mem_nil _) (by rw [FunctionDefinition.symbol, hnil]; rfl)
    exact hcall.imp fun v hv => ⟨hv, hnil⟩
  · exact .fault rfl

/-- A function that takes some literals has a value of the sort of its last definition for them. -/
theorem yields_evaluate_call (hread : Reply.model text = .ok m) {f : FunctionSymbol}
    {d : FunctionDefinition} (hd : m.last? f.name = some d) {cs : List Literal}
    (hcs : ∀ c ∈ cs, (Term.literal c).Built) (hsorts : sorts (cs.map .literal) = d.symbol.inputs) :
    Yields (OfSort d.output) (evaluate (Scope.ofModel m) (.call f (cs.map .literal))) := by
  have hget : (Scope.ofModel m).definition? f.name = some d := by
    rw [Scope.definition?_ofModel_eq, hd]
  have hkeeps := keepsSorts_of_model hread ((Scope.ofModel m).size + callAllowance)
    (Model.mem_of_last? hd).1
  rw [evaluate, evaluateWithin_eq, evaluateWith_call_literals hget]
  exact yields_apply hkeeps (List.forall_mem_map.2 hcs) hsorts

end Term

/-! ## Faults -/

namespace Instance

/-- The value function as an instance applies it: by the first definition of its name. -/
def valueSymbol? (m : Model) : Option FunctionSymbol :=
  (m.function? Lowering.intValue.name).map FunctionDefinition.symbol

/-- The value of an atom that stands for an integer. -/
def atomValue (m : Model) (f : FunctionSymbol) (name : String) : Checked Term := do
  Term.evaluate (Scope.ofModel m) (← f.apply [.literal (.element name .uint)])

/-- Is this a fault of evaluation, or of applying the value function to an atom? -/
def Blames (m : Model) (e : Fault) : Prop :=
  e.kind = .evaluation ∨ ∃ f name, valueSymbol? m = some f ∧ atomValue m f name = .error e

/-- An atom that stands for an integer is shown by its value. -/
theorem atomName_uint (m : Model) (f : FunctionSymbol) (name : String) :
    atomName (Scope.ofModel m) (some f) (.literal (.element name .uint)) = (do
      match (← atomValue m f name).int? with
      | some n => return toString n
      | none => .error (.malformedModel (.notIntegerValue name))) := by
  unfold atomName atomValue
  exact (bind_assoc _ _ _).symm

theorem blames_of_yields {α : Type} {P : α → Prop} {x : Checked α} (h : Yields P x) :
    Meets (Blames m) P x :=
  h.mono fun _ => .inl

theorem meets_atomName (m : Model) (c : Literal) :
    Meets (Blames m) (fun _ => True) (atomName (Scope.ofModel m) (valueSymbol? m) (.literal c)) := by
  cases c with
  | bool b => exact .fault (.inl rfl)
  | int n => exact .fault (.inl rfl)
  | element name s =>
    rcases hf : valueSymbol? m with _ | f
    · exact .value trivial
    cases s with
    | uint =>
      have hvalue : Meets (Blames m) (fun _ => True) (atomValue m f name) := by
        cases h : atomValue m f name with
        | error e => exact .fault (.inr ⟨f, name, hf, h⟩)
        | ok v => exact .value trivial
      rw [atomName_uint]
      refine hvalue.bind fun v _ => ?_
      split
      · exact .value trivial
      · exact .fault (.inl rfl)
    | _ => exact .value trivial

theorem meets_tuples (hread : Reply.model text = .ok m) (f : FunctionSymbol) (label : String) :
    Meets (Blames m) (fun _ => True) (tuples (Scope.ofModel m) (valueSymbol? m) f label) := by
  have hrow : ∀ u : Term, Meets (Blames m) (fun _ => True)
      (do (← u.atoms).mapM (atomName (Scope.ofModel m) (valueSymbol? m))) := fun u =>
    (blames_of_yields (Term.yields_atoms u)).bind fun _ ⟨cs, hcs⟩ => hcs ▸
      (Meets.mapM (List.forall_mem_map.2 fun c _ => meets_atomName m c)).imp fun _ _ => trivial
  rw [tuples, Scope.definition?_ofModel_eq]
  cases hd : m.last? f.name with
  | none => exact .fault (.inl rfl)
  | some d =>
    exact (blames_of_yields (Term.yields_evaluate_constant hread hd)).bind fun v _ =>
      (blames_of_yields (Term.yields_elements v)).bind fun us _ =>
        (Meets.mapM fun u _ => hrow u).imp fun _ _ => trivial

/-- **Reading an instance fails for evaluation, or for the value function.** -/
theorem meets_ofModel (hread : Reply.model text = .ok m) (enc : Encoding) :
    Meets (Blames m) (fun _ => True) (ofModel enc m) :=
  (Meets.mapM (Q := fun _ => True) fun p _ =>
    (meets_tuples hread p.2 p.1.label).bind fun _ _ => .value trivial).bind fun _ _ =>
      (Meets.mapM (Q := fun _ => True) fun p _ =>
        (meets_tuples hread p.2 p.1.label).bind fun _ _ => .value trivial).bind fun _ _ => .value trivial

/-- A function that is declared on atoms for integers is applied to them without fault. -/
theorem yields_atomValue (hread : Reply.model text = .ok m) {f : FunctionSymbol} {d : FunctionDefinition}
    (hd : m.last? f.name = some d) (hinputs : d.symbol.inputs = [.uint]) (hf : f.inputs = [.uint])
    (name : String) : Yields (fun _ => True) (atomValue m f name) := by
  have happly : f.apply [.literal (.element name .uint)]
      = .ok (.call f ([.element name .uint].map .literal)) := FunctionSymbol.apply_eq_ok.2 ⟨hf.symm, rfl⟩
  have hcall : Yields (fun t => t = .call f ([.element name .uint].map .literal))
      (f.apply [.literal (.element name .uint)]) := happly ▸ .value rfl
  have hatom : ∀ c ∈ [Literal.element name .uint], (Term.literal c).Built :=
    List.forall_mem_singleton.2 rfl
  rw [atomValue]
  refine hcall.bind fun t ht => ?_
  rw [ht]
  exact (Term.yields_evaluate_call hread hd hatom hinputs.symm).imp fun _ _ => trivial

/-- A misapplied function is a fault of its definition. -/
theorem kind_of_apply_error {f : FunctionSymbol} {ts : List Term} {e : Fault} (h : f.apply ts = .error e) :
    e.kind = .definition := by
  unfold FunctionSymbol.apply Term.mkCall at h
  repeat' split at h
  all_goals cases h <;> rfl

theorem exists_of_valueSymbol? {f : FunctionSymbol} (h : valueSymbol? m = some f) :
    ∃ d ∈ m.functions, d.name = Lowering.intValue.name ∧ d.symbol = f := by
  obtain ⟨d, hd, hf⟩ := Option.map_eq_some_iff.1 h
  exact ⟨d, List.mem_of_find?_eq_some hd, beq_iff_eq.1 (by simpa using List.find?_some hd), hf⟩

/-- **Faults of reconstruction are faults of evaluation**, if the value function is declared on the
atoms that stand for integers. Where no name is defined twice there is exactly one other fault, that
of applying the value function to such an atom though it is declared otherwise. -/
theorem kind_of_ofModel_error (hread : Reply.model text = .ok m) {enc : Encoding} {e : Fault}
    (h : ofModel enc m = .error e) :
    ((∀ d ∈ m.functions, d.name = Lowering.intValue.name → d.symbol.inputs = [.uint]) →
      e.kind = .evaluation) ∧
    ((m.functions.map FunctionDefinition.name).Nodup → (e.kind ≠ .evaluation ↔
      ∃ d ∈ m.functions, d.name = Lowering.intValue.name ∧
        ∃ name, d.symbol.apply [.literal (.element name .uint)] = .error e)) := by
  have hblames : Blames m e := (h ▸ meets_ofModel hread enc).of_error
  refine ⟨fun hall => ?_, fun hnodup => ⟨fun hkind => ?_, ?_⟩⟩
  · rcases hblames with hkind | ⟨f, name, hf, herror⟩
    · exact hkind
    obtain ⟨d, hd, hname, rfl⟩ := exists_of_valueSymbol? hf
    obtain ⟨d', hlast⟩ := Model.exists_last? hd
    obtain ⟨hd', hname'⟩ := Model.mem_of_last? hlast
    have hvalue := yields_atomValue hread (f := d.symbol) hlast (hall d' hd' (hname'.trans hname))
      (hall d hd hname) name
    exact (herror ▸ hvalue).of_error
  · obtain ⟨f, name, hf, herror⟩ := hblames.resolve_left hkind
    obtain ⟨d, hd, hname, rfl⟩ := exists_of_valueSymbol? hf
    refine ⟨d, hd, hname, name, ?_⟩
    cases happly : d.symbol.apply [.literal (.element name .uint)] with
    | error e' =>
      rw [atomValue, happly] at herror
      exact herror
    | ok t =>
      -- the function is declared as it is applied, so the fault would be one of evaluation
      have hinputs : d.symbol.inputs = [.uint] := (FunctionSymbol.apply_eq_ok.1 happly).1.symm
      obtain ⟨d', hlast⟩ := Model.exists_last? hd
      obtain ⟨hd', hname'⟩ := Model.mem_of_last? hlast
      obtain rfl : d' = d := List.inj_on_of_nodup_map hnodup hd' hd hname'
      have hvalue := yields_atomValue hread (f := d'.symbol) hlast hinputs hinputs name
      exact absurd (herror ▸ hvalue).of_error hkind
  · rintro ⟨d, _, _, name, happly⟩ hkind
    exact Fault.Class.noConfusion ((kind_of_apply_error happly).symm.trans hkind)

/-- A set of one tuple of constants reads as it is written. -/
theorem term_singleton_tuple {env : Environment} {xs : List SExpr} {cs : List Literal} (hne : cs ≠ [])
    (hcs : ∀ c ∈ cs, (Term.literal c).sort.isAtomic = true)
    (hxs : List.Forall₂ (fun x c => Reply.term x env = .ok (.literal c)) xs cs) :
    Reply.term (.list [.symbol "singleton", .list (.symbol "mkTuple" :: xs)]) env
      = .ok (.unary .singleton (Term.tupleOf cs)) := by
  have htuple : Reply.term (.list (.symbol "mkTuple" :: xs)) env = .ok (Term.tupleOf cs) :=
    Reply.term_list_eq_ok.2 ⟨_, _, rfl, Reply.application_eq_ok.2 (.nary rfl
      (List.forall₂_map_right_iff.2 hxs) (by simpa using hne) (List.forall_mem_map.2 hcs))⟩
  exact Reply.term_list_eq_ok.2 ⟨_, _, rfl, Reply.application_eq_ok.2 (.unary rfl htuple
    (Term.unarySort_singleton.2 (Term.isTuple_tupleOf cs)))⟩

/-- A signature of integers with one atom, and a value function that is declared on other atoms. -/
def misdeclaredItems : SExpr := .list
  [.list [.symbol "define-fun", .symbol "this/A", .list [],
      .list [.symbol "Set", .list [.symbol "Tuple", .symbol "UInt"]],
      .list [.symbol "singleton", .list [.symbol "mkTuple", .symbol "@uc_UInt_0"]]],
    .list [.symbol "define-fun", .symbol "intValue", .list [.list [.symbol "x", .symbol "Atom"]],
      .symbol "Int", .number 3]]

/-- That as a text. -/
def misdeclaredText : String := misdeclaredItems.text

/-- What is read from that text. -/
def misdeclaredModel : Model :=
  ⟨[], [⟨"this/A", [], .uints, .unary .singleton (Term.tupleOf [.element "@uc_UInt_0" .uint])⟩,
    ⟨"intValue", [.plain "x" .atom], .int, .int 3⟩]⟩

/-- An encoding of the signature alone. -/
def countedInts : Encoding :=
  ⟨{}, [(⟨0, "this/A", .int, false⟩, ⟨"this/A", [], .uints⟩)], [], []⟩

theorem model_misdeclaredText : Reply.model misdeclaredText = .ok misdeclaredModel := by
  have hclean : misdeclaredItems.Clean := by
    simp only [misdeclaredItems, SExpr.Clean, SExpr.AllClean]
    decide
  have hitems : SExpr.readAll misdeclaredText = .ok [misdeclaredItems] := (SExpr.reads_text hclean).readAll
  have hatom : Reply.term (.symbol "@uc_UInt_0")
      (Reply.bindVariables (Reply.modelScope misdeclaredModel) [])
      = .ok (.literal (.element "@uc_UInt_0" .uint)) := by
    rw [Reply.term_symbol]
    rfl
  have hthree : Reply.term (.number 3)
      (Reply.bindVariables (Reply.modelScope misdeclaredModel) [.plain "x" .atom]) = .ok (.int 3) :=
    Reply.term_number_eq_ok.2 ⟨by decide, rfl⟩
  exact Reply.model_eq_ok.2 ⟨_, [.function ⟨⟨"this/A", [], .uints⟩, [],
        .list [.symbol "singleton", .list [.symbol "mkTuple", .symbol "@uc_UInt_0"]]⟩,
      .function ⟨⟨"intValue", [.atom], .int⟩, [.plain "x" .atom], .number 3⟩],
    hitems, .cons rfl (.cons rfl .nil), rfl,
    .cons (Reply.define_eq_ok.2 ⟨_, term_singleton_tuple (by simp) (by simp [Term.sort, SmtSort.isAtomic])
      (.cons hatom .nil), rfl, rfl⟩) (.cons (Reply.define_eq_ok.2 ⟨_, hthree, rfl, rfl⟩) .nil)⟩

/-- That model makes reading an instance fail for a definition. -/
theorem kind_of_ofModel_error_misdeclared : Reply.model misdeclaredText = .ok misdeclaredModel ∧
    ofModel countedInts misdeclaredModel = .error (.sortMismatch (.argument "intValue" .uint .atom)) ∧
    (Fault.sortMismatch (.argument "intValue" .uint .atom)).kind ≠ .evaluation := by
  have hfault : ofModel countedInts misdeclaredModel
      = .error (.sortMismatch (.argument "intValue" .uint .atom)) := rfl
  have hnames : (misdeclaredModel.functions.map FunctionDefinition.name).Nodup := by decide
  refine ⟨model_misdeclaredText, hfault, ?_⟩
  refine ((kind_of_ofModel_error model_misdeclaredText hfault).2 hnames).2 ?_
  exact ⟨_, List.mem_cons_of_mem _ List.mem_cons_self, rfl, "@uc_UInt_0", rfl⟩

/-! ## Tuples -/

/-- How the tuples of a constant are read off a model: the last definition of its name has no
parameters and lists some tuples of elements, each once and all of the sort that the definition
declares, and they are shown element by element. -/
structure Shows (m : Model) (f : FunctionSymbol) (d : FunctionDefinition) (rows : List (List Literal))
    (shown : List (List String)) : Prop where
  last : m.last? f.name = some d
  constant : d.inputs = []
  lists : ∃ v, Term.evaluate (Scope.ofModel m) f.term = .ok v ∧
    v.elements = .ok (rows.map Term.tupleOf)
  nodup : rows.Nodup
  elements : ∀ row ∈ rows, ∀ c ∈ row, (Term.literal c).isElement = true
  sort : ∀ row ∈ rows, d.output = .relation (row.map fun c => (Term.literal c).sort)
  names : List.Forall₂ (List.Forall₂ fun c name =>
    atomName (Scope.ofModel m) (valueSymbol? m) (.literal c) = .ok name) rows shown

/-- Tuples that are shown are tuples of elements. -/
theorem exists_rows {nameOf : Term → Checked String} {us : List Term} {shown : List (List String)}
    (h : List.Forall₂ (fun (u : Term) names => (do (← u.atoms).mapM nameOf) = .ok names) us shown) :
    ∃ rows : List (List Literal), us = rows.map Term.tupleOf ∧
      (∀ row ∈ rows, ∀ c ∈ row, (Term.literal c).isElement = true) ∧
      List.Forall₂ (List.Forall₂ fun c name => nameOf (.literal c) = .ok name) rows shown := by
  induction h with
  | nil => exact ⟨[], rfl, List.forall_mem_nil _, .nil⟩
  | cons hu _ ih =>
    obtain ⟨rows, rfl, helements, hnames⟩ := ih
    obtain ⟨ts, hts, hmap⟩ := Checked.bind_eq_ok.1 hu
    obtain ⟨cs, rfl, rfl, hcs⟩ := Term.atoms_eq_ok.1 hts
    rw [Checked.mapM_eq_ok, List.forall₂_map_left_iff] at hmap
    exact ⟨cs :: rows, rfl, List.forall_mem_cons.2 ⟨hcs, helements⟩, .cons hmap hnames⟩

theorem exists_shows (hread : Reply.model text = .ok m) {f : FunctionSymbol} {label : String}
    {shown : List (List String)}
    (h : tuples (Scope.ofModel m) (valueSymbol? m) f label = .ok shown) :
    ∃ d rows, Shows m f d rows shown := by
  rw [tuples, Scope.definition?_ofModel_eq] at h
  cases hlast : m.last? f.name with
  | none =>
    rw [hlast] at h
    cases h
  | some d =>
    rw [hlast] at h
    obtain ⟨v, hv, h⟩ := Checked.bind_eq_ok.1 h
    obtain ⟨us, hus, hmap⟩ := Checked.bind_eq_ok.1 h
    obtain ⟨rows, rfl, helements, hnames⟩ := exists_rows (Checked.mapM_eq_ok.1 hmap)
    obtain ⟨hsort, hconstant⟩ := (hv ▸ Term.yields_evaluate_constant hread hlast).of_ok
    refine ⟨d, rows, hlast, hconstant, ⟨v, hv, hus⟩, ?_, helements, fun row hrow => ?_, hnames⟩
    · obtain ⟨ls, _, hdups⟩ := Checked.bind_eq_ok.1 hus
      have hapart := pairwise_eraseDups ls
      rw [Checked.pure_eq_ok.1 hdups, List.pairwise_map] at hapart
      refine hapart.imp fun {as bs} hne he => ?_
      rw [Term.tupleOf_beq, he, beq_self_eq_true] at hne
      cases hne
    · obtain ⟨_, _, hset⟩ := Term.forall_of_elements hsort.built hus _ (List.mem_map_of_mem hrow)
      rw [← hsort.sort, hset, Term.sort_tupleOf]
      rfl

section Declared

variable {f : FunctionSymbol} {d : FunctionDefinition} {rows : List (List Literal)}
  {shown : List (List String)}

/-- Tuples of a constant that is defined at its declared sort have the declared columns. -/
theorem Shows.map_sort (h : Shows m f d rows shown) {columns : List SmtSort}
    (hdeclared : d.output = .relation columns) :
    ∀ row ∈ rows, (row.map fun c => (Term.literal c).sort) = columns := by
  intro row hrow
  exact (SmtSort.tuple.inj (SmtSort.set.inj ((h.sort row hrow).symm.trans hdeclared)))

theorem Shows.length (h : Shows m f d rows shown) {columns : List SmtSort}
    (hdeclared : d.output = .relation columns) : ∀ t ∈ shown, t.length = columns.length := by
  intro t ht
  obtain ⟨row, hrow, hnames⟩ := exists_mem_of_forall₂ h.names ht
  rw [← hnames.length_eq, ← h.map_sort hdeclared row hrow, List.length_map]

/-- Rows of one entry are their entries, one by one. -/
theorem exists_singletons {R : Literal → String → Prop} (h : List.Forall₂ (List.Forall₂ R) rows shown)
    (hlength : ∀ row ∈ rows, row.length = 1) :
    ∃ cs : List Literal, rows = cs.map (fun c => [c]) ∧ List.Forall₂ R cs shown.flatten := by
  induction h with
  | nil => exact ⟨[], rfl, .nil⟩
  | cons hrow _ ih =>
    obtain ⟨hone, hrest⟩ := List.forall_mem_cons.1 hlength
    obtain ⟨cs, rfl, hcs⟩ := ih hrest
    obtain ⟨c, rfl⟩ := List.length_eq_one_iff.1 hone
    exact ⟨c :: cs, rfl, List.rel_append hrow hcs⟩

/-- Tuples of a constant with one declared column are atoms of that column's sort, one by one. -/
theorem Shows.exists_atoms (h : Shows m f d rows shown) {s : SmtSort}
    (hdeclared : d.output = .relation [s]) : ∃ cs : List Literal, rows = cs.map (fun c => [c]) ∧
      (∀ c ∈ cs, (Term.literal c).isElement = true ∧ (Term.literal c).sort = s) ∧
      List.Forall₂ (fun c name => atomName (Scope.ofModel m) (valueSymbol? m) (.literal c) = .ok name)
        cs shown.flatten := by
  have hsorts := h.map_sort hdeclared
  obtain ⟨cs, rfl, hnames⟩ := exists_singletons h.names fun row hrow => by
    rw [← List.length_map fun c => (Term.literal c).sort, hsorts row hrow]
    rfl
  refine ⟨cs, rfl, fun c hc => ?_, hnames⟩
  have hmem : [c] ∈ cs.map (fun c => [c]) := List.mem_map_of_mem hc
  exact ⟨h.elements _ hmem c List.mem_cons_self, List.singleton_inj.1 (hsorts _ hmem)⟩

/-- Atoms go by their names, unless they stand for integers. -/
theorem eq_element_of_atomName {c : Literal} {name : String}
    (hc : (Term.literal c).isElement = true) (hs : (Term.literal c).sort = .atom)
    (h : atomName (Scope.ofModel m) (valueSymbol? m) (.literal c) = .ok name) :
    c = .element name .atom := by
  cases c with
  | element n s =>
    obtain rfl : s = .atom := hs
    have hname : atomName (Scope.ofModel m) (valueSymbol? m) (.literal (.element n .atom)) = .ok n := by
      cases valueSymbol? m <;> rfl
    rw [Except.ok.inj (hname.symm.trans h)]
  | _ => cases hc

/-- So they are listed once by name. -/
theorem nodup_of_atomName {cs : List Literal} {names : List String} (hnodup : cs.Nodup)
    (hcs : ∀ c ∈ cs, (Term.literal c).isElement = true ∧ (Term.literal c).sort = .atom)
    (h : List.Forall₂ (fun c name =>
      atomName (Scope.ofModel m) (valueSymbol? m) (.literal c) = .ok name) cs names) : names.Nodup := by
  have heq : cs = names.map (Literal.element · .atom) := by
    rw [← List.forall₂_eq_eq_eq, List.forall₂_map_right_iff]
    exact ((List.forall₂_and_left _ _).2 ⟨hcs, h⟩).imp fun c name ⟨⟨hc, hs⟩, hname⟩ =>
      eq_element_of_atomName hc hs hname
  exact .of_map _ (heq ▸ hnodup)

end Declared

/-- Does the extent of a signature show what the model says of its constant? Where the constant is
defined at its declared sort, that is one atom of the signature's column after the other. -/
structure SignatureFits (m : Model) (p : Relational.SigRef × FunctionSymbol) (x : SignatureExtent) :
    Prop where
  label : x.label = p.1.label
  shows : ∃ d rows shown, Shows m p.2 d rows shown ∧ x.atoms = shown.flatten ∧
    (d.output = p.2.output → (∃ cs : List Literal, rows = cs.map (fun c => [c]) ∧
      (∀ c ∈ cs, (Term.literal c).sort = Lowering.columnSort p.1.column) ∧
      List.Forall₂ (fun c name => atomName (Scope.ofModel m) (valueSymbol? m) (.literal c) = .ok name)
        cs x.atoms) ∧ (p.1.column = .atom → x.atoms.Nodup))

/-- Does the extent of a field show what the model says of its constant? Where the constant is
defined at its declared sort, its tuples have an entry for each column of the field. -/
structure FieldFits (m : Model) (p : Relational.FieldRef × FunctionSymbol) (x : FieldExtent) : Prop where
  owner : x.owner = p.1.owner.label
  label : x.label = p.1.label
  shows : ∃ d rows, Shows m p.2 d rows x.tuples ∧
    (d.output = p.2.output → ∀ t ∈ x.tuples, t.length = p.1.columns.length)

theorem signatureFits {p : Relational.SigRef × FunctionSymbol} (hread : Reply.model text = .ok m)
    (hp : p.2.output = Lowering.relationSort [p.1.column]) {shown : List (List String)}
    (h : tuples (Scope.ofModel m) (valueSymbol? m) p.2 p.1.label = .ok shown) :
    SignatureFits m p ⟨p.1.label, shown.flatten⟩ := by
  obtain ⟨d, rows, hshows⟩ := exists_shows hread h
  refine ⟨rfl, d, rows, shown, hshows, rfl, fun hdeclared => ?_⟩
  obtain ⟨cs, rfl, hcs, hnames⟩ := hshows.exists_atoms (hdeclared.trans hp)
  refine ⟨⟨cs, rfl, fun c hc => (hcs c hc).2, hnames⟩, fun hcolumn => ?_⟩
  rw [hcolumn] at hcs
  exact nodup_of_atomName hshows.nodup.of_map hcs hnames

theorem fieldFits {p : Relational.FieldRef × FunctionSymbol} (hread : Reply.model text = .ok m)
    (hp : p.2.output = Lowering.relationSort p.1.columns) {shown : List (List String)}
    (h : tuples (Scope.ofModel m) (valueSymbol? m) p.2 p.1.label = .ok shown) :
    FieldFits m p ⟨p.1.owner.label, p.1.label, shown⟩ := by
  obtain ⟨d, rows, hshows⟩ := exists_shows hread h
  refine ⟨rfl, rfl, d, rows, hshows, fun hdeclared t ht => ?_⟩
  rw [hshows.length (hdeclared.trans hp) t ht, List.length_map]

/-- **An instance fits the encoding as far as the model defines constants at their declared sorts.**
It has an extent for each signature and each field, in order, which shows the tuples that the last
definition of the constant lists, each once and element by element. -/
theorem fits_of_ofModel {spec : Relational.Specification} {singletonsOnly : Bool} {enc : Encoding}
    (hlower : spec.lower singletonsOnly = .ok enc) (hread : Reply.model text = .ok m) {i : Instance}
    (h : ofModel enc m = .ok i) :
    List.Forall₂ (SignatureFits m) enc.signatures i.signatures ∧
      List.Forall₂ (FieldFits m) enc.fields i.fields := by
  obtain ⟨signatures, hsignatures, h⟩ := Checked.bind_eq_ok.1 h
  obtain ⟨fields, hfields, h⟩ := Checked.bind_eq_ok.1 h
  obtain rfl := Checked.pure_eq_ok.1 h
  constructor
  · refine ((List.forall₂_and_left _ _).2 ⟨fun _ h => h, Checked.mapM_eq_ok.1 hsignatures⟩).imp ?_
    rintro p x ⟨hp, hx⟩
    obtain ⟨shown, hshown, hx⟩ := Checked.bind_eq_ok.1 hx
    rw [← Checked.pure_eq_ok.1 hx]
    exact signatureFits hread (by rw [Lowering.symbol_of_mem_signatures hlower hp]; rfl) hshown
  · refine ((List.forall₂_and_left _ _).2 ⟨fun _ h => h, Checked.mapM_eq_ok.1 hfields⟩).imp ?_
    rintro p x ⟨hp, hx⟩
    obtain ⟨shown, hshown, hx⟩ := Checked.bind_eq_ok.1 hx
    rw [← Checked.pure_eq_ok.1 hx]
    exact fieldFits hread (by rw [(Lowering.symbol_of_mem_fields hlower hp).1]; rfl) hshown

/-- A signature that is defined as a set of pairs, and a field that is defined as declared. -/
def pairedItems : SExpr := .list
  [.list [.symbol "define-fun", .symbol "this/A", .list [],
      .list [.symbol "Set", .list [.symbol "Tuple", .symbol "Atom", .symbol "Atom"]],
      .list [.symbol "singleton", .list [.symbol "mkTuple", .symbol "@uc_Atom_0", .symbol "@uc_Atom_1"]]],
    .list [.symbol "define-fun", .symbol "this/A/f", .list [],
      .list [.symbol "Set", .list [.symbol "Tuple", .symbol "Atom", .symbol "UInt"]],
      .list [.symbol "singleton", .list [.symbol "mkTuple", .symbol "@uc_Atom_0", .symbol "@uc_UInt_2"]]],
    .list [.symbol "define-fun", .symbol "intValue", .list [.list [.symbol "x", .symbol "UInt"]],
      .symbol "Int", .number 7]]

/-- That as a text. -/
def pairedText : String := pairedItems.text

/-- What is read from that text. -/
def pairedModel : Model :=
  ⟨[], [⟨"this/A", [], .relation [.atom, .atom], .unary .singleton
        (Term.tupleOf [.element "@uc_Atom_0" .atom, .element "@uc_Atom_1" .atom])⟩,
    ⟨"this/A/f", [], .relation [.atom, .uint], .unary .singleton
        (Term.tupleOf [.element "@uc_Atom_0" .atom, .element "@uc_UInt_2" .uint])⟩,
    ⟨"intValue", [.plain "x" .uint], .int, .int 7⟩]⟩

theorem model_pairedText : Reply.model pairedText = .ok pairedModel := by
  have hclean : pairedItems.Clean := by
    simp only [pairedItems, SExpr.Clean, SExpr.AllClean]
    decide
  have hitems : SExpr.readAll pairedText = .ok [pairedItems] := (SExpr.reads_text hclean).readAll
  let env := Reply.bindVariables (Reply.modelScope pairedModel) []
  have hfirst : Reply.term (.symbol "@uc_Atom_0") env = .ok (.literal (.element "@uc_Atom_0" .atom)) := by
    rw [Reply.term_symbol]
    rfl
  have hsecond : Reply.term (.symbol "@uc_Atom_1") env = .ok (.literal (.element "@uc_Atom_1" .atom)) := by
    rw [Reply.term_symbol]
    rfl
  have hnumber : Reply.term (.symbol "@uc_UInt_2") env = .ok (.literal (.element "@uc_UInt_2" .uint)) := by
    rw [Reply.term_symbol]
    rfl
  have hseven : Reply.term (.number 7)
      (Reply.bindVariables (Reply.modelScope pairedModel) [.plain "x" .uint]) = .ok (.int 7) :=
    Reply.term_number_eq_ok.2 ⟨by decide, rfl⟩
  have hpairs := term_singleton_tuple (by simp) (by simp [Term.sort, SmtSort.isAtomic, SmtSort.atom])
    (.cons hfirst (.cons hsecond .nil))
  have hfield := term_singleton_tuple (by simp) (by simp [Term.sort, SmtSort.isAtomic, SmtSort.atom])
    (.cons hfirst (.cons hnumber .nil))
  exact Reply.model_eq_ok.2 ⟨_, [.function ⟨⟨"this/A", [], .relation [.atom, .atom]⟩, [],
        .list [.symbol "singleton", .list [.symbol "mkTuple", .symbol "@uc_Atom_0", .symbol "@uc_Atom_1"]]⟩,
      .function ⟨⟨"this/A/f", [], .relation [.atom, .uint]⟩, [],
        .list [.symbol "singleton", .list [.symbol "mkTuple", .symbol "@uc_Atom_0", .symbol "@uc_UInt_2"]]⟩,
      .function ⟨⟨"intValue", [.uint], .int⟩, [.plain "x" .uint], .number 7⟩],
    hitems, .cons rfl (.cons rfl (.cons rfl .nil)), rfl,
    .cons (Reply.define_eq_ok.2 ⟨_, hpairs, rfl, rfl⟩) (.cons (Reply.define_eq_ok.2 ⟨_, hfield, rfl, rfl⟩)
      (.cons (Reply.define_eq_ok.2 ⟨_, hseven, rfl, rfl⟩) .nil))⟩

/-- The pair shows up as two atoms of the signature. -/
theorem fits_pairedModel : ∃ (enc : Encoding) (i : Instance), countedAtoms.lower true = .ok enc ∧
    Reply.model pairedText = .ok pairedModel ∧ ofModel enc pairedModel = .ok i ∧
    i = ⟨[⟨"this/A", ["@uc_Atom_0", "@uc_Atom_1"]⟩], [⟨"this/A", "f", [["@uc_Atom_0", "7"]]⟩]⟩ ∧
    List.Forall₂ (SignatureFits pairedModel) enc.signatures i.signatures ∧
      List.Forall₂ (FieldFits pairedModel) enc.fields i.fields := by
  have hok : (match countedAtoms.lower true with
      | .ok _ => true
      | .error _ => false) = true := by decide +kernel
  split at hok
  · rename_i enc h
    obtain ⟨hsignatures, hfields, _⟩ := Lowering.constants_lower h
    have hread : ofModel enc pairedModel = .ok
        ⟨[⟨"this/A", ["@uc_Atom_0", "@uc_Atom_1"]⟩], [⟨"this/A", "f", [["@uc_Atom_0", "7"]]⟩]⟩ := by
      rw [ofModel, hsignatures, hfields]
      rfl
    exact ⟨enc, _, h, model_pairedText, hread, rfl, fits_of_ofModel h model_pairedText hread⟩
  · simp at hok

end Instance

end RelSmt
