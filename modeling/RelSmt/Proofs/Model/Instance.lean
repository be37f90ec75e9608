import RelSmt.Instance
import RelSmt.Proofs.Evaluation.Scope
import RelSmt.Proofs.Evaluation.Value
import RelSmt.Proofs.Lowering.Constants
import RelSmt.Proofs.Model.Constant

/-!
# Instances are read off as they were written

A model may say which tuples each constant of an encoding holds, as a set in normal form, and which
integers atoms stand for, as a choice between solver constants. Writing such a model, reading it and
reading an instance off it gives these tuples back, in their order (`ofModel_text`). Tuples are
given here by the numbers of their elements; the sorts are those of the columns.
-/

namespace RelSmt

/-- The constants of signatures and fields, in the order of the encoding. -/
def Encoding.constants (enc : Encoding) : List FunctionSymbol :=
  enc.signatures.map Prod.snd ++ enc.fields.map Prod.snd

/-! ## Tables of values -/

/-- The integers that atoms stand for. The first entry of an atom counts. The value function calls
its argument by the name given here. -/
structure ValueTable where
  parameter : String
  entries : List (Nat × Int)
  otherwise : Int

namespace ValueTable

/-- The integer that an atom stands for. -/
def value (vs : ValueTable) (i : Nat) : Int := (vs.entries.lookup i).getD vs.otherwise

/-- The argument of the value function. -/
def argument (vs : ValueTable) : Variable := .plain vs.parameter .uint

/-- The choice between entries. -/
def choice (x : Variable) (otherwise : Int) : List (Nat × Int) → Term
  | [] => .int otherwise
  | (i, n) :: entries =>
    .ite (.binary .eq x.term (.literal (solverConstant .uint i))) (.int n)
      (choice x otherwise entries)

/-- The definition of the value function. -/
def definition (vs : ValueTable) : FunctionDefinition :=
  ⟨Lowering.intValue.name, [vs.argument], .int, choice vs.argument vs.otherwise vs.entries⟩

/-- Can the table be written? The argument's name must not hide what the entries mention. -/
structure Writable (vs : ValueTable) : Prop where
  clean : Symbol.Clean vs.parameter
  word : ¬ Reply.IsTruthValue vs.parameter
  apart : ∀ e ∈ vs.entries, vs.parameter ≠ constantName .uint e.1
  range : ∀ n ∈ vs.otherwise :: vs.entries.map Prod.snd, -2 ^ 63 < n ∧ n < 2 ^ 63

/-- How an instance shows an element. -/
def shown (vs : ValueTable) (s : SmtSort) (i : Nat) : String :=
  if s = .uint then toString (vs.value i) else constantName s i

end ValueTable

/-! ## Extents -/

/-- Which tuples each constant holds, by the numbers of their elements. -/
abbrev Extents := FunctionSymbol → List (List Nat)

/-- The elements of a tuple. -/
def rowLiterals (f : FunctionSymbol) (row : List Nat) : List Literal :=
  List.zipWith solverConstant f.output.columns row

/-- Does each constant hold tuples of its columns, none of them twice? -/
structure Extents.Fit (rows : Extents) (enc : Encoding) : Prop where
  nodup : ∀ f ∈ enc.constants, (rows f).Nodup
  length : ∀ f ∈ enc.constants, ∀ row ∈ rows f, row.length = f.output.columns.length

/-- Can the names of the constants be written, and are they apart from each other and from all other
names of the model? -/
structure Encoding.NamesApart (enc : Encoding) (rows : Extents) (vs : ValueTable) : Prop where
  nodup : (enc.constants.map FunctionSymbol.name).Nodup
  clean : ∀ f ∈ enc.constants, Symbol.Clean f.name
  unmarked : ∀ f ∈ enc.constants, Position.isMarked f.name = false
  value : ∀ f ∈ enc.constants, f.name ≠ Lowering.intValue.name
  elements : ∀ f ∈ enc.constants, ∀ g ∈ enc.constants, ∀ row ∈ rows g,
    f.name ∉ List.zipWith constantName g.output.columns row
  entries : ∀ f ∈ enc.constants, ∀ e ∈ vs.entries, f.name ≠ constantName .uint e.1

/-- Does the model define each constant as a set of its tuples, the value function by the table, and
nothing else? The definitions may stand in any order, and the sets may be united in any way. -/
structure Model.Describes (m : Model) (enc : Encoding) (rows : Extents) (vs : ValueTable) : Prop where
  sorts : ∀ s ∈ m.sorts, s.ReadsBack
  functions : ∃ body : FunctionSymbol → Term,
    (∀ f ∈ enc.constants, Term.Lists f.output (body f) ((rows f).map (rowLiterals f))) ∧
    m.functions.Perm (enc.constants.map (fun f => ⟨f.name, [], f.output, body f⟩) ++ [vs.definition])

/-- The instance that extents and values make. -/
def Instance.ofExtents (enc : Encoding) (rows : Extents) (vs : ValueTable) : Instance where
  signatures := enc.signatures.map fun (s, f) =>
    ⟨s.label, ((rows f).map (List.zipWith vs.shown f.output.columns)).flatten⟩
  fields := enc.fields.map fun (r, f) =>
    ⟨r.owner.label, r.label, (rows f).map (List.zipWith vs.shown f.output.columns)⟩

/-! ## Constants and their columns -/

/-- A relation over atoms of both kinds, with at least one column. -/
structure FunctionSymbol.IsExtent (f : FunctionSymbol) : Prop where
  inputs : f.inputs = []
  output : f.output = .relation f.output.columns
  ne_nil : f.output.columns ≠ []
  columns : ∀ s ∈ f.output.columns, s = .atom ∨ s = .uint

theorem isExtent_of_isRelation {f : FunctionSymbol} {cs : List Relational.Column} (hne : cs ≠ [])
    (h : Lowering.Session.IsRelation f cs) : f.IsExtent := by
  have hcolumns : f.output.columns = cs.map Lowering.columnSort := by rw [h.2]; rfl
  refine ⟨h.1, by rw [hcolumns]; exact h.2, by simpa [hcolumns] using hne, ?_⟩
  rw [hcolumns, List.forall_mem_map]
  rintro (_ | _) _
  · exact Or.inl rfl
  · exact Or.inr rfl

theorem isExtent_of_lower {spec : Relational.Specification} {singletonsOnly : Bool} {enc : Encoding}
    (h : spec.lower singletonsOnly = .ok enc) : ∀ f ∈ enc.constants, f.IsExtent := fun _ hf => by
  obtain ⟨cs, hne, hcs⟩ := Lowering.exists_columns_of_mem_constants h hf
  exact isExtent_of_isRelation hne hcs

theorem FunctionSymbol.IsExtent.readsBack {f : FunctionSymbol} (hf : f.IsExtent) :
    f.output.ReadsBack := by
  rw [hf.output]
  refine (SmtSort.ReadsBack.tuple (fun s hs => ?_) hf.ne_nil).set rfl
  rcases hf.columns s hs with rfl | rfl
  · exact SmtSort.readsBack_atom
  · exact SmtSort.readsBack_uint

/-- The elements of a tuple are solver constants of the columns. -/
theorem exists_of_mem_rowLiterals {f : FunctionSymbol} {row : List Nat} {c : Literal}
    (hc : c ∈ rowLiterals f row) : ∃ s ∈ f.output.columns, ∃ i, c = solverConstant s i ∧
      constantName s i ∈ List.zipWith constantName f.output.columns row := by
  rw [rowLiterals, ← List.map_uncurry_zip_eq_zipWith] at hc
  obtain ⟨⟨s, i⟩, hmem, rfl⟩ := List.mem_map.1 hc
  refine ⟨s, (List.of_mem_zip hmem).1, i, rfl, ?_⟩
  rw [← List.map_uncurry_zip_eq_zipWith]
  exact List.mem_map.2 ⟨(s, i), hmem, rfl⟩

/-- Tuples of different numbers are different. -/
theorem rowLiterals_injective {f : FunctionSymbol} {row row' : List Nat}
    (hrow : row.length = f.output.columns.length) (hrow' : row'.length = f.output.columns.length)
    (h : rowLiterals f row = rowLiterals f row') : row = row' := by
  have key : ∀ (ss : List SmtSort) (is js : List Nat), is.length = ss.length →
      js.length = ss.length → List.zipWith solverConstant ss is = List.zipWith solverConstant ss js →
      is = js := by
    intro ss
    induction ss with
    | nil =>
      intro is js his hjs _
      rw [List.eq_nil_of_length_eq_zero his, List.eq_nil_of_length_eq_zero hjs]
    | cons s ss ih =>
      rintro (_ | ⟨i, is⟩) (_ | ⟨j, js⟩) his hjs h
      · rfl
      · simp at his
      · simp at hjs
      · obtain ⟨hhead, htail⟩ := List.cons.inj h
        rw [solverConstant_injective hhead,
          ih is js (Nat.succ.inj his) (Nat.succ.inj hjs) htail]
  exact key _ _ _ hrow hrow' h

theorem Extents.Fit.nodup_rowLiterals {rows : Extents} {enc : Encoding} (h : rows.Fit enc)
    {f : FunctionSymbol} (hf : f ∈ enc.constants) : ((rows f).map (rowLiterals f)).Nodup :=
  (h.nodup f hf).map_on fun _ hrow _ hrow' =>
    rowLiterals_injective (h.length f hf _ hrow) (h.length f hf _ hrow')

/-! ## The model is read back -/

/-- A set in normal form reads back where its elements do. -/
theorem Term.Lists.readsBack {env : Environment} {s : SmtSort} {t : Term} {xs : List (List Literal)}
    (h : Term.Lists s t xs) (hs : s.ReadsBack)
    (hxs : ∀ cs ∈ xs, ∀ c ∈ cs, (Term.literal c).ReadsBack env) : t.ReadsBack env := by
  induction h with
  | empty hset => exact Term.readsBack_emptySet hs hset
  | @single cs ht _ =>
    have helements : ∀ t ∈ cs.map Term.literal, t.ReadsBack env :=
      List.forall_mem_map.2 fun c hc => hxs cs (by simp) c hc
    obtain ⟨hne, _, hfit⟩ := ht
    exact (Term.ReadsBack.nary helements hne hfit).unary
      (Term.unarySort_singleton.2 (Term.isTuple_tupleOf cs))
  | @union l r xs ys hl hr ihl ihr =>
    rw [List.forall_mem_append] at hxs
    exact Term.ReadsBack.binary trivial (ihl hxs.1) (ihr hxs.2)
      (Term.binarySort_set.2 ⟨hl.sort ▸ hl.isSet, hl.sort.trans hr.sort.symm⟩)

namespace ValueTable

variable {vs : ValueTable} {env : Environment}

theorem sort_choice {x : Variable} {otherwise : Int} : ∀ {entries : List (Nat × Int)},
    (choice x otherwise entries).sort = .int
  | [] => rfl
  | _ :: _ => rfl

/-- An integer within the range of values reads back. -/
theorem readsBack_int_of_range {n : Int} (h : -2 ^ 63 < n ∧ n < 2 ^ 63) :
    (Term.int n).ReadsBack env :=
  Term.readsBack_int (by rw [Reply.maxInt]; omega)

theorem readsBack_choice {x : Variable} {otherwise : Int} (hx : x.term.ReadsBack env)
    (hsort : x.sort = .uint) (hotherwise : -2 ^ 63 < otherwise ∧ otherwise < 2 ^ 63) :
    ∀ {entries : List (Nat × Int)},
    (∀ e ∈ entries, env.get? (constantName .uint e.1) = none ∧ -2 ^ 63 < e.2 ∧ e.2 < 2 ^ 63) →
    (choice x otherwise entries).ReadsBack env
  | [], _ => readsBack_int_of_range hotherwise
  | (i, n) :: entries, h => by
    obtain ⟨⟨hget, hn⟩, hrest⟩ := List.forall_mem_cons.1 h
    have helement := readsBack_solverConstant (Or.inr rfl) hget
    refine Term.ReadsBack.ite (Term.ReadsBack.binary trivial hx helement ?_)
      (readsBack_int_of_range hn) (readsBack_choice hx hsort hotherwise hrest) rfl
      sort_choice.symm
    exact Term.binarySort_eq.2 hsort

/-- The definition of the value function reads back where its elements are not hidden. -/
theorem Writable.readsBack (h : vs.Writable) {root : Environment}
    (hroot : ∀ e ∈ vs.entries, root.get? (constantName .uint e.1) = none) :
    vs.definition.ReadsBack root where
  name := show Symbol.Clean Lowering.intValue.name by decide
  unmarked := show Position.isMarked Lowering.intValue.name = false by decide
  inputs := List.forall_mem_singleton.2
    (Variable.readsBack_plain h.clean SmtSort.readsBack_uint)
  output := SmtSort.readsBack_int
  body := by
    change (choice vs.argument vs.otherwise vs.entries).ReadsBack
      (root.enter.put vs.parameter vs.argument.term)
    have hargument : vs.argument.term.ReadsBack (root.enter.put vs.parameter vs.argument.term) :=
      Term.readsBack_variable h.clean h.word (Scoped.get?_put_self ..)
    refine readsBack_choice hargument rfl
      (h.range _ List.mem_cons_self) fun e he => ⟨?_, ?_⟩
    · rw [Scoped.get?_put_of_ne _ _ (Ne.symm (h.apart e he)), Scoped.get?_enter]
      exact hroot e he
    · exact h.range _ (List.mem_cons_of_mem _ (List.mem_map_of_mem he))
  sort := sort_choice

end ValueTable

section Reading

variable {m : Model} {enc : Encoding} {rows : Extents} {vs : ValueTable}

/-- The names that a model of extents defines. -/
theorem Model.Describes.names (h : m.Describes enc rows vs) :
    (m.functions.map FunctionDefinition.name).Perm
      (enc.constants.map FunctionSymbol.name ++ [Lowering.intValue.name]) := by
  obtain ⟨body, _, hperm⟩ := h.functions
  have hnames := hperm.map FunctionDefinition.name
  rwa [List.map_append, List.map_map] at hnames

theorem Model.Describes.nodup (h : m.Describes enc rows vs) (hnames : enc.NamesApart rows vs) :
    (m.functions.map FunctionDefinition.name).Nodup := by
  rw [h.names.nodup_iff, List.nodup_append]
  refine ⟨hnames.nodup, List.nodup_singleton _, fun a ha b hb => ?_⟩
  obtain ⟨f, hf, rfl⟩ := List.mem_map.1 ha
  rw [List.mem_singleton.1 hb]
  exact hnames.value f hf

/-- Names of elements are names of nothing else. -/
theorem get?_modelScope {name : String} (h : m.Describes enc rows vs)
    (hconstants : ∀ f ∈ enc.constants, f.name ≠ name) (hvalue : name ≠ Lowering.intValue.name) :
    (Reply.modelScope m).get? name = none := by
  have hmem : name ∉ m.functions.map FunctionDefinition.name := by
    rw [h.names.mem_iff, List.mem_append, List.mem_singleton, not_or, List.mem_map]
    exact ⟨fun ⟨f, hf, he⟩ => hconstants f hf he, hvalue⟩
  rw [Reply.modelScope, Reply.symbolScope, Scoped.get?_putAll_of_notMem, Scoped.get?_empty]
  rwa [List.map_map, List.map_map]

/-- **A model of extents is read back from its text.** -/
theorem Model.Describes.read (h : m.Describes enc rows vs) (hnames : enc.NamesApart rows vs)
    (hvs : vs.Writable) (hextent : ∀ f ∈ enc.constants, f.IsExtent) :
    Reply.model m.text = .ok m := by
  have hget : ∀ s i, (∀ f ∈ enc.constants, f.name ≠ constantName s i) →
      (Reply.modelScope m).get? (constantName s i) = none := fun s i hne =>
    get?_modelScope h hne (Ne.symm (ne_constantName (by decide)))
  obtain ⟨body, hbody, hperm⟩ := h.functions
  refine Reply.model_text h.sorts fun d hd => ?_
  rw [hperm.mem_iff, List.mem_append, List.mem_map, List.mem_singleton] at hd
  rcases hd with ⟨f, hf, rfl⟩ | rfl
  · have hcolumns := hextent f hf
    refine ⟨hnames.clean f hf, hnames.unmarked f hf, by simp, hcolumns.readsBack, ?_,
      (hbody f hf).sort⟩
    refine (hbody f hf).readsBack hcolumns.readsBack (List.forall_mem_map.2 fun row hrow c hc => ?_)
    obtain ⟨s, hs, i, rfl, hmem⟩ := exists_of_mem_rowLiterals hc
    refine readsBack_solverConstant (hcolumns.columns s hs) ?_
    refine (Scoped.get?_enter _ _).trans (hget s i fun g hg he => ?_)
    exact hnames.elements g hg f hf row hrow (he ▸ hmem)
  · exact hvs.readsBack fun e he => hget _ _ fun f hf => hnames.entries f hf e he

end Reading

/-! ## The instance is read off the model -/

section Naming

variable {vs : ValueTable} {scope : Scope} {i : Nat}

/-- Where the condition has a value, a choice is the part that it selects. -/
theorem Term.evaluateWith_ite {call : Caller} {c y n : Term} {b : Bool}
    (hc : Term.evaluateWith call scope c = .ok (.bool b)) : Term.evaluateWith call scope (.ite c y n)
      = if b then Term.evaluateWith call scope y else Term.evaluateWith call scope n := by
  rw [Term.evaluateWith, hc]
  cases b <;> rfl

/-- The choice between entries takes the first one of the atom. -/
theorem ValueTable.evaluateWith_choice {call : Caller} {x : Variable} {otherwise : Int}
    (hx : scope.get? x.name = some (.value (.literal (solverConstant .uint i)))) :
    ∀ entries : List (Nat × Int), Term.evaluateWith call scope (choice x otherwise entries)
      = .ok (.int ((entries.lookup i).getD otherwise))
  | [] => by
    rw [choice, Term.int, Term.evaluateWith]
    rfl
  | (j, n) :: entries => by
    have hname : Term.evaluateWith call scope x.term
        = .ok (.literal (solverConstant .uint i)) := by
      rw [Variable.term, Term.evaluateWith, Term.evaluateName, hx]
    have helement : Term.evaluateWith call scope (.literal (solverConstant .uint j))
        = .ok (.literal (solverConstant .uint j)) := by rw [Term.evaluateWith]
    -- constants of the solver differ where their numbers do, so the condition compares these
    have hcondition : Term.evaluateWith call scope
        (.binary .eq x.term (.literal (solverConstant .uint j))) = .ok (.bool (i == j)) := by
      rw [Term.evaluateWith, hname, helement]
      change Except.ok (Term.bool (_ == _)) = _
      rw [Term.literal_beq]
      have hinjective : solverConstant .uint i = solverConstant .uint j ↔ i = j :=
        ⟨solverConstant_injective, congrArg _⟩
      rw [Bool.eq_iff_iff.2 ((beq_iff_eq.trans hinjective).trans beq_iff_eq.symm)]
    rw [choice, Term.evaluateWith_ite hcondition, List.lookup_cons]
    cases i == j with
    | true =>
      change Term.evaluateWith call scope (.literal (.int n)) = _
      rw [Term.evaluateWith]
      rfl
    | false => exact evaluateWith_choice hx entries

/-- Calling the value function on an atom gives the integer that the table has for it. -/
theorem ValueTable.evaluate_call
    (hdef : scope.definition? Lowering.intValue.name = some vs.definition) :
    Term.evaluate scope (.call vs.definition.symbol [.literal (solverConstant .uint i)])
      = .ok (.int (vs.value i)) := by
  obtain ⟨depth, hdepth⟩ := Term.exists_evaluate_eq scope
    (.call vs.definition.symbol [.literal (solverConstant .uint i)])
  have hdef : scope.definition? vs.definition.symbol.name = some vs.definition := hdef
  rw [hdepth, Term.evaluateWith, hdef]
  refine Checked.bind_eq_ok.2 ⟨_, Term.evaluateAll_literals [solverConstant .uint i], ?_⟩
  refine Term.evaluateWithin_of_forall (fun call => evaluateWith_choice ?_ vs.entries) _
  exact Scoped.get?_put_self ..

/-- Atoms are shown by their names, and those that stand for integers by their values. -/
theorem atomName_solverConstant {s : SmtSort} (hs : s = .atom ∨ s = .uint)
    (hdef : scope.definition? Lowering.intValue.name = some vs.definition) :
    Instance.atomName scope (some vs.definition.symbol) (.literal (solverConstant s i))
      = .ok (vs.shown s i) := by
  rcases hs with rfl | rfl
  · rfl
  · have happly : vs.definition.symbol.apply [.literal (solverConstant .uint i)]
        = .ok (.call vs.definition.symbol [.literal (solverConstant .uint i)]) :=
      FunctionSymbol.apply_eq_ok.2 ⟨rfl, rfl⟩
    rw [solverConstant, Instance.atomName]
    refine Checked.bind_eq_ok.2 ⟨_, happly, Checked.bind_eq_ok.2
      ⟨_, ValueTable.evaluate_call hdef, ?_⟩⟩
    rw [ValueTable.shown, if_pos rfl]
    rfl

end Naming

section Reconstruction

variable {m : Model} {enc : Encoding} {rows : Extents} {vs : ValueTable} {scope : Scope}

/-- The atoms of a written tuple are taken apart. -/
theorem atoms_tupleOf_rowLiterals {f : FunctionSymbol} {row : List Nat} :
    (Term.tupleOf (rowLiterals f row)).atoms = .ok ((rowLiterals f row).map .literal) := by
  refine if_pos (List.all_eq_true.2 (List.forall_mem_map.2 fun c hc => ?_))
  obtain ⟨s, _, i, rfl, _⟩ := exists_of_mem_rowLiterals hc
  rfl

/-- The tuples of a constant that is defined as a set of tuples are these, each once. -/
theorem tuples_of_lists {f : FunctionSymbol} {body : Term} {label : String} (hf : f.IsExtent)
    (hnodup : ((rows f).map (rowLiterals f)).Nodup)
    (hbody : Term.Lists f.output body ((rows f).map (rowLiterals f)))
    (hget : scope.get? f.name = some (.definition ⟨f.name, [], f.output, body⟩))
    (hdef : scope.definition? Lowering.intValue.name = some vs.definition) :
    Instance.tuples scope (some vs.definition.symbol) f label
      = .ok ((rows f).map (List.zipWith vs.shown f.output.columns)) := by
  have hdefinition : scope.definition? f.name = some ⟨f.name, [], f.output, body⟩ := by
    rw [Scope.definition?, hget]
  have hset : Term.evaluate scope f.term = .ok body := by
    obtain ⟨depth, hdepth⟩ := Term.exists_evaluate_eq scope f.term
    rw [hdepth, FunctionSymbol.term, Term.evaluateWith, Term.evaluateName, hget]
    exact Term.evaluateWithin_of_forall (fun _ => hbody.evaluateWith) _
  have helements := hbody.elements_of_nodup hnodup
  rw [Instance.tuples, hdefinition]
  refine Checked.bind_eq_ok.2 ⟨body, hset, Checked.bind_eq_ok.2 ⟨_, helements, ?_⟩⟩
  rw [Checked.mapM_eq_ok, List.map_map, List.forall₂_map_left_iff, List.forall₂_map_right_iff,
    List.forall₂_same]
  intro row _
  refine Checked.bind_eq_ok.2 ⟨_, atoms_tupleOf_rowLiterals, ?_⟩
  rw [Checked.mapM_eq_ok, List.forall₂_map_left_iff, rowLiterals,
    ← List.map_uncurry_zip_eq_zipWith, ← List.map_uncurry_zip_eq_zipWith,
    List.forall₂_map_left_iff, List.forall₂_map_right_iff, List.forall₂_same]
  intro p hp
  exact atomName_solverConstant (hf.columns _ (List.of_mem_zip hp).1) hdef

/-- Tuples of solver constants are well sorted. -/
theorem wellSorted_rowLiterals {f : FunctionSymbol} {row : List Nat} (hf : f.IsExtent)
    (hrow : row.length = f.output.columns.length) :
    (Term.tupleOf (rowLiterals f row)).WellSorted := by
  refine ⟨fun hnil => hf.ne_nil ?_, Term.wellSortedAll_iff.2 ?_, ?_⟩
  · have hlength := congrArg List.length hnil
    simpa [rowLiterals, hrow] using hlength
  all_goals
    refine List.forall_mem_map.2 fun c hc => ?_
    obtain ⟨s, hs, i, rfl, _⟩ := exists_of_mem_rowLiterals hc
    rcases hf.columns s hs with rfl | rfl <;> rfl

theorem sort_rowLiterals {f : FunctionSymbol} {row : List Nat}
    (hrow : row.length = f.output.columns.length) :
    (Term.tupleOf (rowLiterals f row)).sort = .tuple f.output.columns := by
  have key : ∀ (ss : List SmtSort) (is : List Nat), is.length = ss.length →
      (List.zipWith solverConstant ss is).map (fun c => (Term.literal c).sort) = ss := by
    intro ss
    induction ss with
    | nil => simp
    | cons s ss ih =>
      rintro (_ | ⟨i, is⟩) h
      · simp at h
      · exact congrArg (s :: ·) (ih is (Nat.succ.inj h))
  rw [Term.sort_tupleOf, rowLiterals, key _ _ hrow]

/-- Every assignment of tuples and values is described by some model. -/
theorem exists_describes (hextent : ∀ f ∈ enc.constants, f.IsExtent) (hrows : rows.Fit enc) :
    ∃ m : Model, m.Describes enc rows vs := by
  have hset : ∀ f, ∃ body, f ∈ enc.constants →
      Term.Lists f.output body ((rows f).map (rowLiterals f)) := by
    intro f
    by_cases hf : f ∈ enc.constants
    · obtain ⟨body, _, hbody⟩ := Term.exists_ofElements (e := .tuple f.output.columns)
        (List.forall_mem_map.2 fun row hrow =>
          ⟨wellSorted_rowLiterals (hextent f hf) (hrows.length f hf row hrow),
            sort_rowLiterals (hrows.length f hf row hrow)⟩)
      exact ⟨body, fun _ => (hextent f hf).output ▸ hbody⟩
    · exact ⟨default, fun h => absurd h hf⟩
  choose body hbody using hset
  exact ⟨⟨[], _⟩, by simp, body, hbody, .refl _⟩

theorem Model.Describes.function?_intValue (h : m.Describes enc rows vs)
    (hnames : enc.NamesApart rows vs) :
    m.function? Lowering.intValue.name = some vs.definition := by
  obtain ⟨body, _, hperm⟩ := h.functions
  have hmem : vs.definition ∈ m.functions := hperm.mem_iff.2 (by simp)
  have hsome : (m.functions.find? fun d => d.name == Lowering.intValue.name).isSome :=
    List.find?_isSome.2 ⟨vs.definition, hmem, beq_self_eq_true Lowering.intValue.name⟩
  obtain ⟨d, hfind⟩ := Option.isSome_iff_exists.1 hsome
  have hname : (d.name == Lowering.intValue.name) = true := by simpa using List.find?_some hfind
  have hd : d = vs.definition := List.inj_on_of_nodup_map (h.nodup hnames)
    (List.mem_of_find?_eq_some hfind) hmem (beq_iff_eq.1 hname)
  exact hd ▸ hfind

/-- **An instance is read off a model as the model was written**: the signatures and fields of a
specification with their tuples, in order and each once, and integers by their values. -/
theorem Instance.ofModel_text {spec : Relational.Specification} {singletonsOnly : Bool}
    (hlower : spec.lower singletonsOnly = .ok enc) (hnames : enc.NamesApart rows vs)
    (hrows : rows.Fit enc) (hvs : vs.Writable) (hm : m.Describes enc rows vs) :
    (Reply.model m.text >>= Instance.ofModel enc) = .ok (Instance.ofExtents enc rows vs) := by
  have hextent := isExtent_of_lower hlower
  have hnodup := hm.nodup hnames
  obtain ⟨body, hbody, hperm⟩ := hm.functions
  have hdef : (Scope.ofModel m).definition? Lowering.intValue.name = some vs.definition :=
    Scope.definition?_ofModel (d := vs.definition) hnodup (hperm.mem_iff.2 (by simp))
  have htuples : ∀ f ∈ enc.constants, ∀ label,
      Instance.tuples (Scope.ofModel m) (some vs.definition.symbol) f label
        = .ok ((rows f).map (List.zipWith vs.shown f.output.columns)) := by
    intro f hf label
    have hmem : (⟨f.name, [], f.output, body f⟩ : FunctionDefinition) ∈ m.functions :=
      hperm.mem_iff.2 (List.mem_append_left _ (List.mem_map.2 ⟨f, hf, rfl⟩))
    exact tuples_of_lists (hextent f hf) (hrows.nodup_rowLiterals hf) (hbody f hf)
      (Scope.get?_ofModel hnodup hmem) hdef
  refine Checked.bind_eq_ok.2 ⟨m, hm.read hnames hvs hextent, ?_⟩
  rw [Instance.ofModel, hm.function?_intValue hnames]
  refine Checked.bind_eq_ok.2 ⟨(Instance.ofExtents enc rows vs).signatures, ?_,
    Checked.bind_eq_ok.2 ⟨(Instance.ofExtents enc rows vs).fields, ?_, rfl⟩⟩
  · refine Checked.mapM_eq_ok.2 ((List.forall₂_map_right_iff).2 (List.forall₂_same.2 fun p hp => ?_))
    exact Checked.bind_eq_ok.2 ⟨_, htuples p.2
      (List.mem_append_left _ (List.mem_map_of_mem hp)) _, rfl⟩
  · refine Checked.mapM_eq_ok.2 ((List.forall₂_map_right_iff).2 (List.forall₂_same.2 fun p hp => ?_))
    exact Checked.bind_eq_ok.2 ⟨_, htuples p.2
      (List.mem_append_right _ (List.mem_map_of_mem hp)) _, rfl⟩

/-- One signature of atoms and a field of integers. -/
def countedAtoms : Relational.Specification :=
  let a : Relational.SigRef := ⟨0, "this/A", .atom, false⟩
  { signatures := [⟨a, .top, false, none, {}⟩]
    fieldGroups := [{ fields := [⟨⟨0, a, "f", [.atom, .int]⟩, .unary .setOf (.constant .ints), {}⟩] }] }

/-- Two atoms, each with an integer. -/
def countedRows : Extents := fun f => if f.name = "this/A" then [[0], [1]] else [[0, 3], [1, 2]]

/-- The values of both integers. -/
def countedValues : ValueTable := ⟨"x", [(2, -5), (3, 7)], 0⟩

/-- The instance shows the two atoms with 7 and -5. -/
theorem Instance.ofModel_text_countedAtoms : ∃ (enc : Encoding) (m : Model),
    countedAtoms.lower true = .ok enc ∧
    enc.NamesApart countedRows countedValues ∧ countedRows.Fit enc ∧ countedValues.Writable ∧
    m.Describes enc countedRows countedValues ∧
    (Reply.model m.text >>= Instance.ofModel enc)
      = .ok ⟨[⟨"this/A", ["@uc_Atom_0", "@uc_Atom_1"]⟩],
          [⟨"this/A", "f", [["@uc_Atom_0", "7"], ["@uc_Atom_1", "-5"]]⟩]⟩ := by
  have hok : (match countedAtoms.lower true with
      | .ok _ => true
      | .error _ => false) = true := by decide +kernel
  split at hok
  · rename_i enc h
    obtain ⟨hsignatures, hfields, _⟩ := Lowering.constants_lower h
    have hconstants : enc.constants = [.constant "this/A" (.relation [.atom]),
        .constant "this/A/f" (.relation [.atom, .uint])] := by
      rw [Encoding.constants, hsignatures, hfields]
      rfl
    have hapart : enc.NamesApart countedRows countedValues := by
      constructor <;> rw [hconstants] <;> decide
    have hfit : countedRows.Fit enc := by
      constructor <;> rw [hconstants] <;> decide
    have hwritable : countedValues.Writable := by
      constructor <;> decide
    obtain ⟨m, hm⟩ := exists_describes (isExtent_of_lower h) hfit
    refine ⟨enc, m, h, hapart, hfit, hwritable, hm, ?_⟩
    rw [Instance.ofModel_text h hapart hfit hwritable hm]
    refine congrArg Except.ok ?_
    rw [Instance.ofExtents, hsignatures, hfields]
    decide +kernel
  · simp at hok

end Reconstruction

end RelSmt
