import RelSmt.Proofs.Model.Extents

/-!
# Which definition a name stands for

A text may define a name several times. Evaluation goes by the last definition, wherever a body is
evaluated, and bodies are read against the same definition: what a symbol is declared as is what it
evaluates by. The lookup of the model goes by the first definition, so the two agree on a name
exactly if its first and its last definition are the same.

An instance asks the model for the value function. It is applied as its first definition declares it
and evaluated by its last one.
-/

namespace RelSmt

variable {text : String} {m : Model} {d e : FunctionDefinition} {s : Scope} {name : String}

namespace Model

theorem function?_eq_some_iff : m.function? name = some d ↔
    IsFirstOf FunctionDefinition.name m.functions d ∧ d.name = name :=
  find?_eq_some_iff_isFirstOf

end Model

/-! ## Scopes of bodies -/

namespace Scope

/-- Is the body of the definition evaluated in this scope? It is called from outside, or mentioned
in a body that is evaluated. -/
inductive InBody (m : Model) : Scope → FunctionDefinition → Prop
  | outside {name : String} {d : FunctionDefinition} {args : List Term}
      (hd : (ofModel m).definition? name = some d) : InBody m ((ofModel m).ofCall d args) d
  | mentioned {s : Scope} {d e : FunctionDefinition} {f : FunctionSymbol} {args : List Term}
      (h : InBody m s d) (hf : f ∈ d.body.symbols) (he : s.definition? f.name = some e) :
      InBody m (s.ofCall e args) e

/-- Around a body there are its arguments and the definitions of the model, of which it is one. -/
theorem InBody.exists_ofCall (hread : Reply.model text = .ok m) (h : InBody m s d) :
    ∃ s₀ args, s = ofCall s₀ d args ∧ s₀.root = ofModel m ∧ m.last? d.name = some d := by
  induction h with
  | @outside name d args hd =>
    rw [definition?_ofModel_eq] at hd
    exact ⟨_, args, rfl, root_ofModel m, (Model.mem_of_last? hd).2 ▸ hd⟩
  | @mentioned s d e f args _ hf he ih =>
    obtain ⟨s₀, args₀, rfl, hroot, hd⟩ := ih
    -- no parameter hides a function that the body mentions, so it is found in the model
    obtain ⟨e', hlast, -, hget⟩ :=
      Reply.get?_ofCall_of_mentioned hread (Model.mem_of_last? hd).1 hf hroot args₀
    obtain rfl := Option.some.inj (he.symm.trans (definition?_eq_some.2 hget))
    exact ⟨_, args, rfl, (root_ofCall s₀ d args₀).trans hroot, (Model.mem_of_last? hlast).2 ▸ hlast⟩

/-- **A symbol in a body is declared as it is evaluated**, along every chain of mentions. -/
theorem InBody.resolves (hread : Reply.model text = .ok m) (h : InBody m s d) :
    IsLastOf FunctionDefinition.name m.functions d ∧ ∀ f ∈ d.body.symbols, ∃ e,
      s.definition? f.name = some e ∧ IsLastOf FunctionDefinition.name m.functions e ∧
        e.symbol = f := by
  obtain ⟨s₀, args, rfl, hroot, hd⟩ := h.exists_ofCall hread
  refine ⟨(Model.last?_eq_some_iff.1 hd).1, fun f hf => ?_⟩
  obtain ⟨e, hlast, hsymbol, hget⟩ :=
    Reply.get?_ofCall_of_mentioned hread (Model.mem_of_last? hd).1 hf hroot args
  exact ⟨e, definition?_eq_some.2 hget, (Model.last?_eq_some_iff.1 hlast).1, hsymbol⟩

end Scope

/-! ## The value function -/

namespace Instance

/-- The value function does not apply to an atom that it is not declared on. -/
theorem atomValue_of_ne {f : FunctionSymbol} (h : f.inputs ≠ [.uint]) (name : String) :
    ∃ fault, atomValue m f name = .error fault ∧ fault.kind = .definition := by
  cases happly : f.apply [.literal (.element name .uint)] with
  | error fault =>
    refine ⟨fault, ?_, kind_of_apply_error happly⟩
    rw [atomValue, happly]
    rfl
  | ok t => exact absurd (FunctionSymbol.apply_eq_ok.1 happly).1.symm h

/-- Where it applies, the last definition of its name is called. -/
theorem exists_atomValue_eq {f : FunctionSymbol} (hf : f.inputs = [.uint])
    (he : m.last? f.name = some e) (name : String) : ∃ depth, atomValue m f name =
      (Term.callerWithin depth (Scope.ofModel m)).apply e [.literal (.element name .uint)] := by
  have happly : f.apply [.literal (.element name .uint)]
      = .ok (.call f ([.element name .uint].map .literal)) :=
    FunctionSymbol.apply_eq_ok.2 ⟨hf.symm, rfl⟩
  have hget : (Scope.ofModel m).definition? f.name = some e := by
    rw [Scope.definition?_ofModel_eq, he]
  refine ⟨(Scope.ofModel m).size + Term.callAllowance, ?_⟩
  rw [atomValue, happly, Checked.ok_bind, Term.evaluate, Term.evaluateWithin_eq,
    Term.evaluateWith_call_literals hget, List.map_singleton]

theorem valueSymbol?_of_isFirstOf (hd : IsFirstOf FunctionDefinition.name m.functions d)
    (hname : d.name = Lowering.intValue.name) : valueSymbol? m = some d.symbol := by
  rw [valueSymbol?, Model.function?_eq_some_iff.2 ⟨hd, hname⟩, Option.map_some]

end Instance

/-! ## The two lookups -/

/-- **A model is searched from the front, and its scope from the back.** The two agree on a name
exactly if its first and its last definition are the same. Whatever bodies mention is checked
against the definition that it evaluates by. The value function alone is applied as its first
definition declares it, and where it applies, its last one is called. -/
theorem Model.lookups_of_model (hread : Reply.model text = .ok m) :
    (∀ name d, m.function? name = some d ↔
      IsFirstOf FunctionDefinition.name m.functions d ∧ d.name = name) ∧
    (∀ name d, (Scope.ofModel m).definition? name = some d ↔
      IsLastOf FunctionDefinition.name m.functions d ∧ d.name = name) ∧
    (∀ name, (Scope.ofModel m).definition? name = m.function? name ↔
      ∀ d e, IsFirstOf FunctionDefinition.name m.functions d →
        IsLastOf FunctionDefinition.name m.functions e → d.name = name → e.name = name → d = e) ∧
    (∀ s d, Scope.InBody m s d → IsLastOf FunctionDefinition.name m.functions d ∧
      ∀ f ∈ d.body.symbols, ∃ e, s.definition? f.name = some e ∧
        IsLastOf FunctionDefinition.name m.functions e ∧ e.symbol = f) ∧
    ∀ d e, IsFirstOf FunctionDefinition.name m.functions d →
      IsLastOf FunctionDefinition.name m.functions e → d.name = Lowering.intValue.name →
      e.name = Lowering.intValue.name → Instance.valueSymbol? m = some d.symbol ∧ ∀ name,
        (d.symbol.inputs ≠ [.uint] → ∃ fault, Instance.atomValue m d.symbol name = .error fault ∧
          fault.kind = .definition) ∧
        (d.symbol.inputs = [.uint] → ∃ depth, Instance.atomValue m d.symbol name =
          (Term.callerWithin depth (Scope.ofModel m)).apply e
            [.literal (.element name .uint)]) := by
  refine ⟨fun name d => function?_eq_some_iff, fun name d => ?_, fun name => ?_,
    fun s d h => h.resolves hread, fun d e hd he hdname hename => ?_⟩
  · rw [Scope.definition?_ofModel_eq, last?_eq_some_iff]
  · rw [Scope.definition?_ofModel_eq, eq_comm]
    exact find?_eq_reverse_find?_iff
  · have hlast : m.last? d.symbol.name = some e :=
      last?_eq_some_iff.2 ⟨he, hename.trans hdname.symm⟩
    exact ⟨Instance.valueSymbol?_of_isFirstOf hd hdname, fun name =>
      ⟨fun hinputs => Instance.atomValue_of_ne hinputs name,
        fun hinputs => Instance.exists_atomValue_eq hinputs hlast name⟩⟩

/-! A signature of integers with one atom, and a value function that is defined twice. -/

namespace Instance

/-- The value function, declared on integer atoms first and on other atoms then. -/
def twiceItems : SExpr := .list
  [.list [.symbol "define-fun", .symbol "this/A", .list [],
      .list [.symbol "Set", .list [.symbol "Tuple", .symbol "UInt"]],
      .list [.symbol "singleton", .list [.symbol "mkTuple", .symbol "@uc_UInt_0"]]],
    .list [.symbol "define-fun", .symbol "intValue", .list [.list [.symbol "x", .symbol "UInt"]],
      .symbol "Int", .number 3],
    .list [.symbol "define-fun", .symbol "intValue", .list [.list [.symbol "x", .symbol "Atom"]],
      .symbol "Int", .number 5]]

/-- The definition that stands first. -/
def threeOnInts : FunctionDefinition := ⟨"intValue", [.plain "x" .uint], .int, .int 3⟩

/-- The definition that stands last. -/
def fiveOnAtoms : FunctionDefinition := ⟨"intValue", [.plain "x" .atom], .int, .int 5⟩

/-- What is read from that. -/
def twiceModel : Model :=
  ⟨[], [⟨"this/A", [], .uints, .unary .singleton (Term.tupleOf [.element "@uc_UInt_0" .uint])⟩,
    threeOnInts, fiveOnAtoms]⟩

theorem model_twiceItems : Reply.model twiceItems.text = .ok twiceModel := by
  have hclean : twiceItems.Clean := by
    simp only [twiceItems, SExpr.Clean, SExpr.AllClean]
    decide
  have hatom : Reply.term (.symbol "@uc_UInt_0")
      (Reply.bindVariables (Reply.modelScope twiceModel) [])
      = .ok (.literal (.element "@uc_UInt_0" .uint)) := by
    rw [Reply.term_symbol]
    rfl
  have hnumber : ∀ (n : Nat) (vs : List Variable), (n : Int) ≤ Reply.maxInt → Reply.term
      (.number n) (Reply.bindVariables (Reply.modelScope twiceModel) vs) = .ok (.int n) :=
    fun n vs hn => Reply.term_number_eq_ok.2 ⟨hn, rfl⟩
  refine Reply.model_eq_ok.2 ⟨_, [.function ⟨⟨"this/A", [], .uints⟩, [],
        .list [.symbol "singleton", .list [.symbol "mkTuple", .symbol "@uc_UInt_0"]]⟩,
      .function ⟨⟨"intValue", [.uint], .int⟩, [.plain "x" .uint], .number 3⟩,
      .function ⟨⟨"intValue", [.atom], .int⟩, [.plain "x" .atom], .number 5⟩],
    (SExpr.reads_text hclean).readAll, .cons rfl (.cons rfl (.cons rfl .nil)), rfl,
    .cons ?_ (.cons ?_ (.cons ?_ .nil))⟩
  · exact Reply.define_eq_ok.2 ⟨_, term_singleton_tuple (by simp)
      (by simp [Term.sort, SmtSort.isAtomic]) (.cons hatom .nil), rfl, rfl⟩
  · exact Reply.define_eq_ok.2 ⟨_, hnumber 3 _ (by decide), rfl, rfl⟩
  · exact Reply.define_eq_ok.2 ⟨_, hnumber 5 _ (by decide), rfl, rfl⟩

/-- The value function is applied as one definition declares it and evaluated by the other. -/
theorem lookups_of_twiceModel : Reply.model twiceItems.text = .ok twiceModel ∧
    twiceModel.function? "intValue" = some threeOnInts ∧
    (Scope.ofModel twiceModel).definition? "intValue" = some fiveOnAtoms ∧
    (Scope.ofModel twiceModel).definition? "intValue" ≠ twiceModel.function? "intValue" ∧
    valueSymbol? twiceModel = some threeOnInts.symbol ∧
    (∃ depth, atomValue twiceModel threeOnInts.symbol "@uc_UInt_0" =
      (Term.callerWithin depth (Scope.ofModel twiceModel)).apply fiveOnAtoms
        [.literal (.element "@uc_UInt_0" .uint)]) ∧
    ofModel countedInts twiceModel = .ok ⟨[⟨"this/A", ["5"]⟩], []⟩ := by
  obtain ⟨hfunction, hdefinition, hagree, -, hvalue⟩ := Model.lookups_of_model model_twiceItems
  have hfirst := (hfunction "intValue" threeOnInts).1 rfl
  have hlast := (hdefinition "intValue" fiveOnAtoms).1 rfl
  have hdiffer : threeOnInts ≠ fiveOnAtoms := fun h =>
    absurd (congrArg (fun d => d.symbol.inputs) h) (by decide)
  obtain ⟨hsymbol, happlied⟩ := hvalue _ _ hfirst.1 hlast.1 rfl rfl
  exact ⟨model_twiceItems, rfl, rfl,
    fun h => hdiffer ((hagree "intValue").1 h _ _ hfirst.1 hlast.1 rfl rfl), hsymbol,
    (happlied "@uc_UInt_0").2 rfl, rfl⟩

end Instance

end RelSmt
