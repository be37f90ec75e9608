import RelSmt.Proofs.Evaluation.Outcome
import RelSmt.Proofs.Model.Resolved

/-!
# Evaluation is sound and complete

Evaluating an evaluable term in the scope of a model comes to its meaning in the model, or to the
fault of an integer operator that the term demands (`outcome_evaluate`). Definitions are taken in
the order of their ranks: a call in progress takes up one of the calls that are left, and the body
that it evaluates calls definitions of lower rank only. As there are more calls to begin with than
there are definitions, they do not run out.
-/

namespace RelSmt

variable {E : Type}

/-! ## Scopes of calls -/

namespace Scope

variable {m : Model} {d : FunctionDefinition}

/-- A parameter stands for the argument in its place. -/
theorem exists_get?_ofCall {v : Variable} (hv : v.IsLastIn d.inputs)
    {R : Variable → Term × Value E → Prop} {ps : List (Term × Value E)}
    (h : List.Forall₂ R d.inputs ps) (s : Scope) : ∃ p, R v p ∧
      (s.ofCall d (ps.map Prod.fst)).get? v.name = some (.value p.1) ∧
      ∀ ρ : Assignment E, (ρ.bindAll d.inputs (ps.map Prod.snd)).get v = p.2 := by
  obtain ⟨front, back, ps₁, p, ps₂, hinputs, rfl, hlength, hp, hback⟩ := hv.exists_split h
  rw [List.map_append, List.map_append, List.map_cons, List.map_cons]
  refine ⟨p, hp, get?_ofCall_split hinputs (by rwa [List.length_map]) hback s, fun ρ => ?_⟩
  rw [hinputs]
  exact Assignment.get_bindAll_split p.2 (by rwa [List.length_map]) hback ρ

/-- There are at least as many bindings in sight as definitions. -/
theorem length_le_size_ofModel (hnodup : (m.functions.map FunctionDefinition.name).Nodup) :
    m.functions.length ≤ (ofModel m).size := by
  have hsub : m.functions.map FunctionDefinition.name ⊆ (ofModel m).here.map Prod.fst := by
    rintro _ hname
    obtain ⟨d, hd, rfl⟩ := List.mem_map.1 hname
    have hget := get?_ofModel hnodup hd
    rw [Scoped.get?, around_ofModel, List.findSome?_singleton, List.lookup_eq_some_iff] at hget
    obtain ⟨front, back, hhere, _⟩ := hget
    rw [hhere]
    simp
  have hlength := (hnodup.subperm hsub).length_le
  rw [List.length_map, List.length_map] at hlength
  exact hlength.trans (Nat.le_add_right _ _)

end Scope

namespace Term

/-! ## Calls by depth -/

section Depth

variable {I : Interpretation E} {m : Model} {t : Term}

/-- **Calls of definitions of low rank are carried out** by evaluating their bodies. The induction
is on the number of calls that are left; a body calls definitions of lower rank. -/
theorem carries_of_rank_lt (hI : I.Distinct)
    (hnodup : (m.functions.map FunctionDefinition.name).Nodup)
    (hresolved : ∀ d ∈ m.functions, d.IsResolved m) (hm : m.Acyclic)
    (hevaluable : ∀ d, m.Reaches t d → d.body.IsEvaluable) (hsatisfied : I.SatisfiesDefinitions m t) :
    ∀ (depth : Nat) {scope : Scope}, scope.root = Scope.ofModel m →
      ∀ d, m.Reaches t d → m.rank d < depth → Carries I m (callerWithin depth scope) d
  | 0, _, _, _, _, h => absurd h (Nat.not_lt_zero _)
  | depth + 1, scope, hroot, d, hreach, hrank => by
    intro ps ρ hps
    have hd := hresolved d hreach.mem
    have hroot' : (scope.ofCall d (ps.map Prod.fst)).root = Scope.ofModel m :=
      (Scope.root_ofCall scope d _).trans hroot
    change Outcome I m _ d.body (evaluateWithin depth (scope.ofCall d (ps.map Prod.fst)) d.body)
    rw [evaluateWithin_eq]
    have hbody : EvaluableOver (Variable.IsLastIn · d.inputs) (· ∈ d.body.symbols) d.body :=
      evaluableOver_of_built hd.built (hevaluable d hreach) hd.free fun _ hf => hf
    -- inputs stand for arguments, and what the body mentions ranks below the definition
    refine outcome_evaluateWith hI (fun v hv => ?_) (fun f hf => ?_) hbody
    · obtain ⟨p, hp, hget, hvalue⟩ := Scope.exists_get?_ofCall hv hps scope
      exact ⟨p.1, hget, hvalue ρ ▸ hp⟩
    · obtain ⟨e, rfl, he⟩ := hd.exists_refers hreach f hf
      have hreach' := hreach.referred he
      have hlower := Model.rank_lt_of_refers hm he
      obtain ⟨_, _, _, hne⟩ := hd.mentioned _ hf
      refine ⟨e, rfl, ?_, hreach'.mem, (hresolved e hreach'.mem).sort, hsatisfied e hreach',
        carries_of_rank_lt hI hnodup hresolved hm hevaluable hsatisfied depth hroot' e hreach'
          (by omega)⟩
      exact (Scope.get?_ofCall_of_ne hne scope _).trans
        (hroot ▸ Scope.get?_ofModel hnodup hreach'.mem)

end Depth

/-- **Evaluation is sound and complete.** Evaluating a closed evaluable term over a model that is
read, whose definitions have distinct names and do not refer to themselves, comes to a value in
normal form that represents the term, or to the fault of an integer operator that the term demands:
so it is in every interpretation that satisfies the definitions and tells elements apart, and there
is one. -/
theorem outcome_evaluate {text : String} {m : Model} (hread : Reply.model text = .ok m)
    (hnodup : (m.functions.map FunctionDefinition.name).Nodup) (hm : m.Acyclic) {t : Term}
    (hbuilt : t.Built) (hclosed : t.freeOccurrences = [])
    (hsymbols : ∀ f ∈ t.symbols, ∃ d ∈ m.functions, d.symbol = f) (hterm : t.IsEvaluable)
    (hevaluable : ∀ d, m.Reaches t d → d.body.IsEvaluable) :
    (∃ I : Interpretation String, I.Distinct ∧ I.SatisfiesDefinitions m t) ∧
    ∀ (E : Type) (I : Interpretation E), I.Distinct → I.SatisfiesDefinitions m t → ∀ ρ,
      Outcome I m ρ t (Term.evaluate (Scope.ofModel m) t) := by
  have hresolved := Reply.isResolved_of_model hread
  refine ⟨Interpretation.exists_satisfiesDefinitions hnodup hresolved hm hevaluable,
    fun E I hI hsatisfied ρ => ?_⟩
  rw [evaluate, evaluateWithin_eq]
  refine outcome_evaluateWith hI (V := fun _ => False) (fun _ h => h.elim) ?_
    (evaluableOver_of_built hbuilt hterm (by simp [hclosed]) fun f hf => hf)
  intro f hf
  obtain ⟨d, hd, rfl⟩ := hsymbols f hf
  have hreach : m.Reaches t d := .mentioned hd hf
  have hrank : m.rank d < (Scope.ofModel m).size + callAllowance := by
    have hlength := Model.rank_lt_length hm hd
    have hsize := Scope.length_le_size_ofModel hnodup
    omega
  exact ⟨d, rfl, Scope.get?_ofModel hnodup hd, hd, (hresolved d hd).sort, hsatisfied d hreach,
    carries_of_rank_lt hI hnodup hresolved hm hevaluable hsatisfied _ (Scope.root_ofModel m) d hreach
      hrank⟩

/-- A function that doubles its argument, and a constant that calls it. -/
def doublingText : String :=
  "((define-fun double ((x Int)) Int (+ x x))(define-fun four () Int (double 2)))"

/-- What is read from that text. -/
def doublingModel : Model :=
  ⟨[], [⟨"double", [.plain "x" .int], .int,
      .binary (.arithmetic .plus) (.variable (.plain "x" .int)) (.variable (.plain "x" .int))⟩,
    ⟨"four", [], .int, .call ⟨"double", [.int], .int⟩ [.int 2]⟩]⟩

/-- The function applied to the constant. -/
def doubledFour : Term := .call ⟨"double", [.int], .int⟩ [.symbol ⟨"four", [], .int⟩]

theorem model_doublingText : Reply.model doublingText = .ok doublingModel := by
  have hitems : SExpr.readAll doublingText = .ok [.list
      [.list [.symbol "define-fun", .symbol "double", .list [.list [.symbol "x", .symbol "Int"]], .symbol "Int",
        .list [.symbol "+", .symbol "x", .symbol "x"]],
      .list [.symbol "define-fun", .symbol "four", .list [], .symbol "Int",
        .list [.symbol "double", .number 2]]]] := rfl
  have hx : Reply.term (.symbol "x") (Reply.bindVariables (Reply.modelScope doublingModel) [.plain "x" .int])
      = .ok (.variable (.plain "x" .int)) := by
    rw [Reply.term]
    rfl
  have hdouble : Reply.term (.list [.symbol "+", .symbol "x", .symbol "x"])
      (Reply.bindVariables (Reply.modelScope doublingModel) [.plain "x" .int]) = .ok _ :=
    Reply.term_list_eq_ok.2 ⟨_, _, rfl, Reply.application_eq_ok.2
      (.binary rfl hx hx (binarySort_arithmetic.2 ⟨rfl, rfl⟩))⟩
  have htwo : Reply.term (.number 2) (Reply.bindVariables (Reply.modelScope doublingModel) []) = .ok (.int 2) :=
    Reply.term_number_eq_ok.2 ⟨by decide, rfl⟩
  have hfour : Reply.term (.list [.symbol "double", .number 2])
      (Reply.bindVariables (Reply.modelScope doublingModel) [])
      = .ok (.call ⟨"double", [.int], .int⟩ [.int 2]) :=
    Reply.term_list_eq_ok.2 ⟨_, _, rfl, Reply.application_eq_ok.2
      (.call (by decide) rfl rfl (.cons htwo .nil) rfl)⟩
  exact Reply.model_eq_ok.2 ⟨_, [.function ⟨⟨"double", [.int], .int⟩, [.plain "x" .int],
        .list [.symbol "+", .symbol "x", .symbol "x"]⟩,
      .function ⟨⟨"four", [], .int⟩, [], .list [.symbol "double", .number 2]⟩],
    hitems, .cons rfl (.cons rfl .nil), rfl,
    .cons (Reply.define_eq_ok.2 ⟨_, hdouble, rfl, rfl⟩) (.cons (Reply.define_eq_ok.2 ⟨_, hfour, rfl, rfl⟩) .nil)⟩

theorem acyclic_doublingModel : doublingModel.Acyclic := by
  refine Model.acyclic_of_lt (fun d => if d.name = "four" then 1 else 0) ?_
  rintro d e ⟨hd, he, hmem⟩
  simp only [doublingModel, List.mem_cons, List.not_mem_nil, or_false] at hd he
  rcases hd with rfl | rfl <;> rcases he with rfl | rfl <;>
    simp_all [symbols, symbolsList, FunctionDefinition.symbol, Term.int]

/-- Doubling four makes eight. -/
theorem outcome_evaluate_doubledFour :
    Term.evaluate (Scope.ofModel doublingModel) doubledFour = .ok (.int 8) ∧
    (∃ I : Interpretation String, I.Distinct ∧ I.SatisfiesDefinitions doublingModel doubledFour) ∧
    ∀ (E : Type) (I : Interpretation E), I.Distinct → I.SatisfiesDefinitions doublingModel doubledFour → ∀ ρ,
      Outcome I doublingModel ρ doubledFour (.ok (.int 8)) := by
  have heval : Term.evaluate (Scope.ofModel doublingModel) doubledFour = .ok (.int 8) := rfl
  have hevaluable : ∀ d ∈ doublingModel.functions, d.body.IsEvaluable := by
    simp [doublingModel, IsEvaluable, AreEvaluable, BinaryOp.IsFolded, Term.int]
  obtain ⟨hexists, houtcome⟩ := outcome_evaluate (t := doubledFour) model_doublingText (by decide)
    acyclic_doublingModel ⟨⟨trivial, trivial⟩, rfl, trivial⟩ rfl
    (by simp [doubledFour, symbols, symbolsList, doublingModel, FunctionDefinition.symbol,
      Variable.sort, Variable.plain])
    ⟨rfl, trivial⟩ fun d hd => hevaluable d hd.mem
  exact ⟨heval, hexists, fun E I hI hsatisfied ρ => heval ▸ houtcome E I hI hsatisfied ρ⟩

end Term

end RelSmt
