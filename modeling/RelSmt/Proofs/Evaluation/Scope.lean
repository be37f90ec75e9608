import RelSmt.Evaluation.Basic
import RelSmt.Proofs.Scoped

/-!
# Scopes of models

The scope of a model has its definitions and nothing else. A call's scope has the arguments under
the names of the parameters, and behind them the definitions that are outermost.
-/

namespace RelSmt

/-- The definition that counts: the last one of the name. -/
def Model.last? (m : Model) (name : String) : Option FunctionDefinition :=
  m.functions.reverse.find? fun d => d.name == name

theorem Model.last?_eq_some_iff {m : Model} {name : String} {d : FunctionDefinition} :
    m.last? name = some d ↔ IsLastOf FunctionDefinition.name m.functions d ∧ d.name = name :=
  reverse_find?_eq_some_iff_isLastOf

theorem Model.mem_of_last? {m : Model} {name : String} {d : FunctionDefinition}
    (h : m.last? name = some d) : d ∈ m.functions ∧ d.name = name :=
  (last?_eq_some_iff.1 h).imp_left IsLastOf.mem

theorem Model.exists_last? {m : Model} {d : FunctionDefinition} (hd : d ∈ m.functions) :
    ∃ e, m.last? d.name = some e :=
  (exists_isLastOf FunctionDefinition.name hd).imp fun _ he => last?_eq_some_iff.2 he

namespace Scope

variable {m : Model} {d : FunctionDefinition} {name : String}

theorem definition?_eq_some {s : Scope} : s.definition? name = some d ↔
    s.get? name = some (.definition d) := by
  rw [definition?]
  rcases s.get? name with _ | _ | _ <;> simp

theorem ofModel_eq_putAll (m : Model) :
    ofModel m = Scoped.putAll {} (m.functions.map fun d => (d.name, .definition d)) := by
  rw [Scoped.putAll, List.foldl_map]
  rfl

theorem get?_ofModel_eq (m : Model) (name : String) :
    (ofModel m).get? name = (m.last? name).map .definition := by
  rw [ofModel_eq_putAll, Scoped.get?_putAll_map FunctionDefinition.name Binding.definition, Model.last?]

theorem definition?_ofModel_eq (m : Model) (name : String) :
    (ofModel m).definition? name = m.last? name := by
  rw [definition?, get?_ofModel_eq]
  cases m.last? name <;> rfl

/-- Where no name is defined twice, each stands for its definition. -/
theorem get?_ofModel (hnodup : (m.functions.map FunctionDefinition.name).Nodup)
    (hd : d ∈ m.functions) :
    (ofModel m).get? d.name = some (.definition d) := by
  rw [ofModel_eq_putAll]
  refine Scoped.get?_putAll_of_mem ?_ (List.mem_map_of_mem hd)
  rwa [List.map_map]

theorem definition?_ofModel (hnodup : (m.functions.map FunctionDefinition.name).Nodup)
    (hd : d ∈ m.functions) :
    (ofModel m).definition? d.name = some d := by
  rw [definition?, get?_ofModel hnodup hd]

theorem around_ofModel (m : Model) : (ofModel m).around = [] := by
  rw [ofModel_eq_putAll, Scoped.around_putAll]

theorem root_ofModel (m : Model) : (ofModel m).root = ofModel m := by
  rw [Scoped.root, around_ofModel, List.getLastD_nil, ← around_ofModel m]

/-- Calls have the same definitions in sight, however they are nested. -/
theorem root_ofCall (s : Scope) (d : FunctionDefinition) (args : List Term) :
    (s.ofCall d args).root = s.root := by
  rw [ofCall, Scoped.root_enter_putAll]
  rfl

theorem ofCall_eq_putAll_zip (s : Scope) (d : FunctionDefinition) (args : List Term) :
    s.ofCall d args =
      s.root.enter.putAll ((d.inputs.map Variable.name).zip (args.map .value)) := by
  rw [ofCall, List.zip_map]
  rfl

/-- The last parameter of a name stands for the argument in its place. -/
theorem get?_ofCall_split {front back : List Variable} {v : Variable} {as bs : List Term} {u : Term}
    (hinputs : d.inputs = front ++ v :: back) (hlength : front.length = as.length)
    (hback : ∀ w ∈ back, w.name ≠ v.name) (s : Scope) :
    (s.ofCall d (as ++ u :: bs)).get? v.name = some (.value u) := by
  rw [ofCall_eq_putAll_zip, hinputs, List.map_append, List.map_cons, List.map_append, List.map_cons]
  refine Scoped.get?_putAll_zip (by simpa using hlength) fun hmem => ?_
  obtain ⟨w, hw, hname⟩ := List.mem_map.1 hmem
  exact hback w hw hname

/-- A name that no parameter has stands for what the model defines. -/
theorem get?_ofCall_of_ne {name : String} (hne : ∀ v ∈ d.inputs, v.name ≠ name) (s : Scope)
    (args : List Term) : (s.ofCall d args).get? name = s.root.get? name := by
  rw [ofCall_eq_putAll_zip, Scoped.get?_putAll_zip_of_notMem, Scoped.get?_enter]
  rw [List.mem_map]
  rintro ⟨v, hv, hname⟩
  exact hne v hv hname

end Scope

namespace Term

/-- How calls are carried out with so many calls left. -/
def callerWithin : Nat → Scope → Caller
  | 0, _ => fun d _ => .error (.evaluation (.callDepth d.name))
  | depth + 1, scope => fun d args => evaluateWithin depth (scope.ofCall d args) d.body

theorem evaluateWithin_eq (scope : Scope) (t : Term) : ∀ depth,
    evaluateWithin depth scope t = evaluateWith (callerWithin depth scope) scope t
  | 0 => rfl
  | _ + 1 => rfl

/-- A definition that stands alone is called without arguments. -/
theorem evaluateName_definition {call : Caller} {scope : Scope} {name : String} {d : FunctionDefinition}
    (h : scope.get? name = some (.definition d)) : evaluateName call scope name
      = if d.isValue then call.apply d [] else .error (.evaluation (.unapplied d.name)) := by
  rw [evaluateName, h]

/-- What holds however calls are carried out holds at every depth. -/
theorem evaluateWithin_of_forall {scope : Scope} {t : Term} {r : Checked Term}
    (h : ∀ call, evaluateWith call scope t = r) : ∀ depth, evaluateWithin depth scope t = r
  | 0 => h _
  | _ + 1 => h _

/-- There is always room for one call. -/
theorem exists_evaluate_eq (scope : Scope) (t : Term) : ∃ depth, evaluate scope t
    = evaluateWith (fun d args => evaluateWithin depth (scope.ofCall d args) d.body) scope t := by
  have hne : scope.size + callAllowance ≠ 0 := by simp [callAllowance]
  obtain ⟨depth, hdepth⟩ := Nat.exists_eq_succ_of_ne_zero hne
  exact ⟨depth, by rw [evaluate, hdepth, evaluateWithin]⟩

end Term

end RelSmt
