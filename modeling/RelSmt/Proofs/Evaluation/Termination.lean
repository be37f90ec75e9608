import RelSmt.Instance
import RelSmt.Proofs.Evaluation.Cases
import RelSmt.Proofs.Model.Resolved
import RelSmt.Proofs.Term.Faults

/-!
# Evaluation comes to an end

A call evaluates a body that is no part of the term, in a scope of its own, and nothing keeps
definitions from calling each other in circles. That evaluation comes to an end is said by
`Evaluates`: a derivation has the derivations of all the calls that a term can make below it, so
that no chain of calls in it goes on forever. There is no bound on calls in it, and a term evaluates
to one thing only.

In a model whose definitions mention each other in no circle every term evaluates, whatever it is
and in whatever order the definitions stand. Definitions have a rank, the number of definitions that
they lead to, and a body calls definitions of lower rank: arguments hide definitions and call
nothing, and all other names stand for what they stand for outermost. As ranks are below the number
of definitions in sight, evaluation never comes to its bound on calls in progress.
-/

namespace RelSmt

namespace Term

/-! ## Names that terms mention -/

/-- The names of the free variables and of the functions that a term mentions. -/
def mentions (t : Term) : List String :=
  t.freeOccurrences.map Variable.name ++ t.symbols.map FunctionSymbol.name

section Mentions

variable {name : String} {ts : List Term}

theorem mem_mentions_binary {op : BinaryOp} {l r : Term} :
    name ∈ (binary op l r).mentions ↔ name ∈ l.mentions ∨ name ∈ r.mentions := by
  simp only [mentions, freeOccurrences, symbols, List.map_append, List.mem_append]
  exact or_or_or_comm

theorem mem_mentions_ite {c y n : Term} :
    name ∈ (ite c y n).mentions ↔ name ∈ c.mentions ∨ name ∈ y.mentions ∨ name ∈ n.mentions := by
  simp only [mentions, freeOccurrences, symbols, List.map_append, List.mem_append]
  grind

theorem mem_mentions_nary {op : NaryOp} :
    name ∈ (nary op ts).mentions ↔ ∃ t ∈ ts, name ∈ t.mentions := by
  simp only [mentions, freeOccurrences, symbols, freeOccurrencesList_eq_flatMap, List.mem_append,
    List.mem_map, List.mem_flatMap, mem_symbolsList]
  grind

theorem mem_mentions_call {f : FunctionSymbol} :
    name ∈ (call f ts).mentions ↔ name = f.name ∨ ∃ t ∈ ts, name ∈ t.mentions := by
  rw [← @mem_mentions_nary name ts .mkTuple]
  simp only [mentions, freeOccurrences, symbols, List.map_cons, List.mem_append, List.mem_cons]
  exact or_left_comm

end Mentions

/-! ## Calls that a term can make -/

/-- Does the term mention a name that stands for the definition? -/
def Invokes (scope : Scope) (t : Term) (d : FunctionDefinition) : Prop :=
  ∃ name ∈ t.mentions, scope.get? name = some (.definition d)

section Calls

variable {scope : Scope} {call call' : Caller} {d : FunctionDefinition}

/-- A part invokes no more than the whole. -/
theorem Invokes.mono {t u : Term} (h : t.Invokes scope d) (hsub : ∀ name ∈ t.mentions, name ∈ u.mentions) :
    u.Invokes scope d :=
  h.imp fun name h => ⟨hsub name h.1, h.2⟩

theorem apply_congr (h : ∀ args, d.inputs.length = args.length → call d args = call' d args)
    (args : List Term) : call.apply d args = call'.apply d args := by
  rw [Caller.apply, Caller.apply]
  by_cases hlength : d.inputs.length = args.length
  · rw [if_pos hlength, if_pos hlength, h args hlength]
  · rw [if_neg hlength, if_neg hlength]

theorem evaluateName_congr {name : String}
    (h : ∀ d, scope.get? name = some (.definition d) → ∀ args, d.inputs.length = args.length →
      call d args = call' d args) :
    evaluateName call scope name = evaluateName call' scope name := by
  rcases hget : scope.get? name with _ | d | _
  · rw [evaluateName, evaluateName, hget]
  · rw [evaluateName_definition hget, evaluateName_definition hget, apply_congr (h d hget)]
  · rw [evaluateName, evaluateName, hget]

mutual

/-- What a term comes to depends on the calls that it can make alone. -/
theorem evaluateWith_congr : ∀ {t : Term},
    (∀ d, t.Invokes scope d → ∀ args, d.inputs.length = args.length → call d args = call' d args) →
    evaluateWith call scope t = evaluateWith call' scope t
  | .literal _, _ => by rw [evaluateWith, evaluateWith]
  | .emptySet _, _ => by rw [evaluateWith, evaluateWith]
  | .fullSet _, _ => by rw [evaluateWith, evaluateWith]
  | .variable v, h => by
    rw [evaluateWith, evaluateWith]
    exact evaluateName_congr fun d hget => h d ⟨v.name, List.mem_singleton_self _, hget⟩
  | .symbol f, h => by
    rw [evaluateWith, evaluateWith]
    exact evaluateName_congr fun d hget => h d ⟨f.name, List.mem_singleton_self _, hget⟩
  | .unary op t, h => by
    rw [evaluateWith, evaluateWith, evaluateWith_congr (t := t) h]
  | .binary op l r, h => by
    have hl := evaluateWith_congr (t := l) fun d hd =>
      h d (hd.mono fun _ hn => mem_mentions_binary.2 (.inl hn))
    have hr := evaluateWith_congr (t := r) fun d hd =>
      h d (hd.mono fun _ hn => mem_mentions_binary.2 (.inr hn))
    rw [evaluateWith, evaluateWith, hl, hr]
  | .ite c y n, h => by
    have hc := evaluateWith_congr (t := c) fun d hd =>
      h d (hd.mono fun _ hn => mem_mentions_ite.2 (.inl hn))
    have hy := evaluateWith_congr (t := y) fun d hd =>
      h d (hd.mono fun _ hn => mem_mentions_ite.2 (.inr (.inl hn)))
    have hn := evaluateWith_congr (t := n) fun d hd =>
      h d (hd.mono fun _ hn => mem_mentions_ite.2 (.inr (.inr hn)))
    rw [evaluateWith, evaluateWith, hc, hy, hn]
  | .nary op ts, h => by
    have hts := evaluateAll_congr (l := ts) fun t ht d hd =>
      h d (hd.mono fun _ hn => mem_mentions_nary.2 ⟨t, ht, hn⟩)
    rw [evaluateWith, evaluateWith, hts]
  | .quantified _ _ _, _ => by rw [evaluateWith, evaluateWith]
  | .call f ts, h => by
    have hts := evaluateAll_congr (l := ts) fun t ht d hd =>
      h d (hd.mono fun _ hn => mem_mentions_call.2 (.inr ⟨t, ht, hn⟩))
    rw [evaluateWith, evaluateWith, hts]
    rcases hget : scope.definition? f.name with _ | d
    · rfl
    -- only definitions that the term mentions are called, and of these both say the same
    · have happly := apply_congr (h d ⟨f.name, mem_mentions_call.2 (.inl rfl),
        Scope.definition?_eq_some.1 hget⟩)
      exact congrArg (evaluateAll call' scope ts >>= ·) (funext happly)

theorem evaluateAll_congr : ∀ {l : List Term},
    (∀ t ∈ l, ∀ d, t.Invokes scope d → ∀ args, d.inputs.length = args.length →
      call d args = call' d args) →
    evaluateAll call scope l = evaluateAll call' scope l
  | [], _ => by rw [evaluateAll, evaluateAll]
  | t :: ts, h => by
    obtain ⟨ht, hts⟩ := List.forall_mem_cons.1 h
    rw [evaluateAll, evaluateAll, evaluateWith_congr ht, evaluateAll_congr hts]

end

end Calls

/-! ## Evaluation without a bound -/

/-- Evaluating the term comes to this. Below it stand the evaluations of the bodies of all
definitions that the term mentions, for any arguments. -/
inductive Evaluates : Scope → Term → Checked Term → Prop
  | intro {scope : Scope} {t : Term} (call : Caller)
      (hcall : ∀ d, t.Invokes scope d → ∀ args, d.inputs.length = args.length →
        Evaluates (scope.ofCall d args) d.body (call d args)) :
      Evaluates scope t (evaluateWith call scope t)

section Evaluates

variable {scope : Scope} {t : Term} {r r' : Checked Term}

/-- A term evaluates to one thing only. -/
theorem Evaluates.unique (h : Evaluates scope t r) (h' : Evaluates scope t r') : r = r' := by
  induction h generalizing r' with
  | intro call hcall ih =>
    cases h' with
    | intro call' hcall' =>
      exact evaluateWith_congr fun d hd args hlength => ih d hd args hlength (hcall' d hd args hlength)

/-- Whatever carries calls out by evaluating bodies comes to what the term evaluates to. -/
theorem Evaluates.eq_of_unbounded (h : Evaluates scope t r) {run : Scope → Term → Checked Term}
    (hrun : ∀ scope t,
      run scope t = evaluateWith (fun d args => run (scope.ofCall d args) d.body) scope t) :
    run scope t = r := by
  induction h with
  | intro call hcall ih =>
    rw [hrun]
    exact evaluateWith_congr ih

end Evaluates

/-! ## Operators do not count calls -/

section Folding

variable {l r t : Term} {α : Type}

instance (cause : NormalFormFault) : Avoids Fault.IsCallDepth (.error (.malformedModel cause) : Checked α) :=
  avoids_error id

instance (op : Arithmetic) (a b : Int) :
    Avoids Fault.IsCallDepth (.error (.evaluation (.overflow op a b)) : Checked α) :=
  avoids_error id

instance (op : Arithmetic) (a : Int) :
    Avoids Fault.IsCallDepth (.error (.evaluation (.zeroDivisor op a)) : Checked α) :=
  avoids_error id

instance : Avoids Fault.IsCallDepth t.listed := by
  fun_induction Term.listed t <;> infer_instance

instance : Avoids Fault.IsCallDepth t.elements := by
  unfold elements
  infer_instance

instance : Avoids Fault.IsCallDepth (sameValue l r) := by
  unfold sameValue
  infer_instance

instance {s : SmtSort} {ts : List Term} : Avoids Fault.IsCallDepth (ofElements s ts) := by
  cases ts <;> unfold ofElements <;> infer_instance

instance {keep : Bool} : Avoids Fault.IsCallDepth (foldFilter l r keep) := by
  unfold foldFilter
  infer_instance

instance {op : Arithmetic} {a b : Int} : Avoids Fault.IsCallDepth (foldArithmetic op a b) := by
  unfold foldArithmetic
  infer_instance

instance {op : Connective} : Avoids Fault.IsCallDepth (foldConnective op l r) := by
  cases op <;> rcases hl : l.bool? with _ | _ | _ <;> rcases hr : r.bool? with _ | _ | _ <;>
    simp only [foldConnective, hl, hr] <;> infer_instance

instance {op : UnaryOp} : Avoids Fault.IsCallDepth (foldUnary op t) := by
  cases op with
  | not =>
    rcases ht : t.bool? with _ | b <;> simp only [foldUnary, ht] <;> infer_instance
  | card =>
    rw [foldUnary]
    infer_instance
  | _ => exact inferInstanceAs (Avoids _ (mkUnary _ t))

instance {op : BinaryOp} : Avoids Fault.IsCallDepth (foldBinary op l r) := by
  cases op with
  | connective c => exact inferInstanceAs (Avoids _ (foldConnective c l r))
  | comparison c =>
    rcases hl : l.int? with _ | a <;> rcases hr : r.int? with _ | b <;>
      simp only [foldBinary, hl, hr] <;> infer_instance
  | arithmetic o =>
    rcases hl : l.int? with _ | a <;> rcases hr : r.int? with _ | b <;>
      simp only [foldBinary, hl, hr] <;> infer_instance
  | set o => cases o <;> simp only [foldBinary] <;> infer_instance
  | _ =>
    simp only [foldBinary]
    infer_instance

instance {deciding : Bool} {close : List Term → Checked Term} {ts : List Term}
    [∀ us, Avoids Fault.IsCallDepth (close us)] :
    Avoids Fault.IsCallDepth (foldMany deciding close ts) := by
  unfold foldMany
  infer_instance

instance {op : NaryOp} {ts : List Term} : Avoids Fault.IsCallDepth (foldNary op ts) := by
  cases op <;> rw [foldNary] <;> infer_instance

end Folding

section Avoidance

variable {scope : Scope} {call : Caller} {d : FunctionDefinition}

theorem avoids_apply (h : ∀ args, d.inputs.length = args.length → Avoids Fault.IsCallDepth (call d args))
    (args : List Term) : Avoids Fault.IsCallDepth (call.apply d args) := by
  rw [Caller.apply]
  by_cases hlength : d.inputs.length = args.length
  · rw [if_pos hlength]
    exact h args hlength
  · rw [if_neg hlength]
    infer_instance

theorem avoids_evaluateName {name : String}
    (h : ∀ d, scope.get? name = some (.definition d) → ∀ args, d.inputs.length = args.length →
      Avoids Fault.IsCallDepth (call d args)) :
    Avoids Fault.IsCallDepth (evaluateName call scope name) := by
  rcases hget : scope.get? name with _ | d | u
  · rw [evaluateName, hget]
    exact avoids_error id
  · have := avoids_apply (h d hget)
    have : Avoids Fault.IsCallDepth (.error (.evaluation (.unapplied d.name)) : Checked Term) :=
      avoids_error id
    rw [evaluateName_definition hget]
    infer_instance
  · rw [evaluateName, hget]
    infer_instance

mutual

/-- Evaluation itself does not find too many calls in progress. -/
theorem avoids_evaluateWith : ∀ {t : Term},
    (∀ d, t.Invokes scope d → ∀ args, d.inputs.length = args.length →
      Avoids Fault.IsCallDepth (call d args)) →
    Avoids Fault.IsCallDepth (evaluateWith call scope t)
  | .literal _, _ => by
    rw [evaluateWith]
    infer_instance
  | .emptySet _, _ => by
    rw [evaluateWith]
    infer_instance
  | .fullSet _, _ => by
    rw [evaluateWith]
    infer_instance
  | .variable v, h => by
    rw [evaluateWith]
    exact avoids_evaluateName fun d hget => h d ⟨v.name, List.mem_singleton_self _, hget⟩
  | .symbol f, h => by
    rw [evaluateWith]
    exact avoids_evaluateName fun d hget => h d ⟨f.name, List.mem_singleton_self _, hget⟩
  | .unary op t, h => by
    have := avoids_evaluateWith (t := t) h
    rw [evaluateWith]
    infer_instance
  | .binary op l r, h => by
    have := avoids_evaluateWith (t := l) fun d hd =>
      h d (hd.mono fun _ hn => mem_mentions_binary.2 (.inl hn))
    have := avoids_evaluateWith (t := r) fun d hd =>
      h d (hd.mono fun _ hn => mem_mentions_binary.2 (.inr hn))
    rw [evaluateWith]
    infer_instance
  | .ite c y n, h => by
    have hc := avoids_evaluateWith (t := c) fun d hd =>
      h d (hd.mono fun _ hn => mem_mentions_ite.2 (.inl hn))
    have := avoids_evaluateWith (t := y) fun d hd =>
      h d (hd.mono fun _ hn => mem_mentions_ite.2 (.inr (.inl hn)))
    have := avoids_evaluateWith (t := n) fun d hd =>
      h d (hd.mono fun _ hn => mem_mentions_ite.2 (.inr (.inr hn)))
    rw [evaluateWith]
    -- the branches are looked at only once the condition has a value
    refine hc.bind fun c => ?_
    rcases c.bool? with _ | _ | _ <;> infer_instance
  | .nary op ts, h => by
    have := avoids_evaluateAll (l := ts) fun t ht d hd =>
      h d (hd.mono fun _ hn => mem_mentions_nary.2 ⟨t, ht, hn⟩)
    rw [evaluateWith]
    infer_instance
  | .quantified _ _ _, _ => by
    rw [evaluateWith]
    exact avoids_error id
  | .call f ts, h => by
    have := avoids_evaluateAll (l := ts) fun t ht d hd =>
      h d (hd.mono fun _ hn => mem_mentions_call.2 (.inr ⟨t, ht, hn⟩))
    rw [evaluateWith]
    rcases hget : scope.definition? f.name with _ | d
    · exact avoids_error id
    -- the call goes one level down, where it is known not to run out of levels
    · have := avoids_apply (h d ⟨f.name, mem_mentions_call.2 (.inl rfl),
        Scope.definition?_eq_some.1 hget⟩)
      exact inferInstanceAs (Avoids _ (evaluateAll call scope ts >>= call.apply d))

theorem avoids_evaluateAll : ∀ {l : List Term},
    (∀ t ∈ l, ∀ d, t.Invokes scope d → ∀ args, d.inputs.length = args.length →
      Avoids Fault.IsCallDepth (call d args)) →
    Avoids Fault.IsCallDepth (evaluateAll call scope l)
  | [], _ => by
    rw [evaluateAll]
    infer_instance
  | t :: ts, h => by
    obtain ⟨ht, hts⟩ := List.forall_mem_cons.1 h
    have := avoids_evaluateWith ht
    have := avoids_evaluateAll hts
    rw [evaluateAll]
    infer_instance

end

/-- What a term evaluates to is never that there are too many calls in progress. -/
theorem Evaluates.avoids {t : Term} {r : Checked Term} (h : Evaluates scope t r) :
    Avoids Fault.IsCallDepth r := by
  induction h with
  | intro call hcall ih => exact avoids_evaluateWith ih

end Avoidance

end Term

/-! ## Models -/

namespace Model

/-- Does a definition of the model mention a name that is no parameter of it and stands for the
other? -/
def Mentions (m : Model) (d e : FunctionDefinition) : Prop :=
  d ∈ m.functions ∧ ∃ name ∈ d.body.mentions, (∀ v ∈ d.inputs, v.name ≠ name) ∧ m.last? name = some e

/-- Do definitions mention each other in no circle? -/
def HasNoCircle (m : Model) : Prop := ∀ d, ¬Relation.TransGen m.Mentions d d

/-- The definitions that count, being the last of their names. -/
def live (m : Model) : Set FunctionDefinition := {d | ∃ name, m.last? name = some d}

variable {m : Model} {d e : FunctionDefinition}

theorem live_subset (m : Model) : m.live ⊆ {d | d ∈ m.functions} := fun _ ⟨_, h⟩ => (mem_of_last? h).1

theorem finite_live (m : Model) : m.live.Finite := (List.finite_toSet m.functions).subset m.live_subset

theorem Mentions.mem_live (h : m.Mentions d e) : e ∈ m.live := by
  obtain ⟨_, name, _, _, he⟩ := h
  exact ⟨name, he⟩

theorem ncard_live_le_length (m : Model) : m.live.ncard ≤ m.functions.length :=
  (Set.ncard_le_ncard m.live_subset (List.finite_toSet m.functions)).trans
    (ncard_mem_le_length m.functions)

/-- The definitions that count are in sight, under names of their own. -/
theorem ncard_live_le_size (m : Model) : m.live.ncard ≤ (Scope.ofModel m).size := by
  have hinj : Set.InjOn FunctionDefinition.name m.live := by
    rintro d ⟨n, hd⟩ e ⟨k, he⟩ hname
    obtain rfl := (mem_of_last? hd).2
    obtain rfl := (mem_of_last? he).2
    rw [hname, he] at hd
    exact (Option.some.inj hd).symm
  have hsub : FunctionDefinition.name '' m.live ⊆ {name | name ∈ (Scope.ofModel m).here.map Prod.fst} := by
    rintro _ ⟨d, ⟨name, hd⟩, rfl⟩
    obtain rfl := (mem_of_last? hd).2
    have hget : (Scope.ofModel m).get? d.name = some (.definition d) := by
      rw [Scope.get?_ofModel_eq, hd, Option.map_some]
    rw [Scoped.get?, Scope.around_ofModel, List.findSome?_singleton, List.lookup_eq_some_iff] at hget
    obtain ⟨front, back, hhere, _⟩ := hget
    simp [hhere]
  calc m.live.ncard = (FunctionDefinition.name '' m.live).ncard := hinj.ncard_image.symm
    _ ≤ ((Scope.ofModel m).here.map Prod.fst).length :=
      (Set.ncard_le_ncard hsub (List.finite_toSet _)).trans (ncard_mem_le_length _)
    _ ≤ (Scope.ofModel m).size := by
      rw [List.length_map]
      exact Nat.le_add_right _ _

end Model

namespace Term

variable {m : Model} {scope : Scope} {t : Term} {d : FunctionDefinition}

/-- What a body invokes its definition mentions: arguments hide the names of all parameters. -/
theorem mentions_of_invokes {args : List Term} {e : FunctionDefinition}
    (hroot : scope.root = Scope.ofModel m) (hd : d ∈ m.functions)
    (hlength : d.inputs.length = args.length) (h : d.body.Invokes (scope.ofCall d args) e) :
    m.Mentions d e := by
  obtain ⟨name, hname, hget⟩ := h
  by_cases hbound : ∃ v ∈ d.inputs, v.name = name
  · obtain ⟨v, hv, rfl⟩ := Variable.exists_isLastIn hbound
    have hall : List.Forall₂ (fun _ _ => True) d.inputs args := List.forall₂_iff_get.2 ⟨hlength, by simp⟩
    obtain ⟨front, back, as, u, bs, hsplit, rfl, hlength, _, hback⟩ := hv.exists_split hall
    rw [Scope.get?_ofCall_split hsplit hlength hback] at hget
    cases hget
  · have hne : ∀ v ∈ d.inputs, v.name ≠ name := fun v hv he => hbound ⟨v, hv, he⟩
    rw [Scope.get?_ofCall_of_ne hne, hroot, Scope.get?_ofModel_eq, Option.map_eq_some_iff] at hget
    obtain ⟨e', he, heq⟩ := hget
    obtain rfl := Binding.definition.inj heq
    exact ⟨hd, name, hname, hne, he⟩

/-- **A term evaluates if it invokes definitions of low rank only.** The induction is on the number
of calls that are left; a body invokes definitions of lower rank. -/
theorem evaluates_of_rank_lt (hm : m.HasNoCircle) : ∀ (depth : Nat) {scope : Scope} {t : Term},
    scope.root = Scope.ofModel m →
    (∀ d, t.Invokes scope d → d ∈ m.functions ∧ rankIn m.Mentions d < depth) →
    Evaluates scope t (evaluateWithin depth scope t)
  | 0, scope, t, _, h =>
    .intro _ fun d hd => absurd (h d hd).2 (Nat.not_lt_zero _)
  | depth + 1, scope, t, hroot, h => by
    refine .intro (fun d args => evaluateWithin depth (scope.ofCall d args) d.body)
      fun d hd args hlength => ?_
    obtain ⟨hmem, hrank⟩ := h d hd
    refine evaluates_of_rank_lt hm depth ((Scope.root_ofCall scope d args).trans hroot) fun e he => ?_
    have hmentions := mentions_of_invokes hroot hmem hlength he
    have hlower := rankIn_lt hm m.finite_live (fun h => h.mem_live) hmentions
    exact ⟨m.live_subset hmentions.mem_live, by omega⟩

/-- What a term invokes outermost counts. -/
theorem mem_live_of_invokes (h : t.Invokes (Scope.ofModel m) d) : d ∈ m.live := by
  obtain ⟨name, _, hget⟩ := h
  rw [Scope.get?_ofModel_eq, Option.map_eq_some_iff] at hget
  obtain ⟨e, he, heq⟩ := hget
  exact ⟨name, Binding.definition.inj heq ▸ he⟩

theorem evaluates_evaluateWithin (hm : m.HasNoCircle) {depth : Nat} (h : m.live.ncard ≤ depth)
    (t : Term) : Evaluates (Scope.ofModel m) t (evaluateWithin depth (Scope.ofModel m) t) := by
  refine evaluates_of_rank_lt hm depth (Scope.root_ofModel m) fun d hd => ?_
  have hlive := mem_live_of_invokes hd
  exact ⟨m.live_subset hlive,
    (rankIn_lt_ncard hm m.finite_live (fun h => h.mem_live) hlive).trans_le h⟩

theorem evaluates_evaluate (hm : m.HasNoCircle) (t : Term) :
    Evaluates (Scope.ofModel m) t (evaluate (Scope.ofModel m) t) :=
  evaluates_evaluateWithin hm (m.ncard_live_le_size.trans (Nat.le_add_right _ _)) t

end Term

/-! ## Instances -/

namespace Instance

variable {m : Model}

/-- Reading an instance off a model finds no more calls in progress than evaluation does. -/
theorem avoids_ofModel (h : ∀ t, Avoids Fault.IsCallDepth (Term.evaluate (Scope.ofModel m) t))
    (encoding : Encoding) : Avoids Fault.IsCallDepth (ofModel encoding m) := by
  -- of all that is read off a model only terms are evaluated, and of these it is assumed
  have hatom : ∀ value? u, Avoids Fault.IsCallDepth (atomName (Scope.ofModel m) value? u) := by
    intro value? u
    cases u with
    | literal c =>
      cases c with
      | element name s =>
        rcases value? with _ | f
        · exact inferInstanceAs (Avoids _ (.ok name))
        · cases s with
          | uint =>
            refine Avoids.bind inferInstance fun u => (h u).bind fun value => ?_
            rcases value.int? with _ | n <;> infer_instance
          | _ => exact inferInstanceAs (Avoids _ (.ok name))
      | _ => exact inferInstanceAs (Avoids _ (.error _))
    | _ => exact inferInstanceAs (Avoids _ (.error _))
  have hatoms : ∀ u : Term, Avoids Fault.IsCallDepth u.atoms := by
    intro u
    have hrefused : Avoids Fault.IsCallDepth
        (.error (.malformedModel (.notAtomTuple u)) : Checked (List Term)) := inferInstance
    cases u with
    | nary op ts =>
      cases op with
      | mkTuple =>
        rw [Term.atoms]
        infer_instance
      | _ => exact hrefused
    | _ => exact hrefused
  have htuples : ∀ value? f label, Avoids Fault.IsCallDepth (tuples (Scope.ofModel m) value? f label) := by
    intro value? f label
    rw [tuples]
    rcases (Scope.ofModel m).definition? f.name with _ | d
    · exact avoids_error id
    · exact (h _).bind fun set => inferInstance
  unfold ofModel
  infer_instance

end Instance

/-! ## The end of evaluation -/

/-- **Evaluation comes to an end on models whose definitions mention each other in no circle.**
Every term evaluates, in the order in which the calls nest, to what `evaluate` returns. No more
calls are in progress at a time than there are definitions, the bound on them is never met, and
whatever carries calls out without a bound returns the same. Hence an instance is read off such a
model without meeting the bound. -/
theorem evaluation_ends {m : Model} (hm : m.HasNoCircle) :
    (∀ t : Term, Term.Evaluates (Scope.ofModel m) t (Term.evaluate (Scope.ofModel m) t) ∧
      (∀ depth, m.functions.length ≤ depth →
        Term.evaluateWithin depth (Scope.ofModel m) t = Term.evaluate (Scope.ofModel m) t) ∧
      (∀ name, Term.evaluate (Scope.ofModel m) t ≠ .error (.evaluation (.callDepth name))) ∧
      ∀ run : Scope → Term → Checked Term,
        (∀ scope t,
          run scope t = Term.evaluateWith (fun d args => run (scope.ofCall d args) d.body) scope t) →
        run (Scope.ofModel m) t = Term.evaluate (Scope.ofModel m) t) ∧
    ∀ (encoding : Encoding) (name : String),
      Instance.ofModel encoding m ≠ .error (.evaluation (.callDepth name)) := by
  have hevaluates := Term.evaluates_evaluate hm
  refine ⟨fun t => ⟨hevaluates t, fun depth hdepth => ?_, fun name => ?_, fun run hrun => ?_⟩,
    fun encoding name => ?_⟩
  · exact (Term.evaluates_evaluateWithin hm (m.ncard_live_le_length.trans hdepth) t).unique (hevaluates t)
  · exact (hevaluates t).avoids.ne _ trivial
  · exact (hevaluates t).eq_of_unbounded hrun
  · exact (Instance.avoids_ofModel (fun t => (hevaluates t).avoids) encoding).ne _ trivial

/-- Constants and functions that stand before what they call. The parameter of one function has the
name of a constant that calls the function, and one name is defined twice. -/
def backwardsModel : Model where
  functions := [
    ⟨"top", [], .int, .call ⟨"add", [.int], .int⟩ [.symbol ⟨"base", [], .int⟩]⟩,
    ⟨"add", [.plain "top" .int], .int,
      .binary (.arithmetic .plus) (.variable (.plain "top" .int)) (.symbol ⟨"base", [], .int⟩)⟩,
    ⟨"base", [], .int, .symbol ⟨"top", [], .int⟩⟩,
    ⟨"base", [], .int, .int 1⟩]

/-- How many definitions of that model a definition leads to at most, told by the form of its body.
-/
def height (d : FunctionDefinition) : Nat :=
  match d.body with
  | .literal _ => 0
  | .binary _ _ _ => 1
  | .call _ _ => 2
  | _ => 3

theorem hasNoCircle_backwardsModel : backwardsModel.HasNoCircle := by
  refine not_transGen_self_of_lt height ?_
  rintro d e ⟨hd, name, hname, hne, he⟩
  have hsize : (backwardsModel.last? name).map height = some (height e) := by rw [he, Option.map_some]
  simp only [backwardsModel, List.mem_cons, List.not_mem_nil, or_false] at hd
  rcases hd with rfl | rfl | rfl | rfl
  · obtain rfl | rfl : name = "add" ∨ name = "base" := by
      simpa [Term.mentions, Term.freeOccurrences, Term.freeOccurrencesList, Term.symbols,
        Term.symbolsList] using hname
    · exact Option.some.inj hsize ▸ Nat.lt_succ_self 1
    · exact Option.some.inj hsize ▸ Nat.zero_lt_succ 1
  · obtain rfl | rfl : name = "top" ∨ name = "base" := by
      simpa [Term.mentions, Term.freeOccurrences, Term.symbols, Variable.plain, Variable.name] using hname
    · exact absurd rfl (hne (.plain "top" .int) (List.mem_singleton_self _))
    · exact Option.some.inj hsize ▸ Nat.zero_lt_succ 0
  · obtain rfl : name = "top" := by
      simpa [Term.mentions, Term.freeOccurrences, Term.symbols] using hname
    exact Option.some.inj hsize ▸ Nat.lt_succ_self 2
  · simp [Term.mentions, Term.freeOccurrences, Term.symbols, Term.int] at hname

/-- Three calls are in progress at most where `add` is called in `top`. -/
theorem evaluation_ends_backwards :
    Term.evaluateWithin 4 (Scope.ofModel backwardsModel) (.symbol ⟨"top", [], .int⟩) = .ok (.int 2) ∧
    Term.evaluate (Scope.ofModel backwardsModel) (.symbol ⟨"top", [], .int⟩) = .ok (.int 2) ∧
    Term.Evaluates (Scope.ofModel backwardsModel) (.symbol ⟨"top", [], .int⟩) (.ok (.int 2)) := by
  have hvalue : Term.evaluateWithin 4 (Scope.ofModel backwardsModel) (.symbol ⟨"top", [], .int⟩)
      = .ok (.int 2) := rfl
  obtain ⟨hevaluates, hwithin, -⟩ :=
    (evaluation_ends hasNoCircle_backwardsModel).1 (.symbol ⟨"top", [], .int⟩)
  rw [← hwithin 4 (by decide), hvalue] at hevaluates ⊢
  exact ⟨rfl, rfl, hevaluates⟩

end RelSmt
