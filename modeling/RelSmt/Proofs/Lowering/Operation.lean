import RelSmt.Proofs.Lowering.Exactness

/-!
# What operations on integers denote

The axioms of an operation range over its parameters. Where one of them is a set, they say nothing of
its values but those of a single element. Otherwise they speak of every value: where variables have
values that satisfy their constraints, the parameters do, and the term for the operation denotes what
the operation gives for the values of its operands.
-/

namespace RelSmt.Lowering

variable {E : Type} {s s' m : Session} {I : Interpretation E} {ρ : Assignment E} {t : Term}
  {env : Environment} {V : Set Variable} {op : Arithmetic} {x y : Term}

/-- Is this an axiom of an operation that has a set among its parameters? -/
def SetAxiom (a : Assertion) : Prop :=
  ∃ (op : Arithmetic) (x y : Term) (env : Environment) (s : Session) (t : Term) (s' : Session),
    Runs (arithmetic op x y env) s t s' ∧ a ∈ added s s' ∧
      ∃ p ∈ parametersOf x y env, p.sort.isSet = true

/-- Without a set among the parameters all of them stay as they are. -/
theorem Narrows.eq_keeping {n n' : Narrowed} {ps : List Variable} (h : Narrows s n ps n' s')
    (hps : ∀ p ∈ ps, p.sort.isSet = false) :
    s' = s ∧ n' = ⟨n.a, n.b, n.constraints, n.vars ++ ps, n.arguments ++ ps.map Variable.term⟩ := by
  induction h with
  | nil => simp
  | keep _ _ ih =>
    obtain ⟨rfl, rfl⟩ := ih fun q hq => hps q (List.mem_cons_of_mem _ hq)
    simp [Narrowed.keeping]
  | @element _ _ _ _ _ p _ _ _ hstep _ _ =>
    have hset := hps p List.mem_cons_self
    simp [hstep.sort, SmtSort.isSet] at hset

section Elements

variable {o : Operation} (ho : o.Begins op x y env s m) (hV : Hygienic s.fresh V)
  (hx : env.Covers V x) (hy : env.Covers V y) (hps : ∀ p ∈ o.parameters, p.sort.isSet = false)

include ho hps

theorem narrowed_eq : m = s ∧ o.narrowed = ⟨o.left, o.right,
    o.parameters.filterMap Variable.constraint, o.parameters, o.parameters.map Variable.term⟩ := by
  simpa using ho.narrows.eq_keeping hps

include hV hx hy

/-- What the axioms are made of has names that are known before. -/
theorem settledTerms_of_elements : SettledTerms m.fresh o.narrowed o.guard o.result := by
  obtain ⟨rfl, hnarrowed⟩ := narrowed_eq ho hps
  have hknown : ∀ {p}, p ∈ o.parameters → p ∈ V := fun hp => (mem_parameters ho hV hx hy hp).1
  have hguard := ho.guard
  rw [hnarrowed] at hguard
  refine ⟨?_, ?_, fun w hw => ?_, fun w hw => ?_⟩
  · rw [hnarrowed, term_ofTerm ho.left]
    exact fun w hw => hV.settled w (hx w hw).1
  · rw [hnarrowed, term_ofTerm ho.right]
    exact fun w hw => hV.settled w (hy w hw).1
  · obtain ⟨c, hc, hw⟩ := (Term.mem_free_allOf hguard).1 hw
    obtain ⟨p, hp, hpc⟩ := List.mem_filterMap.1 hc
    exact hV.settled w (hV.closed p (hknown hp) w (by simpa [constraintVariables, hpc] using hw))
  · have hw := free_result ho hw
    rw [hnarrowed] at hw
    exact hV.settled w (hknown hw)

/-- Where variables conform to their constraints, the axioms speak of the values that they have. -/
theorem exists_instance_of_elements (hρ : Conforms I ρ V) :
    ∃ bs, I.HasSorts o.narrowed.vars bs ∧ InstanceOf I ρ (ρ.bindAll o.narrowed.vars bs) x y o := by
  obtain ⟨_, hnarrowed⟩ := narrowed_eq ho hps
  have hknown : ∀ p ∈ o.parameters, p ∈ V := fun p hp => (mem_parameters ho hV hx hy hp).1
  -- giving the parameters the values that they have changes nothing
  have hget : ∀ w ∈ V, (ρ.bindAll o.parameters (o.parameters.map ρ.get)).get w = ρ.get w :=
    fun w hw => Assignment.get_bindAll_map_get
      (fun p hp he => hV.consistent w hw p (hknown p hp) he) rfl
  refine ⟨o.parameters.map ρ.get, ?_, ?_⟩
  · rw [hnarrowed]
    exact List.forall₂_map_right_iff.2 (List.forall₂_same.2 fun p hp => hρ.sorts p (hknown p hp))
  have hguard := ho.guard
  have hresult := ho.result
  rw [hnarrowed] at hguard hresult
  rw [show o.narrowed.vars = o.parameters by rw [hnarrowed]]
  refine ⟨?_, ?_, (Term.holds_allOf hguard).2 fun c hc => ?_, ?_⟩
  · rw [hnarrowed, term_ofTerm ho.left]
    exact Term.eval_congr I x fun w hw => hget w (hx w hw).1
  · rw [hnarrowed, term_ofTerm ho.right]
    exact Term.eval_congr I y fun w hw => hget w (hy w hw).1
  · obtain ⟨p, hp, hpc⟩ := List.mem_filterMap.1 hc
    rw [Term.eval_congr I c fun w hw => hget w (hV.closed p (hknown p hp) w
      (by simpa [constraintVariables, hpc] using hw))]
    exact hρ.constraints p (hknown p hp) c hpc
  · rw [Term.eval_apply hresult, List.map_map]
    exact congrArg _ (List.map_congr_left fun p hp => hget p (hknown p hp))

end Elements

/-- A term stands for the integers that its value holds. -/
theorem standsFor_iff_holdsInteger {v : RelSmt.Value E} (hx : x.Denotes I ρ v)
    (hsort : x.sort = .int ∨ x.sort = .uints) {n : Int} :
    StandsFor I ρ Contains x n ↔ (m.relations I).HoldsInteger v n := by
  have hv := hx.hasSort
  rw [StandsFor, hx.eval]
  rcases hsort with hsort | hsort <;> rw [hsort] at hv
  · obtain ⟨k, rfl⟩ : ∃ k, v = .int k := ⟨_, Value.eq_int_of_hasSort hv⟩
    rw [if_pos hsort]
    constructor
    · rintro rfl
      exact Or.inl rfl
    · rintro (h | ⟨e, _, hmem, _⟩)
      · exact Value.int_inj.1 h
      · exact hmem.elim
  · rw [if_neg (hsort ▸ by decide)]
    constructor
    · exact Or.inr
    · rintro (rfl | h)
      · exact hv.elim
      · exact h

theorem sort_of_ofTerm {o : Operand} (h : Operand.ofTerm x = .ok o) :
    x.sort = .int ∨ x.sort = .uints := by
  unfold Operand.ofTerm at h
  split at h
  · exact Or.inl ‹_›
  · split at h
    · exact Or.inr ‹_›
    · simp at h

/-- **The term for an operation denotes what the operation gives for the values of its operands**,
unless a parameter is a set. -/
theorem denotes_arithmetic {v w : RelSmt.Value E} (h : Runs (arithmetic op x y env) s t s')
    (hinj : I.IntInjective) (hadded : I.Satisfies (added s s'))
    (hsets : ∀ a ∈ added s s', ¬SetAxiom a) (hV : Hygienic s.fresh V) (hρ : Conforms I ρ V)
    (hx : env.Covers V x) (hy : env.Covers V y) (hxv : x.Denotes I ρ v) (hyw : y.Denotes I ρ w) :
    t.Denotes I ρ ((s.relations I).operation op v w) := by
  -- an operation has an axiom at least, so none of its parameters is a set
  have hps : ∀ p ∈ parametersOf x y env, p.sort.isSet = false := by
    obtain ⟨_, _, as, _, hadds, hne, _⟩ := runs_arithmetic_adds h
    obtain ⟨a, ha⟩ := List.exists_mem_of_ne_nil as hne
    rw [← hadds.added] at ha
    refine fun p hp => Bool.eq_false_iff.2 fun hset => hsets a ha ?_
    exact ⟨op, x, y, env, s, t, s', h, ha, p, hp, hset⟩
  obtain ⟨o, m, ho, hasserts⟩ := runs_arithmetic h
  rw [← parameters_eq ho] at hps
  obtain ⟨heval, _⟩ := exact_instance ho (settledTerms_of_elements ho hV hx hy hps)
    (exists_instance_of_elements ho hV hx hy hps hρ) hinj
    (fun p hp => hρ.sorts p (mem_parameters ho hV hx hy hp).1) hasserts hadded
  have hresults : results I ρ op x y = ((s.relations I).operation op v w).rows := by
    ext r
    simp only [results, standsFor_iff_holdsInteger (m := s) hxv (sort_of_ofTerm ho.left),
      standsFor_iff_holdsInteger (m := s) hyw (sort_of_ofTerm ho.right)]
    rfl
  rw [hresults] at heval
  refine ⟨heval, ?_⟩
  rw [sort_arithmetic h]
  rintro _ ⟨e, he, rfl, _⟩
  exact .cons he .nil

/-- Where a parameter is a set the axioms say nothing of its values but those of a single element:
here the empty set has a sum with one, although it holds no integer. -/
theorem not_denotes_emptySet : ∃ (t : Term) (s' : Session) (ρ : Assignment Int),
    Runs (arithmetic .plus aSet.term (.int 1) aSetEnv) (.start true) t s' ∧
    integerModel.Satisfies (added (.start true) s') ∧ Conforms integerModel ρ {aSet} ∧
    aSet.term.Denotes integerModel ρ (.set ∅) ∧ (Term.int 1).Denotes integerModel ρ (.int 1) ∧
    ¬t.Denotes integerModel ρ
      (((Session.start true).relations integerModel).operation .plus (.set ∅) (.int 1)) := by
  obtain ⟨s', h, hadded⟩ := runs_aSet
  let ρ : Assignment Int := fun _ _ => .set ∅
  have hempty : aSet.term.Denotes integerModel ρ (.set ∅) := ⟨rfl, fun _ hr => hr.elim⟩
  refine ⟨_, s', ρ, h, ?_, ⟨?_, ?_⟩, hempty, ⟨rfl, trivial⟩, fun hden => ?_⟩
  · rw [hadded]
    intro a ha
    obtain rfl := List.mem_singleton.1 ha
    exact valid_addOneAxiom
  · rintro x rfl
    exact hempty.hasSort
  · rintro x rfl c hc
    nomatch hc
  -- the term is a singleton in any case, the operation has no result
  · have hval := congrArg RelSmt.Value.rows hden.eval
    have hmem : (integerModel.function addOne [.set ∅]).row ∈
        ((Term.unary .singleton (.call addOne [aSet.term])).eval integerModel ρ).rows := rfl
    rw [hval] at hmem
    obtain ⟨e, _, _, m, n, hm, _⟩ := hmem
    rcases hm with hm | ⟨d, _, hd, _⟩
    · cases hm
    · exact hd.elim

end RelSmt.Lowering
