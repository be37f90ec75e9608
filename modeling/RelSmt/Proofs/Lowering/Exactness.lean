import RelSmt.Proofs.Lowering.Arithmetic

/-!
# Arithmetic on integer relations is exact

The axioms of an operation speak about all instances of its parameters at once. Where an instance
gives each set parameter a single element, narrowed terms have the values of the terms themselves
and the function is applied to the values of the parameters. So for an instance that satisfies the
constraints the axioms say what the result holds: an element for every value that elements of the
operands give, and nothing else.
-/

namespace RelSmt

variable {E : Type}

namespace Lowering

variable {s s' m : Session} {I : Interpretation E} {ρ σ : Assignment E} {env : Environment}
  {V : Set Variable} {t u : Term}

/-! ## Values of narrowed terms -/

section Narrows

variable {n n' : Narrowed} {ps vs : List Variable}

/-- Does the variable of the axioms have the value of the parameter, or the element that the
parameter holds? -/
def Fits (σ ρ : Assignment E) (p v : Variable) : Prop :=
  ρ.get p = if p.sort.isSet then .set {(σ.get v).row} else σ.get v

/-- Narrowed terms have the values that the terms have where parameters have their own values, and
these are what the function is applied to. -/
theorem Narrows.eval (h : Narrows s n ps n' s')
    (hbound : ∀ t ∈ n.terms, ∀ name ∈ t.boundNames, Settled s.fresh name)
    (hps : ∀ p ∈ ps, Settled s.fresh p.name) {vs : List Variable}
    (hvs : n'.vars = n.vars ++ vs) (hfit : List.Forall₂ (Fits σ ρ) ps vs) :
    List.Forall₂ (fun t t' => t'.eval I σ = t.eval I (σ.setAll ps (ps.map ρ.get)))
      n.terms n'.terms ∧
    n'.arguments.map (fun t => t.eval I σ) =
      n.arguments.map (fun t => t.eval I σ) ++ ps.map ρ.get := by
  induction h generalizing vs with
  | nil => exact ⟨List.forall₂_same.2 fun _ _ => rfl, by simp⟩
  | @keep s s' n n' p ps hp hrest ih =>
    obtain ⟨v, vs, hv, hrestfit, rfl⟩ := List.forall₂_cons_left_iff.1 hfit
    obtain ⟨us, hus, _⟩ := hrest.binders
    obtain ⟨rfl, rfl⟩ : v = p ∧ vs = us := by simpa [hus, Narrowed.keeping] using hvs.symm
    -- the parameter stays, and has the value that it is to be set to
    rw [Fits, hp] at hv
    have hget : (σ.setAll ps (ps.map ρ.get)).get v = ρ.get v :=
      Assignment.get_setAll_get (Or.inr hv.symm)
    obtain ⟨hterms, harguments⟩ := ih hbound (fun q hq => hps q (List.mem_cons_of_mem _ hq)) hus hrestfit
    rw [List.map_cons, Assignment.setAll, Assignment.set_get _ hget]
    refine ⟨hterms, ?_⟩
    rw [harguments]
    simp [Narrowed.keeping, Variable.term, Term.eval, hv]
  | @element s s' n m n' p e ps he hstep hrest ih =>
    obtain ⟨v, vs, hv, hrestfit, rfl⟩ := List.forall₂_cons_left_iff.1 hfit
    obtain ⟨us, hus, _⟩ := hrest.binders
    obtain ⟨rfl, rfl⟩ : v = e ∧ vs = us := by simpa [hus, hstep.binders] using hvs.symm
    -- the parameter makes way for the singleton of a variable drawn here, which no later one is
    rw [Fits, hstep.sort] at hv
    have hname : v.name = numbered "e" (s.fresh + 1) := congrArg Variable.name he
    have hne : ∀ q ∈ ps, v.name ≠ q.name := fun q hq h =>
      (hps q (List.mem_cons_of_mem _ hq)).ne_numbered (Nat.lt_succ_self _) (h.symm.trans hname)
    have hget : (σ.setAll ps (ps.map ρ.get)).get v = σ.get v :=
      Assignment.get_setAll_of_not_mem _ _ _ hne
    have hsteps := (List.forall₂_and_left _ _).2 ⟨hbound, hstep.terms⟩
    -- replacing adds no binder, so that the next one is no more captured than this one
    have hbound' : ∀ u ∈ m.terms, ∀ name ∈ u.boundNames, Settled s.next.fresh name := by
      intro u hu name hmem
      obtain ⟨t, _, ht, hreplace⟩ := exists_mem_of_forall₂ hsteps hu
      refine Settled.mono (ht name ?_) (Nat.le_succ _)
      exact (Term.mem_boundNames_replace hreplace hmem).resolve_right (by simp [Term.boundNames])
    obtain ⟨hterms, harguments⟩ := ih hbound'
      (fun q hq => (hps q (List.mem_cons_of_mem _ hq)).mono (Nat.le_succ _)) hus hrestfit
    refine ⟨forall₂_comp (fun t u t' hstep' ht' => ?_) hsteps hterms, ?_⟩
    · obtain ⟨ht, hu⟩ := hstep'
      rw [ht', Term.eval_replace I hu, List.map_cons, Assignment.setAll]
      · simp only [Term.eval, Term.unaryValue, hget]
        rw [hv, if_pos (by rfl)]
      · intro w hw hmem
        obtain rfl : w = v := by simpa [Term.freeOccurrences] using hw
        exact (ht w.name hmem).ne_numbered (Nat.lt_succ_self _) hname
    · rw [harguments, hstep.arguments, List.map_append, List.append_assoc]
      simp [Term.eval, Term.unaryValue, hv, SmtSort.isSet]

/-- The variables of the axioms have different names. -/
theorem Narrows.nodup (h : Narrows s n ps n' s') (hps : ∀ p ∈ ps, Settled s.fresh p.name)
    (hnames : (ps.map Variable.name).Nodup) {vs : List Variable}
    (hvs : n'.vars = n.vars ++ vs) : (vs.map Variable.name).Nodup := by
  induction h generalizing vs with
  | nil =>
    obtain rfl : vs = [] := by simpa using hvs
    exact List.nodup_nil
  | @keep s s' n n' p ps hp hrest ih =>
    obtain ⟨us, hus, hall⟩ := hrest.binders
    obtain rfl : vs = p :: us := by simpa [hus, Narrowed.keeping] using hvs.symm
    rw [List.map_cons, List.nodup_cons] at hnames ⊢
    -- another parameter has another name, and a number drawn later is in no parameter's name
    refine ⟨fun hmem => ?_, ih (fun q hq => hps q (List.mem_cons_of_mem _ hq)) hnames.2 hus⟩
    obtain ⟨v, hv, hname⟩ := List.mem_map.1 hmem
    obtain ⟨q, hq, hqv⟩ := exists_mem_of_forall₂ hall hv
    rcases hqv with ⟨_, rfl⟩ | ⟨_, k, hk, _, hv⟩
    · exact hnames.1 (List.mem_map.2 ⟨v, hq, hname⟩)
    · exact (hps p List.mem_cons_self).ne_numbered hk (hname.symm.trans (congrArg Variable.name hv))
  | @element s s' n m n' p e ps he hstep hrest ih =>
    obtain ⟨us, hus, hall⟩ := hrest.binders
    obtain rfl : vs = e :: us := by simpa [hus, hstep.binders] using hvs.symm
    rw [List.map_cons, List.nodup_cons] at hnames ⊢
    refine ⟨fun hmem => ?_, ih (fun q hq => (hps q (List.mem_cons_of_mem _ hq)).mono
      (Nat.le_succ _)) hnames.2 hus⟩
    obtain ⟨v, hv, hname⟩ := List.mem_map.1 hmem
    obtain ⟨q, hq, hqv⟩ := exists_mem_of_forall₂ hall hv
    -- here the name has a number: no parameter has it, and later variables have larger ones
    have hename : e.name = numbered "e" (s.fresh + 1) := congrArg Variable.name he
    rcases hqv with ⟨_, rfl⟩ | ⟨_, k, hk, _, hv⟩
    · exact (hps v (List.mem_cons_of_mem _ hq)).ne_numbered (Nat.lt_succ_self _)
        (hname.trans hename)
    · have hvname : v.name = numbered "e" k := congrArg Variable.name hv
      exact (settled_numbered (Nat.le_refl (s.fresh + 1))).ne_numbered hk
        (hename.symm.trans (hname.symm.trans hvname))

end Narrows

/-! ## Readings of operands -/

/-- Is this a value that an operand is read as, where `C` says which elements are read of a
relation?
-/
def Operand.ReadsAs (I : Interpretation E) (C : RelSmt.Value E → E → Prop) (o : Operand)
    (d v : RelSmt.Value E) : Prop :=
  match o with
  | .value _ => d = v
  | .relation _ => ∃ e ∈ I.carrier .uint, C d e ∧ .int (I.intOf e) = v

/-- Does a relation hold the element? -/
def Contains (d : RelSmt.Value E) (e : E) : Prop := [.element e] ∈ d.rows

/-- Is the element all that a relation holds? -/
def IsSole (d : RelSmt.Value E) (e : E) : Prop := d = .set {[.element e]}

/-- Does a condition on a variable and a relation say what `C` says? -/
def Expresses (I : Interpretation E) (condition : Term → Term → Checked Term)
    (C : RelSmt.Value E → E → Prop) : Prop :=
  ∀ {x : Variable} {r c : Term} {τ : Assignment E} {e : E},
    condition (.nary .mkTuple [.variable x]) r = .ok c → τ.get x = .element e →
    ((c.eval I τ).Holds ↔ C (r.eval I τ) e)

theorem expresses_isIn : Expresses I Term.isIn Contains := by
  intro x r c τ e hc hx
  obtain ⟨_, rfl⟩ := Term.isIn_eq_ok.1 hc
  simp [Contains, Term.eval, Term.evalAll, Term.binaryValue, Term.naryValue, hx]

theorem expresses_isAllOf : Expresses I isAllOf IsSole := by
  intro x r c τ e hc hx
  obtain ⟨_, _, rfl⟩ := isAllOf_eq_ok.1 hc
  simp [IsSole, Term.eval, Term.evalAll, Term.binaryValue, Term.unaryValue, Term.naryValue, hx]

/-- An operand is read as itself, or as the integers of the elements that the condition admits. -/
theorem reads_operandValue {condition : Term → Term → Checked Term}
    {C : RelSmt.Value E → E → Prop} (hC : Expresses I condition C) {o : Operand} {a : Value}
    (h : Runs (operandValue condition o) s a s') (hfree : o.term.SettledAt s.fresh)
    {v : RelSmt.Value E} : a.Reads I σ v ↔ o.ReadsAs I C (o.term.eval I σ) v := by
  rcases runs_operandValue h with ⟨ho, rfl, rfl⟩ | ⟨ho, ⟨x, c, rfl, hc, rfl⟩, rfl⟩
  · rw [ho]
    simp [Value.Reads, Operand.ReadsAs, Operand.term, Interpretation.HasSorts]
  · have hbody : ∀ b, o.term.eval I (σ.bind (.plain (numbered "x" (s.fresh + 1)) .uint) b)
        = o.term.eval I σ := by
      intro b
      refine Term.eval_bind_of_fresh I b σ fun w hw => ?_
      exact (hfree w hw).ne_numbered (Nat.lt_succ_self _)
    have hread : ∀ e ∈ I.carrier .uint, (((c.eval I (σ.bind (.plain (numbered "x" (s.fresh + 1)) .uint)
        (.element e))).Holds ∧ (Term.call intValue [.variable (.plain (numbered "x" (s.fresh + 1))
          .uint)]).eval I (σ.bind (.plain (numbered "x" (s.fresh + 1)) .uint) (.element e)) = v) ↔
        (C (o.term.eval I σ) e ∧ .int (I.intOf e) = v)) := by
      intro e he
      rw [hC hc (Assignment.get_bind_self _ _ _), hbody]
      simp only [Term.eval, Term.evalAll, Assignment.get_bind_self, function_intValue he]
    -- the operand itself no longer matters, only that its term has this value
    generalize o.term = r at *
    rw [ho]
    simp only [Value.Reads, Operand.ReadsAs, I.exists_hasSorts_single, Assignment.bindAll_cons,
      Assignment.bindAll_nil, List.mem_singleton, forall_eq]
    constructor
    · rintro ⟨b, hb, hcond, hval⟩
      obtain ⟨e, he, rfl⟩ := Value.exists_element_of_hasSort hb
      exact ⟨e, he, (hread e he).1 ⟨hcond, hval⟩⟩
    · rintro ⟨e, he, h⟩
      exact ⟨.element e, he, (hread e he).2 h⟩

/-- A variable that comes later leaves the value of a term as it is. -/
theorem eval_bind_numbered {k : Nat} {hint : String} {x : Variable} (ht : t.SettledAt k)
    (hx : x.name = numbered hint (k + 1)) (b : RelSmt.Value E) :
    t.eval I (σ.bind x b) = t.eval I σ := by
  refine Term.eval_bind_of_fresh I b σ fun w hw => ?_
  rw [hx]
  exact (ht w hw).ne_numbered (Nat.lt_succ_self _)

section Readings

variable {l r : Term} {x y : Value} (hx : ReadsFrom s l x m) (hy : ReadsFrom m r y s')

include hx in
/-- A reading mentions what the operand mentions and variables of its own. -/
theorem ReadsFrom.settledAt {k : Nat} (hl : l.SettledAt k) (hk : m.fresh ≤ k) {c : Term}
    (hc : c = x.term ∨ c ∈ x.conditions) : c.SettledAt k := by
  intro w hw
  have hw : w ∈ x.term.freeOccurrences ∨ ∃ c ∈ x.conditions, w ∈ c.freeOccurrences := by
    rcases hc with rfl | hc
    · exact Or.inl hw
    · exact Or.inr ⟨c, hc, hw⟩
  rcases hx.free w hw with hw | hw
  · exact hl w hw
  · obtain ⟨j, _, hj, hname⟩ := hx.fresh w hw
    rw [hname]
    exact settled_numbered (Nat.le_trans hj hk)

include hx hy

theorem exists_numbered_of_mem {v : Variable} (hv : v ∈ x.vars ++ y.vars) :
    ∃ k, s.fresh < k ∧ v.name = numbered "x" k := by
  rcases List.mem_append.1 hv with hv | hv
  · obtain ⟨k, hk, _, hname⟩ := hx.fresh v hv
    exact ⟨k, hk, hname⟩
  · obtain ⟨k, hk, _, hname⟩ := hy.fresh v hv
    exact ⟨k, Nat.lt_of_le_of_lt hx.grows.fresh hk, hname⟩

/-- The variables of two readings leave the value of an earlier term as it is. -/
theorem eval_bindAll_readings (ht : t.SettledAt s.fresh) (as : List (RelSmt.Value E)) :
    t.eval I (σ.bindAll (x.vars ++ y.vars) as) = t.eval I σ := by
  refine Term.eval_bindAll_of_fresh I as σ fun w hw v hv => ?_
  obtain ⟨k, hk, hname⟩ := exists_numbered_of_mem hx hy hv
  rw [hname]
  exact (ht w hw).ne_numbered hk

/-- So does a variable that comes after them. -/
theorem eval_readings_bind {k : Nat} {hint : String} {z : Variable}
    (hz : z.name = numbered hint (k + 1)) (hl : l.SettledAt k) (hr : r.SettledAt k)
    (hm : m.fresh ≤ k) (hs' : s'.fresh ≤ k) (b : RelSmt.Value E) {c : Term}
    (hc : c = x.term ∨ c = y.term ∨ c ∈ x.conditions ++ y.conditions) :
    c.eval I (σ.bind z b) = c.eval I σ := by
  refine eval_bind_numbered ?_ hz b
  rcases hc with rfl | rfl | hc
  · exact hx.settledAt hl hm (Or.inl rfl)
  · exact hy.settledAt hr hs' (Or.inl rfl)
  · rcases List.mem_append.1 hc with hc | hc
    · exact hx.settledAt hl hm (Or.inr hc)
    · exact hy.settledAt hr hs' (Or.inr hc)

end Readings

/-! ## The axioms under an assignment -/

theorem holds_allOver {vs : List Variable} (h : allOver vs t = .ok u) :
    (u.eval I ρ).Holds ↔ ∀ as, I.HasSorts vs as → (t.eval I (ρ.bindAll vs as)).Holds := by
  unfold allOver at h
  split at h
  · rename_i hempty
    obtain rfl := List.isEmpty_iff.1 hempty
    obtain rfl := Except.ok.inj h
    simp [Interpretation.HasSorts]
  · obtain ⟨_, _, rfl⟩ := Term.mkQuantified_eq_ok.1 h
    rw [Term.eval, Value.holds_truth]

theorem holds_exOver {vs : List Variable} (h : exOver vs t = .ok u) :
    (u.eval I ρ).Holds ↔ ∃ as, I.HasSorts vs as ∧ (t.eval I (ρ.bindAll vs as)).Holds := by
  unfold exOver at h
  split at h
  · rename_i hempty
    obtain rfl := List.isEmpty_iff.1 hempty
    obtain rfl := Except.ok.inj h
    simp [Interpretation.HasSorts]
  · obtain ⟨_, _, rfl⟩ := Term.mkQuantified_eq_ok.1 h
    rw [Term.eval, Value.holds_truth]

/-- Is the integer of the element what the operation gives on two values? -/
def IsResult (I : Interpretation E) (op : Arithmetic) (e : E) (v w : RelSmt.Value E) : Prop :=
  I.arithmetic op v.number w.number = I.intOf e

theorem holds_hasResult {op : Arithmetic} {x y : Value} {z : Variable} {e : E}
    (he : e ∈ I.carrier .uint) (hz : ρ.get z = .element e) :
    ((hasResult op x y z).eval I ρ).Holds ↔
      IsResult I op e (x.term.eval I ρ) (y.term.eval I ρ) := by
  simp [hasResult, IsResult, Term.eval, Term.evalAll, Term.binaryValue, hz, function_intValue he]

theorem holds_holdsElement {z : Variable} {e : E} (hz : ρ.get z = .element e) :
    ((holdsElement t z).eval I ρ).Holds ↔ Contains (t.eval I ρ) e := by
  simp [holdsElement, Contains, Term.eval, Term.evalAll, Term.binaryValue, Term.naryValue, hz]

/-- Are all the terms that axioms are made of free of names that come later? -/
structure SettledTerms (k : Nat) (n : Narrowed) (guard result : Term) : Prop where
  left : n.a.term.SettledAt k
  right : n.b.term.SettledAt k
  guard : guard.SettledAt k
  result : result.SettledAt k

theorem SettledTerms.mono {j k : Nat} {n : Narrowed} {guard result : Term}
    (h : SettledTerms j n guard result) (hjk : j ≤ k) : SettledTerms k n guard result :=
  ⟨h.left.mono hjk, h.right.mono hjk, h.guard.mono hjk, h.result.mono hjk⟩

section Axioms

variable {op : Arithmetic} {n : Narrowed} {guard result : Term} {bs : List (RelSmt.Value E)}
  (hset : SettledTerms s.fresh n guard result) (hbs : I.HasSorts n.vars bs)
  (hguard : (guard.eval I (ρ.bindAll n.vars bs)).Holds)

include hset hbs hguard

/-- By the first axiom every element of the result has a value that elements of the operands give.
-/
theorem sound_instance (h : Runs (soundAxiom op n guard result) s u s') (hu : (u.eval I ρ).Holds)
    {e : E} (he : e ∈ I.carrier .uint)
    (hmem : Contains (result.eval I (ρ.bindAll n.vars bs)) e) :
    ∃ v w, n.a.ReadsAs I Contains (n.a.term.eval I (ρ.bindAll n.vars bs)) v ∧
      n.b.ReadsAs I Contains (n.b.term.eval I (ρ.bindAll n.vars bs)) w ∧
      IsResult I op e v w := by
  obtain ⟨z, x, y, body, witness, m, hz, hx, hy, hbody, hwitness, hall⟩ := runs_soundAxiom h
  have hrx := readsFrom_operandValue mentionsOperands_isIn hx
  have hry := readsFrom_operandValue mentionsOperands_isIn hy
  have hzname : z.name = numbered "z" (s.fresh + 1) := congrArg Variable.name hz
  have hzsort : z.sort = .uint := congrArg Variable.sort hz
  generalize hσ : ρ.bindAll n.vars bs = σ at hguard hmem ⊢
  have hkeep := fun {t : Term} (ht : t.SettledAt s.fresh) =>
    eval_bind_numbered (I := I) (σ := σ) ht hzname (.element e)
  -- the axiom at this instance and this element of the result
  have hsorts : I.HasSorts (n.vars ++ [z]) (bs ++ [.element e]) :=
    I.hasSorts_append.2 ⟨bs, _, rfl, hbs, .cons (by rw [hzsort]; exact he) .nil⟩
  have hholds := (holds_allOver hall).1 hu _ hsorts
  rw [Assignment.bindAll_append _ _ _ _ _ hbs.length, hσ] at hholds
  simp only [Assignment.bindAll_cons, Assignment.bindAll_nil, Term.eval, Term.binaryValue,
    Connective.Holds, Value.holds_truth, hkeep hset.guard,
    holds_holdsElement (Assignment.get_bind_self _ _ _), hkeep hset.result] at hholds
  obtain ⟨as, has, hwit⟩ := (holds_exOver hwitness).1 (hholds ⟨hguard, hmem⟩)
  rw [Term.holds_allOf hbody] at hwit
  -- the readings draw later names, which leaves the element as it is
  have hzget : ((σ.bind z (.element e)).bindAll (x.vars ++ y.vars) as).get z
      = .element e := by
    rw [Assignment.get_bindAll_of_not_mem _ _ _ fun v hv => ?_, Assignment.get_bind_self]
    obtain ⟨k, hk, hname⟩ := exists_numbered_of_mem hrx hry hv
    rw [hzname, hname]
    exact (settled_numbered (Nat.le_refl (s.fresh + 1))).ne_numbered hk
  have hfa : n.a.term.SettledAt s.next.fresh := hset.left.mono (Nat.le_succ _)
  have hfb : n.b.term.SettledAt s.next.fresh := hset.right.mono (Nat.le_succ _)
  obtain ⟨v, w, hv, hw, hresult⟩ := (reads_both hrx hry hfa hfb (p := IsResult I op e)).1
    ⟨as, has, fun c hc => hwit c (List.mem_append_left _ hc), (holds_hasResult he hzget).1
      (hwit _ (List.mem_append_right _ List.mem_cons_self))⟩
  rw [reads_operandValue expresses_isIn hx hfa, hkeep hset.left] at hv
  rw [reads_operandValue expresses_isIn hy (hfb.mono hrx.grows.fresh), hkeep hset.right] at hw
  exact ⟨v, w, hv, hw, hresult⟩

/-- By the second axiom every value that elements of the operands give is that of an element of the
result. -/
theorem complete_instance (h : Runs (completeAxiom op n guard result) s u s')
    (hu : (u.eval I ρ).Holds) {v w : RelSmt.Value E}
    (hv : n.a.ReadsAs I Contains (n.a.term.eval I (ρ.bindAll n.vars bs)) v)
    (hw : n.b.ReadsAs I Contains (n.b.term.eval I (ρ.bindAll n.vars bs)) w) :
    ∃ e ∈ I.carrier .uint, Contains (result.eval I (ρ.bindAll n.vars bs)) e ∧
      IsResult I op e v w := by
  obtain ⟨z, x, y, body, k, m, hz, hx, hy, rfl, hbody, hall⟩ := runs_completeAxiom h
  have hrx := readsFrom_operandValue mentionsOperands_isIn hx
  have hry := readsFrom_operandValue mentionsOperands_isIn hy
  have hzname : z.name = numbered "z" (m.fresh + 1) := congrArg Variable.name hz
  have hzsort : z.sort = .uint := congrArg Variable.sort hz
  rw [← reads_operandValue expresses_isIn hx hset.left] at hv
  rw [← reads_operandValue expresses_isIn hy (hset.right.mono hrx.grows.fresh)] at hw
  -- the readings of one value each are values for the variables of the axiom
  obtain ⟨as, has, hconds, rfl, rfl⟩ := (reads_both hrx hry hset.left hset.right
    (p := fun v' w' => v' = v ∧ w' = w)).2 ⟨v, w, hv, hw, rfl, rfl⟩
  generalize hσ : ρ.bindAll n.vars bs = σ at hguard hconds has ⊢
  have hsorts : I.HasSorts (n.vars ++ (x.vars ++ y.vars)) (bs ++ as) :=
    I.hasSorts_append.2 ⟨bs, as, rfl, hbs, has⟩
  have hkeep := fun {t : Term} (ht : t.SettledAt s.fresh) =>
    eval_bindAll_readings (I := I) (σ := σ) hrx hry ht as
  have hholds := (holds_allOver hall).1 hu (bs ++ as) (by rw [List.append_assoc]; exact hsorts)
  rw [List.append_assoc, Assignment.bindAll_append _ _ _ _ _ hbs.length, hσ] at hholds
  simp only [Term.eval, Term.binaryValue, Connective.Holds, Value.holds_truth,
    Term.holds_allOf hbody] at hholds
  obtain ⟨es, hes, hmem, hresult⟩ := hholds (by
    intro c hc
    rw [List.cons_append, List.mem_cons] at hc
    rcases hc with rfl | hc
    · rw [hkeep hset.guard]
      exact hguard
    · exact hconds c hc)
  obtain ⟨b, rest, hb, hrest, rfl⟩ := List.forall₂_cons_left_iff.1 hes
  obtain rfl := List.forall₂_nil_left_iff.1 hrest
  rw [hzsort] at hb
  obtain ⟨e, he, rfl⟩ := Value.exists_element_of_hasSort hb
  have hle : s.fresh ≤ m.fresh := Nat.le_trans hrx.grows.fresh hry.grows.fresh
  have hlast := fun {c : Term} => eval_readings_bind (I := I)
    (σ := σ.bindAll (x.vars ++ y.vars) as) hrx hry hzname (hset.left.mono hle)
    (hset.right.mono hle) hry.grows.fresh (Nat.le_refl _) (.element e) (c := c)
  rw [Assignment.bindAll_cons, Assignment.bindAll_nil] at hmem hresult
  rw [holds_holdsElement (Assignment.get_bind_self _ _ _),
    eval_bind_numbered (hset.result.mono hle) hzname, hkeep hset.result] at hmem
  rw [holds_hasResult he (Assignment.get_bind_self _ _ _), hlast (Or.inl rfl),
    hlast (Or.inr (Or.inl rfl))] at hresult
  exact ⟨e, he, hmem, hresult⟩

/-- By the one axiom for single elements the operands are such, and so is the result. -/
theorem single_instance {body guarded : Term}
    (h : Runs (singletonAxiom op n.a n.b result) s body s')
    (hguarded : (guard.bool? = some true ∧ guarded = body) ∨
      .binary (.connective .implies) guard body = guarded)
    (hall : allOver n.vars guarded = .ok u) (hu : (u.eval I ρ).Holds) :
    ∃ e ∈ I.carrier .uint, result.eval I (ρ.bindAll n.vars bs) = .tuple [.element e] ∧
      ∃ v w, n.a.ReadsAs I IsSole (n.a.term.eval I (ρ.bindAll n.vars bs)) v ∧
        n.b.ReadsAs I IsSole (n.b.term.eval I (ρ.bindAll n.vars bs)) w ∧
        IsResult I op e v w := by
  obtain ⟨z, x, y, inner, k, m, hz, hx, hy, rfl, hinner, hex⟩ := runs_singletonAxiom h
  have hrx := readsFrom_operandValue mentionsOperands_isAllOf hx
  have hry := readsFrom_operandValue mentionsOperands_isAllOf hy
  have hzname : z.name = numbered "z" (m.fresh + 1) := congrArg Variable.name hz
  have hzsort : z.sort = .uint := congrArg Variable.sort hz
  have hle : s.fresh ≤ m.fresh := Nat.le_trans hrx.grows.fresh hry.grows.fresh
  have hholds := (holds_allOver hall).1 hu bs hbs
  -- the instance of the closed formula at hand
  generalize ρ.bindAll n.vars bs = σ at hguard hholds ⊢
  have hbody : (body.eval I σ).Holds := by
    rcases hguarded with ⟨_, rfl⟩ | rfl
    · exact hholds
    · exact hholds hguard
  -- it has values for the readings of both operands, and the element of the result last
  obtain ⟨_, hes, hinstance⟩ := (holds_exOver hex).1 hbody
  obtain ⟨as, cs, rfl, has, hcs⟩ := I.hasSorts_append.1 hes
  obtain ⟨b, rest, hb, hrest, rfl⟩ := List.forall₂_cons_left_iff.1 hcs
  obtain rfl := List.forall₂_nil_left_iff.1 hrest
  rw [hzsort] at hb
  obtain ⟨e, he, rfl⟩ := Value.exists_element_of_hasSort hb
  have hlast := fun {c : Term} => eval_readings_bind (I := I)
    (σ := σ.bindAll (x.vars ++ y.vars) as) hrx hry hzname (hset.left.mono hle)
    (hset.right.mono hle) hry.grows.fresh (Nat.le_refl _) (.element e) (c := c)
  -- the result's element is bound last and is in no reading, so it may be forgotten there
  rw [Term.holds_allOf hinner, Assignment.bindAll_append _ _ _ _ _ has.length,
    Assignment.bindAll_cons, Assignment.bindAll_nil] at hinstance
  obtain ⟨v, w, hv, hw, hresult⟩ := (reads_both hrx hry hset.left hset.right
    (p := IsResult I op e)).1 ⟨as, has, fun c hc => by
      rw [← hlast (Or.inr (Or.inr hc))]
      exact hinstance c (List.mem_append_left _ hc), by
      rw [← hlast (Or.inl rfl), ← hlast (Or.inr (Or.inl rfl))]
      refine (holds_hasResult he (Assignment.get_bind_self _ _ _)).1 (hinstance _ ?_)
      simp⟩
  rw [reads_operandValue expresses_isAllOf hx hset.left] at hv
  rw [reads_operandValue expresses_isAllOf hy (hset.right.mono hrx.grows.fresh)] at hw
  refine ⟨e, he, ?_, v, w, hv, hw, hresult⟩
  have htuple := hinstance (.binary .eq result (.nary .mkTuple [.variable z])) (by simp)
  simpa [Term.eval, Term.evalAll, Term.binaryValue, Term.naryValue, Assignment.get_bind_self,
    eval_bind_numbered (hset.result.mono hle) hzname,
    eval_bindAll_readings hrx hry hset.result] using htuple

end Axioms

/-! ## Instances of the parameters -/

/-- Is the assignment an instance of the parameters? Values have the sorts of the parameters, sets
hold a single element, and the constraints hold. -/
structure IsInstance (I : Interpretation E) (ps : List Variable) (ρ : Assignment E) : Prop where
  sorts : ∀ p ∈ ps, (ρ.get p).HasSort I.carrier p.sort
  single : ∀ p ∈ ps, p.sort.isSet = true → ∃ t, ρ.get p = .set {t}
  constraints : ∀ p ∈ ps, ∀ c, p.constraint = some c → (c.eval I ρ).Holds

/-- Are these the variables that two operands lead to, does the environment mention each of them,
and do fresh names avoid all names around them? -/
structure Tidy (n : Nat) (V : Set Variable) (env : Environment) (x y : Term) : Prop where
  hygienic : Hygienic n V
  operands : ∀ v, v ∈ x.freeOccurrences ∨ v ∈ y.freeOccurrences → v ∈ V
  mentions : ∀ v ∈ V, env.mentions v = true
  bound : ∀ t, t = x ∨ t = y ∨ (∃ v ∈ V, v.constraint = some t) →
    ∀ name ∈ t.boundNames, Settled n name

section Instances

variable {op : Arithmetic} {x y : Term} {o : Operation} (ho : o.Begins op x y env s m)
  (hV : Tidy s.fresh V env x y)

include ho hV

theorem Tidy.mem_parameters {p : Variable} (hp : p ∈ o.parameters) : p ∈ V :=
  (Lowering.mem_parameters ho hV.hygienic
    (fun v hv => ⟨hV.operands v (Or.inl hv), hV.mentions v (hV.operands v (Or.inl hv))⟩)
    (fun v hv => ⟨hV.operands v (Or.inr hv), hV.mentions v (hV.operands v (Or.inr hv))⟩) hp).1

/-- Parameters have different names. -/
theorem Tidy.nodup_parameters : (o.parameters.map Variable.name).Nodup := by
  refine List.pairwise_map.2 ((pairwise_parameters ho).imp_of_mem fun {u v} hu hv hne he => ?_)
  have hsort := hV.hygienic.consistent u (hV.mem_parameters ho hu) v (hV.mem_parameters ho hv) he
  rw [Variable.beq_iff.2 ⟨he, hsort⟩] at hne
  exact absurd hne (by simp)

/-- The terms that narrowing starts with have variables of parameters only. -/
theorem Tidy.exists_parameter {t : Term}
    (ht : t ∈ (⟨o.left, o.right, o.parameters.filterMap Variable.constraint, [], []⟩ :
      Narrowed).terms) {w : Variable} (hw : w ∈ t.freeOccurrences) :
    ∃ p ∈ o.parameters, (w == p) = true := by
  have hterms : (w ∈ x.freeOccurrences ∨ w ∈ y.freeOccurrences) ∨
      ∃ p ∈ o.parameters, w ∈ constraintVariables p := by
    rcases mem_operands ho ht with rfl | rfl | ⟨p, hp, hc⟩
    · exact Or.inl (Or.inl hw)
    · exact Or.inl (Or.inr hw)
    · exact Or.inr ⟨p, hp, by simpa [constraintVariables, hc] using hw⟩
  refine Lowering.exists_parameter ho hterms (hV.mentions w ?_)
  rcases hterms with hw | ⟨p, hp, hw⟩
  · exact hV.operands w hw
  · exact hV.hygienic.closed p (hV.mem_parameters ho hp) w hw

theorem Tidy.bound_terms {t : Term}
    (ht : t ∈ (⟨o.left, o.right, o.parameters.filterMap Variable.constraint, [], []⟩ :
      Narrowed).terms) : ∀ name ∈ t.boundNames, Settled s.fresh name := by
  refine hV.bound t ((mem_operands ho ht).imp_right (Or.imp_right fun hconstraint => ?_))
  obtain ⟨p, hp, hc⟩ := hconstraint
  exact ⟨p, hV.mem_parameters ho hp, hc⟩

/-- What the axioms are made of has names that come before theirs. -/
theorem Tidy.settledTerms : SettledTerms m.fresh o.narrowed o.guard o.result := by
  have hle := ho.narrows.adds.fresh
  have hvars : ∀ v ∈ o.narrowed.vars, Settled m.fresh v.name := by
    intro v hv
    rcases narrowed_variables ho hv with hv | ⟨k, _, hk, hname⟩
    · exact (hV.hygienic.settled v (hV.mem_parameters ho hv)).mono hle
    · rw [hname]
      exact settled_numbered hk
  have hterms : ∀ t ∈ o.narrowed.terms, t.SettledAt m.fresh := by
    intro t' ht' w hw
    obtain ⟨t, ht, hfree⟩ := exists_mem_of_forall₂
      ((List.forall₂_and_left _ _).2 ⟨fun _ h => h, ho.narrows.free⟩) ht'
    rcases hfree.2 w hw with ⟨hw, _⟩ | hw
    · obtain ⟨p, hp, he⟩ := hV.exists_parameter ho ht hw
      rw [(Variable.beq_iff.1 he).1]
      exact (hV.hygienic.settled p (hV.mem_parameters ho hp)).mono hle
    · exact hvars w hw
  refine ⟨hterms _ List.mem_cons_self, hterms _ (List.mem_cons_of_mem _ List.mem_cons_self),
    fun w hw => ?_, fun w hw => hvars w (free_result ho hw)⟩
  obtain ⟨c, hc, hw⟩ := (Term.mem_free_allOf ho.guard).1 hw
  exact hterms c (List.mem_cons_of_mem _ (List.mem_cons_of_mem _ hc)) w hw

/-- The variables of the axioms have values that fit an instance of the parameters. -/
theorem Tidy.exists_fitting (hρ : IsInstance I o.parameters ρ) : ∃ bs,
    I.HasSorts o.narrowed.vars bs ∧
      List.Forall₂ (Fits (ρ.bindAll o.narrowed.vars bs) ρ) o.parameters
        o.narrowed.vars := by
  obtain ⟨vs, hvs, hall⟩ := ho.narrows.binders
  rw [List.nil_append] at hvs
  have hnodup := ho.narrows.nodup (fun p hp => hV.hygienic.settled p (hV.mem_parameters ho hp))
    (hV.nodup_parameters ho) (hvs.trans (List.nil_append vs).symm)
  choose! row hrow using hρ.single
  let value := fun p : Variable => if p.sort.isSet then RelSmt.Value.tuple (row p) else ρ.get p
  have hpairs := (List.forall₂_and_left _ _).2 ⟨fun p (hp : p ∈ o.parameters) => hp, hall⟩
  have hlen : vs.length = (o.parameters.map value).length := by
    rw [List.length_map]
    exact hall.length_eq.symm
  -- a variable of the axioms has the value of the parameter that it stands for
  have hget : List.Forall₂ (fun p v => value p = (ρ.bindAll vs (o.parameters.map value)).get v)
      o.parameters vs := by
    have hmap := Assignment.map_get_bindAll vs (o.parameters.map value) ρ hlen hnodup
    have heq : List.Forall₂ Eq (o.parameters.map value)
        (vs.map (ρ.bindAll vs (o.parameters.map value)).get) := by
      rw [hmap, List.forall₂_eq_eq_eq]
    exact List.forall₂_map_right_iff.1 (List.forall₂_map_left_iff.1 heq)
  rw [hvs]
  refine ⟨o.parameters.map value, ?_, hget.mp ?_ hpairs⟩
  · refine List.Forall₂.flip (List.forall₂_map_left_iff.2 (hpairs.imp ?_))
    rintro p v ⟨hp, ⟨hset, rfl⟩ | ⟨hset, _⟩⟩
    · simpa [value, hset, flip] using hρ.sorts v hp
    · have hsort := hρ.sorts p hp
      rw [hrow p hp (by rw [hset]; rfl), hset] at hsort
      have hrowsort : (RelSmt.Value.tuple (row p)).HasSort I.carrier v.sort := hsort _ rfl
      simpa [value, hset, flip, SmtSort.isSet] using hrowsort
  · rintro p v hv ⟨hp, ⟨hset, rfl⟩ | ⟨hset, _⟩⟩
    · rw [Fits, hset, ← hv]
      simp [value, hset]
    · rw [Fits, ← hv, if_pos (by rw [hset]; rfl), hrow p hp (by rw [hset]; rfl)]
      simp [value, hset, SmtSort.isSet]

end Instances

/-- What the axioms are made of, under values that fit an instance of the parameters: operands have
the values of the operands themselves, the guard holds, and the result is that of the function at
the parameters. -/
structure InstanceOf (I : Interpretation E) (ρ σ : Assignment E) (x y : Term) (o : Operation) :
    Prop where
  left : o.narrowed.a.term.eval I σ = x.eval I ρ
  right : o.narrowed.b.term.eval I σ = y.eval I ρ
  guard : (o.guard.eval I σ).Holds
  result : o.result.eval I σ = I.function o.function (o.parameters.map ρ.get)

theorem Tidy.exists_instance {op : Arithmetic} {x y : Term} {o : Operation}
    (hV : Tidy s.fresh V env x y) (ho : o.Begins op x y env s m)
    (hρ : IsInstance I o.parameters ρ) : ∃ bs, I.HasSorts o.narrowed.vars bs ∧
      InstanceOf I ρ (ρ.bindAll o.narrowed.vars bs) x y o := by
  obtain ⟨bs, hbs, hfit⟩ := hV.exists_fitting ho hρ
  obtain ⟨hterms, harguments⟩ := ho.narrows.eval (I := I) (fun t ht => hV.bound_terms ho ht)
    (fun p hp => hV.hygienic.settled p (hV.mem_parameters ho hp)) (by simp) hfit
  refine ⟨bs, hbs, ?_⟩
  generalize ρ.bindAll o.narrowed.vars bs = σ at hterms harguments
  -- operands and constraints mention parameters only, and these have their own values
  have heval := ((List.forall₂_and_left _ _).2 ⟨fun _ h => h, hterms⟩).imp
    (S := fun t t' => t'.eval I σ = t.eval I ρ) (by
      rintro t t' ⟨ht, ht'⟩
      rw [ht']
      exact Term.eval_congr I t fun w hw =>
        Assignment.get_setAll_get (Or.inl (hV.exists_parameter ho ht hw)))
  obtain ⟨hleft, hright, hconstraints⟩ := Narrowed.forall₂_terms.1 heval
  rw [term_ofTerm ho.left] at hleft
  rw [term_ofTerm ho.right] at hright
  refine ⟨hleft, hright, (Term.holds_allOf ho.guard).2 fun c' hc' => ?_, ?_⟩
  · obtain ⟨c, hc, he⟩ := exists_mem_of_forall₂ hconstraints hc'
    obtain ⟨p, hp, hpc⟩ := List.mem_filterMap.1 hc
    rw [he]
    exact hρ.constraints p hp c hpc
  · rw [Term.eval_apply ho.result, harguments]
    rfl

/-! ## Exactness -/

/-- Does a term stand for the integer? A native integer does for what it is, a relation for the
integers of the elements that `C` admits. -/
def StandsFor (I : Interpretation E) (ρ : Assignment E) (C : RelSmt.Value E → E → Prop) (t : Term)
    (n : Int) : Prop :=
  if t.sort = .int then (t.eval I ρ).number = n
  else ∃ e ∈ I.carrier .uint, C (t.eval I ρ) e ∧ I.intOf e = n

/-- An operand is read as the integers that it stands for. -/
theorem standsFor_iff {C : RelSmt.Value E → E → Prop} {x : Term} {o o' : Operand}
    (ho : Operand.ofTerm x = .ok o) (ho' : o' = o.withTerm o'.term) {n : Int} :
    StandsFor I ρ C x n ↔ ∃ v, o'.ReadsAs I C (x.eval I ρ) v ∧ v.number = n := by
  rw [ho']
  unfold Operand.ofTerm at ho
  split at ho
  · rename_i hsort
    rw [← Except.ok.inj ho, StandsFor, if_pos hsort]
    simp [Operand.withTerm, Operand.ReadsAs]
  · rename_i hsort
    split at ho
    · rw [← Except.ok.inj ho, StandsFor, if_neg hsort]
      constructor
      · rintro ⟨e, he, hC, hn⟩
        exact ⟨_, ⟨e, he, hC, rfl⟩, hn⟩
      · rintro ⟨_, ⟨e, he, hC, rfl⟩, hn⟩
        exact ⟨e, he, hC, hn⟩
    · simp at ho

/-- A relation that holds one element only holds it. -/
theorem StandsFor.contains {x : Term} {n : Int} (h : StandsFor I ρ IsSole x n) :
    StandsFor I ρ Contains x n := by
  unfold StandsFor at *
  split
  · rename_i hsort
    rwa [if_pos hsort] at h
  · rename_i hsort
    rw [if_neg hsort] at h
    obtain ⟨e, he, hC, hn⟩ := h
    refine ⟨e, he, ?_, hn⟩
    rw [IsSole] at hC
    rw [Contains, hC]
    rfl

/-- What stands for one integer only stands for no other. -/
theorem StandsFor.unique {x : Term} {n k : Int} (h : StandsFor I ρ IsSole x n)
    (hk : StandsFor I ρ Contains x k) : k = n := by
  unfold StandsFor at *
  split at h
  · rename_i hsort
    rw [if_pos hsort] at hk
    rw [← h, ← hk]
  · rename_i hsort
    rw [if_neg hsort] at hk
    obtain ⟨e, he, hC, rfl⟩ := h
    obtain ⟨d, hd, hmem, rfl⟩ := hk
    rw [IsSole] at hC
    rw [Contains, hC] at hmem
    obtain rfl : d = e := by simpa using hmem
    rfl

/-- The elements for the results of an operation on all integers that two operands stand for. -/
def results (I : Interpretation E) (ρ : Assignment E) (op : Arithmetic) (x y : Term) :
    Set (Tuple E) :=
  {r | ∃ e ∈ I.carrier .uint, r = [.element e] ∧ ∃ i j, StandsFor I ρ Contains x i ∧
    StandsFor I ρ Contains y j ∧ I.arithmetic op i j = I.intOf e}

section Exact

variable {op : Arithmetic} {x y : Term} {o : Operation} (ho : o.Begins op x y env s m)
  (hset : SettledTerms m.fresh o.narrowed o.guard o.result)
  (hinstance : ∃ bs, I.HasSorts o.narrowed.vars bs ∧
    InstanceOf I ρ (ρ.bindAll o.narrowed.vars bs) x y o)

include ho hset hinstance

/-- Where relations are single elements the axiom makes the operands such, and the result the
element that has the value. -/
theorem exact_single (hadds : Adds s (m.next.declaring o.function) [])
    (h : AssertsSingleton op o (m.next.declaring o.function) t s')
    (hadded : I.Satisfies (added s s')) :
    ∃ i j, StandsFor I ρ IsSole x i ∧ StandsFor I ρ IsSole y j ∧
      ∃ e ∈ I.carrier .uint, IsSole (t.eval I ρ) e ∧ I.arithmetic op i j = I.intOf e := by
  obtain ⟨body, guarded, formula, comment, call, k, hbody, hguard, hall, hcall, rfl, rfl⟩ := h
  have hcloses := closesOver_singletonAxiom hbody hguard hall
  rw [((hadds.trans hcloses.adds).trans (adds_asserting k _)).added] at hadded
  obtain ⟨bs, hbs, hinstance⟩ := hinstance
  obtain ⟨e, he, hresult, v, w, hv, hw, hval⟩ := single_instance (hset.mono (Nat.le_succ _)) hbs
    hinstance.guard hbody hguard hall (hadded ⟨comment, formula, none⟩ (by simp) ρ)
  obtain ⟨hleft, hright⟩ := ho.narrows.operands
  rw [hinstance.left] at hv
  rw [hinstance.right] at hw
  rw [hinstance.result] at hresult
  refine ⟨v.number, w.number, (standsFor_iff ho.left hleft).2 ⟨v, hv, rfl⟩,
    (standsFor_iff ho.right hright).2 ⟨w, hw, rfl⟩, e, he, ?_, hval⟩
  rw [IsSole, Term.eval, Term.eval_apply hcall, List.map_map]
  simp only [Function.comp_def, Variable.term, Term.eval, hresult, Term.unaryValue, Value.row_tuple]

/-- Where relations are sets of any size the two axioms make the result hold the elements for all
results and no others. -/
theorem exact_inclusions (hinj : I.IntInjective)
    (hsorts : ∀ p ∈ o.parameters, (ρ.get p).HasSort I.carrier p.sort)
    (hadds : Adds s (m.next.declaring o.function) [])
    (hoperands : o.function.output = .uints)
    (h : AssertsInclusions op o (m.next.declaring o.function) t s')
    (hadded : I.Satisfies (added s s')) : t.eval I ρ = .set (results I ρ op x y) := by
  obtain ⟨sound, complete, comment, comment', k, k', hsound, hcomplete, hcall, rfl⟩ := h
  have hs := (closesOver_soundAxiom hsound).adds
  have hc := (closesOver_completeAxiom hcomplete).adds
  rw [((((hadds.trans hs).trans hc).trans (adds_asserting k' _)).trans
    (adds_asserting _ _)).added] at hadded
  obtain ⟨bs, hbs, hinstance⟩ := hinstance
  replace hset := hset.mono (Nat.le_succ _)
  obtain ⟨hleft, hright⟩ := ho.narrows.operands
  have hsoundAt := fun {e : E} => sound_instance (e := e) hset hbs hinstance.guard hsound
    (hadded ⟨comment, sound, none⟩ (by simp) ρ)
  have hcompleteAt := fun {v w : RelSmt.Value E} => complete_instance (v := v) (w := w)
    (hset.mono hs.fresh) hbs hinstance.guard hcomplete
    (hadded ⟨comment', complete, none⟩ (by simp) ρ)
  rw [hinstance.left, hinstance.right, hinstance.result] at hsoundAt hcompleteAt
  -- the value of the application is a set of single elements
  have hvalue : t.eval I ρ = I.function o.function (o.parameters.map ρ.get) := by
    rw [Term.eval_apply hcall, List.map_map]
    rfl
  rw [← hvalue] at hsoundAt hcompleteAt
  have hsort := Term.hasSort_apply hcall (by rw [hoperands]; trivial) hsorts
  rw [hoperands] at hsort
  rw [Value.eq_set_of_hasSort hsort]
  congr 1
  ext r
  constructor
  · intro hr
    obtain ⟨e, he, rfl⟩ := Tuple.exists_of_hasSorts_uint (Value.hasSort_of_mem_rows hsort hr)
    obtain ⟨v, w, hv, hw, hval⟩ := hsoundAt he hr
    exact ⟨e, he, rfl, v.number, w.number, (standsFor_iff ho.left hleft).2 ⟨v, hv, rfl⟩,
      (standsFor_iff ho.right hright).2 ⟨w, hw, rfl⟩, hval⟩
  · rintro ⟨e, he, rfl, i, j, hi, hj, hval⟩
    obtain ⟨v, hv, rfl⟩ := (standsFor_iff ho.left hleft).1 hi
    obtain ⟨w, hw, rfl⟩ := (standsFor_iff ho.right hright).1 hj
    obtain ⟨d, hd, hmem, hval'⟩ := hcompleteAt hv hw
    obtain rfl := hinj d hd e he (hval'.symm.trans hval)
    exact hmem

/-- At an instance of its axioms the term that stands for an operation holds the results. -/
theorem exact_instance (hinj : I.IntInjective)
    (hsorts : ∀ p ∈ o.parameters, (ρ.get p).HasSort I.carrier p.sort)
    (h : if s.singletonsOnly then AssertsSingleton op o (m.next.declaring o.function) t s'
      else AssertsInclusions op o (m.next.declaring o.function) t s')
    (hadded : I.Satisfies (added s s')) :
    t.eval I ρ = .set (results I ρ op x y) ∧
    (s.singletonsOnly = true → ∃ i j, StandsFor I ρ IsSole x i ∧ StandsFor I ρ IsSole y j ∧
      ∃ e ∈ I.carrier .uint, IsSole (t.eval I ρ) e ∧ I.arithmetic op i j = I.intOf e) := by
  have hadds : Adds s (m.next.declaring o.function) [] :=
    (ho.narrows.adds.trans (adds_next m)).trans (adds_declaring _ _)
  split at h
  -- one element on either side: the results are those of one pair, so the set is that element
  · rename_i hsingle
    obtain ⟨i, j, hi, hj, e, he, ht, hval⟩ := exact_single ho hset hinstance hadds h hadded
    refine ⟨?_, fun _ => ⟨i, j, hi, hj, e, he, ht, hval⟩⟩
    rw [show t.eval I ρ = .set {[.element e]} from ht]
    congr 1
    ext r
    constructor
    · intro hr
      exact ⟨e, he, hr, i, j, hi.contains, hj.contains, hval⟩
    · rintro ⟨d, hd, rfl, i', j', hi', hj', hval'⟩
      rw [hi.unique hi', hj.unique hj', hval] at hval'
      rw [hinj e he d hd hval']
      rfl
  · rename_i hsingle
    have hoperands : o.function.output = .uints := by
      rw [ho.function, if_neg hsingle]
    exact ⟨exact_inclusions ho hset hinstance hinj hsorts hadds hoperands h hadded,
      fun h => absurd h hsingle⟩

end Exact

/-- **Lowering an operation is exact.** Under an instance of its parameters the term that stands for
the operation holds the elements for its results on all integers that the operands stand for, and no
others. Where relations have to be single elements, the operands and the result are. -/
theorem arithmetic_exact {op : Arithmetic} {x y : Term} (h : Runs (arithmetic op x y env) s t s')
    (hV : Tidy s.fresh V env x y) (hinj : I.IntInjective) (hadded : I.Satisfies (added s s'))
    (hρ : IsInstance I (parametersOf x y env) ρ) :
    t.eval I ρ = .set (results I ρ op x y) ∧
    (s.singletonsOnly = true → ∃ i j, StandsFor I ρ IsSole x i ∧ StandsFor I ρ IsSole y j ∧
      ∃ e ∈ I.carrier .uint, IsSole (t.eval I ρ) e ∧ I.arithmetic op i j = I.intOf e) := by
  obtain ⟨o, m, ho, h⟩ := runs_arithmetic h
  rw [← parameters_eq ho] at hρ
  exact exact_instance ho (hV.settledTerms ho) (hV.exists_instance ho hρ) hinj hρ.sorts h hadded

/-- A variable that is a set of integers. -/
def aSet : Variable := .plain "r" .uints

/-- An environment that has the set. -/
def aSetEnv : Environment := ({} : Environment).put "r" aSet.term

/-- The function that adds one to a set of one integer. -/
def addOne : FunctionSymbol := ⟨"plus_2", [.uints], .tuple [.uint]⟩

/-- Every set of one integer has a sum with one. -/
def addOneAxiom : Term :=
  let e : Variable := .plain "e_1" (.tuple [.uint])
  let x : Variable := .plain "x_3" .uint
  let z : Variable := .plain "z_4" .uint
  let single : Term := .unary .singleton e.term
  .quantified .all [e] (.quantified .ex [x, z] (.nary .and [
    .binary .eq single (.unary .singleton (.nary .mkTuple [x.term])),
    .binary .eq (.call addOne [single]) (.nary .mkTuple [z.term]),
    .binary .eq (.binary (.arithmetic .plus) (.call intValue [x.term]) (.int 1))
      (.call intValue [z.term])]))

theorem parametersOf_aSet : parametersOf aSet.term (.int 1) aSetEnv = [aSet] := by
  have hm : aSetEnv.mentions aSet = true := by decide
  have hfree : aSet.term.freeOccurrences ++ (Term.int 1).freeOccurrences = [aSet] := rfl
  have hc : constraintVariables aSet = [] := rfl
  rw [parametersOf, hfree, enclosingFrom, if_neg (by simp [hm]), hc, List.append_nil, enclosingFrom]
  rfl

theorem runs_aSet : ∃ s', Runs (arithmetic .plus aSet.term (.int 1) aSetEnv) (.start true)
    (.unary .singleton (.call addOne [aSet.term])) s' ∧
    added (.start true) s' = [⟨"plus_2 axiom", addOneAxiom, none⟩] := by
  have hparameters : enclosingVariables (.relation aSet.term) (.value (.int 1)) aSetEnv = [aSet] :=
    parametersOf_aSet
  refine ⟨((Session.start true).next.next.declaring addOne).next.next.asserting
    ⟨"plus_2 axiom", addOneAxiom, none⟩, runs_bind.2 ⟨_, _, rfl, runs_bind.2 ⟨_, _, rfl, ?_⟩⟩, rfl⟩
  rw [hparameters]
  rfl

theorem function_addOne (n : Int) :
    integerModel.function addOne [.set {[.element n]}] = .tuple [.element (n + 1)] := by
  rw [← successor_singleton]
  refine Interpretation.function_ofTable 0 integerTable addOne [.set {[.element n]}] ?_
  exact List.Forall₂.cons (Set.mem_univ _) .nil

theorem valid_addOneAxiom : addOneAxiom.Valid integerModel := by
  intro ρ as has
  obtain ⟨a, rest, ha, hrest, rfl⟩ := List.forall₂_cons_left_iff.1 has
  obtain rfl := List.forall₂_nil_left_iff.1 hrest
  have ha' := Value.eq_tuple_of_hasSort ha
  rw [ha'] at ha
  obtain ⟨n, _, hrow⟩ := Tuple.exists_of_hasSorts_uint ha
  rw [hrow] at ha'
  subst ha'
  refine ⟨[.element n, .element (n + 1)], .cons (Set.mem_univ n) (.cons (Set.mem_univ _) .nil), ?_⟩
  simp [Term.eval, Term.evalAll, Term.binaryValue, Term.unaryValue, Term.naryValue, Variable.term,
    Variable.plain, Assignment.get, Assignment.bind, Variable.name, Variable.sort, function_addOne,
    function_intValue_integerModel, Term.int, Term.literalValue, Interpretation.arithmetic]

/-- Adding one to a set of five is exact where integers stand for themselves. -/
theorem arithmetic_exact_aSet : ∃ t s', Runs (arithmetic .plus aSet.term (.int 1) aSetEnv)
    (.start true) t s' ∧ ∀ ρ : Assignment Int, ρ.get aSet = .set {[.element 5]} →
      t.eval integerModel ρ = .set (results integerModel ρ .plus aSet.term (.int 1)) ∧
      ∃ i j, StandsFor integerModel ρ IsSole aSet.term i ∧
        StandsFor integerModel ρ IsSole (.int 1) j ∧
        ∃ e ∈ integerModel.carrier .uint, IsSole (t.eval integerModel ρ) e ∧
          integerModel.arithmetic .plus i j = integerModel.intOf e := by
  obtain ⟨s', h, hadded⟩ := runs_aSet
  refine ⟨_, s', h, fun ρ hρ => (arithmetic_exact (V := {aSet}) h ?_ intInjective_integerModel ?_
    ?_).imp_right fun hsingle => hsingle rfl⟩
  · refine ⟨⟨?_, ?_, ?_⟩, ?_, ?_, ?_⟩
    · rintro v rfl
      exact settled_of_no_underscore (by decide) _
    · rintro v rfl w rfl _
      rfl
    · rintro u rfl v hv
      simp [constraintVariables, aSet, Variable.plain, Variable.constraint] at hv
    · simp [aSet, Variable.term, Term.freeOccurrences, Term.int]
    · rintro v rfl
      decide
    · simp [aSet, Variable.plain, Variable.term, Variable.constraint, Term.boundNames, Term.int]
  · rw [hadded]
    intro a ha
    obtain rfl := List.mem_singleton.1 ha
    exact valid_addOneAxiom
  · rw [parametersOf_aSet]
    refine ⟨?_, ?_, ?_⟩ <;> intro p hp <;> obtain rfl := List.mem_singleton.1 hp
    · rw [hρ]
      rintro _ rfl
      exact .cons (Set.mem_univ _) .nil
    · exact fun _ => ⟨_, hρ⟩
    · simp [aSet, Variable.plain, Variable.constraint]

/-- An integer variable with the name that the fresh element of an axiom is going to have. -/
def takenName : Variable := .plain "x_2" .uint

def takenNameEnv : Environment := ({} : Environment).put "x" (.variable takenName)

/-- The relation that holds the variable only. -/
def takenNameSet : Term := .unary .singleton (.nary .mkTuple [takenName.term])

/-- The function of an integer that is to be its sum with one. -/
def sumOf : FunctionSymbol := ⟨"plus_1", [.uint], .tuple [.uint]⟩

/-- The inner binder takes the variable of the outer one, so that the axiom speaks of some integer.
-/
def capturedAxiom : Term :=
  let z : Variable := .plain "z_3" .uint
  .quantified .all [takenName] (.quantified .ex [takenName, z] (.nary .and [
    .binary .eq takenNameSet takenNameSet,
    .binary .eq (.call sumOf [takenName.term]) (.nary .mkTuple [z.term]),
    .binary .eq (.binary (.arithmetic .plus) (.call intValue [takenName.term]) (.int 1))
      (.call intValue [z.term])]))

theorem parametersOf_takenName : parametersOf takenNameSet (.int 1) takenNameEnv = [takenName] := by
  have hm : takenNameEnv.mentions takenName = true := by decide
  have hfree : takenNameSet.freeOccurrences ++ (Term.int 1).freeOccurrences = [takenName] := rfl
  have hc : constraintVariables takenName = [] := rfl
  rw [parametersOf, hfree, enclosingFrom, if_neg (by simp [hm]), hc, List.append_nil, enclosingFrom]
  rfl

theorem runs_takenName : ∃ s', Runs (arithmetic .plus takenNameSet (.int 1) takenNameEnv)
    (.start true) (.unary .singleton (.call sumOf [takenName.term])) s' ∧
    added (.start true) s' = [⟨"plus_1 axiom", capturedAxiom, none⟩] := by
  have hparameters : enclosingVariables (.relation takenNameSet) (.value (.int 1)) takenNameEnv
      = [takenName] := parametersOf_takenName
  refine ⟨((Session.start true).next.declaring sumOf).next.next.asserting
    ⟨"plus_1 axiom", capturedAxiom, none⟩,
    runs_bind.2 ⟨_, _, rfl, runs_bind.2 ⟨_, _, rfl, ?_⟩⟩, rfl⟩
  rw [hparameters]
  rfl

/-- The sum with one of every integer is zero. -/
theorem function_sumOf (n : Int) :
    integerModel.function sumOf [.element n] = .tuple [.element 0] :=
  if_neg id

theorem valid_capturedAxiom : capturedAxiom.Valid integerModel := by
  intro ρ as _
  refine ⟨[.element (-1), .element 0], .cons (Set.mem_univ _) (.cons (Set.mem_univ _) .nil), ?_⟩
  simp [Term.eval, Term.evalAll, Term.binaryValue, Term.unaryValue, Term.naryValue, Variable.term,
    Variable.plain, Assignment.get, Assignment.bind, Variable.name, Variable.sort, function_sumOf,
    function_intValue_integerModel, Term.int, Term.literalValue, Interpretation.arithmetic,
    takenName, takenNameSet]

/-- Where a variable of an operand has a name that is not settled, the axiom does not tie the result
to the operand: here the sum of five and one is zero. -/
theorem not_exact_takenName : ¬∀ (V : Set Variable) (env : Environment) (x y t : Term) (s' : Session)
    (ρ : Assignment Int), Runs (arithmetic .plus x y env) (.start true) t s' →
    (∀ v, v ∈ x.freeOccurrences ∨ v ∈ y.freeOccurrences → v ∈ V) →
    (∀ u ∈ V, ∀ v ∈ constraintVariables u, v ∈ V) → (∀ v ∈ V, env.mentions v = true) →
    integerModel.IntInjective → integerModel.Satisfies (added (.start true) s') →
    IsInstance integerModel (parametersOf x y env) ρ →
    t.eval integerModel ρ = .set (results integerModel ρ .plus x y) := by
  intro hexact
  obtain ⟨s', h, hadded⟩ := runs_takenName
  let ρ : Assignment Int := fun _ _ => .element 5
  have hvalue := hexact {takenName} takenNameEnv takenNameSet (.int 1) _ s' ρ h
    (by simp [takenNameSet, Variable.term, Term.freeOccurrences, Term.freeOccurrencesList, Term.int])
    (by
      rintro u rfl v hv
      simp [constraintVariables, takenName, Variable.plain, Variable.constraint] at hv)
    (by
      rintro v rfl
      decide)
    intInjective_integerModel (by
      rw [hadded]
      intro a ha
      obtain rfl := List.mem_singleton.1 ha
      exact valid_capturedAxiom) (by
      rw [parametersOf_takenName]
      refine ⟨?_, ?_, ?_⟩ <;> intro p hp <;> obtain rfl := List.mem_singleton.1 hp
      · exact Set.mem_univ (5 : Int)
      · simp [takenName, Variable.plain, Variable.sort, SmtSort.isSet]
      · simp [takenName, Variable.plain, Variable.constraint])
  have hsum : (Term.unary .singleton (.call sumOf [takenName.term])).eval integerModel ρ
      = .set {[.element 0]} := by
    simp [Term.eval, Term.evalAll, Term.unaryValue, Variable.term, Assignment.get, ρ, function_sumOf]
  rw [hsum] at hvalue
  have hmem : ([.element 0] : Tuple Int) ∈ results integerModel ρ .plus takenNameSet (.int 1) := by
    rw [← RelSmt.Value.set.inj hvalue]
    rfl
  obtain ⟨e, _, he, i, j, ⟨d, _, hd, rfl⟩, hj, hval⟩ := hmem
  have he : e = 0 := by simpa using he.symm
  have hd : d = 5 := by
    simpa [Contains, takenNameSet, Variable.term, Term.eval, Term.evalAll, Term.unaryValue,
      Term.naryValue, Assignment.get, ρ] using hd
  have hj : j = 1 := by
    simpa [StandsFor, Term.int, Term.sort, Term.eval, Term.literalValue] using hj.symm
  rw [he, hd, hj] at hval
  simp [Interpretation.intOf, function_intValue_integerModel, Interpretation.arithmetic] at hval

/-- An integer and an element under one name. -/
def sharedName (sort : SmtSort) : Variable := .plain "v" sort

/-- The relation that holds the element only. -/
def sharedNameSet : Term := .unary .singleton (.nary .mkTuple [(sharedName .uint).term])

def sharedNameEnv : Environment :=
  (({} : Environment).put "x" (sharedName .int).term).put "y" sharedNameSet

/-- The function that is to be the product of the two. -/
def productOf : FunctionSymbol := ⟨"mul_1", [.int, .uint], .tuple [.uint]⟩

/-- A binder of the name hides the one before it, so that the axiom speaks of no integer. -/
def hiddenAxiom : Term :=
  let x : Variable := .plain "x_2" .uint
  let z : Variable := .plain "z_3" .uint
  .quantified .all [sharedName .int, sharedName .uint] (.quantified .ex [x, z] (.nary .and [
    .binary .eq sharedNameSet (.unary .singleton (.nary .mkTuple [x.term])),
    .binary .eq (.call productOf [(sharedName .int).term, (sharedName .uint).term])
      (.nary .mkTuple [z.term]),
    .binary .eq (.binary (.arithmetic .times) (sharedName .int).term (.call intValue [x.term]))
      (.call intValue [z.term])]))

theorem parametersOf_sharedName : parametersOf (sharedName .int).term sharedNameSet sharedNameEnv
    = [sharedName .int, sharedName .uint] := by
  have hint : sharedNameEnv.mentions (sharedName .int) = true := by decide
  have helement : sharedNameEnv.mentions (sharedName .uint) = true := by decide
  have hfree : (sharedName .int).term.freeOccurrences ++ sharedNameSet.freeOccurrences
    = [sharedName .int, sharedName .uint] := rfl
  have hc : ∀ sort, constraintVariables (sharedName sort) = [] := fun _ => rfl
  have hne : ([sharedName .int] : List Variable).contains (sharedName .uint) = false := by decide
  rw [parametersOf, hfree, enclosingFrom, if_neg (by simp [hint]), hc, List.append_nil,
    enclosingFrom, if_neg (by simp [helement]; exact hne), hc, List.append_nil, enclosingFrom]
  rfl

theorem runs_sharedName : ∃ s', Runs (arithmetic .times (sharedName .int).term sharedNameSet
      sharedNameEnv) (.start true) (.unary .singleton (.call productOf
        [(sharedName .int).term, (sharedName .uint).term])) s' ∧
    added (.start true) s' = [⟨"mul_1 axiom", hiddenAxiom, none⟩] := by
  have hparameters : enclosingVariables (.value (sharedName .int).term) (.relation sharedNameSet)
      sharedNameEnv = [sharedName .int, sharedName .uint] := parametersOf_sharedName
  refine ⟨((Session.start true).next.declaring productOf).next.next.asserting
    ⟨"mul_1 axiom", hiddenAxiom, none⟩,
    runs_bind.2 ⟨_, _, rfl, runs_bind.2 ⟨_, _, rfl, ?_⟩⟩, rfl⟩
  rw [hparameters]
  rfl

theorem function_productOf (a b : RelSmt.Value Int) :
    integerModel.function productOf [a, b] = .tuple [.element 0] := by
  have htable : integerTable productOf [a, b] = .element 1 := by
    have hne : productOf ≠ integersSymbol := by decide
    unfold integerTable
    split <;> simp_all
  refine if_neg ?_
  rw [htable]
  exact id

theorem valid_hiddenAxiom : hiddenAxiom.Valid integerModel := by
  intro ρ as has
  obtain ⟨a, rest, ha, hrest, rfl⟩ := List.forall₂_cons_left_iff.1 has
  obtain ⟨b, rest, hb, hnil, rfl⟩ := List.forall₂_cons_left_iff.1 hrest
  obtain rfl := List.forall₂_nil_left_iff.1 hnil
  obtain ⟨n, _, rfl⟩ := Value.exists_element_of_hasSort hb
  refine ⟨[.element n, .element 0], .cons (Set.mem_univ n) (.cons (Set.mem_univ _) .nil), ?_⟩
  -- inside the second binder the name stands for no integer, and the product with it is zero
  have hzero : (default : RelSmt.Value Int).number = 0 := rfl
  simp [Term.eval, Term.evalAll, Term.binaryValue, Term.unaryValue, Term.naryValue, Variable.term,
    Variable.plain, Assignment.get, Assignment.bind, Variable.name, Variable.sort, hzero,
    function_productOf, function_intValue_integerModel, Interpretation.arithmetic, sharedName,
    sharedNameSet]

/-- Where two variables share a name the axiom does not tie the result to the operands either,
although no fresh name is in the way: here the product of five and three is zero. -/
theorem not_exact_sharedName : ∃ (t : Term) (s' : Session) (ρ : Assignment Int),
    Runs (arithmetic .times (sharedName .int).term sharedNameSet sharedNameEnv) (.start true) t s' ∧
    (∀ v ∈ [sharedName .int, sharedName .uint], sharedNameEnv.mentions v = true ∧
      ∀ k, Settled k v.name) ∧ integerModel.IntInjective ∧
    integerModel.Satisfies (added (.start true) s') ∧
    IsInstance integerModel (parametersOf (sharedName .int).term sharedNameSet sharedNameEnv) ρ ∧
    t.eval integerModel ρ ≠
      .set (results integerModel ρ .times (sharedName .int).term sharedNameSet) := by
  obtain ⟨s', h, hadded⟩ := runs_sharedName
  let ρ : Assignment Int := fun _ sort => if sort = .int then .int 5 else .element 3
  refine ⟨_, s', ρ, h, ?_, intInjective_integerModel, ?_, ?_, fun hvalue => ?_⟩
  · intro v hv
    rcases List.mem_pair.1 hv with rfl | rfl <;>
      exact ⟨by decide, settled_of_no_underscore (by decide)⟩
  · rw [hadded]
    intro a ha
    obtain rfl := List.mem_singleton.1 ha
    exact valid_hiddenAxiom
  · rw [parametersOf_sharedName]
    refine ⟨?_, ?_, ?_⟩ <;> intro p hp <;> rcases List.mem_pair.1 hp with rfl | rfl
    · trivial
    · exact Set.mem_univ (3 : Int)
    · exact fun h => absurd h (by decide)
    · exact fun h => absurd h (by decide)
    · exact fun _ hc => nomatch hc
    · exact fun _ hc => nomatch hc
  · have hproduct : (Term.unary .singleton (.call productOf [(sharedName .int).term,
        (sharedName .uint).term])).eval integerModel ρ = .set {[.element 0]} := by
      simp [Term.eval, Term.evalAll, Term.unaryValue, Variable.term, function_productOf]
    rw [hproduct] at hvalue
    have hmem : ([.element 0] : Tuple Int) ∈
        results integerModel ρ .times (sharedName .int).term sharedNameSet := by
      rw [← RelSmt.Value.set.inj hvalue]
      rfl
    obtain ⟨e, _, he, i, j, hi, ⟨d, _, hd, rfl⟩, hval⟩ := hmem
    have he : e = 0 := by simpa using he.symm
    have helement : ρ.get (sharedName .uint) = .element 3 := rfl
    obtain rfl : 5 = i := hi
    have hd : d = 3 := by
      simpa [Contains, sharedNameSet, Variable.term, Term.eval, Term.evalAll, Term.unaryValue,
        Term.naryValue, helement] using hd
    rw [he, hd] at hval
    simp [Interpretation.intOf, function_intValue_integerModel, Interpretation.arithmetic] at hval

end Lowering

end RelSmt
