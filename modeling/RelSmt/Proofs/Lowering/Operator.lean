import RelSmt.Proofs.Lowering.Integer

/-!
# Constants and operators

A lowered constant or operator denotes what the relational one means, has no variables but those of
its operands, and extends the session.
-/

namespace RelSmt.Lowering

variable {E : Type} {s s' : Session} {I : Interpretation E} {ρ : Assignment E} {t u : Term}
  {v w : RelSmt.Value E}

/-! ## Constants -/

theorem extends_constant {c : Relational.Constant} (h : Runs (constant c) s t s') :
    Extends s s' := by
  cases c with
  | univ => exact (runs_lift.1 h).2 ▸ .refl _
  | none => exact (runs_lift.1 h).2 ▸ .refl _
  | iden => exact (runs_atomIden h).2.2
  | ints => exact (runs_integers h).2.2
  | true => exact (runs_pure.1 h).2 ▸ .refl _
  | false => exact (runs_pure.1 h).2 ▸ .refl _

theorem free_constant {c : Relational.Constant} (h : Runs (constant c) s t s') :
    t.freeOccurrences = [] := by
  cases c with
  | univ =>
    obtain ⟨_, rfl⟩ := Term.fullOf_eq_ok.1 (runs_lift.1 h).1
    rfl
  | none =>
    obtain ⟨_, rfl⟩ := Term.emptyOf_eq_ok.1 (runs_lift.1 h).1
    rfl
  | iden => rw [(runs_atomIden h).1]; rfl
  | ints => rw [(runs_integers h).1]; rfl
  | true => rw [← (runs_pure.1 h).1]; rfl
  | false => rw [← (runs_pure.1 h).1]; rfl

/-- A lowered constant denotes what the constant means. -/
theorem denotes_builtin {c : Relational.Constant} (h : Runs (constant c) s t s')
    (hI : I.Supports s'.onDemand) : t.Denotes I ρ ((s.relations I).constant c) := by
  cases c with
  | univ =>
    obtain ⟨_, rfl⟩ := Term.fullOf_eq_ok.1 (runs_lift.1 h).1
    -- a row of one atom is a row of the sort of atoms
    have hrows : {r : Tuple E | r.HasSorts I.carrier [.atom]}
        = {r | ∃ e ∈ I.carrier .atom, r = [.element e]} := by
      ext r
      constructor
      · intro hr
        obtain ⟨a, rfl, ha⟩ := Tuple.exists_of_hasSorts_single hr
        obtain ⟨e, he, rfl⟩ := Scalar.exists_element_atom ha
        exact ⟨e, he, rfl⟩
      · rintro ⟨e, he, rfl⟩
        exact List.Forall₂.cons he List.Forall₂.nil
    rw [show (s.relations I).constant .univ = .set {r : Tuple E | r.HasSorts I.carrier [.atom]} from
      congrArg _ hrows.symm]
    exact Term.denotes_fullSet
  | none =>
    obtain ⟨hset, rfl⟩ := Term.emptyOf_eq_ok.1 (runs_lift.1 h).1
    exact Term.denotes_emptySet hset
  | iden => exact denotes_atomIden h hI
  | ints => exact denotes_integers h hI
  | true =>
    rw [← (runs_pure.1 h).1]
    exact ⟨Value.truth_inj.2 (by simp), trivial⟩
  | false =>
    rw [← (runs_pure.1 h).1]
    exact ⟨Value.truth_inj.2 (by simp), trivial⟩

/-! ## Unary operators -/

theorem extends_unary {op : Relational.UnaryOp} (h : Runs (unary op t) s u s') :
    Extends s s' := by
  cases op with
  | one => exact extends_exactlyOne h
  | lone => exact extends_atMostOne h
  | reflexiveClosure =>
    simp only [unary, runs_bind, runs_lift] at h
    obtain ⟨_, _, ⟨_, rfl⟩, _, _, hiden, _, rfl⟩ := h
    exact (runs_atomIden hiden).2.2
  | setOf => exact (runs_pure.1 h).2 ▸ .refl _
  | someOf => exact (runs_pure.1 h).2 ▸ .refl _
  | loneOf => exact (runs_pure.1 h).2 ▸ .refl _
  | oneOf => exact (runs_pure.1 h).2 ▸ .refl _
  | group => exact (runs_pure.1 h).2 ▸ .refl _
  | _ => exact (runs_lift.1 h).2 ▸ .refl _

theorem mem_free_unaryOp {op : Relational.UnaryOp} (h : Runs (unary op t) s u s') {x : Variable}
    (hx : x ∈ u.freeOccurrences) : x ∈ t.freeOccurrences := by
  cases op with
  | not => exact mem_free_unary (runs_lift.1 h).1 ▸ hx
  | no => exact mem_free_isEmpty (runs_lift.1 h).1 ▸ hx
  | some => exact mem_free_nonEmpty (runs_lift.1 h).1 ▸ hx
  | one => exact mem_free_exactlyOne h hx
  | lone => exact mem_free_atMostOne h hx
  | transpose => exact mem_free_unary (runs_lift.1 h).1 ▸ hx
  | closure => exact mem_free_unary (runs_lift.1 h).1 ▸ hx
  | card => exact mem_free_unary (runs_lift.1 h).1 ▸ hx
  | reflexiveClosure =>
    simp only [unary, runs_bind, runs_lift] at h
    obtain ⟨_, _, ⟨hclosure, rfl⟩, _, _, hiden, hunion, rfl⟩ := h
    rcases mem_free_binary hunion hx with hx | hx
    · exact mem_free_unary hclosure ▸ hx
    · rw [(runs_atomIden hiden).1] at hx
      simp [Term.freeOccurrences] at hx
  | setOf => exact (runs_pure.1 h).1 ▸ hx
  | someOf => exact (runs_pure.1 h).1 ▸ hx
  | loneOf => exact (runs_pure.1 h).1 ▸ hx
  | oneOf => exact (runs_pure.1 h).1 ▸ hx
  | group => exact (runs_pure.1 h).1 ▸ hx

/-- A checked unary node denotes the operator applied to what the operand denotes. -/
theorem denotes_mkUnary {op : UnaryOp} (ht : t.Denotes I ρ v) (h : Term.mkUnary op t = .ok u) :
    u.Denotes I ρ (Term.unaryValue op v) := by
  obtain ⟨hop, rfl⟩ := Term.mkUnary_eq_ok.1 h
  exact ht.unary hop

/-- A checked binary node denotes the operator applied to what the operands denote. -/
theorem denotes_mkBinary {op : BinaryOp} {l r : Term} (hl : l.Denotes I ρ v)
    (hr : r.Denotes I ρ w) (h : Term.mkBinary op l r = .ok u) :
    u.Denotes I ρ (Term.binaryValue I op v w) := by
  obtain ⟨hop, rfl⟩ := Term.mkBinary_eq_ok.1 h
  exact hl.binary hr hop

/-- **A lowered unary operator denotes what the operator means.** -/
theorem denotes_unaryOp {op : Relational.UnaryOp} (ht : t.Denotes I ρ v)
    (hfree : t.SettledAt s.fresh) (h : Runs (unary op t) s u s') (hI : I.Supports s'.onDemand) :
    u.Denotes I ρ ((s.relations I).unary op v) := by
  cases op with
  | not => exact denotes_mkUnary ht (runs_lift.1 h).1
  | no => exact denotes_isEmpty ht (runs_lift.1 h).1
  | some => exact denotes_nonEmpty ht (runs_lift.1 h).1
  | one => exact denotes_exactlyOne ht hfree h
  | lone => exact denotes_atMostOne ht hfree h
  | transpose => exact denotes_mkUnary ht (runs_lift.1 h).1
  | closure => exact denotes_mkUnary ht (runs_lift.1 h).1
  | card => exact denotes_mkUnary ht (runs_lift.1 h).1
  | reflexiveClosure =>
    simp only [unary, runs_bind, runs_lift] at h
    obtain ⟨_, _, ⟨hclosure, rfl⟩, _, _, hiden, hunion, rfl⟩ := h
    exact denotes_setOp (denotes_mkUnary ht hclosure) (denotes_atomIden hiden hI) hunion
  | setOf => exact (runs_pure.1 h).1 ▸ ht
  | someOf => exact (runs_pure.1 h).1 ▸ ht
  | loneOf => exact (runs_pure.1 h).1 ▸ ht
  | oneOf => exact (runs_pure.1 h).1 ▸ ht
  | group => exact (runs_pure.1 h).1 ▸ ht

/-! ## Binary operators -/

theorem extends_binary {op : Relational.BinaryOp} {l r : Term} (h : Runs (binary op l r) s u s') :
    Extends s s' := by
  cases op with
  | notIn =>
    simp only [binary, runs_bind, runs_lift] at h
    obtain ⟨_, _, ⟨_, rfl⟩, _, rfl⟩ := h
    exact .refl _
  | eq => exact extends_equality h
  | ne =>
    simp only [binary, runs_bind, runs_lift] at h
    obtain ⟨_, _, heq, _, rfl⟩ := h
    exact extends_equality heq
  | lt => exact extends_compareIntegers h
  | le => exact extends_compareIntegers h
  | gt => exact extends_compareIntegers h
  | ge => exact extends_compareIntegers h
  | _ => exact (runs_lift.1 h).2 ▸ .refl _

theorem mem_free_binaryOp {op : Relational.BinaryOp} {l r : Term}
    (h : Runs (binary op l r) s u s') {x : Variable} (hx : x ∈ u.freeOccurrences) :
    x ∈ l.freeOccurrences ∨ x ∈ r.freeOccurrences := by
  cases op with
  | override => exact mem_free_overrideBy (runs_lift.1 h).1 hx
  | domainRestrict => exact mem_free_restrictDomain (runs_lift.1 h).1 hx
  | rangeRestrict => exact mem_free_restrictRange (runs_lift.1 h).1 hx
  | notIn =>
    simp only [binary, runs_bind, runs_lift] at h
    obtain ⟨_, _, ⟨hin, rfl⟩, hneg, rfl⟩ := h
    exact mem_free_binary hin (mem_free_unary hneg ▸ hx)
  | eq => exact mem_free_equality h hx
  | ne =>
    simp only [binary, runs_bind, runs_lift] at h
    obtain ⟨_, _, heq, hneg, rfl⟩ := h
    exact mem_free_equality heq (mem_free_unary hneg ▸ hx)
  | lt => exact mem_free_compareIntegers h hx
  | le => exact mem_free_compareIntegers h hx
  | gt => exact mem_free_compareIntegers h hx
  | ge => exact mem_free_compareIntegers h hx
  | _ => exact mem_free_binary (runs_lift.1 h).1 hx

/-- A lowered order between integers denotes that both operands are integers in this order. -/
theorem denotes_inOrder {c : Comparison} {l r : Term} (hl : l.Denotes I ρ v)
    (hr : r.Denotes I ρ w) (hfl : l.SettledAt s.fresh) (hfr : r.SettledAt s.fresh)
    (h : Runs (compareIntegers (.comparison c) l r) s u s') :
    u.Denotes I ρ (.truth ((s.relations I).InOrder c v w)) :=
  denotes_compareIntegers (fun _ _ => rfl) hl hr hfl hfr (fun _ _ => rfl) h

/-- **A lowered binary operator denotes what the operator means.** -/
theorem denotes_binaryOp {op : Relational.BinaryOp} {l r : Term} (hinj : I.IntInjective)
    (hl : l.Denotes I ρ v) (hr : r.Denotes I ρ w) (hfl : l.SettledAt s.fresh)
    (hfr : r.SettledAt s.fresh) (h : Runs (binary op l r) s u s') :
    u.Denotes I ρ ((s.relations I).binary op v w) := by
  cases op with
  | join => exact denotes_mkBinary hl hr (runs_lift.1 h).1
  | arrow => exact denotes_mkBinary hl hr (runs_lift.1 h).1
  | union => exact denotes_setOp hl hr (runs_lift.1 h).1
  | intersection => exact denotes_setOp hl hr (runs_lift.1 h).1
  | minus => exact denotes_setOp hl hr (runs_lift.1 h).1
  | override => exact denotes_overrideBy hl hr (runs_lift.1 h).1
  | domainRestrict => exact denotes_restrictDomain hl hr (runs_lift.1 h).1
  | rangeRestrict => exact denotes_restrictRange hl hr (runs_lift.1 h).1
  | isIn => exact denotes_mkBinary hl hr (runs_lift.1 h).1
  | notIn =>
    simp only [binary, runs_bind, runs_lift] at h
    obtain ⟨_, _, ⟨hin, rfl⟩, hneg, rfl⟩ := h
    exact denotes_mkUnary (denotes_mkBinary hl hr hin) hneg
  | eq => exact denotes_equality hinj hl hr hfl hfr h
  | ne =>
    simp only [binary, runs_bind, runs_lift] at h
    obtain ⟨_, _, heq, hneg, rfl⟩ := h
    exact denotes_mkUnary (denotes_equality hinj hl hr hfl hfr heq) hneg
  | and => exact denotes_mkBinary hl hr (runs_lift.1 h).1
  | or => exact denotes_mkBinary hl hr (runs_lift.1 h).1
  | implies => exact denotes_mkBinary hl hr (runs_lift.1 h).1
  | iff => exact denotes_mkBinary hl hr (runs_lift.1 h).1
  | lt => exact denotes_inOrder hl hr hfl hfr h
  | le => exact denotes_inOrder hl hr hfl hfr h
  | gt => exact denotes_inOrder hl hr hfl hfr h
  | ge => exact denotes_inOrder hl hr hfl hfr h

end RelSmt.Lowering
