import RelSmt.Lowering.Integer
import RelSmt.Proofs.Lowering.Relation
import RelSmt.Proofs.Lowering.Session
import RelSmt.Proofs.Term.Table

/-!
# Integers in formulas

An operand of a comparison is read as an integer by a term, possibly under a fresh variable that has
to be all that the operand holds. Such a reading gives a number exactly when the operand is that one
integer, so a comparison says that both operands are single integers in the given relation.
-/

namespace RelSmt

variable {E : Type}

namespace Lowering

variable {s s' m : Session} {I : Interpretation E} {ρ : Assignment E} {t u : Term}
  {v w : RelSmt.Value E}

/-! ## Reading an operand -/

/-- Under some values of its variables the conditions hold and the term has the value `v`. -/
def Value.Reads (I : Interpretation E) (ρ : Assignment E) (a : Value) (v : RelSmt.Value E) : Prop :=
  ∃ as, I.HasSorts a.vars as ∧
    (∀ c ∈ a.conditions, (c.eval I (ρ.bindAll a.vars as)).Holds) ∧
    a.term.eval I (ρ.bindAll a.vars as) = v

/-- How an operand is read: as it is, by the element that it is written with, or by a fresh variable
that is all it holds. -/
theorem runs_integerValue {a : Value} (h : Runs (integerValue t) s a s') :
    (t.sort = .int ∧ a = { term := t } ∧ s' = s) ∨
    (t.sort = .uints ∧ (∃ e, t = .unary .singleton (.nary .mkTuple [e]) ∧ e.sort = .uint ∧
      a = { term := .call intValue [e] }) ∧ s' = s) ∨
    (t.sort = .uints ∧ (∃ x, x = Variable.plain (numbered "x" (s.fresh + 1)) .uint ∧
      a = ⟨.call intValue [.variable x], [x],
        [.binary .eq t (.unary .singleton (.nary .mkTuple [.variable x]))]⟩) ∧ s' = s.next) := by
  unfold integerValue at h
  split at h
  · rename_i hint
    obtain ⟨rfl, rfl⟩ := runs_pure.1 h
    exact Or.inl ⟨hint, rfl, rfl⟩
  · by_cases huints : t.sort = .uints
    · rw [if_neg (not_not_intro huints)] at h
      split at h
      · rename_i e he
        simp only [runs_bind, runs_lift, runs_pure, valueOf_eq_ok] at h
        obtain ⟨_, _, ⟨⟨hsort, rfl⟩, rfl⟩, rfl, rfl⟩ := h
        refine Or.inr (Or.inl ⟨huints, ⟨e, ?_, hsort, rfl⟩, rfl⟩)
        -- a singleton that is written out has its element in the text of the term
        unfold soleElement? at he
        split at he
        · rw [Option.some.inj he]
        · simp at he
      · simp only [runs_bind, runs_freshVariable, runs_lift, runs_pure, valueOf_eq_ok,
          Term.tuple_eq_ok, Term.single_eq_ok, Term.eqTo_eq_ok] at h
        obtain ⟨_, _, ⟨rfl, rfl⟩, _, _, ⟨⟨_, _, rfl⟩, rfl⟩, _, _, ⟨⟨_, rfl⟩, rfl⟩, _, _,
          ⟨⟨_, rfl⟩, rfl⟩, _, _, ⟨⟨_, rfl⟩, rfl⟩, rfl, rfl⟩ := h
        exact Or.inr (Or.inr ⟨huints, ⟨_, rfl, rfl⟩, rfl⟩)
    · rw [if_pos huints] at h
      exact absurd h runs_throw_bind

/-- What is known of the terms of a reading without looking at values. -/
structure ReadsFrom (s : Session) (t : Term) (a : Value) (s' : Session) : Prop where
  grows : Extends s s'
  conditions : a.vars = [] → a.conditions = []
  free : ∀ x, (x ∈ a.term.freeOccurrences ∨ ∃ c ∈ a.conditions, x ∈ c.freeOccurrences) →
    x ∈ t.freeOccurrences ∨ x ∈ a.vars
  fresh : ∀ x ∈ a.vars, ∃ k, s.fresh < k ∧ k ≤ s'.fresh ∧ x.name = numbered "x" k

theorem readsFrom_integerValue {a : Value} (h : Runs (integerValue t) s a s') :
    ReadsFrom s t a s' := by
  rcases runs_integerValue h with ⟨hsort, rfl, rfl⟩ | ⟨_, ⟨e, rfl, _, rfl⟩, rfl⟩ |
    ⟨_, ⟨x, rfl, rfl⟩, rfl⟩
  · exact ⟨.refl _, by simp, by simp, by simp⟩
  · refine ⟨.refl _, by simp, ?_, by simp⟩
    simp [Term.freeOccurrences, Term.freeOccurrencesList]
  · refine ⟨extends_next s, by simp, ?_, ?_⟩
    · intro y hy
      simp only [Term.freeOccurrences, Term.freeOccurrencesList, List.append_nil,
        List.mem_singleton, exists_eq_left, List.mem_append] at hy
      rcases hy with rfl | hy | rfl
      · exact Or.inr List.mem_cons_self
      · exact Or.inl hy
      · exact Or.inr List.mem_cons_self
    · intro y hy
      obtain rfl := List.mem_singleton.1 hy
      exact ⟨s.fresh + 1, Nat.lt_succ_self _, Nat.le_refl _, rfl⟩

/-- A native integer is the number that it is, and no other. -/
theorem isInteger_int {M : Relational.Structure E} {k n : Int} : M.IsInteger (.int k) n ↔ k = n := by
  constructor
  · rintro (h | ⟨_, _, h, _⟩)
    · exact Value.int_inj.1 h
    · exact absurd h (by simp [Value.int])
  · rintro rfl
    exact Or.inl rfl

/-- The value of an element is the integer that it stands for. -/
theorem function_intValue {e : E} (he : e ∈ I.carrier .uint) :
    I.function intValue [.element e] = .int (I.intOf e) :=
  Value.eq_int_of_hasSort (I.function_sort intValue _ trivial (.cons he .nil))

/-- The singleton of an element is the integer that the element stands for, and no other. -/
theorem isInteger_single {e : E} (he : e ∈ I.carrier .uint) {n : Int} :
    (m.relations I).IsInteger (.set {[.element e]}) n ↔ I.intOf e = n := by
  constructor
  · rintro (h | ⟨d, _, h, hn⟩)
    · exact absurd h (by simp [Value.int])
    · obtain rfl : e = d := by simpa using h
      exact hn
  · intro h
    exact Or.inr ⟨e, he, rfl, h⟩

/-- A singleton that is written with an element holds that element. -/
theorem exists_soleElement {e : Term}
    (ht : (Term.unary .singleton (.nary .mkTuple [e])).Denotes I ρ v)
    (hsort : (Term.unary .singleton (.nary .mkTuple [e])).sort = .uints) :
    ∃ d ∈ I.carrier .uint, e.eval I ρ = .element d ∧ v = .set {[.element d]} := by
  have hv := ht.hasSort
  rw [hsort, ← ht.eval] at hv
  obtain ⟨d, hd, hrow⟩ := Tuple.exists_of_hasSorts_uint (hv [(e.eval I ρ).column] rfl)
  have hcolumn : (e.eval I ρ).column = .element d := by simpa using hrow
  refine ⟨d, hd, ?_, ?_⟩
  · -- only an element is a column that is an element
    cases he : e.eval I ρ <;> rw [he] at hcolumn <;> simp_all [Value.column, Value.element]
  · rw [← ht.eval]
    simp only [Term.eval, Term.evalAll, Term.unaryValue, Term.naryValue, List.map_cons,
      List.map_nil, Value.row_tuple, hcolumn]

/-- An operand reads as integers only. -/
theorem exists_int_of_reads {a : Value} (ht : t.Denotes I ρ v) (h : Runs (integerValue t) s a s')
    (hw : a.Reads I ρ w) : ∃ i, w = .int i := by
  obtain ⟨as, has, _, rfl⟩ := hw
  rcases runs_integerValue h with ⟨hsort, rfl, rfl⟩ | ⟨hsort, ⟨e, rfl, he, rfl⟩, rfl⟩ |
    ⟨hsort, ⟨x, rfl, rfl⟩, rfl⟩
  · obtain rfl := List.forall₂_nil_left_iff.1 has
    have hv := ht.hasSort
    rw [hsort] at hv
    exact ⟨v.number, by rw [Assignment.bindAll_nil, ht.eval]; exact Value.eq_int_of_hasSort hv⟩
  · obtain rfl := List.forall₂_nil_left_iff.1 has
    obtain ⟨d, hd, hcol, _⟩ := exists_soleElement ht hsort
    exact ⟨I.intOf d, by
      simp only [Assignment.bindAll_nil, Term.eval, Term.evalAll, hcol, function_intValue hd]⟩
  · obtain ⟨b, rest, hb, hrest, rfl⟩ := List.forall₂_cons_left_iff.1 has
    obtain rfl := List.forall₂_nil_left_iff.1 hrest
    obtain ⟨d, hd, rfl⟩ := Value.exists_element_of_hasSort hb
    exact ⟨I.intOf d, by
      simp only [Assignment.bindAll_cons, Assignment.bindAll_nil, Term.eval, Term.evalAll,
        Assignment.get_bind_self, function_intValue hd]⟩

/-- Without variables and conditions an operand reads as its value. -/
theorem reads_of_vars_eq_nil {a : Value} (hvars : a.vars = []) (hconds : a.conditions = []) :
    a.Reads I ρ w ↔ a.term.eval I ρ = w := by
  constructor
  · rintro ⟨as, has, _, hw⟩
    rw [hvars] at has hw
    obtain rfl := List.forall₂_nil_left_iff.1 has
    exact hw
  · intro hw
    exact ⟨[], by rw [hvars]; exact List.Forall₂.nil, by simp [hconds], by rw [hvars]; exact hw⟩

/-- With a variable that is all of a set, an operand reads as the integer of the set's one
element. -/
theorem reads_element {x : Variable} (hx : x.sort = .uint)
    (hset : ∀ b, t.eval I (ρ.bind x b) = v) {n : Int} :
    Value.Reads I ρ ⟨.call intValue [.variable x], [x],
      [.binary .eq t (.unary .singleton (.nary .mkTuple [.variable x]))]⟩ (.int n) ↔
      ∃ d ∈ I.carrier .uint, v = .set {[.element d]} ∧ I.intOf d = n := by
  constructor
  · rintro ⟨as, has, hcond, hn⟩
    obtain ⟨b, rest, hb, hrest, rfl⟩ := List.forall₂_cons_left_iff.1 has
    obtain rfl := List.forall₂_nil_left_iff.1 hrest
    rw [hx] at hb
    obtain ⟨d, hd, rfl⟩ := Value.exists_element_of_hasSort hb
    simp only [List.mem_singleton, forall_eq, Assignment.bindAll_cons, Assignment.bindAll_nil,
      Term.eval, Term.evalAll, Term.binaryValue, Term.unaryValue, Term.naryValue, hset,
      Assignment.get_bind_self, List.map_cons, List.map_nil, Value.column_element,
      Value.row_tuple, Value.holds_truth] at hcond
    simp only [Assignment.bindAll_cons, Assignment.bindAll_nil, Term.eval, Term.evalAll,
      Assignment.get_bind_self, function_intValue hd, Value.int_inj] at hn
    exact ⟨d, hd, hcond, hn⟩
  · rintro ⟨d, hd, hv, hn⟩
    refine ⟨[.element d], List.Forall₂.cons (by rw [hx]; exact hd) List.Forall₂.nil, ?_, ?_⟩
    · simp only [List.mem_singleton, forall_eq, Assignment.bindAll_cons, Assignment.bindAll_nil,
        Term.eval, Term.evalAll, Term.binaryValue, Term.unaryValue, Term.naryValue, hset,
        Assignment.get_bind_self, List.map_cons, List.map_nil, Value.column_element,
        Value.row_tuple, Value.holds_truth]
      exact hv
    · simp only [Assignment.bindAll_cons, Assignment.bindAll_nil, Term.eval, Term.evalAll,
        Assignment.get_bind_self, function_intValue hd]
      exact Value.int_inj.2 hn

/-- **An operand reads as a number exactly when it is that one integer.** -/
theorem reads_integerValue {a : Value} (ht : t.Denotes I ρ v) (hfree : t.SettledAt s.fresh)
    (h : Runs (integerValue t) s a s') {n : Int} :
    a.Reads I ρ (.int n) ↔ (m.relations I).IsInteger v n := by
  rcases runs_integerValue h with ⟨hsort, rfl, rfl⟩ | ⟨hsort, ⟨e, rfl, he, rfl⟩, rfl⟩ |
    ⟨hsort, ⟨x, rfl, rfl⟩, rfl⟩
  · -- a native integer
    have hv := ht.hasSort
    rw [hsort] at hv
    rw [reads_of_vars_eq_nil rfl rfl, ht.eval, Value.eq_int_of_hasSort hv, isInteger_int]
    exact Value.int_inj
  · -- a written-out singleton
    obtain ⟨d, hd, hcol, hval⟩ := exists_soleElement ht hsort
    rw [reads_of_vars_eq_nil rfl rfl, hval, isInteger_single hd]
    simp only [Term.eval, Term.evalAll, hcol, function_intValue hd]
    exact Value.int_inj
  · -- a fresh variable that is all of the set
    have hv := ht.hasSort
    rw [hsort] at hv
    have hset : ∀ b, t.eval I (ρ.bind (.plain (numbered "x" (s.fresh + 1)) .uint) b) = v := by
      intro b
      rw [Term.eval_bind_of_fresh, ht.eval]
      exact fun w hw => (hfree w hw).ne_numbered (Nat.lt_succ_self _)
    rw [reads_element rfl hset]
    constructor
    · rintro ⟨d, hd, rfl, hn⟩
      exact Or.inr ⟨d, hd, rfl, hn⟩
    · rintro (rfl | ⟨d, hd, rfl, hn⟩)
      · exact hv.elim
      · exact ⟨d, hd, rfl, hn⟩

/-! ## Comparisons -/

/-- A comparison of two readings, under the variables of both. -/
theorem runs_compareIntegers {op : BinaryOp} {l r : Term} (h : Runs (compareIntegers op l r) s u s') :
    ∃ a b m, Runs (integerValue l) s a m ∧ Runs (integerValue r) m b s' ∧
      ((a.vars ++ b.vars = [] ∧ u = .binary op a.term b.term) ∨
        ∃ body, Term.allOf (a.conditions ++ b.conditions ++ [.binary op a.term b.term]) = .ok body ∧
          u = .quantified .ex (a.vars ++ b.vars) body) := by
  simp only [compareIntegers, runs_bind, runs_lift, Term.mkBinary_eq_ok] at h
  obtain ⟨a, m, ha, b, _, hb, _, _, ⟨⟨_, rfl⟩, rfl⟩, h⟩ := h
  refine ⟨a, b, m, ha, ?_⟩
  split at h
  · rename_i hempty
    obtain ⟨rfl, rfl⟩ := runs_pure.1 h
    exact ⟨hb, Or.inl ⟨by simpa using hempty, rfl⟩⟩
  · simp only [runs_bind, runs_lift, Term.ex, Term.mkQuantified_eq_ok] at h
    obtain ⟨body, _, ⟨hbody, rfl⟩, ⟨_, _, rfl⟩, rfl⟩ := h
    exact ⟨hb, Or.inr ⟨body, hbody, rfl⟩⟩

section Both

variable {l r : Term} {a b : Value} (ha : ReadsFrom s l a m) (hb : ReadsFrom m r b s')

include ha hb

/-- What the first reading is made of does not depend on the variables of the second. -/
theorem eval_first_reading (hfl : l.SettledAt s.fresh) {c : Term}
    (hc : c = a.term ∨ c ∈ a.conditions) (as bs : List (RelSmt.Value E)) :
    c.eval I ((ρ.bindAll a.vars as).bindAll b.vars bs)
      = c.eval I (ρ.bindAll a.vars as) := by
  refine Term.eval_bindAll_of_fresh I bs _ fun y hy x hx => ?_
  have hy : y ∈ a.term.freeOccurrences ∨ ∃ c ∈ a.conditions, y ∈ c.freeOccurrences := by
    rcases hc with rfl | hc
    · exact Or.inl hy
    · exact Or.inr ⟨c, hc, hy⟩
  obtain ⟨k, hk, _, hname⟩ := hb.fresh x hx
  rw [hname]
  rcases ha.free y hy with hy | hy
  · exact ((hfl y hy).mono ha.grows.fresh).ne_numbered hk
  · obtain ⟨j, _, hj, hname'⟩ := ha.fresh y hy
    rw [hname']
    exact (settled_numbered hj).ne_numbered hk

/-- What the second reading is made of does not depend on the variables of the first. -/
theorem eval_second_reading (hfr : r.SettledAt s.fresh) {c : Term}
    (hc : c = b.term ∨ c ∈ b.conditions) (as : List (RelSmt.Value E)) {bs : List (RelSmt.Value E)}
    (hbs : I.HasSorts b.vars bs) :
    c.eval I ((ρ.bindAll a.vars as).bindAll b.vars bs)
      = c.eval I (ρ.bindAll b.vars bs) := by
  refine Term.eval_congr I c fun y hy => Assignment.get_bindAll_congr _ bs _ _ hbs.length ?_
  have hy : y ∈ b.term.freeOccurrences ∨ ∃ c ∈ b.conditions, y ∈ c.freeOccurrences := by
    rcases hc with rfl | hc
    · exact Or.inl hy
    · exact Or.inr ⟨c, hc, hy⟩
  rcases hb.free y hy with hy | hy
  · refine Or.inl (Assignment.get_bindAll_of_not_mem _ as ρ fun x hx => ?_)
    obtain ⟨k, hk, _, hname⟩ := ha.fresh x hx
    rw [hname]
    exact (hfr y hy).ne_numbered hk
  · exact Or.inr ⟨y, hy, rfl⟩

/-- Under the variables of both, two operands read as any value of the one with any value of the
other. -/
theorem reads_both (hfl : l.SettledAt s.fresh) (hfr : r.SettledAt s.fresh)
    {p : RelSmt.Value E → RelSmt.Value E → Prop} :
    (∃ as, I.HasSorts (a.vars ++ b.vars) as ∧
      (∀ c ∈ a.conditions ++ b.conditions,
        (c.eval I (ρ.bindAll (a.vars ++ b.vars) as)).Holds) ∧
      p (a.term.eval I (ρ.bindAll (a.vars ++ b.vars) as))
        (b.term.eval I (ρ.bindAll (a.vars ++ b.vars) as))) ↔
    ∃ v w, a.Reads I ρ v ∧ b.Reads I ρ w ∧ p v w := by
  -- each operand reads from its own variables, whatever the other's are bound to
  have hleft := fun {c} hc => eval_first_reading (I := I) (ρ := ρ) ha hb hfl (c := c) hc
  have hright := fun {c} hc as {bs} (hbs : I.HasSorts b.vars bs) =>
    eval_second_reading (ρ := ρ) ha hb hfr (c := c) hc as hbs
  constructor
  · rintro ⟨_, has, hcond, hp⟩
    obtain ⟨as, bs, rfl, has, hbs⟩ := I.hasSorts_append.1 has
    simp only [Assignment.bindAll_append _ _ _ _ _ has.length] at hcond hp
    rw [hleft (Or.inl rfl), hright (Or.inl rfl) _ hbs] at hp
    refine ⟨_, _, ⟨as, has, fun c hc => ?_, rfl⟩, ⟨bs, hbs, fun c hc => ?_, rfl⟩, hp⟩
    · rw [← hleft (Or.inr hc)]
      exact hcond c (List.mem_append_left _ hc)
    · rw [← hright (Or.inr hc) _ hbs]
      exact hcond c (List.mem_append_right _ hc)
  · rintro ⟨_, _, ⟨as, has, hc, rfl⟩, ⟨bs, hbs, hd, rfl⟩, hp⟩
    refine ⟨as ++ bs, I.hasSorts_append.2 ⟨as, bs, rfl, has, hbs⟩, ?_, ?_⟩
    · intro c hmem
      rw [Assignment.bindAll_append _ _ _ _ _ has.length]
      rcases List.mem_append.1 hmem with hmem | hmem
      · rw [hleft (Or.inr hmem)]
        exact hc c hmem
      · rw [hright (Or.inr hmem) _ hbs]
        exact hd c hmem
    · rw [Assignment.bindAll_append _ _ _ _ _ has.length, hleft (Or.inl rfl),
        hright (Or.inl rfl) _ hbs]
      exact hp

end Both

/-- **A comparison says that both operands are single integers in the given relation.** -/
theorem denotes_compareIntegers {op : BinaryOp} {l r : Term} {p : Int → Int → Prop}
    (hop : ∀ i j, Term.binaryValue I op (.int i) (.int j) = .truth (p i j))
    (hl : l.Denotes I ρ v) (hr : r.Denotes I ρ w) (hfl : l.SettledAt s.fresh)
    (hfr : r.SettledAt s.fresh) (hsort : ∀ x y, (Term.binary op x y).sort = .bool)
    (h : Runs (compareIntegers op l r) s u s') :
    u.Denotes I ρ
      (.truth (∃ i j, (s.relations I).IsInteger v i ∧ (s.relations I).IsInteger w j ∧ p i j)) := by
  obtain ⟨a, b, m, ha, hb, h⟩ := runs_compareIntegers h
  have hra := readsFrom_integerValue ha
  have hrb := readsFrom_integerValue hb
  have hfr' : r.SettledAt m.fresh := hfr.mono hra.grows.fresh
  -- the operands read as integers only, so that the comparison is one of integers
  have hboth : (∃ c d, a.Reads I ρ c ∧ b.Reads I ρ d ∧ (Term.binaryValue I op c d).Holds) ↔
      ∃ i j, (s.relations I).IsInteger v i ∧ (s.relations I).IsInteger w j ∧ p i j := by
    constructor
    · rintro ⟨c, d, hc, hd, hcd⟩
      obtain ⟨i, rfl⟩ := exists_int_of_reads hl ha hc
      obtain ⟨j, rfl⟩ := exists_int_of_reads hr hb hd
      rw [hop, Value.holds_truth] at hcd
      exact ⟨i, j, (reads_integerValue hl hfl ha).1 hc, (reads_integerValue hr hfr' hb).1 hd, hcd⟩
    · rintro ⟨i, j, hi, hj, hp⟩
      refine ⟨.int i, .int j, (reads_integerValue hl hfl ha).2 hi,
        (reads_integerValue hr hfr' hb).2 hj, ?_⟩
      rw [hop]
      exact hp
  rw [Value.truth_inj.2 (hboth.symm.trans (reads_both hra hrb hfl hfr).symm)]
  rcases h with ⟨hempty, rfl⟩ | ⟨body, hbody, rfl⟩
  · -- without variables both readings are what they are, and the comparison is one of integers
    have hconds : a.conditions ++ b.conditions = [] := by
      rw [List.append_eq_nil_iff] at hempty ⊢
      exact ⟨hra.conditions hempty.1, hrb.conditions hempty.2⟩
    have hnil := List.append_eq_nil_iff.1 hempty
    obtain ⟨i, hi⟩ := exists_int_of_reads hl ha
      ((reads_of_vars_eq_nil hnil.1 (hra.conditions hnil.1)).2 rfl)
    obtain ⟨j, hj⟩ := exists_int_of_reads hr hb
      ((reads_of_vars_eq_nil hnil.2 (hrb.conditions hnil.2)).2 rfl)
    refine ⟨?_, by rw [hsort]; trivial⟩
    rw [Term.eval, hi, hj, hop, Value.truth_inj, hempty, hconds]
    constructor
    · intro hp
      refine ⟨[], List.Forall₂.nil, by simp, ?_⟩
      rw [Assignment.bindAll_nil, hi, hj, hop]
      exact hp
    · rintro ⟨_, _, _, hp⟩
      rwa [Assignment.bindAll_nil, hi, hj, hop] at hp
  · refine ⟨?_, trivial⟩
    rw [Term.eval, Value.truth_inj]
    refine exists_congr fun as => and_congr_right fun _ => ?_
    rw [Term.holds_allOf hbody]
    simp only [List.mem_append, List.mem_singleton, or_imp, forall_and, forall_eq, Term.eval]

/-- Compared operands that share a value share their sort. -/
theorem sort_eq_of_compareIntegers {op : BinaryOp} {l r : Term}
    (h : Runs (compareIntegers op l r) s u s') (hl : v.HasSort I.carrier l.sort)
    (hr : v.HasSort I.carrier r.sort) : l.sort = r.sort := by
  have hform : ∀ {t : Term} {a : Value} {m m' : Session}, Runs (integerValue t) m a m' →
      t.sort = .int ∨ t.sort = .uints := by
    intro t a m m' h
    rcases runs_integerValue h with h | h | h
    · exact Or.inl h.1
    · exact Or.inr h.1
    · exact Or.inr h.1
  obtain ⟨a, b, m, ha, hb, _⟩ := runs_compareIntegers h
  rcases hform ha with hsort | hsort <;> rcases hform hb with hsort' | hsort' <;>
    rw [hsort] at hl ⊢ <;> rw [hsort'] at hr ⊢
  · rw [Value.eq_int_of_hasSort hl] at hr
    exact hr.elim
  · rw [Value.eq_int_of_hasSort hr] at hl
    exact hl.elim

/-- **Equality says that the values are the same, or one integer in different forms.** -/
theorem denotes_equality {l r : Term} (hinj : I.IntInjective) (hl : l.Denotes I ρ v)
    (hr : r.Denotes I ρ w) (hfl : l.SettledAt s.fresh) (hfr : r.SettledAt s.fresh)
    (h : Runs (equality l r) s u s') : u.Denotes I ρ (.truth ((s.relations I).Equal v w)) := by
  unfold equality at h
  split at h
  · rename_i hsort
    obtain ⟨h, _⟩ := runs_lift.1 h
    obtain ⟨_, rfl⟩ := Term.eqTo_eq_ok.1 h
    have heq := hl.binary (o := .eq) hr (Term.binarySort_eq.2 hsort)
    -- values of one sort are the same integer only when they are the same value
    have hsame : (v = w) ↔ (s.relations I).Equal v w := by
      refine ⟨Or.inl, ?_⟩
      rintro (h | ⟨n, h | ⟨d, hd, rfl, hdn⟩, h' | ⟨e, he, rfl, hen⟩⟩)
      · exact h
      · rw [h, h']
      · -- one sort does not have both forms of integers
        have hint := Value.eq_int_of_hasSort_int (h ▸ hl.hasSort)
        have hset := Value.isSet_of_hasSort_set hr.hasSort
        simp [← hsort, hint, SmtSort.isSet] at hset
      · have hint := Value.eq_int_of_hasSort_int (h' ▸ hr.hasSort)
        have hset := Value.isSet_of_hasSort_set hl.hasSort
        simp [hsort, hint, SmtSort.isSet] at hset
      · rw [hinj d hd e he (hdn.trans hen.symm)]
    rw [Term.binaryValue, Value.truth_inj.2 hsame] at heq
    exact heq
  · rename_i hsort
    -- values of two sorts are never the same value, so that only integers can be equal
    have hcompare := denotes_compareIntegers (p := fun i j => i = j) (by
      intro i j
      simp [Term.binaryValue]) hl hr hfl hfr (fun _ _ => rfl) h
    have hsame : (∃ i j, (s.relations I).IsInteger v i ∧ (s.relations I).IsInteger w j ∧ i = j) ↔
        (s.relations I).Equal v w := by
      constructor
      · rintro ⟨i, j, hi, hj, rfl⟩
        exact Or.inr ⟨i, hi, hj⟩
      · rintro (h' | ⟨i, hi, hj⟩)
        · exact absurd (sort_eq_of_compareIntegers h (h' ▸ hl.hasSort) hr.hasSort) hsort
        · exact ⟨i, i, hi, hj, rfl⟩
    rw [Value.truth_inj.2 hsame] at hcompare
    exact hcompare

/-! ## Variables -/

theorem extends_compareIntegers {op : BinaryOp} {l r : Term}
    (h : Runs (compareIntegers op l r) s u s') : Extends s s' := by
  obtain ⟨a, b, m, ha, hb, _⟩ := runs_compareIntegers h
  exact (readsFrom_integerValue ha).grows.trans (readsFrom_integerValue hb).grows

theorem mem_free_compareIntegers {op : BinaryOp} {l r : Term}
    (h : Runs (compareIntegers op l r) s u s') {x : Variable} (hx : x ∈ u.freeOccurrences) :
    x ∈ l.freeOccurrences ∨ x ∈ r.freeOccurrences := by
  obtain ⟨a, b, m, ha, hb, h⟩ := runs_compareIntegers h
  have hfa := (readsFrom_integerValue ha).free x
  have hfb := (readsFrom_integerValue hb).free x
  rcases h with ⟨hempty, rfl⟩ | ⟨body, hbody, rfl⟩
  · rw [List.append_eq_nil_iff] at hempty
    simp only [hempty.1, hempty.2, List.not_mem_nil, or_false] at hfa hfb
    simp only [Term.freeOccurrences, List.mem_append] at hx
    exact hx.imp (fun hx => hfa (Or.inl hx)) fun hx => hfb (Or.inl hx)
  · obtain ⟨hx, hne⟩ := Term.mem_freeOccurrences_quantified.1 hx
    obtain ⟨c, hc, hx⟩ := (Term.mem_free_allOf hbody).1 hx
    have hbound : x ∉ a.vars ++ b.vars := fun hmem => hne x hmem rfl
    rw [List.mem_append, not_or] at hbound
    simp only [List.mem_append, List.mem_singleton] at hc
    rcases hc with (hc | hc) | rfl
    · exact Or.inl ((hfa (Or.inr ⟨c, hc, hx⟩)).resolve_right hbound.1)
    · exact Or.inr ((hfb (Or.inr ⟨c, hc, hx⟩)).resolve_right hbound.2)
    · simp only [Term.freeOccurrences, List.mem_append] at hx
      exact hx.imp (fun hx => (hfa (Or.inl hx)).resolve_right hbound.1)
        fun hx => (hfb (Or.inl hx)).resolve_right hbound.2

theorem extends_equality {l r : Term} (h : Runs (equality l r) s u s') : Extends s s' := by
  unfold equality at h
  split at h
  · obtain ⟨_, rfl⟩ := runs_lift.1 h
    exact .refl _
  · exact extends_compareIntegers h

theorem mem_free_equality {l r : Term} (h : Runs (equality l r) s u s') {x : Variable}
    (hx : x ∈ u.freeOccurrences) : x ∈ l.freeOccurrences ∨ x ∈ r.freeOccurrences := by
  unfold equality at h
  split at h
  · exact mem_free_binary (runs_lift.1 h).1 hx
  · exact mem_free_compareIntegers h hx

/-! ## Integers that stand for themselves -/

open Classical in
/-- The number after the one that a set holds. -/
noncomputable def successor (r : Set (Tuple Int)) : Int :=
  Classical.epsilon fun k => r = {[.element (k - 1)]}

theorem successor_singleton (n : Int) : successor {[.element n]} = n + 1 := by
  have h : ({[.element n]} : Set (Tuple Int)) = {[.element (successor {[.element n]} - 1)]} :=
    Classical.epsilon_spec (p := fun k => ({[.element n]} : Set (Tuple Int)) = {[.element (k - 1)]})
      ⟨n + 1, by simp⟩
  have h : n = successor {[.element n]} - 1 := by simpa using h
  omega

/-- The value of an element is itself, a set has the number after the one that it holds, and every
other constant than the set of all integers is the integer one. -/
noncomputable def integerTable (f : FunctionSymbol) (vs : List (RelSmt.Value Int)) :
    RelSmt.Value Int :=
  match vs with
  | [.scalar (.element n)] => .int n
  | [.set r] => .tuple [.element (successor r)]
  | _ => if f = integersSymbol then .set {t | ∃ n, t = [.element n]} else .element 1

/-- The interpretation in which integers stand for themselves. -/
noncomputable def integerModel : Interpretation Int := .ofTable 0 integerTable

theorem function_intValue_integerModel (n : Int) :
    integerModel.function intValue [.element n] = .int n :=
  Interpretation.function_ofTable 0 integerTable intValue [.element n] trivial

theorem intInjective_integerModel : integerModel.IntInjective := by
  intro d _ e _ h
  simpa [Interpretation.intOf, function_intValue_integerModel] using h

end Lowering

end RelSmt
