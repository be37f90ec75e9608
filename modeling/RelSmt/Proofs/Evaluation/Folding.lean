import RelSmt.Proofs.Evaluation.Represents
import RelSmt.Proofs.Term.Fragment

/-!
# Folding agrees with the meaning of operators

Operators on values in normal form are folded to such a value, and it represents what the operator
makes of the values that the operands represent. There are three exceptions. Joins, products,
transposes and closures are left as they are. Integer operators have no value at a zero divisor, and
none where the result does not fit 64 bits; the remainder is taken along with the quotient, so there
it is the quotient that has to fit.
-/

namespace RelSmt

variable {E : Type}

namespace Arithmetic

/-- Has the operator no value here? -/
def DividesByZero : Arithmetic → Int → Prop
  | .div, b => b = 0
  | .mod, b => b = 0
  | _, _ => False

/-- The integer that has to fit 64 bits. -/
def computed : Arithmetic → Int → Int → Int
  | .plus, a, b => a + b
  | .minus, a, b => a - b
  | .times, a, b => a * b
  | .div, a, b => a / b
  | .mod, a, b => a / b

/-- Does the computation leave the 64-bit integers? -/
def Overflows (op : Arithmetic) (a b : Int) : Prop :=
  op.computed a b < -2 ^ 63 ∨ 2 ^ 63 ≤ op.computed a b

/-- The fault of an integer operator on two integers. -/
inductive Fails (op : Arithmetic) (a b : Int) : EvaluationFault → Prop
  | zeroDivisor (h : op.DividesByZero b) : Fails op a b (.zeroDivisor op a)
  | overflow (h : ¬ op.DividesByZero b) (ho : op.Overflows a b) : Fails op a b (.overflow op a b)

end Arithmetic

namespace Term

variable {I : Interpretation E} {s : SmtSort} {x y : Value E} {t u v w : Term}

/-! ## Elements -/

theorem contains_map_tupleOf {xs : List (List Literal)} {cs : List Literal} :
    (xs.map tupleOf).contains (tupleOf cs) = true ↔ cs ∈ xs := by
  rw [List.contains_eq_any_beq, List.any_map, List.any_eq_true]
  simp

theorem contains_elements {xs : List (List Literal)} {cs : List Literal} :
    (xs.eraseDups.map tupleOf).contains (tupleOf cs) = true ↔ cs ∈ xs := by
  rw [contains_map_tupleOf, List.mem_eraseDups]

/-- Is every element listed here listed there? -/
theorem all_contains_elements {xs ys : List (List Literal)} :
    (xs.eraseDups.map tupleOf).all (ys.eraseDups.map tupleOf).contains = true ↔
      ∀ cs ∈ xs, cs ∈ ys := by
  simp only [List.all_eq_true, List.forall_mem_map, List.mem_eraseDups]
  exact forall₂_congr fun cs _ => contains_elements

/-- Filtering elements filters what is listed. -/
theorem exists_foldFilter {xs ys : List (List Literal)} (hv : Lists s v xs) (hw : Lists s w ys)
    (keep : Bool) : ∃ u, foldFilter v w keep = .ok u ∧
      Lists s u (xs.eraseDups.filter fun cs => decide (cs ∈ ys) == keep) := by
  obtain ⟨e, rfl⟩ := SmtSort.isSet_iff.1 hv.isSet
  have hfilter : (xs.eraseDups.map tupleOf).filter
      (fun t => (ys.eraseDups.map tupleOf).contains t == keep)
      = (xs.eraseDups.filter fun cs => decide (cs ∈ ys) == keep).map tupleOf := by
    rw [List.filter_map]
    refine congrArg _ (List.filter_congr fun cs _ => ?_)
    have hcontains : (ys.eraseDups.map tupleOf).contains (tupleOf cs) = decide (cs ∈ ys) :=
      Bool.eq_iff_iff.2 (contains_elements.trans decide_eq_true_iff.symm)
    rw [Function.comp_apply, hcontains]
  have helements : ∀ cs ∈ xs.eraseDups.filter fun cs => decide (cs ∈ ys) == keep,
      (tupleOf cs).WellSorted ∧ (tupleOf cs).sort = e := fun cs hcs => by
    obtain ⟨ht, hs⟩ := hv.sort_of_mem cs (List.mem_eraseDups.1 (List.mem_filter.1 hcs).1)
    exact ⟨ht, (SmtSort.set.inj hs).symm⟩
  obtain ⟨u, hu, hlists⟩ := exists_ofElements helements
  refine ⟨u, ?_, hlists⟩
  refine Checked.bind_eq_ok.2 ⟨_, hw.elements, Checked.bind_eq_ok.2 ⟨_, hv.elements, ?_⟩⟩
  rw [hfilter, hv.sort]
  exact hu

/-- Values are taken for the same exactly if they stand for the same. -/
theorem exists_sameValue (hI : I.Distinct) (hv : Represents I s x v) (hw : Represents I s y w) :
    ∃ b, sameValue v w = .ok b ∧ (b = true ↔ x = y) := by
  cases hs : s.isSet with
  | true =>
    -- sets are the same when each lists what the other lists
    obtain ⟨xs, hxs, rfl⟩ := hv.exists_lists hs
    obtain ⟨ys, hys, rfl⟩ := hw.exists_lists hs
    refine ⟨(xs.eraseDups.map tupleOf).all (ys.eraseDups.map tupleOf).contains &&
      (ys.eraseDups.map tupleOf).all (xs.eraseDups.map tupleOf).contains, ?_, ?_⟩
    · rw [sameValue, hv.sort, hs]
      exact Checked.bind_eq_ok.2 ⟨_, hxs.elements, Checked.bind_eq_ok.2 ⟨_, hys.elements, rfl⟩⟩
    · rw [Bool.and_eq_true, all_contains_elements, all_contains_elements,
        ← hxs.rowsOf_subset_iff hI hys, ← hys.rowsOf_subset_iff hI hxs, Value.set.injEq]
      exact Set.Subset.antisymm_iff.symm
  | false =>
    have hsame : sameValue v w = .ok (v == w) := by
      rw [sameValue, hv.sort, hs]
      rfl
    refine ⟨_, hsame, ?_⟩
    cases htuple : s.isTuple with
    | true =>
      obtain ⟨as, rfl, has, rfl⟩ := hv.exists_tuple htuple
      obtain ⟨bs, rfl, hbs, rfl⟩ := hw.exists_tuple htuple
      rw [tupleOf_beq, beq_iff_eq, Value.tuple.injEq]
      exact ⟨congrArg _, rowOf_injective hI has hbs (hv.sort.trans hw.sort.symm)⟩
    | false =>
      -- what is neither a set nor a tuple is a literal, and equal literals are one value
      have hatomic : s.isAtomic = true := by
        cases s <;> simp_all [SmtSort.isAtomic, SmtSort.isSet, SmtSort.isTuple]
      obtain ⟨a, rfl, ha, rfl⟩ := hv.exists_literal hatomic
      obtain ⟨b, rfl, hb, rfl⟩ := hw.exists_literal hatomic
      rw [literal_beq, beq_iff_eq, Value.scalar.injEq]
      exact ⟨congrArg _, column_injective hI ha hb (hv.sort.trans hw.sort.symm)⟩

/-! ## Operators -/

theorem exists_foldUnary (hI : I.Distinct) {op : UnaryOp} (hop : op.IsFolded)
    (hrule : ∃ s, unarySort op t.sort = .ok s) (hv : Represents I t.sort x v) :
    ∃ w, foldUnary op v = .ok w ∧ Represents I (Term.unary op t).sort (unaryValue op x) w := by
  cases op with
  | not =>
    rw [unarySort_not.1 hrule] at hv
    obtain ⟨b, rfl, rfl⟩ := hv.exists_bool
    exact ⟨.bool !b, rfl, represents_bool (by simp)⟩
  | singleton =>
    obtain ⟨cs, rfl, hcs, rfl⟩ := hv.exists_tuple (unarySort_singleton.1 hrule)
    have hlists := lists_single hcs hv.sort
    refine ⟨_, mkUnary_eq_ok.2 ⟨unarySort_singleton.2 (isTuple_tupleOf cs), rfl⟩, ?_⟩
    have hrows : rowsOf I [cs] = {rowOf I cs} := by
      ext row
      simp [rowsOf, eq_comm]
    have hrepresents := (hlists.represents : Represents I _ _ _)
    rwa [hrows] at hrepresents
  | card =>
    obtain ⟨xs, hxs, rfl⟩ := hv.exists_lists (unarySort_card.1 hrule)
    refine ⟨.int (xs.eraseDups.map tupleOf).length, ?_, ?_⟩
    · rw [foldUnary, if_pos hxs.isValue]
      exact Checked.bind_eq_ok.2 ⟨_, hxs.elements, rfl⟩
    · rw [unaryValue, Value.rows_set, hxs.ncard_rowsOf hI, List.length_map]
      exact represents_int _
  | transpose => exact hop.elim
  | closure => exact hop.elim

theorem exists_foldConnective {c : Connective} (hv : Represents I .bool x v)
    (hw : Represents I .bool y w) :
    ∃ u, foldConnective c v w = .ok u ∧ Represents I .bool (.truth (c.Holds x.Holds y.Holds)) u := by
  obtain ⟨p, rfl, rfl⟩ := hv.exists_bool
  obtain ⟨q, rfl, rfl⟩ := hw.exists_bool
  cases c <;> cases p <;> cases q <;>
    exact ⟨_, rfl, represents_bool (by simp [Connective.Holds])⟩

theorem compareInts_iff {c : Comparison} {a b : Int} :
    compareInts c a b = true ↔ c.Holds a b := by
  cases c <;> simp [compareInts, Comparison.Holds]

/-- Folding a set operator, by the tuples that are listed. -/
theorem exists_foldSet (hI : I.Distinct) {op : SetOp} (hs : s.isSet = true)
    (hv : Represents I s x v) (hw : Represents I s y w) :
    ∃ u, foldBinary (.set op) v w = .ok u ∧
      Represents I s (.set (op.apply x.rows y.rows)) u := by
  obtain ⟨xs, hxs, rfl⟩ := hv.exists_lists hs
  obtain ⟨ys, hys, rfl⟩ := hw.exists_lists hs
  have hmem : ∀ cs ∈ xs, rowOf I cs ∈ rowsOf I ys ↔ cs ∈ ys := fun cs hcs =>
    hys.rowOf_mem_iff hI (hxs.sort_of_mem cs hcs).1 (hxs.sort_of_mem cs hcs).2
  -- of the tuples of one set, those are kept that are, or are not, in the other
  have hfilter : ∀ keep, rowsOf I (xs.eraseDups.filter fun cs => decide (cs ∈ ys) == keep)
      = {t | t ∈ rowsOf I xs ∧ (t ∈ rowsOf I ys ↔ keep = true)} := by
    intro keep
    ext row
    constructor
    · rintro ⟨cs, hcs, rfl⟩
      obtain ⟨hcs, hkeep⟩ := List.mem_filter.1 hcs
      rw [List.mem_eraseDups] at hcs
      rw [beq_iff_eq] at hkeep
      exact ⟨mem_rowsOf_of_mem hcs, by rw [hmem cs hcs, ← hkeep, decide_eq_true_iff]⟩
    · rintro ⟨⟨cs, hcs, rfl⟩, hkeep⟩
      rw [hmem cs hcs] at hkeep
      refine ⟨cs, List.mem_filter.2 ⟨List.mem_eraseDups.2 hcs, ?_⟩, rfl⟩
      rw [beq_iff_eq, Bool.eq_iff_iff, decide_eq_true_iff]
      exact hkeep
  cases op with
  | union =>
    have hunion := hxs.union hys
    refine ⟨_, (foldBinary_union _ _).trans
      (setOp_eq_ok.2 ⟨⟨hxs.sort ▸ hs, hxs.sort.trans hys.sort.symm⟩, rfl⟩), ?_⟩
    have hrepresents := (hunion.represents : Represents I _ _ _)
    rwa [rowsOf_append] at hrepresents
  | intersection =>
    obtain ⟨u, hu, hlists⟩ := exists_foldFilter hxs hys true
    refine ⟨u, by simpa [foldBinary, hxs.isValue, hys.isValue] using hu, ?_⟩
    have hrepresents := (hlists.represents : Represents I _ _ _)
    simp only [hfilter, iff_true] at hrepresents
    exact hrepresents
  | difference =>
    obtain ⟨u, hu, hlists⟩ := exists_foldFilter hxs hys false
    refine ⟨u, by simpa [foldBinary, hxs.isValue, hys.isValue] using hu, ?_⟩
    have hrepresents := (hlists.represents : Represents I _ _ _)
    simp only [hfilter, Bool.false_eq_true, iff_false] at hrepresents
    exact hrepresents

/-- Operators other than those on integers always have a value. -/
theorem exists_foldBinary (hI : I.Distinct) {op : BinaryOp} (hop : op.IsFolded)
    (harithmetic : ∀ o, op ≠ .arithmetic o)
    (hrule : ∃ s, binarySort op t.sort u.sort = .ok s) (hv : Represents I t.sort x v)
    (hw : Represents I u.sort y w) :
    ∃ z, foldBinary op v w = .ok z ∧
      Represents I (Term.binary op t u).sort (binaryValue I op x y) z := by
  have hvalues : (v.isValue && w.isValue) = true := by
    rw [hv.normal.isValue, hw.normal.isValue]
    rfl
  cases op with
  | connective c =>
    obtain ⟨ht, hu⟩ := binarySort_connective.1 hrule
    exact exists_foldConnective (ht ▸ hv) (hu ▸ hw)
  | eq =>
    obtain ⟨b, hb, hiff⟩ := exists_sameValue hI hv (binarySort_eq.1 hrule ▸ hw)
    refine ⟨.bool b, ?_, represents_bool hiff⟩
    rw [foldBinary, if_pos hvalues]
    exact Checked.bind_eq_ok.2 ⟨_, hb, rfl⟩
  | comparison c =>
    obtain ⟨ht, hu⟩ := binarySort_comparison.1 hrule
    obtain ⟨a, rfl, rfl⟩ := (ht ▸ hv).exists_int
    obtain ⟨b, rfl, rfl⟩ := (hu ▸ hw).exists_int
    exact ⟨_, rfl, represents_bool compareInts_iff⟩
  | arithmetic o => exact absurd rfl (harithmetic o)
  | set o =>
    obtain ⟨hs, hsort⟩ := binarySort_set.1 hrule
    exact exists_foldSet hI hs hv (hsort ▸ hw)
  | member =>
    have hsort := binarySort_member.1 hrule
    rw [hsort] at hw
    obtain ⟨ys, hys, rfl⟩ := hw.exists_lists rfl
    cases htuple : t.sort.isTuple with
    | true =>
      obtain ⟨cs, rfl, hcs, rfl⟩ := hv.exists_tuple htuple
      refine ⟨.bool ((ys.eraseDups.map tupleOf).contains (tupleOf cs)), ?_, represents_bool ?_⟩
      · rw [foldBinary, if_pos hvalues]
        exact Checked.bind_eq_ok.2 ⟨_, hys.elements, rfl⟩
      · rw [contains_elements, Value.row_tuple, Value.rows_set,
          hys.rowOf_mem_iff hI hcs (congrArg _ hv.sort.symm)]
    | false =>
      -- only tuples are listed, so nothing is
      have hnil : ys = [] := List.eq_nil_iff_forall_not_mem.2 fun cs hcs => by
        have hset := SmtSort.set.inj (hys.sort_of_mem cs hcs).2
        rw [hset, isTuple_tupleOf] at htuple
        cases htuple
      subst hnil
      refine ⟨.bool false, ?_, represents_bool (by simp)⟩
      rw [foldBinary, if_pos hvalues]
      exact Checked.bind_eq_ok.2 ⟨_, hys.elements, rfl⟩
  | subset =>
    obtain ⟨hs, hsort⟩ := binarySort_subset.1 hrule
    obtain ⟨xs, hxs, rfl⟩ := hv.exists_lists hs
    obtain ⟨ys, hys, rfl⟩ := (hsort ▸ hw).exists_lists hs
    refine ⟨_, ?_, represents_bool (all_contains_elements.trans (hxs.rowsOf_subset_iff hI hys).symm)⟩
    rw [foldBinary, if_pos hvalues]
    exact Checked.bind_eq_ok.2 ⟨_, hys.elements, Checked.bind_eq_ok.2 ⟨_, hxs.elements, rfl⟩⟩
  | join => exact hop.elim
  | product => exact hop.elim

/-! ## Integers -/

theorem fits64_iff {n : Int} : fits64 n = true ↔ ¬ (n < -2 ^ 63 ∨ 2 ^ 63 ≤ n) := by
  rw [fits64, Bool.and_eq_true, decide_eq_true_iff, decide_eq_true_iff, not_or, not_lt, not_le]
  omega

theorem resultFits_iff {op : Arithmetic} {a b : Int} :
    resultFits op a b = true ↔ ¬ op.Overflows a b := by
  cases op <;> exact fits64_iff

theorem isDivision_and_iff {op : Arithmetic} {b : Int} :
    (isDivision op && b == 0) = true ↔ op.DividesByZero b := by
  cases op <;> simp [isDivision, Arithmetic.DividesByZero]

theorem exactResult_eq {op : Arithmetic} {a b : Int} (h : ¬ op.DividesByZero b) :
    I.arithmetic op a b = exactResult op a b := by
  cases op with
  | div => exact if_neg h
  | mod => exact if_neg h
  | _ => rfl

theorem foldArithmetic_of_fits {op : Arithmetic} {a b : Int} (hzero : ¬ op.DividesByZero b)
    (hfits : ¬ op.Overflows a b) : foldArithmetic op a b = .ok (.int (exactResult op a b)) := by
  rw [foldArithmetic, if_neg (isDivision_and_iff.not.2 hzero), if_pos (resultFits_iff.2 hfits)]

theorem foldArithmetic_of_fails {op : Arithmetic} {a b : Int} {e : EvaluationFault}
    (h : op.Fails a b e) : foldArithmetic op a b = .error (.evaluation e) := by
  cases h with
  | zeroDivisor hzero => exact if_pos (isDivision_and_iff.2 hzero)
  | overflow hzero hoverflows =>
    rw [foldArithmetic, if_neg (isDivision_and_iff.not.2 hzero),
      if_neg fun h => resultFits_iff.1 h hoverflows]

/-- An integer operator has its mathematical result, unless it fails. -/
theorem foldArithmetic_cases (op : Arithmetic) (a b : Int) :
    foldArithmetic op a b = .ok (.int (I.arithmetic op a b)) ∨
      ∃ e, foldArithmetic op a b = .error (.evaluation e) ∧ op.Fails a b e := by
  by_cases hzero : op.DividesByZero b
  · exact Or.inr ⟨_, foldArithmetic_of_fails (.zeroDivisor hzero), .zeroDivisor hzero⟩
  by_cases hfits : op.Overflows a b
  · exact Or.inr ⟨_, foldArithmetic_of_fails (.overflow hzero hfits), .overflow hzero hfits⟩
  · exact Or.inl (exactResult_eq (I := I) hzero ▸ foldArithmetic_of_fits hzero hfits)

/-! ## Operators on several operands -/

/-- Truth values represented one by one are a list of literals. -/
theorem exists_bools {f : Term → Value E} {ts vs : List Term}
    (h : List.Forall₂ (fun t v => Represents I t.sort (f t) v) ts vs)
    (hsort : ∀ t ∈ ts, t.sort = .bool) : ∃ bs : List Bool, vs = bs.map .bool ∧
      ts.map f = bs.map fun b => .truth (b = true) := by
  induction h with
  | nil => exact ⟨[], rfl, rfl⟩
  | cons hv _ ih =>
    obtain ⟨ht, hts⟩ := List.forall_mem_cons.1 hsort
    rw [ht] at hv
    obtain ⟨b, rfl, hb⟩ := hv.exists_bool
    obtain ⟨bs, rfl, hbs⟩ := ih hts
    exact ⟨b :: bs, rfl, by rw [List.map_cons, hb, hbs, List.map_cons]⟩

/-- Columns represented one by one are the literals of a tuple. -/
theorem exists_literals {f : Term → Value E} {ts vs : List Term}
    (h : List.Forall₂ (fun t v => Represents I t.sort (f t) v) ts vs)
    (hsort : ∀ t ∈ ts, t.sort.isAtomic = true) : ∃ cs : List Literal, vs = cs.map .literal ∧
      (∀ c ∈ cs, (Term.literal c).WellSorted) ∧
      ts.map sort = (cs.map fun c => (Term.literal c).sort) ∧
      (ts.map fun t => (f t).column) = rowOf I cs := by
  induction h with
  | nil => exact ⟨[], rfl, by simp, rfl, rfl⟩
  | @cons t v _ _ hv _ ih =>
    obtain ⟨ht, hts⟩ := List.forall_mem_cons.1 hsort
    obtain ⟨c, rfl, hc, hvalue⟩ := hv.exists_literal ht
    obtain ⟨cs, rfl, hcs, hsorts, hrow⟩ := ih hts
    refine ⟨c :: cs, rfl, List.forall_mem_cons.2 ⟨hc, hcs⟩, ?_, ?_⟩
    · rw [List.map_cons, List.map_cons, hsorts, ← hv.sort]
    · rw [List.map_cons, hrow, hvalue]
      rfl

/-- Of closed formulas either one decides or none is left open. -/
theorem foldMany_bools {deciding : Bool} {close : List Term → Checked Term}
    (hclose : close [] = .ok (.bool !deciding)) (bs : List Bool) :
    foldMany deciding close (bs.map .bool) = .ok (.bool (bs.contains deciding == deciding)) := by
  have hany : (bs.map Term.bool).any (fun t => t.bool? == some deciding) = bs.contains deciding := by
    rw [List.any_map, List.contains_eq_any_beq]
    refine congrArg bs.any (funext fun b => ?_)
    cases b <;> cases deciding <;> rfl
  have hopen : (bs.map Term.bool).filter (fun t => t.bool?.isNone) = [] := by
    rw [List.filter_eq_nil_iff, List.forall_mem_map]
    exact fun _ _ => Bool.false_ne_true
  rw [foldMany, hany, hopen, hclose]
  cases bs.contains deciding <;> cases deciding <;> rfl

theorem exists_foldNary {f : Term → Value E} {op : NaryOp} {ts vs : List Term} (hne : ts ≠ [])
    (hfit : ∀ t ∈ ts, fitsNary op t.sort = true)
    (h : List.Forall₂ (fun t v => Represents I t.sort (f t) v) ts vs) :
    ∃ w, foldNary op vs = .ok w ∧
      Represents I (Term.nary op ts).sort (naryValue op (ts.map f)) w := by
  cases op with
  | and =>
    obtain ⟨bs, rfl, hbs⟩ := exists_bools h fun t ht => beq_iff_eq.1 (hfit t ht)
    refine ⟨_, foldMany_bools rfl bs, ?_⟩
    rw [hbs]
    refine represents_bool ?_
    rw [List.forall_mem_map, beq_iff_eq, ← Bool.not_eq_true, List.contains_iff_mem]
    exact ⟨fun h b hb => Bool.eq_true_of_not_eq_false fun he => h (he ▸ hb),
      fun h hb => Bool.false_ne_true (h false hb)⟩
  | or =>
    obtain ⟨bs, rfl, hbs⟩ := exists_bools h fun t ht => beq_iff_eq.1 (hfit t ht)
    refine ⟨_, foldMany_bools rfl bs, ?_⟩
    rw [hbs]
    refine represents_bool ?_
    rw [beq_iff_eq, List.contains_iff_mem]
    constructor
    · exact fun hb => ⟨_, List.mem_map_of_mem hb, rfl⟩
    · rintro ⟨_, hv, hholds⟩
      obtain ⟨b, hb, rfl⟩ := List.mem_map.1 hv
      exact (show b = true from hholds) ▸ hb
  | mkTuple =>
    obtain ⟨cs, rfl, hcs, hsorts, hrow⟩ := exists_literals h hfit
    -- the literals have the sorts of the operands, which a tuple takes as columns
    have hatomic : ∀ c ∈ cs, (Term.literal c).sort.isAtomic = true := by
      have hall : ∀ s ∈ ts.map sort, s.isAtomic = true := List.forall_mem_map.2 hfit
      rw [hsorts] at hall
      exact List.forall_mem_map.1 hall
    have hnil : cs.map Term.literal ≠ [] := by
      rintro hcs
      rw [List.map_eq_nil_iff.1 hcs, List.map_nil] at hsorts
      exact hne (List.map_eq_nil_iff.1 hsorts)
    have hwell : (tupleOf cs).WellSorted :=
      ⟨hnil, wellSortedAll_iff.2 (List.forall_mem_map.2 hcs), List.forall_mem_map.2 hatomic⟩
    refine ⟨tupleOf cs, mkNary_eq_ok.2 ⟨hnil, List.forall_mem_map.2 hatomic, rfl⟩, ?_⟩
    have hrepresents := (represents_tupleOf hwell : Represents I _ _ _)
    rw [sort_tupleOf, ← hsorts, ← hrow] at hrepresents
    rw [Term.sort, sorts_eq_map, naryValue, List.map_map]
    exact hrepresents

end Term

end RelSmt
