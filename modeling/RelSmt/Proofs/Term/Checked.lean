import Mathlib.Data.List.Forall2
import RelSmt.Term.Build

/-!
# What the checked constructors return

Each checked constructor either faults or returns the node that it is named for, with operands whose
sorts fit. One lemma for each says exactly when it returns what, so that no later proof opens a
constructor.
-/

namespace RelSmt

theorem Checked.bind_eq_ok {α β : Type} {x : Checked α} {f : α → Checked β} {b : β} :
    x >>= f = .ok b ↔ ∃ a, x = .ok a ∧ f a = .ok b := by
  cases x <;> simp [bind, Except.bind]

theorem Checked.ok_bind {α β : Type} (a : α) (f : α → Checked β) :
    ((.ok a : Checked α) >>= f) = f a := rfl

theorem Checked.pure_eq_ok {α : Type} {a b : α} : (pure a : Checked α) = .ok b ↔ a = b := by
  simp [pure, Except.pure]

/-- Checking a list checks its elements, one after the other. -/
theorem Checked.mapM_eq_ok {α β : Type} {f : α → Checked β} : ∀ {xs : List α} {ys : List β},
    xs.mapM f = .ok ys ↔ List.Forall₂ (fun a b => f a = .ok b) xs ys
  | [], ys => by
    rw [List.mapM_nil, Checked.pure_eq_ok, List.forall₂_nil_left_iff, eq_comm]
  | x :: xs, ys => by
    simp only [List.mapM_cons, Checked.bind_eq_ok, Checked.pure_eq_ok, List.forall₂_cons_left_iff]
    constructor
    · rintro ⟨y, hy, ys', hys, rfl⟩
      exact ⟨y, ys', hy, Checked.mapM_eq_ok.1 hys, rfl⟩
    · rintro ⟨y, ys', hy, hys, rfl⟩
      exact ⟨y, hy, ys', Checked.mapM_eq_ok.2 hys, rfl⟩

theorem exists_mem_of_forall₂ {α β : Type} {R : α → β → Prop} {xs : List α} {ys : List β}
    (h : List.Forall₂ R xs ys) {y : β} (hy : y ∈ ys) : ∃ x ∈ xs, R x y := by
  induction h with
  | nil => simp at hy
  | @cons a b xs ys hab _ ih =>
    rcases List.mem_cons.1 hy with rfl | hy
    · exact ⟨a, List.mem_cons_self, hab⟩
    · obtain ⟨x, hx, hxy⟩ := ih hy
      exact ⟨x, List.mem_cons_of_mem _ hx, hxy⟩

theorem SmtSort.isSet_iff {s : SmtSort} : s.isSet = true ↔ ∃ e, s = .set e := by
  cases s <;> simp [isSet]

theorem SmtSort.isTuple_iff {s : SmtSort} : s.isTuple = true ↔ ∃ cs, s = .tuple cs := by
  cases s <;> simp [isTuple]

theorem SmtSort.element?_eq_some {s e : SmtSort} : s.element? = some e ↔ s = .set e := by
  cases s <;> simp [element?]

theorem SmtSort.relationOf_eq_ok {cs : List SmtSort} {s : SmtSort} :
    relationOf cs = .ok s ↔ cs ≠ [] ∧ .relation cs = s := by
  cases cs <;> simp [relationOf]

namespace Term

/-! ## Nodes -/

theorem mkUnary_eq_ok {op : UnaryOp} {t u : Term} :
    mkUnary op t = .ok u ↔ (∃ s, unarySort op t.sort = .ok s) ∧ .unary op t = u := by
  simp only [mkUnary, Checked.bind_eq_ok, Checked.pure_eq_ok, exists_and_right]

theorem mkBinary_eq_ok {op : BinaryOp} {l r u : Term} :
    mkBinary op l r = .ok u ↔
      (∃ s, binarySort op l.sort r.sort = .ok s) ∧ .binary op l r = u := by
  simp only [mkBinary, Checked.bind_eq_ok, Checked.pure_eq_ok, exists_and_right]

theorem mkIte_eq_ok {c y n u : Term} :
    mkIte c y n = .ok u ↔ c.sort = .bool ∧ y.sort = n.sort ∧ .ite c y n = u := by
  unfold mkIte
  split
  · simp_all
  · split <;> simp_all

theorem mkNary_eq_ok {op : NaryOp} {ts : List Term} {u : Term} :
    mkNary op ts = .ok u ↔
      ts ≠ [] ∧ (∀ t ∈ ts, fitsNary op t.sort = true) ∧ .nary op ts = u := by
  unfold mkNary
  split
  · simp_all
  · split
    · rename_i t ht
      have hmem := List.mem_of_find?_eq_some ht
      have hbad := List.find?_some ht
      simp only [reduceCtorEq, false_iff, not_and]
      intro _ hall
      simp [hall t hmem] at hbad
    · rename_i ht
      simp_all

theorem mkQuantified_eq_ok {q : Quantifier} {vs : List Variable} {body u : Term} :
    mkQuantified q vs body = .ok u ↔
      vs ≠ [] ∧ body.sort = .bool ∧ .quantified q vs body = u := by
  unfold mkQuantified
  split
  · simp_all
  · split <;> simp_all

theorem firstMismatch_eq_none : ∀ {ss : List SmtSort} {ts : List Term}, ss.length = ts.length →
    (firstMismatch ss ts = none ↔ sorts ts = ss)
  | [], [], _ => by simp [firstMismatch, sorts]
  | s :: ss, t :: ts, h => by
    simp only [firstMismatch, sorts, List.cons.injEq]
    split
    · rename_i hs
      rw [firstMismatch_eq_none (by simpa using h)]
      simp [hs]
    · simp_all

theorem mkCall_eq_ok {f : FunctionSymbol} {ts : List Term} {u : Term} :
    mkCall f ts = .ok u ↔ sorts ts = f.inputs ∧ .call f ts = u := by
  have hlen : sorts ts = f.inputs → f.inputs.length = ts.length := by
    rintro h
    simp [← h, sorts_eq_map]
  unfold mkCall
  split
  · rename_i hne
    simp only [reduceCtorEq, false_iff, not_and]
    exact fun h => absurd (hlen h) hne
  · rename_i he
    rw [← firstMismatch_eq_none (Decidable.not_not.1 he)]
    split <;> simp_all

theorem emptyOf_eq_ok {s : SmtSort} {u : Term} :
    emptyOf s = .ok u ↔ s.isSet = true ∧ .emptySet s = u := by
  unfold emptyOf
  split <;> simp_all

theorem fullOf_eq_ok {s : SmtSort} {u : Term} :
    fullOf s = .ok u ↔ s.isSet = true ∧ .fullSet s = u := by
  unfold fullOf
  split <;> simp_all

/-! ## Which operand sorts fit -/

section Fit

variable {s l r : SmtSort}

@[simp] theorem unarySort_not : (∃ s', unarySort .not s = .ok s') ↔ s = .bool := by
  simp only [unarySort]
  split <;> simp_all

@[simp] theorem unarySort_singleton :
    (∃ s', unarySort .singleton s = .ok s') ↔ s.isTuple = true := by
  simp only [unarySort]
  split <;> simp_all

@[simp] theorem unarySort_card : (∃ s', unarySort .card s = .ok s') ↔ s.isSet = true := by
  simp only [unarySort]
  split <;> simp_all

@[simp] theorem unarySort_transpose :
    (∃ s', unarySort .transpose s = .ok s') ↔ s.isSet = true ∧ s.arity = 2 := by
  simp only [unarySort]
  split <;> simp_all

@[simp] theorem unarySort_closure :
    (∃ s', unarySort .closure s = .ok s') ↔ s.isSet = true ∧ ∃ c, s.columns = [c, c] := by
  simp only [unarySort]
  split
  · rename_i h
    split
    · rename_i a b hab
      split
      · rename_i heq
        simp_all
      · rename_i hne
        simp only [reduceCtorEq, exists_false, hab, List.cons.injEq, and_true, false_iff, not_and,
          not_exists]
        exact fun _ c hac hbc => hne (hac.trans hbc.symm)
    · rename_i hne
      simp only [reduceCtorEq, exists_false, false_iff, not_and, not_exists]
      exact fun _ c hc => hne c c hc
  · rename_i h
    simp only [Bool.and_eq_true, beq_iff_eq, not_and] at h
    simp only [reduceCtorEq, exists_false, false_iff, not_and, not_exists]
    exact fun hs c hc => h hs (by simp [SmtSort.arity, hc])

@[simp] theorem binarySort_connective {c : Connective} :
    (∃ s', binarySort (.connective c) l r = .ok s') ↔ l = .bool ∧ r = .bool := by
  simp only [binarySort]
  split <;> simp_all

@[simp] theorem binarySort_eq : (∃ s', binarySort .eq l r = .ok s') ↔ l = r := by
  simp only [binarySort]
  split <;> simp_all

@[simp] theorem binarySort_comparison {c : Comparison} :
    (∃ s', binarySort (.comparison c) l r = .ok s') ↔ l = .int ∧ r = .int := by
  simp only [binarySort]
  split <;> simp_all

@[simp] theorem binarySort_arithmetic {a : Arithmetic} :
    (∃ s', binarySort (.arithmetic a) l r = .ok s') ↔ l = .int ∧ r = .int := by
  simp only [binarySort]
  split <;> simp_all

@[simp] theorem binarySort_set {o : SetOp} :
    (∃ s', binarySort (.set o) l r = .ok s') ↔ l.isSet = true ∧ l = r := by
  simp only [binarySort]
  split
  · rename_i h
    simp [h.1, ← h.2]
  · simp_all

@[simp] theorem binarySort_subset :
    (∃ s', binarySort .subset l r = .ok s') ↔ l.isSet = true ∧ l = r := by
  simp only [binarySort]
  split
  · rename_i h
    simp [h.1, ← h.2]
  · simp_all

@[simp] theorem binarySort_member : (∃ s', binarySort .member l r = .ok s') ↔ r = .set l := by
  simp only [binarySort]
  split <;> simp_all

theorem relationColumns_eq_ok {op : BinaryOp} {p : List SmtSort × List SmtSort} :
    relationColumns op l r = .ok p ↔
      l.isSet = true ∧ r.isSet = true ∧ l.columns ≠ [] ∧ r.columns ≠ [] ∧
        (l.columns, r.columns) = p := by
  unfold relationColumns
  split <;> simp_all

/-- Do the sorts of two relations let them be joined? -/
def Joinable (l r : SmtSort) : Prop :=
  l.isSet = true ∧ r.isSet = true ∧ l.columns ≠ [] ∧ r.columns ≠ [] ∧
    l.columns.getLast? = r.columns.head? ∧ joinColumns l.columns r.columns ≠ []

@[simp] theorem binarySort_join : (∃ s', binarySort .join l r = .ok s') ↔ Joinable l r := by
  simp only [binarySort, Checked.bind_eq_ok, relationColumns_eq_ok, Joinable]
  constructor
  · rintro ⟨_, ⟨_, _⟩, ⟨h1, h2, h3, h4, hp⟩, hs⟩
    obtain ⟨rfl, rfl⟩ := Prod.mk.inj hp
    by_cases h5 : l.columns.getLast? = r.columns.head?
    · by_cases h6 : joinColumns l.columns r.columns = []
      · simp [h5, h6] at hs
      · exact ⟨h1, h2, h3, h4, h5, h6⟩
    · simp [h5] at hs
  · rintro ⟨h1, h2, h3, h4, h5, h6⟩
    refine ⟨.relation (joinColumns l.columns r.columns), (_, _), ⟨h1, h2, h3, h4, rfl⟩, ?_⟩
    simp [h5, h6]

@[simp] theorem binarySort_product :
    (∃ s', binarySort .product l r = .ok s') ↔
      l.isSet = true ∧ r.isSet = true ∧ l.columns ≠ [] ∧ r.columns ≠ [] := by
  simp only [binarySort, Checked.bind_eq_ok, relationColumns_eq_ok]
  constructor
  · rintro ⟨_, _, ⟨h1, h2, h3, h4, _⟩, _⟩
    exact ⟨h1, h2, h3, h4⟩
  · rintro ⟨h1, h2, h3, h4⟩
    exact ⟨_, _, ⟨h1, h2, h3, h4, rfl⟩, rfl⟩

end Fit

/-! ## Shorthands, with the sorts that they demand -/

theorem neg_eq_ok {t u : Term} : t.neg = .ok u ↔ t.sort = .bool ∧ .unary .not t = u := by
  simp [neg, mkUnary_eq_ok]

theorem single_eq_ok {t u : Term} :
    t.single = .ok u ↔ t.sort.isTuple = true ∧ .unary .singleton t = u := by
  simp [single, mkUnary_eq_ok]

theorem connective_eq_ok {c : Connective} {s t u : Term} :
    mkBinary (.connective c) s t = .ok u ↔
      (s.sort = .bool ∧ t.sort = .bool) ∧ .binary (.connective c) s t = u := by
  simp [mkBinary_eq_ok]

theorem eqTo_eq_ok {s t u : Term} : s.eqTo t = .ok u ↔ s.sort = t.sort ∧ .binary .eq s t = u := by
  simp [eqTo, mkBinary_eq_ok]

theorem isIn_eq_ok {s t u : Term} :
    s.isIn t = .ok u ↔ t.sort = .set s.sort ∧ .binary .member s t = u := by
  simp [isIn, mkBinary_eq_ok]

theorem within_eq_ok {s t u : Term} :
    s.within t = .ok u ↔ (s.sort.isSet = true ∧ s.sort = t.sort) ∧ .binary .subset s t = u := by
  simp [within, mkBinary_eq_ok]

theorem setOp_eq_ok {o : SetOp} {s t u : Term} :
    mkBinary (.set o) s t = .ok u ↔
      (s.sort.isSet = true ∧ s.sort = t.sort) ∧ .binary (.set o) s t = u := by
  simp [mkBinary_eq_ok]

theorem product_eq_ok {s t u : Term} :
    s.product t = .ok u ↔
      (s.sort.isSet = true ∧ t.sort.isSet = true ∧ s.sort.columns ≠ [] ∧ t.sort.columns ≠ []) ∧
        .binary .product s t = u := by
  simp [product, mkBinary_eq_ok]

theorem join_eq_ok {s t u : Term} :
    s.join t = .ok u ↔ Joinable s.sort t.sort ∧ .binary .join s t = u := by
  simp [join, mkBinary_eq_ok]

theorem isEmpty_eq_ok {s u : Term} :
    s.isEmpty = .ok u ↔ s.sort.isSet = true ∧ .binary .eq s (.emptySet s.sort) = u := by
  simp only [isEmpty, Checked.bind_eq_ok, emptyOf_eq_ok, eqTo_eq_ok]
  constructor
  · rintro ⟨_, ⟨h, rfl⟩, _, rfl⟩
    exact ⟨h, rfl⟩
  · rintro ⟨h, rfl⟩
    exact ⟨_, ⟨h, rfl⟩, rfl, rfl⟩

theorem tuple_eq_ok {ts : List Term} {u : Term} :
    tuple ts = .ok u ↔
      ts ≠ [] ∧ (∀ t ∈ ts, t.sort.isAtomic = true) ∧ .nary .mkTuple ts = u := by
  simp [tuple, mkNary_eq_ok, fitsNary]

/-- The operator that joins formulas, of which all have to hold or any. -/
def joining (all : Bool) : NaryOp := if all then .and else .or

/-- What joining formulas comes to: a truth value for none, the formula itself for one, and a node
over more. -/
inductive Joined (all : Bool) : List Term → Term → Prop where
  | none : Joined all [] (.bool all)
  | one (t : Term) : Joined all [t] t
  | several {ts : List Term} (hne : ∀ t, ts ≠ [t]) (hts : ∀ t ∈ ts, t.sort = .bool) :
      Joined all ts (.nary (joining all) ts)

theorem joined_mkNary {all : Bool} {ts : List Term} {u : Term} (hne : ∀ t, ts ≠ [t])
    (h : mkNary (joining all) ts = .ok u) : Joined all ts u := by
  obtain ⟨_, hfit, rfl⟩ := mkNary_eq_ok.1 h
  refine .several hne fun t ht => ?_
  have := hfit t ht
  cases all <;> simpa [joining, fitsNary] using this

theorem joined_allOf {ts : List Term} {u : Term} (h : allOf ts = .ok u) : Joined true ts u := by
  match ts, h with
  | [], h => exact Except.ok.inj h ▸ .none
  | [t], h => exact Except.ok.inj h ▸ .one t
  | _ :: _ :: _, h => exact joined_mkNary (by simp) h

theorem joined_anyOf {ts : List Term} {u : Term} (h : anyOf ts = .ok u) : Joined false ts u := by
  match ts, h with
  | [], h => exact Except.ok.inj h ▸ .none
  | [t], h => exact Except.ok.inj h ▸ .one t
  | _ :: _ :: _, h => exact joined_mkNary (by simp) h

end Term

theorem Variable.limited_eq_ok {name : String} {s : SmtSort} {c : Option Term} {v : Variable} :
    limited name s c = .ok v ↔ (∀ t, c = some t → t.sort = .bool) ∧ .mk name s c = v := by
  cases c with
  | none => simp [limited]
  | some t => by_cases h : t.sort = .bool <;> simp [limited, h]

/-- An application is the symbol itself where there is nothing to apply it to. -/
theorem FunctionSymbol.apply_eq_ok {f : FunctionSymbol} {ts : List Term} {u : Term} :
    f.apply ts = .ok u ↔
      Term.sorts ts = f.inputs ∧ (if ts = [] then .symbol f else .call f ts) = u := by
  unfold apply
  cases ts with
  | nil =>
    cases hf : f.inputs <;> simp [Term.mkCall_eq_ok, Term.sorts, FunctionSymbol.term, hf]
  | cons t ts => simp [Term.mkCall_eq_ok]

end RelSmt
