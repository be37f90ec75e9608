import Mathlib.Data.List.DropRight
import RelSmt.Lowering.Relation
import RelSmt.Proofs.Lowering.Extension

/-!
# Cardinalities and restrictions

What the terms for cardinalities and restricted relations are, which variables they have, and what
they denote. The cardinality formulas quantify over one fresh variable, so they are about the set
only where its own variables have other names.
-/

namespace RelSmt

variable {E : Type}

/-- Later fresh names differ from those of the term's free variables. -/
def Term.SettledAt (n : Nat) (t : Term) : Prop :=
  ∀ v ∈ t.freeOccurrences, Lowering.Settled n v.name

theorem Term.SettledAt.mono {m n : Nat} {t : Term} (h : t.SettledAt m) (hmn : m ≤ n) :
    t.SettledAt n :=
  fun v hv => (h v hv).mono hmn

namespace Lowering

variable {s s' : Session} {I : Interpretation E} {ρ : Assignment E} {t u : Term} {v w : RelSmt.Value E}

/-! ## Cardinalities -/

theorem nonEmpty_eq_ok : nonEmpty t = .ok u ↔
    t.sort.isSet = true ∧ .unary .not (.binary .eq t (.emptySet t.sort)) = u := by
  simp only [nonEmpty, Checked.bind_eq_ok, Term.isEmpty_eq_ok, Term.neg_eq_ok]
  constructor
  · rintro ⟨_, ⟨h, rfl⟩, _, rfl⟩
    exact ⟨h, rfl⟩
  · rintro ⟨h, rfl⟩
    exact ⟨_, ⟨h, rfl⟩, rfl, rfl⟩

/-- Equality with the empty set says that there is no tuple. -/
theorem denotes_isEmpty (ht : t.Denotes I ρ v) (h : t.isEmpty = .ok u) :
    u.Denotes I ρ (.truth (v.rows = ∅)) := by
  obtain ⟨hset, rfl⟩ := Term.isEmpty_eq_ok.1 h
  have := ht.binary (o := .eq) (Term.denotes_emptySet hset) (by simp [Term.sort])
  rw [ht.eq_set hset] at this
  simpa [Term.binaryValue] using this

theorem denotes_nonEmpty (ht : t.Denotes I ρ v) (h : nonEmpty t = .ok u) :
    u.Denotes I ρ (.truth v.rows.Nonempty) := by
  obtain ⟨hset, rfl⟩ := nonEmpty_eq_ok.1 h
  have hempty := denotes_isEmpty ht (Term.isEmpty_eq_ok.2 ⟨hset, rfl⟩)
  have := hempty.unary (o := .not) (by simp [Term.sort])
  simpa [Term.unaryValue, Set.nonempty_iff_ne_empty] using this

/-- The formula that a set is the singleton of a variable's tuple. -/
theorem runs_exactlyOne (h : Runs (exactlyOne t) s u s') :
    ∃ element, t.sort = .set element ∧ element.isTuple = true ∧
      u = .quantified .ex [.plain (numbered "x" (s.fresh + 1)) element] (.binary .eq t
        (.unary .singleton (.variable (.plain (numbered "x" (s.fresh + 1)) element)))) ∧
      s' = s.next := by
  unfold exactlyOne at h
  split at h
  · simp at h
  · rename_i element hset
    simp only [runs_bind, runs_freshVariable, runs_lift, Term.single_eq_ok, Term.eqTo_eq_ok, Term.ex,
      Term.mkQuantified_eq_ok] at h
    obtain ⟨_, _, ⟨rfl, rfl⟩, _, _, ⟨⟨htuple, rfl⟩, rfl⟩, _, _, ⟨⟨_, rfl⟩, rfl⟩, ⟨_, _, rfl⟩, rfl⟩ := h
    exact ⟨element, SmtSort.element?_eq_some.1 hset, htuple, rfl, rfl⟩

theorem denotes_exactlyOne (ht : t.Denotes I ρ v) (hfree : t.SettledAt s.fresh)
    (h : Runs (exactlyOne t) s u s') : u.Denotes I ρ (.truth (∃ r, v.rows = {r})) := by
  obtain ⟨element, hset, htuple, rfl, _⟩ := runs_exactlyOne h
  obtain ⟨cs, rfl⟩ := SmtSort.isTuple_iff.1 htuple
  have hv := ht.hasSort
  rw [hset] at hv
  refine ⟨?_, trivial⟩
  simp only [Term.eval, Interpretation.exists_hasSorts_single, Value.truth_inj]
  have hbody : ∀ a, t.eval I (ρ.bind (.plain (numbered "x" (s.fresh + 1)) (.tuple cs)) a) = v := by
    intro a
    rw [Term.eval_bind_of_fresh, ht.eval]
    exact fun w hw => (hfree w hw).ne_numbered (Nat.lt_succ_self _)
  simp only [hbody, Term.binaryValue, Term.unaryValue, Assignment.bindAll_cons,
    Assignment.bindAll_nil, Assignment.get_bind_self, Value.holds_truth]
  rw [Value.eq_set_of_hasSort hv]
  simp only [Value.set.injEq, Value.rows_set]
  constructor
  · rintro ⟨a, _, he⟩
    exact ⟨a.row, he⟩
  · rintro ⟨r, hr⟩
    exact ⟨.tuple r, Value.hasSort_of_mem_rows hv (hr ▸ rfl), hr⟩

theorem runs_atMostOne (h : Runs (atMostOne t) s u s') :
    ∃ o, Runs (exactlyOne t) s o s' ∧ t.sort.isSet = true ∧
      u = .binary (.connective .or) (.binary .eq t (.emptySet t.sort)) o := by
  simp only [atMostOne, runs_bind, runs_lift, Term.isEmpty_eq_ok, Term.disj,
    Term.connective_eq_ok] at h
  obtain ⟨_, _, ⟨⟨hset, rfl⟩, rfl⟩, o, _, ho, ⟨_, rfl⟩, rfl⟩ := h
  exact ⟨o, ho, hset, rfl⟩

theorem denotes_atMostOne (ht : t.Denotes I ρ v) (hfree : t.SettledAt s.fresh)
    (h : Runs (atMostOne t) s u s') : u.Denotes I ρ (.truth v.rows.Subsingleton) := by
  obtain ⟨o, ho, hset, rfl⟩ := runs_atMostOne h
  have hempty := denotes_isEmpty ht (Term.isEmpty_eq_ok.2 ⟨hset, rfl⟩)
  have hone := denotes_exactlyOne ht hfree ho
  have := hempty.binary (o := .connective .or) hone
    (by obtain ⟨_, _, _, rfl, _⟩ := runs_exactlyOne ho; simp [Term.sort])
  simpa [Term.binaryValue, Connective.Holds, Set.subsingleton_iff_singleton,
    Set.subsingleton_iff_eq_empty_or_singleton] using this

/-! ## First columns -/

theorem fullRelation_eq_ok {columns : List SmtSort} :
    fullRelation columns = .ok u ↔ columns ≠ [] ∧ .fullSet (.relation columns) = u := by
  simp only [fullRelation, Checked.bind_eq_ok, SmtSort.relationOf_eq_ok, Term.fullOf_eq_ok]
  constructor
  · rintro ⟨_, ⟨h, rfl⟩, _, rfl⟩
    exact ⟨h, rfl⟩
  · rintro ⟨h, rfl⟩
    exact ⟨_, ⟨h, rfl⟩, rfl, rfl⟩

/-- Joining with everything of the last column leaves the other columns. -/
theorem joinRows_full {D : SmtSort → Set E} {r : Set (Tuple E)} (columns : List SmtSort)
    (c : SmtSort) (hr : ∀ t ∈ r, t.HasSorts D (columns ++ [c])) :
    joinRows r {t | t.HasSorts D [c]} = {t | ∃ a, t ++ [a] ∈ r} := by
  ext t
  constructor
  · rintro ⟨x, a, y, hx, hy, rfl⟩
    obtain ⟨b, hb, _⟩ := Tuple.exists_of_hasSorts_single hy
    obtain ⟨rfl, rfl⟩ := List.cons.inj hb
    exact ⟨a, by simpa using hx⟩
  · rintro ⟨a, ha⟩
    refine ⟨t, a, [], ha, ?_, by simp⟩
    have := List.rel_reverse (hr _ ha)
    simp only [List.reverse_append, List.reverse_cons, List.reverse_nil, List.nil_append,
      List.cons_append, List.forall₂_cons] at this
    exact List.Forall₂.cons this.1 List.Forall₂.nil

/-- Columns joined away one by one, the last first, leave what stands before them. -/
theorem denotes_firstColumns : ∀ (dropped kept : List SmtSort) {t u : Term} {v : RelSmt.Value E},
    t.sort.columns = kept ++ dropped.reverse → t.Denotes I ρ v → t.sort.isSet = true →
    dropped.foldlM (fun r c => do r.join (← fullRelation [c])) t = .ok u →
    u.sort.isSet = true ∧ u.sort.columns = kept ∧ u.freeOccurrences = t.freeOccurrences ∧
      u.Denotes I ρ (.set {r | ∃ r', r'.length = dropped.length ∧ r ++ r' ∈ v.rows})
  | [], kept, t, u, v, hcols, ht, hset, h => by
    simp only [List.foldlM_nil, Checked.pure_eq_ok] at h
    subst h
    refine ⟨hset, by simpa using hcols, rfl, ?_⟩
    have hrows : {r | ∃ r', r'.length = ([] : List SmtSort).length ∧ r ++ r' ∈ v.rows} = v.rows := by
      ext r
      simp
    rw [hrows, ← ht.eq_set hset]
    exact ht
  | c :: cs, kept, t, u, v, hcols, ht, hset, h => by
    simp only [List.foldlM_cons, Checked.bind_eq_ok, fullRelation_eq_ok, Term.join_eq_ok] at h
    obtain ⟨_, ⟨_, ⟨_, rfl⟩, hjoin, rfl⟩, h⟩ := h
    -- columns are dropped from the end, one join with a full column each
    rw [List.reverse_cons, ← List.append_assoc] at hcols
    have hjoined := ht.binary (o := .join) Term.denotes_fullSet
      (Term.binarySort_join.2 hjoin)
    have hrows := joinRows_full (kept ++ cs.reverse) c fun r hr => by
      rw [← hcols]
      exact Value.hasSorts_columns ht.hasSort hset hr
    simp only [Term.binaryValue, Value.rows_set, hrows] at hjoined
    obtain ⟨hset', hcols', hfree, hu⟩ := denotes_firstColumns cs kept (by
      simp [Term.sort, Term.joinColumns, hcols]) hjoined rfl h
    refine ⟨hset', hcols', by rw [hfree]; simp [Term.freeOccurrences], ?_⟩
    have hrows' : {r | ∃ r', r'.length = cs.length ∧
        r ++ r' ∈ (RelSmt.Value.set {r | ∃ a, r ++ [a] ∈ v.rows}).rows}
        = {r | ∃ r', r'.length = (c :: cs).length ∧ r ++ r' ∈ v.rows} := by
      ext r
      constructor
      · rintro ⟨r', hlen, a, ha⟩
        exact ⟨r' ++ [a], by simp [hlen], by simpa using ha⟩
      · rintro ⟨r', hlen, hr'⟩
        -- what is dropped in all is what the later joins drop, and the last entry
        obtain ⟨init, a, rfl⟩ : ∃ init a, r' = init ++ [a] := by
          refine ⟨r'.dropLast, r'.getLast (fun he => by simp [he] at hlen), ?_⟩
          rw [List.dropLast_append_getLast]
        refine ⟨init, by simpa using hlen, a, ?_⟩
        simpa using hr'
    rw [← hrows']
    exact hu

/-- The first column of a relation holds the first columns of its tuples. -/
theorem denotes_firstColumn (ht : t.Denotes I ρ v) (hset : t.sort.isSet = true)
    (h : firstColumn t = .ok u) :
    u.sort.isSet = true ∧ u.freeOccurrences = t.freeOccurrences ∧
      u.Denotes I ρ (.set {r | ∃ r' ∈ v.rows, r'.take 1 = r}) := by
  unfold firstColumn at h
  have hcols : t.sort.columns = t.sort.columns.take 1 ++ t.sort.columns.tail.reverse.reverse := by
    rw [List.reverse_reverse]
    cases t.sort.columns <;> simp
  obtain ⟨hset', _, hfree, hu⟩ := denotes_firstColumns _ _ hcols ht hset h
  refine ⟨hset', hfree, ?_⟩
  have hrows : {r | ∃ r', r'.length = t.sort.columns.tail.reverse.length ∧ r ++ r' ∈ v.rows}
      = {r | ∃ r' ∈ v.rows, r'.take 1 = r} := by
    ext r
    have hlen : ∀ r' ∈ v.rows, r'.length = t.sort.columns.length := fun r' hr' =>
      Tuple.length_of_hasSorts (Value.hasSorts_columns ht.hasSort hset hr')
    simp only [List.length_reverse, List.length_tail, Set.mem_ofPred_eq]
    constructor
    · rintro ⟨r', hr', hmem⟩
      refine ⟨_, hmem, ?_⟩
      have := hlen _ hmem
      rw [List.length_append] at this
      -- a row with nothing in it has no first column to keep, and none is longer than one
      match r with
      | [] =>
        obtain rfl : r' = [] := List.eq_nil_of_length_eq_zero (by simp at this; omega)
        rfl
      | [a] => simp
      | a :: b :: rest => simp at this; omega
    · rintro ⟨r', hr', rfl⟩
      refine ⟨r'.drop 1, ?_, by rwa [List.take_append_drop]⟩
      rw [List.length_drop, hlen r' hr']
  rw [← hrows]
  exact hu

/-! ## Restrictions -/

/-- Two sets of one sort give the set of what they share. -/
theorem denotes_setOp {o : SetOp} {l r : Term} (hl : l.Denotes I ρ v) (hr : r.Denotes I ρ w)
    (h : Term.mkBinary (.set o) l r = .ok u) : u.Denotes I ρ (.set (o.apply v.rows w.rows)) := by
  obtain ⟨hop, rfl⟩ := Term.setOp_eq_ok.1 h
  exact hl.binary hr (Term.binarySort_set.2 hop)

/-- Rows are cut to those that start with a row of one column by such a row, followed by everything
that the other columns can hold. -/
theorem inter_productRows_first {rows firsts : Set (Tuple E)} {first : SmtSort}
    {rest : List SmtSort} (hrows : ∀ t ∈ rows, t.HasSorts I.carrier (first :: rest))
    (hfirsts : ∀ x ∈ firsts, x.length = 1) :
    rows ∩ productRows firsts {t | t.HasSorts I.carrier rest}
      = {t ∈ rows | t.take 1 ∈ firsts} := by
  ext t
  constructor
  · rintro ⟨ht, x, hx, y, hy, rfl⟩
    have htake : (x ++ y).take 1 = x := List.take_left' (hfirsts x hx)
    exact ⟨ht, by rwa [htake]⟩
  · rintro ⟨ht, hmem⟩
    refine ⟨ht, t.take 1, hmem, t.drop 1, ?_, (List.take_append_drop 1 t).symm⟩
    obtain ⟨a, others, _, hothers, rfl⟩ := List.forall₂_cons_right_iff.1 (hrows t ht)
    exact hothers

theorem length_le_one_of_ne_cons_cons {cols : List SmtSort}
    (h : ∀ a b rest, cols ≠ a :: b :: rest) : cols.length ≤ 1 :=
  match cols with
  | [] | [_] => by simp
  | a :: b :: rest => (h a b rest rfl).elim

/-- Restriction to tuples that start in a set intersects with everything that does. -/
theorem denotes_restrictDomain {set relation : Term} (hs : set.Denotes I ρ v)
    (hr : relation.Denotes I ρ w) (h : restrictDomain set relation = .ok u) :
    u.Denotes I ρ (.set {t ∈ w.rows | t.take 1 ∈ v.rows}) := by
  unfold restrictDomain at h
  split at h
  · rename_i d c cs hcols
    simp only [Checked.bind_eq_ok, fullRelation_eq_ok, Term.product_eq_ok] at h
    obtain ⟨_, ⟨_, rfl⟩, _, ⟨hprod, rfl⟩, h⟩ := h
    have hp := hs.binary (o := .product) Term.denotes_fullSet (Term.binarySort_product.2 hprod)
    have hu := denotes_setOp hr hp h
    obtain ⟨⟨hset, hsort⟩, rfl⟩ := Term.setOp_eq_ok.1 h
    -- the sorts agree, so the set has the one column that the relation starts with
    have hone : set.sort.columns = [d] := by
      have := congrArg SmtSort.columns hsort
      rw [hcols] at this
      simp only [Term.sort, SmtSort.columns_relation] at this
      exact (List.append_cancel_right (show [d] ++ c :: cs = _ ++ c :: cs from this)).symm
    have hrows := inter_productRows_first (I := I)
      (fun t (ht : t ∈ w.rows) => hcols ▸ Value.hasSorts_columns hr.hasSort hset ht)
      fun x (hx : x ∈ v.rows) => by
        rw [Tuple.length_of_hasSorts (Value.hasSorts_columns hs.hasSort hprod.1 hx), hone]
        rfl
    simp only [SetOp.apply, Term.binaryValue, Value.rows_set, hrows] at hu
    exact hu
  · rename_i hcols
    have hu := denotes_setOp hr hs h
    obtain ⟨⟨hset, hsort⟩, rfl⟩ := Term.setOp_eq_ok.1 h
    have hrows : w.rows ∩ v.rows = {t ∈ w.rows | t.take 1 ∈ v.rows} := by
      ext t
      refine and_congr_right fun ht => ?_
      have hlen := Tuple.length_of_hasSorts (Value.hasSorts_columns hr.hasSort hset ht)
      have hle := length_le_one_of_ne_cons_cons hcols
      rw [List.take_of_length_le (hlen ▸ hle)]
    simp only [SetOp.apply, hrows] at hu
    exact hu

/-- Rows are cut to those that end in a row of one column by everything that the other columns can
hold, followed by such a row. -/
theorem inter_productRows_last {rows lasts : Set (Tuple E)} {init : List SmtSort} {last : SmtSort}
    (hrows : ∀ t ∈ rows, t.HasSorts I.carrier (init ++ [last]))
    (hlasts : ∀ y ∈ lasts, y.length = 1) :
    rows ∩ productRows {t | t.HasSorts I.carrier init} lasts
      = {t ∈ rows | t.rtake 1 ∈ lasts} := by
  ext t
  constructor
  · rintro ⟨ht, x, hx, y, hy, rfl⟩
    refine ⟨ht, ?_⟩
    obtain ⟨a, rfl⟩ := List.length_eq_one_iff.1 (hlasts y hy)
    rw [List.rtake_concat_succ, List.rtake_zero]
    exact hy
  · rintro ⟨ht, hmem⟩
    -- the last entry is taken off by looking at the row backwards
    have hback := List.rel_reverse (hrows t ht)
    rw [List.reverse_append, List.reverse_singleton, List.singleton_append] at hback
    obtain ⟨a, rest, ha, hrest, hrev⟩ := List.forall₂_cons_right_iff.1 hback
    obtain rfl : t = rest.reverse ++ [a] := by
      rw [← List.reverse_reverse t, hrev, List.reverse_cons]
    rw [List.rtake_concat_succ, List.rtake_zero] at hmem
    refine ⟨ht, rest.reverse, ?_, [a], hmem, rfl⟩
    have hinit := List.rel_reverse hrest
    rwa [List.reverse_reverse] at hinit

/-- Restriction to tuples that end in a set intersects with everything that does. -/
theorem denotes_restrictRange {set relation : Term} (hr : relation.Denotes I ρ v)
    (hs : set.Denotes I ρ w) (h : restrictRange relation set = .ok u) :
    u.Denotes I ρ (.set {t ∈ v.rows | t.rtake 1 ∈ w.rows}) := by
  unfold restrictRange at h
  split at h
  · rename_i c d cs hcols
    simp only [Checked.bind_eq_ok, fullRelation_eq_ok, Term.product_eq_ok] at h
    obtain ⟨_, ⟨_, rfl⟩, _, ⟨hprod, rfl⟩, h⟩ := h
    have hp := (Term.denotes_fullSet (I := I) (ρ := ρ)).binary (o := .product) hs
      (Term.binarySort_product.2 hprod)
    have hu := denotes_setOp hr hp h
    obtain ⟨⟨hset, hsort⟩, rfl⟩ := Term.setOp_eq_ok.1 h
    -- the sorts agree, so the set has the one column that is cut off the relation
    have hcut : relation.sort.columns = (c :: d :: cs).dropLast ++ set.sort.columns := by
      have := congrArg SmtSort.columns hsort
      simpa only [Term.sort, SmtSort.columns_relation] using this
    have hone : set.sort.columns.length = 1 := by
      have := congrArg List.length hcut
      rw [hcols] at this
      simp only [List.length_append, List.length_dropLast, List.length_cons] at this
      omega
    obtain ⟨b, hb⟩ := List.length_eq_one_iff.1 hone
    have hrows := inter_productRows_last (I := I)
      (fun t (ht : t ∈ v.rows) => hb ▸ hcut ▸ Value.hasSorts_columns hr.hasSort hset ht)
      fun y (hy : y ∈ w.rows) =>
        hone ▸ Tuple.length_of_hasSorts (Value.hasSorts_columns hs.hasSort hprod.2.1 hy)
    simp only [SetOp.apply, Term.binaryValue, Value.rows_set, hrows] at hu
    exact hu
  · rename_i hcols
    have hu := denotes_setOp hr hs h
    obtain ⟨⟨hset, hsort⟩, rfl⟩ := Term.setOp_eq_ok.1 h
    have hrows : v.rows ∩ w.rows = {t ∈ v.rows | t.rtake 1 ∈ w.rows} := by
      ext t
      refine and_congr_right fun ht => ?_
      have hlen := Tuple.length_of_hasSorts (Value.hasSorts_columns hr.hasSort hset ht)
      have hle := length_le_one_of_ne_cons_cons hcols
      rw [List.rtake, Nat.sub_eq_zero_of_le (hlen ▸ hle), List.drop_zero]
    simp only [SetOp.apply, hrows] at hu
    exact hu

/-- Overriding drops what starts like a tuple of the other relation, then adds that relation. -/
theorem denotes_overrideBy {l r : Term} (hl : l.Denotes I ρ v) (hr : r.Denotes I ρ w)
    (h : overrideBy l r = .ok u) :
    u.Denotes I ρ (.set ({t ∈ v.rows | ∀ x ∈ w.rows, x.take 1 ≠ t.take 1} ∪ w.rows)) := by
  simp only [overrideBy, Checked.bind_eq_ok] at h
  obtain ⟨f, hf, d, hd, k, hk, h⟩ := h
  have hset : r.sort.isSet = true := by
    obtain ⟨⟨hset, hsort⟩, _⟩ := Term.setOp_eq_ok.1 h
    exact hsort ▸ hset
  obtain ⟨_, _, hfirst⟩ := denotes_firstColumn hr hset hf
  have hover := denotes_restrictDomain hfirst hl hd
  have hkept := denotes_setOp hl hover hk
  have hu := denotes_setOp hkept hr h
  have hrows : v.rows \ {t ∈ v.rows | ∃ x ∈ w.rows, x.take 1 = t.take 1}
      = {t ∈ v.rows | ∀ x ∈ w.rows, x.take 1 ≠ t.take 1} := by
    ext t
    constructor
    · rintro ⟨ht, hnot⟩
      exact ⟨ht, fun x hx he => hnot ⟨ht, x, hx, he⟩⟩
    · rintro ⟨ht, hall⟩
      exact ⟨ht, fun ⟨_, x, hx, he⟩ => hall x hx he⟩
  simp only [SetOp.apply, Value.rows_set, Set.mem_ofPred_eq, hrows] at hu
  exact hu

/-- The formula that two sets are disjoint holds where nothing is in both. -/
theorem holds_disjointSets {l r : Term} (h : disjointSets l r = .ok u) :
    (u.eval I ρ).Holds ↔ (l.eval I ρ).rows ∩ (r.eval I ρ).rows = ∅ := by
  simp only [disjointSets, Checked.bind_eq_ok, Term.inter, Term.setOp_eq_ok, Term.emptyOf_eq_ok,
    Term.eqTo_eq_ok] at h
  obtain ⟨_, ⟨_, rfl⟩, _, ⟨_, rfl⟩, _, rfl⟩ := h
  simp [Term.eval, Term.binaryValue, SetOp.apply]

/-- Two sets are disjoint when nothing is in both. -/
theorem denotes_disjointSets {l r : Term} (hl : l.Denotes I ρ v) (hr : r.Denotes I ρ w)
    (h : disjointSets l r = .ok u) : u.Denotes I ρ (.truth (v.rows ∩ w.rows = ∅)) := by
  simp only [disjointSets, Checked.bind_eq_ok] at h
  obtain ⟨i, hi, e, he, h⟩ := h
  have hinter := denotes_setOp hl hr hi
  obtain ⟨hset, rfl⟩ := Term.emptyOf_eq_ok.1 he
  obtain ⟨hsort, rfl⟩ := Term.eqTo_eq_ok.1 h
  have := hinter.binary (o := .eq) (Term.denotes_emptySet hset) (Term.binarySort_eq.2 hsort)
  simpa [Term.binaryValue, SetOp.apply] using this

/-! ## Variables

None of these terms has a free variable that its operands do not have. -/

variable {x : Variable}

theorem mem_free_unary {op : UnaryOp} (h : Term.mkUnary op t = .ok u) :
    u.freeOccurrences = t.freeOccurrences := by
  obtain ⟨_, rfl⟩ := Term.mkUnary_eq_ok.1 h
  simp [Term.freeOccurrences]

theorem mem_free_binary {op : BinaryOp} {l r : Term} (h : Term.mkBinary op l r = .ok u)
    (hx : x ∈ u.freeOccurrences) : x ∈ l.freeOccurrences ∨ x ∈ r.freeOccurrences := by
  obtain ⟨_, rfl⟩ := Term.mkBinary_eq_ok.1 h
  simpa [Term.freeOccurrences] using hx

theorem mem_free_isEmpty (h : t.isEmpty = .ok u) : u.freeOccurrences = t.freeOccurrences := by
  obtain ⟨_, rfl⟩ := Term.isEmpty_eq_ok.1 h
  simp [Term.freeOccurrences]

theorem mem_free_nonEmpty (h : nonEmpty t = .ok u) : u.freeOccurrences = t.freeOccurrences := by
  obtain ⟨_, rfl⟩ := nonEmpty_eq_ok.1 h
  simp [Term.freeOccurrences]

theorem mem_free_exactlyOne (h : Runs (exactlyOne t) s u s') (hx : x ∈ u.freeOccurrences) :
    x ∈ t.freeOccurrences := by
  obtain ⟨element, _, _, rfl, _⟩ := runs_exactlyOne h
  obtain ⟨hx, hne⟩ := Term.mem_freeOccurrences_quantified.1 hx
  simp only [Term.freeOccurrences, List.mem_append, List.mem_singleton] at hx
  rcases hx with hx | rfl
  · exact hx
  · exact absurd rfl (hne _ List.mem_cons_self)

theorem mem_free_atMostOne (h : Runs (atMostOne t) s u s') (hx : x ∈ u.freeOccurrences) :
    x ∈ t.freeOccurrences := by
  obtain ⟨o, ho, _, rfl⟩ := runs_atMostOne h
  simp only [Term.freeOccurrences, List.mem_append, List.append_nil] at hx
  exact hx.elim id (mem_free_exactlyOne ho)

theorem extends_exactlyOne (h : Runs (exactlyOne t) s u s') : Extends s s' := by
  obtain ⟨_, _, _, _, rfl⟩ := runs_exactlyOne h
  exact extends_next s

theorem extends_atMostOne (h : Runs (atMostOne t) s u s') : Extends s s' := by
  obtain ⟨o, ho, _⟩ := runs_atMostOne h
  exact extends_exactlyOne ho

theorem mem_free_firstColumns : ∀ (dropped : List SmtSort) {t u : Term},
    dropped.foldlM (fun r c => do r.join (← fullRelation [c])) t = .ok u →
    u.freeOccurrences = t.freeOccurrences
  | [], t, u, h => by
    simp only [List.foldlM_nil, Checked.pure_eq_ok] at h
    rw [h]
  | c :: cs, t, u, h => by
    simp only [List.foldlM_cons, Checked.bind_eq_ok, fullRelation_eq_ok, Term.join_eq_ok] at h
    obtain ⟨_, ⟨_, ⟨_, rfl⟩, _, rfl⟩, h⟩ := h
    rw [mem_free_firstColumns cs h]
    simp [Term.freeOccurrences]

/-- A restriction to a domain cuts the relation down to the domain, or to its product with
everything. -/
theorem restrictDomain_cases {set relation : Term} (h : restrictDomain set relation = .ok u) :
    ∃ p, relation.inter p = .ok u ∧ (p = set ∨ ∃ s, set.product (.fullSet s) = .ok p) := by
  unfold restrictDomain at h
  split at h
  · simp only [Checked.bind_eq_ok, fullRelation_eq_ok] at h
    obtain ⟨_, ⟨_, rfl⟩, p, hp, h⟩ := h
    exact ⟨p, h, Or.inr ⟨_, hp⟩⟩
  · exact ⟨set, h, Or.inl rfl⟩

/-- A restriction to a range cuts it down to the range, or to the product of everything with it. -/
theorem restrictRange_cases {set relation : Term} (h : restrictRange relation set = .ok u) :
    ∃ p, relation.inter p = .ok u ∧ (p = set ∨ ∃ s, (Term.fullSet s).product set = .ok p) := by
  unfold restrictRange at h
  split at h
  · simp only [Checked.bind_eq_ok, fullRelation_eq_ok] at h
    obtain ⟨_, ⟨_, rfl⟩, p, hp, h⟩ := h
    exact ⟨p, h, Or.inr ⟨_, hp⟩⟩
  · exact ⟨set, h, Or.inl rfl⟩

theorem mem_free_restrictDomain {set relation : Term} (h : restrictDomain set relation = .ok u)
    (hx : x ∈ u.freeOccurrences) : x ∈ set.freeOccurrences ∨ x ∈ relation.freeOccurrences := by
  obtain ⟨p, h, hp⟩ := restrictDomain_cases h
  refine (mem_free_binary h hx).symm.imp_left fun hx => ?_
  rcases hp with rfl | ⟨s, hp⟩
  · exact hx
  · exact (mem_free_binary hp hx).resolve_right (by simp [Term.freeOccurrences])

theorem mem_free_restrictRange {set relation : Term} (h : restrictRange relation set = .ok u)
    (hx : x ∈ u.freeOccurrences) : x ∈ relation.freeOccurrences ∨ x ∈ set.freeOccurrences := by
  obtain ⟨p, h, hp⟩ := restrictRange_cases h
  refine (mem_free_binary h hx).imp_right fun hx => ?_
  rcases hp with rfl | ⟨s, hp⟩
  · exact hx
  · exact (mem_free_binary hp hx).resolve_left (by simp [Term.freeOccurrences])

theorem mem_free_overrideBy {l r : Term} (h : overrideBy l r = .ok u)
    (hx : x ∈ u.freeOccurrences) : x ∈ l.freeOccurrences ∨ x ∈ r.freeOccurrences := by
  simp only [overrideBy, Checked.bind_eq_ok] at h
  obtain ⟨f, hf, d, hd, k, hk, h⟩ := h
  rcases mem_free_binary h hx with hx | hx
  · rcases mem_free_binary hk hx with hx | hx
    · exact Or.inl hx
    · rcases mem_free_restrictDomain hd hx with hx | hx
      · exact Or.inr (mem_free_firstColumns _ hf ▸ hx)
      · exact Or.inl hx
  · exact Or.inr hx

theorem mem_free_disjointSets {l r : Term} (h : disjointSets l r = .ok u)
    (hx : x ∈ u.freeOccurrences) : x ∈ l.freeOccurrences ∨ x ∈ r.freeOccurrences := by
  simp only [disjointSets, Checked.bind_eq_ok, Term.emptyOf_eq_ok] at h
  obtain ⟨i, hi, _, ⟨_, rfl⟩, h⟩ := h
  rcases mem_free_binary h hx with hx | hx
  · exact mem_free_binary hi hx
  · simp [Term.freeOccurrences] at hx

end Lowering

end RelSmt
