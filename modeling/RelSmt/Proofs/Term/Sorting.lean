import RelSmt.Proofs.Term.Checked
import RelSmt.Proofs.Term.Denotation

/-!
# Well-sorted terms have values of their sort

A term is *built* when every node obeys the rule by which its constructor checks operands. This is a
little less than that it is *well sorted*: a constructor does not know whether a symbol has
parameters, nor whether the sort of a function has values. The value of a well-sorted term belongs to
the sort that is read off its structure, as long as the values of its free variables belong to theirs
(`eval_hasSort`).
-/

namespace RelSmt

variable {E : Type}

/-- Is this the sort of an element literal? -/
def SmtSort.isDeclared : SmtSort → Bool
  | .named _ => true
  | .uint => true
  | _ => false

namespace Term

mutual

/-- Does every node obey the rule for the sorts of its operands? What a symbol has to be is left
open, where it stands `alone` and where it is `applied`. -/
def Obeys (alone applied : FunctionSymbol → Prop) : Term → Prop
  | .literal (.element _ s) => s.isDeclared = true
  | .literal _ => True
  | .variable _ => True
  | .symbol f => alone f
  | .emptySet s => s.isSet = true
  | .fullSet s => s.isSet = true
  | .unary op t => t.Obeys alone applied ∧ ∃ s, unarySort op t.sort = .ok s
  | .binary op l r =>
    l.Obeys alone applied ∧ r.Obeys alone applied ∧ ∃ s, binarySort op l.sort r.sort = .ok s
  | .ite c y n => c.Obeys alone applied ∧ y.Obeys alone applied ∧ n.Obeys alone applied ∧
    c.sort = .bool ∧ y.sort = n.sort
  | .nary op ts => ts ≠ [] ∧ ObeyAll alone applied ts ∧ ∀ t ∈ ts, fitsNary op t.sort = true
  | .quantified _ vs body => vs ≠ [] ∧ body.Obeys alone applied ∧ body.sort = .bool
  | .call f ts => ObeyAll alone applied ts ∧ sorts ts = f.inputs ∧ applied f

/-- Do all these terms obey the rules? -/
def ObeyAll (alone applied : FunctionSymbol → Prop) : List Term → Prop
  | [] => True
  | t :: ts => t.Obeys alone applied ∧ ObeyAll alone applied ts

end

theorem obeyAll_iff {alone applied : FunctionSymbol → Prop} {ts : List Term} :
    ObeyAll alone applied ts ↔ ∀ t ∈ ts, t.Obeys alone applied := by
  induction ts with
  | nil => simp [ObeyAll]
  | cons t ts ih => simp [ObeyAll, ih]

/-- Do the checked constructors build the term? They do not look at what a symbol is. -/
def Built (t : Term) : Prop := t.Obeys (fun _ => True) fun _ => True

/-- Are all these terms built? -/
abbrev BuiltAll (ts : List Term) : Prop := ObeyAll (fun _ => True) (fun _ => True) ts

theorem builtAll_iff {ts : List Term} : BuiltAll ts ↔ ∀ t ∈ ts, t.Built := obeyAll_iff

/-- Is the term well sorted? A symbol that stands alone has no parameters, and the sorts of symbols
have values. -/
def WellSorted (t : Term) : Prop :=
  t.Obeys (fun f => f.inputs = [] ∧ f.output.IsProper) fun f => f.output.IsProper

theorem wellSortedAll_iff {ts : List Term} :
    ObeyAll (fun f => f.inputs = [] ∧ f.output.IsProper) (fun f => f.output.IsProper) ts ↔
      ∀ t ∈ ts, t.WellSorted :=
  obeyAll_iff

end Term

section

variable {D : SmtSort → Set E}

theorem Scalar.hasSort_column {v : Value E} {s : SmtSort} (h : v.HasSort D s)
    (hs : s.isAtomic = true) : v.column.HasSort D s := by
  match v, s, h with
  | .scalar _, _, h => exact h
  | .tuple _, .tuple _, _ => simp [SmtSort.isAtomic] at hs
  | .set _, .set _, _ => simp [SmtSort.isAtomic] at hs

/-- What is in a set has the columns that are read off the sort of the set. -/
theorem Value.hasSorts_columns {v : Value E} {s : SmtSort} (h : v.HasSort D s)
    (hs : s.isSet = true) {t : Tuple E} (ht : t ∈ v.rows) : t.HasSorts D s.columns := by
  obtain ⟨e, rfl⟩ := SmtSort.isSet_iff.1 hs
  have he := hasSort_of_mem_rows h ht
  cases e with
  | tuple columns => exact he
  | _ => exact he.elim

theorem hasSorts_of_mem_joinRows {r s : Set (Tuple E)} {as bs : List SmtSort}
    (hr : ∀ t ∈ r, t.HasSorts D as) (hs : ∀ t ∈ s, t.HasSorts D bs) {t : Tuple E}
    (ht : t ∈ joinRows r s) : t.HasSorts D (Term.joinColumns as bs) := by
  obtain ⟨u, a, v, hu, hv, rfl⟩ := ht
  refine Tuple.hasSorts_append ?_ ?_
  · have h := List.rel_reverse (hr _ hu)
    rw [List.reverse_append] at h
    obtain ⟨b, rest, _, hrest, hrev⟩ := List.forall₂_cons_left_iff.1 h
    have hd : as.dropLast = rest.reverse := by
      have := congrArg (List.reverse ∘ List.tail) hrev
      simpa using this
    rw [hd]
    simpa [Tuple.HasSorts] using List.rel_reverse hrest
  · obtain ⟨b, rest, _, hrest, he⟩ := List.forall₂_cons_left_iff.1 (hs _ hv)
    rw [he]
    exact hrest

theorem closureRows_empty : closureRows (∅ : Set (Tuple E)) = ∅ := by
  refine Set.eq_empty_of_forall_notMem ?_
  rintro u ⟨a, b, _, hab⟩
  obtain ⟨x, hx, _⟩ := Relation.TransGen.head'_iff.1 hab
  exact hx

theorem hasSorts_of_mem_closureRows {r : Set (Tuple E)} {c : SmtSort}
    (hr : ∀ t ∈ r, t.HasSorts D [c, c]) {t : Tuple E} (ht : t ∈ closureRows r) :
    t.HasSorts D [c, c] := by
  obtain ⟨a, b, rfl, hab⟩ := ht
  have key : ∀ x y, [x, y] ∈ r → x.HasSort D c ∧ y.HasSort D c := by
    intro x y hxy
    have h := hr _ hxy
    simp only [Tuple.HasSorts, List.forall₂_cons, List.Forall₂.nil, and_true] at h
    exact h
  have hfirst : a.HasSort D c := by
    obtain ⟨x, hx, _⟩ := Relation.TransGen.head'_iff.1 hab
    exact (key _ _ hx).1
  have hlast : b.HasSort D c := by
    obtain ⟨x, _, hx⟩ := Relation.TransGen.tail'_iff.1 hab
    exact (key _ _ hx).2
  exact List.Forall₂.cons hfirst (List.Forall₂.cons hlast List.Forall₂.nil)

/-- The closure of a set has the sort of the set. A set of anything but tuples holds nothing. -/
theorem hasSort_of_mem_closureRows {v : Value E} {e c : SmtSort} (hv : v.HasSort D (.set e))
    (hc : (SmtSort.set e).columns = [c, c]) {u : Tuple E} (hu : u ∈ closureRows v.rows) :
    u.HasSort D e := by
  cases e with
  | tuple columns =>
    obtain rfl : columns = [c, c] := hc
    exact hasSorts_of_mem_closureRows (fun w hw => Value.hasSort_of_mem_rows hv hw) hu
  | _ =>
    have hempty : v.rows = ∅ := Set.eq_empty_of_forall_notMem fun w hw =>
      (Value.hasSort_of_mem_rows hv hw).elim
    rw [hempty, closureRows_empty] at hu
    exact hu.elim

end

namespace Term

/-- The value of a unary term has the sort that the operator gives it. -/
theorem unaryValue_hasSort {D : SmtSort → Set E} {op : UnaryOp} {t : Term} {v : Value E}
    (hv : v.HasSort D t.sort) (hop : ∃ s, unarySort op t.sort = .ok s) :
    (unaryValue op v).HasSort D (Term.unary op t).sort := by
  cases op with
  | not => simp [unaryValue, sort]
  | card => simp [unaryValue, sort]
  | singleton =>
    obtain ⟨cs, hs⟩ := SmtSort.isTuple_iff.1 (unarySort_singleton.1 hop)
    rw [hs] at hv
    rw [Value.eq_tuple_of_hasSort hv] at hv
    simpa [unaryValue, sort, hs, Tuple.HasSort] using hv
  | transpose =>
    have hset := (unarySort_transpose.1 hop).1
    simp only [unaryValue, sort, Value.hasSort_relation]
    intro u hu
    have := List.rel_reverse (Value.hasSorts_columns hv hset hu)
    rwa [List.reverse_reverse] at this
  | closure =>
    obtain ⟨hset, c, hc⟩ := unarySort_closure.1 hop
    obtain ⟨e, he⟩ := SmtSort.isSet_iff.1 hset
    rw [he] at hv hc
    simp only [unaryValue, sort, he, Value.hasSort_set]
    exact fun u hu => hasSort_of_mem_closureRows hv hc hu

/-- The value of a binary term has the sort that the operator gives it. -/
theorem binaryValue_hasSort (I : Interpretation E) {op : BinaryOp} {l r : Term} {v w : Value E}
    (hv : v.HasSort I.carrier l.sort) (hw : w.HasSort I.carrier r.sort)
    (hop : ∃ s, binarySort op l.sort r.sort = .ok s) :
    (binaryValue I op v w).HasSort I.carrier (Term.binary op l r).sort := by
  cases op with
  | connective c => simp [binaryValue, sort]
  | eq => simp [binaryValue, sort]
  | comparison c => simp [binaryValue, sort]
  | arithmetic a => simp [binaryValue, sort]
  | member => simp [binaryValue, sort]
  | subset => simp [binaryValue, sort]
  | set o =>
    obtain ⟨hset, hlr⟩ := binarySort_set.1 hop
    obtain ⟨e, he⟩ := SmtSort.isSet_iff.1 hset
    rw [← hlr, he] at hw
    rw [he] at hv
    simp only [binaryValue, sort, he, Value.hasSort_set]
    intro u hu
    cases o with
    | union =>
      rcases hu with hu | hu
      · exact Value.hasSort_of_mem_rows hv hu
      · exact Value.hasSort_of_mem_rows hw hu
    | intersection => exact Value.hasSort_of_mem_rows hv hu.1
    | difference => exact Value.hasSort_of_mem_rows hv hu.1
  | join =>
    obtain ⟨hl, hr, _⟩ := binarySort_join.1 hop
    simp only [binaryValue, sort, Value.hasSort_relation]
    exact fun u hu => hasSorts_of_mem_joinRows (fun _ h => Value.hasSorts_columns hv hl h)
      (fun _ h => Value.hasSorts_columns hw hr h) hu
  | product =>
    obtain ⟨hl, hr, _⟩ := binarySort_product.1 hop
    simp only [binaryValue, sort, Value.hasSort_relation]
    rintro _ ⟨u, hu, u', hu', rfl⟩
    exact Tuple.hasSorts_append (Value.hasSorts_columns hv hl hu) (Value.hasSorts_columns hw hr hu')

mutual

/-- **The value of a well-sorted term has the sort of the term.** Bodies of quantifiers play no part
in this: a quantified formula is true or false whatever its body is. -/
theorem eval_hasSort (I : Interpretation E) {ρ : Assignment E} : ∀ {t : Term}, t.WellSorted →
    (∀ v ∈ t.freeOccurrences, (ρ.get v).HasSort I.carrier v.sort) →
    (t.eval I ρ).HasSort I.carrier t.sort
  | .literal (.bool _), _, _ => trivial
  | .literal (.int _), _, _ => trivial
  | .literal (.element name (.named n)), _, _ => I.element_mem name (.named n)
  | .literal (.element name .uint), _, _ => I.element_mem name .uint
  | .variable v, _, hρ => hρ v (by simp [freeOccurrences])
  | .symbol f, ⟨hin, hout⟩, _ => I.function_sort f [] hout (by rw [hin]; exact List.Forall₂.nil)
  | .emptySet s, hs, _ => by
    obtain ⟨e, rfl⟩ := SmtSort.isSet_iff.1 hs
    simp [eval, sort]
  | .fullSet s, hs, _ => by
    obtain ⟨e, rfl⟩ := SmtSort.isSet_iff.1 hs
    simp [eval, sort]
  | .unary op t, ⟨ht, hop⟩, hρ => unaryValue_hasSort (eval_hasSort I ht hρ) hop
  | .binary op l r, ⟨hl, hr, hop⟩, hρ => by
    simp only [freeOccurrences, List.mem_append] at hρ
    exact binaryValue_hasSort I (eval_hasSort I hl fun v hv => hρ v (Or.inl hv))
      (eval_hasSort I hr fun v hv => hρ v (Or.inr hv)) hop
  | .ite c y n, ⟨_, hy, hn, _, hyn⟩, hρ => by
    simp only [freeOccurrences, List.mem_append] at hρ
    have ihy := eval_hasSort I hy fun v hv => hρ v (Or.inl (Or.inr hv))
    have ihn := eval_hasSort I hn fun v hv => hρ v (Or.inr hv)
    simp only [eval, sort]
    split
    · exact ihy
    · rw [hyn]
      exact ihn
  | .nary .and ts, _, _ => trivial
  | .nary .or ts, _, _ => trivial
  | .nary .mkTuple ts, ⟨_, hts, hfit⟩, hρ => by
    have ih := evalAll_hasSorts I (wellSortedAll_iff.1 hts) hρ
    -- a tuple has the sorts of its columns, one by one
    simp only [eval, naryValue, sort, Value.hasSort_tuple, Tuple.HasSorts, sorts_eq_map,
      evalAll_eq_map, List.forall₂_map_left_iff, List.forall₂_map_right_iff] at ih ⊢
    refine List.forall₂_same.2 fun t ht => ?_
    exact Scalar.hasSort_column (List.forall₂_same.1 ih t ht) (hfit t ht)
  | .quantified .all vs body, _, _ => trivial
  | .quantified .ex vs body, _, _ => trivial
  | .call f ts, ⟨hts, hin, hout⟩, hρ => by
    have ih := evalAll_hasSorts I (wellSortedAll_iff.1 hts) hρ
    rw [hin] at ih
    exact I.function_sort f _ hout ih

theorem evalAll_hasSorts (I : Interpretation E) {ρ : Assignment E} : ∀ {ts : List Term},
    (∀ t ∈ ts, t.WellSorted) →
    (∀ v ∈ freeOccurrencesList ts, (ρ.get v).HasSort I.carrier v.sort) →
    List.Forall₂ (Value.HasSort I.carrier) (evalAll I ts ρ) (sorts ts)
  | [], _, _ => List.Forall₂.nil
  | t :: ts, hts, hρ => by
    simp only [freeOccurrencesList, List.mem_append] at hρ
    obtain ⟨ht, hts⟩ := List.forall_mem_cons.1 hts
    exact List.Forall₂.cons (eval_hasSort I ht fun v hv => hρ v (Or.inl hv))
      (evalAll_hasSorts I hts fun v hv => hρ v (Or.inr hv))

end

/-! ## Denotation

A term denotes a value when that is its value and the value has the sort of the term. Denotations of
operands give those of the nodes that the checked constructors build. -/

/-- The term has this value, and the value has the sort of the term. -/
def Denotes (I : Interpretation E) (ρ : Assignment E) (t : Term) (v : Value E) : Prop :=
  t.eval I ρ = v ∧ v.HasSort I.carrier t.sort

section

variable {I : Interpretation E} {ρ : Assignment E} {l r t : Term} {v w : Value E}

theorem Denotes.eval (h : t.Denotes I ρ v) : t.eval I ρ = v := h.1

theorem Denotes.hasSort (h : t.Denotes I ρ v) : v.HasSort I.carrier t.sort := h.2

theorem denotes_of_eval (h : (t.eval I ρ).HasSort I.carrier t.sort) (he : t.eval I ρ = v) :
    t.Denotes I ρ v :=
  ⟨he, he ▸ h⟩

theorem Denotes.eq_set (h : t.Denotes I ρ v) (ht : t.sort.isSet = true) : v = .set v.rows := by
  obtain ⟨e, he⟩ := SmtSort.isSet_iff.1 ht
  exact Value.eq_set_of_hasSort (he ▸ h.hasSort)

theorem Denotes.unary {o : UnaryOp} (h : t.Denotes I ρ v)
    (hop : ∃ s, unarySort o t.sort = .ok s) : (Term.unary o t).Denotes I ρ (unaryValue o v) :=
  ⟨by rw [Term.eval, h.eval], unaryValue_hasSort h.hasSort hop⟩

theorem Denotes.binary {o : BinaryOp} (hl : l.Denotes I ρ v) (hr : r.Denotes I ρ w)
    (hop : ∃ s, binarySort o l.sort r.sort = .ok s) :
    (Term.binary o l r).Denotes I ρ (binaryValue I o v w) :=
  ⟨by rw [Term.eval, hl.eval, hr.eval], binaryValue_hasSort I hl.hasSort hr.hasSort hop⟩

theorem Denotes.ite {c : Term} {u : Value E} (hc : c.Denotes I ρ u) (hl : l.Denotes I ρ v)
    (hr : r.Denotes I ρ w) (hsort : l.sort = r.sort) :
    (Term.ite c l r).Denotes I ρ (open Classical in if u.Holds then v else w) := by
  refine ⟨by rw [Term.eval, hc.eval, hl.eval, hr.eval], ?_⟩
  split
  · exact hl.hasSort
  · rw [sort, hsort]
    exact hr.hasSort

/-- A symbol without arguments denotes what the interpretation gives it. -/
theorem denotes_symbol {f : FunctionSymbol} (hin : f.inputs = []) (hout : f.output.IsProper) :
    (Term.symbol f).Denotes I ρ (I.function f []) :=
  ⟨rfl, I.function_sort f [] hout (by rw [hin]; exact List.Forall₂.nil)⟩

theorem denotes_emptySet {s : SmtSort} (hs : s.isSet = true) :
    (Term.emptySet s).Denotes I ρ (.set ∅) := by
  obtain ⟨e, rfl⟩ := SmtSort.isSet_iff.1 hs
  exact ⟨rfl, fun _ h => h.elim⟩

/-- The full set of a relation sort holds the tuples of that sort. -/
theorem denotes_fullSet {columns : List SmtSort} :
    (Term.fullSet (.relation columns)).Denotes I ρ (.set {t | t.HasSorts I.carrier columns}) := by
  refine ⟨?_, fun _ h => h⟩
  simp [Term.eval, SmtSort.relation, Tuple.HasSort]

/-- A term means the same under binders of fresh names. -/
theorem Denotes.bindAll {vs : List Variable} (h : t.Denotes I ρ v) (as : List (Value E))
    (hfree : ∀ w ∈ t.freeOccurrences, ∀ u ∈ vs, w.name ≠ u.name) :
    t.Denotes I (ρ.bindAll vs as) v :=
  ⟨by rw [eval_bindAll_of_fresh I as ρ hfree, h.eval], h.hasSort⟩

/-! ## Applications -/

theorem sort_apply {f : FunctionSymbol} {ts : List Term} (h : f.apply ts = .ok t) :
    t.sort = f.output := by
  obtain ⟨_, rfl⟩ := FunctionSymbol.apply_eq_ok.1 h
  split <;> rfl

/-- Applying a function to terms means its value at their values. -/
theorem eval_apply {f : FunctionSymbol} {ts : List Term} (h : f.apply ts = .ok t) :
    t.eval I ρ = I.function f (ts.map fun u => u.eval I ρ) := by
  obtain ⟨_, rfl⟩ := FunctionSymbol.apply_eq_ok.1 h
  split
  · rename_i hts
    rw [hts]
    rfl
  · rw [Term.eval, evalAll_eq_map]

/-- A function that is applied to variables of its argument sorts gives a value of its own sort. -/
theorem hasSort_apply {f : FunctionSymbol} {vs : List Variable}
    (h : f.apply (vs.map Variable.term) = .ok t) (hout : f.output.IsProper)
    (hvs : ∀ v ∈ vs, (ρ.get v).HasSort I.carrier v.sort) :
    (t.eval I ρ).HasSort I.carrier f.output := by
  rw [eval_apply h]
  refine I.function_sort f _ hout ?_
  rw [← (FunctionSymbol.apply_eq_ok.1 h).1, sorts_eq_map, List.forall₂_map_left_iff,
    List.forall₂_map_right_iff]
  refine List.forall₂_same.2 fun u hu => ?_
  obtain ⟨v, hv, rfl⟩ := List.mem_map.1 hu
  exact hvs v hv

/-! ## Conjunctions and disjunctions -/

theorem holds_allOf {ts : List Term} (h : allOf ts = .ok t) :
    (t.eval I ρ).Holds ↔ ∀ u ∈ ts, (u.eval I ρ).Holds := by
  cases joined_allOf h with
  | none => simp [Term.bool, Term.eval, literalValue]
  | one => simp
  | several => simp [Term.eval, joining, naryValue, evalAll_eq_map]

theorem Joined.sort {all : Bool} {ts : List Term} (h : Joined all ts t)
    (hts : ∀ u ∈ ts, u.sort = .bool) : t.sort = .bool := by
  cases h with
  | none => rfl
  | one => exact hts t List.mem_cons_self
  | several => cases all <;> rfl

theorem Joined.mem_freeOccurrences {all : Bool} {ts : List Term} (h : Joined all ts t)
    {x : Variable} : x ∈ t.freeOccurrences ↔ ∃ u ∈ ts, x ∈ u.freeOccurrences := by
  cases h with
  | none => simp [Term.bool, freeOccurrences]
  | one => simp
  | several => simp [freeOccurrences, freeOccurrencesList_eq_flatMap]

theorem mem_free_allOf {ts : List Term} (h : allOf ts = .ok t) {x : Variable} :
    x ∈ t.freeOccurrences ↔ ∃ u ∈ ts, x ∈ u.freeOccurrences :=
  (joined_allOf h).mem_freeOccurrences

end

end Term

end RelSmt
