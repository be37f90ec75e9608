import RelSmt.Proofs.Lowering.Binding
import RelSmt.Proofs.Lowering.Operator
import RelSmt.Proofs.Relational.Field

/-!
# Values of declared variables

A declared variable is seen by the body as the value of its image: the singleton of the tuple that
its variable holds, or the set itself. The constraints of a declaration hold exactly where the
declaration admits what is seen of its variables, and every admitted value is seen of exactly one.
-/

namespace RelSmt

variable {E : Type}

namespace Lowering

variable {s s' m : Session} {I : Interpretation E} {ρ : Assignment E} {t u : Term}
  {env : Environment} {V : Set Variable}

/-! ## Seen values -/

/-- How the body sees the value of a variable: by the singleton of its tuple where it takes single
elements. -/
def seen (m : Relational.Multiplicity) (a : RelSmt.Value E) : RelSmt.Value E :=
  if m = .one then .set {a.row} else a

theorem eval_imageOf (m : Relational.Multiplicity) (x : Variable) :
    (imageOf m x).eval I ρ = seen m (ρ.get x) := by
  unfold imageOf seen
  split <;> rfl

theorem hasSort_imageOf {m : Relational.Multiplicity} {x : Variable} {a : RelSmt.Value E}
    (hx : m = .one → x.sort.isTuple = true) (ha : a.HasSort I.carrier x.sort) :
    (seen m a).HasSort I.carrier (imageOf m x).sort := by
  unfold imageOf seen
  split
  · rename_i hone
    have hop : ∃ s, Term.unarySort .singleton (Term.variable x).sort = .ok s :=
      Term.unarySort_singleton.2 (hx hone)
    exact Term.unaryValue_hasSort ha hop
  · exact ha

/-- What is seen tells values of a sort apart. -/
theorem seen_injective {m : Relational.Multiplicity} {s : SmtSort} {a b : RelSmt.Value E}
    (hs : m = .one → s.isTuple = true) (ha : a.HasSort I.carrier s) (hb : b.HasSort I.carrier s)
    (h : seen m a = seen m b) : a = b := by
  unfold seen at h
  split at h
  · rename_i hone
    obtain ⟨cs, rfl⟩ := SmtSort.isTuple_iff.1 (hs hone)
    rw [Value.eq_tuple_of_hasSort ha, Value.eq_tuple_of_hasSort hb]
    simpa using h
  · exact h

/-- What a bound admits is seen of a value of the sort of the variable. -/
theorem exists_seen {m : Relational.Multiplicity} {element : SmtSort} {r : Set (Tuple E)}
    {d : RelSmt.Value E} (helement : m = .one → element.isTuple = true)
    (hr : (RelSmt.Value.set r).HasSort I.carrier (.set element)) (hd : m.Admits r d) :
    ∃ a, a.HasSort I.carrier (boundSort m (.set element) element) ∧ seen m a = d := by
  have hset : ∀ q ⊆ r, (RelSmt.Value.set q).HasSort I.carrier (.set element) :=
    fun q hq w hw => hr w (hq hw)
  cases m with
  | one =>
    obtain ⟨w, hw, rfl⟩ := hd
    obtain ⟨cs, rfl⟩ := SmtSort.isTuple_iff.1 (helement rfl)
    exact ⟨.tuple w, hr w hw, rfl⟩
  | some =>
    obtain ⟨q, hq, _, rfl⟩ := hd
    exact ⟨.set q, hset q hq, rfl⟩
  | lone =>
    obtain ⟨q, hq, _, rfl⟩ := hd
    exact ⟨.set q, hset q hq, rfl⟩
  | set =>
    obtain ⟨q, hq, rfl⟩ := hd
    exact ⟨.set q, hset q hq, rfl⟩
  | no => exact hd.elim

/-! ## Constraints -/

/-- **The constraint of a variable says that its bound admits what is seen of it.** -/
theorem denotes_boundConstraint {m : Relational.Multiplicity} {bound : Term} {v w : RelSmt.Value E}
    (hm : m ≠ .no) (ht : t.Denotes I ρ v) (hfree : t.SettledAt s.fresh)
    (hbound : bound.Denotes I ρ w) (h : Runs (boundConstraint m t bound) s u s') :
    u.Denotes I ρ (.truth (m.Admits w.rows (seen m v))) := by
  -- all but `one` take the variable for a set within the bound
  have hwithin : ∀ {c : Term}, t.within bound = .ok c →
      c.Denotes I ρ (.truth (v.rows ⊆ w.rows)) ∧
      (m.Admits w.rows v ↔ v.rows ⊆ w.rows ∧ m.Counts v.rows) := by
    intro c hc
    exact ⟨denotes_mkBinary ht hbound hc,
      Relational.admits_of_eq_set (ht.eq_set (Term.within_eq_ok.1 hc).1.1)⟩
  cases m with
  | one =>
    have := denotes_mkBinary ht hbound (runs_lift.1 h).1
    simpa [Term.binaryValue, Relational.Multiplicity.Admits, seen] using this
  | some =>
    simp only [boundConstraint, runs_bind, runs_lift] at h
    obtain ⟨c, _, ⟨hc, rfl⟩, n, _, ⟨hn, rfl⟩, hconj, rfl⟩ := h
    obtain ⟨hc, hadmits⟩ := hwithin hc
    have hboth := denotes_mkBinary hc (denotes_nonEmpty ht hn) hconj
    rw [show seen _ v = v from rfl, Value.truth_inj.2 hadmits]
    exact hboth
  | lone =>
    simp only [boundConstraint, runs_bind, runs_lift] at h
    obtain ⟨c, _, ⟨hc, rfl⟩, n, _, hn, hconj, rfl⟩ := h
    obtain ⟨hc, hadmits⟩ := hwithin hc
    have hboth := denotes_mkBinary hc (denotes_atMostOne ht hfree hn) hconj
    rw [show seen _ v = v from rfl, Value.truth_inj.2 hadmits]
    exact hboth
  | set =>
    obtain ⟨hc, hadmits⟩ := hwithin (runs_lift.1 h).1
    rw [show seen _ v = v from rfl, Value.truth_inj.2 (hadmits.trans (and_iff_left trivial))]
    exact hc
  | no => exact absurd rfl hm

/-! ## Declarations -/

/-- What binding the variables `vs` has added to a binder: new variables and constraints, which hold
exactly where the declaration admits what is seen of the variables. -/
structure Declares (m : Relational.Multiplicity) (bound : Term) (element : SmtSort)
    (disjoint : Bool) (s : Session) (b : Bound) (vs : List Relational.Var) (xs : List Variable)
    (cs : List Term) (b' : Bound) (s' : Session) : Prop where
  result : b' = ⟨b.scope.putAll ((vs.map Relational.Var.name).zip (xs.map (imageOf m))),
    b.vars ++ xs, b.constraints ++ cs⟩
  length : vs.length = xs.length
  grows : s.fresh ≤ s'.fresh
  fresh : ∀ x ∈ xs, ∃ hint k, s.fresh < k ∧ k ≤ s'.fresh ∧ x.name = numbered hint k
  names : (xs.map Variable.name).Nodup
  sorts : ∀ x ∈ xs, x.sort = boundSort m bound.sort element ∧ (m = .one → element.isTuple = true)
  admits : ∀ {E : Type} {I : Interpretation E} {σ : Assignment E} {w : RelSmt.Value E},
    bound.Denotes I σ w → bound.SettledAt s.fresh → ∀ bs, I.HasSorts xs bs →
      ((∀ c ∈ cs, (c.eval I (σ.bindAll xs bs)).Holds) ↔
        Relational.Admitted m w.rows disjoint vs (bs.map (seen m)))

theorem admitted_nil {m : Relational.Multiplicity} {r : Set (Tuple E)} {disjoint : Bool} :
    Relational.Admitted m r disjoint [] [] :=
  ⟨rfl, by simp, fun _ => List.Pairwise.nil⟩

theorem admitted_cons {m : Relational.Multiplicity} {r : Set (Tuple E)} {v : Relational.Var}
    {vs : List Relational.Var} {a : RelSmt.Value E} {as : List (RelSmt.Value E)} :
    Relational.Admitted m r false (v :: vs) (a :: as) ↔
      m.Admits r a ∧ Relational.Admitted m r false vs as := by
  constructor
  · rintro ⟨hlen, hall, _⟩
    rw [List.forall_mem_cons] at hall
    exact ⟨hall.1, by simpa using hlen, hall.2, by simp⟩
  · rintro ⟨ha, hlen, hall, _⟩
    exact ⟨by simpa using hlen, List.forall_mem_cons.2 ⟨ha, hall⟩, by simp⟩

theorem declares_bindVars {m : Relational.Multiplicity} {bound : Term} {element : SmtSort} :
    ∀ {vs : List Relational.Var} {b b' : Bound} {images : List Term} {s s' : Session},
      Runs (bindVars m bound element b vs) s (b', images) s' →
      ∃ xs cs, images = xs.map (imageOf m) ∧
        Declares m bound element false s b vs xs cs b' s'
  | [], b, b', images, s, s', h => by
    simp only [bindVars, runs_pure, Prod.mk.injEq] at h
    obtain ⟨⟨rfl, rfl⟩, rfl⟩ := h
    refine ⟨[], [], rfl, ⟨by simp [Scoped.putAll], rfl, Nat.le_refl _, by simp, by simp, by simp,
      ?_⟩⟩
    intro E I σ w _ _ bs hbs
    obtain rfl := List.forall₂_nil_left_iff.1 hbs
    simp [admitted_nil]
  | v :: vs, b, b', images, s, s', h => by
    obtain ⟨b₁, s₁, image, rest, h₁, h₂, rfl⟩ := runs_bindVars_cons h
    obtain ⟨c, x, hx, hc, _, hno, htuple, rfl, rfl⟩ := runs_bindVar h₁
    obtain ⟨xs, cs, rfl, ih⟩ := declares_bindVars h₂
    have hname : x.name = numbered v.name (s.fresh + 1) := by rw [hx]; rfl
    have hsort : x.sort = boundSort m bound.sort element := by rw [hx]; rfl
    have hgrow : s.fresh + 1 ≤ s₁.fresh := (runs_boundConstraint hc).1.fresh
    refine ⟨x :: xs, c :: cs, rfl, ⟨?_, by simp [ih.length], ?_, ?_, ?_, ?_, ?_⟩⟩
    · rw [ih.result]
      simp [Scoped.putAll]
    · exact Nat.le_trans (Nat.le_of_succ_le hgrow) ih.grows
    · intro y hy
      rcases List.mem_cons.1 hy with rfl | hy
      · exact ⟨v.name, s.fresh + 1, Nat.lt_succ_self _, Nat.le_trans hgrow ih.grows, hname⟩
      · obtain ⟨hint, k, hk, hk', hy⟩ := ih.fresh y hy
        exact ⟨hint, k, Nat.lt_of_lt_of_le (Nat.lt_of_succ_le hgrow) (Nat.le_of_lt hk), hk', hy⟩
    · rw [List.map_cons, List.nodup_cons]
      refine ⟨fun hmem => ?_, ih.names⟩
      obtain ⟨y, hy, he⟩ := List.mem_map.1 hmem
      obtain ⟨hint, k, hk, _, hname'⟩ := ih.fresh y hy
      have := numbered_injective (hname.symm.trans (he.symm.trans hname'))
      omega
    · exact List.forall_mem_cons.2 ⟨⟨hsort, htuple⟩, ih.sorts⟩
    · intro E I σ w hbound hfree bs hbs
      obtain ⟨d, ds, hd, hds, rfl⟩ := List.forall₂_cons_left_iff.1 hbs
      have hbound' : bound.Denotes I (σ.bind x d) w := by
        change bound.Denotes I (σ.bindAll [x] [d]) w
        refine hbound.bindAll [d] fun y hy z hz => ?_
        rw [List.mem_singleton.1 hz, hname]
        exact (hfree y hy).ne_numbered (Nat.lt_succ_self _)
      have hvar : (Term.variable (.plain x.name x.sort)).Denotes I (σ.bind x d) d :=
        ⟨Assignment.get_bind_self σ x d, hd⟩
      have hsettled : (Term.variable (.plain x.name x.sort)).SettledAt s.next.fresh := by
        intro y hy
        simp only [Term.freeOccurrences, List.mem_singleton] at hy
        rw [hy]
        exact hname ▸ settled_numbered (Nat.le_refl _)
      have hcd := denotes_boundConstraint hno hvar hsettled hbound' hc
      -- the constraint does not mention the variables that are bound after it
      have hlater : c.eval I ((σ.bind x d).bindAll xs ds) = c.eval I (σ.bind x d) := by
        refine Term.eval_bindAll_of_fresh I ds _ fun y hy z hz => ?_
        obtain ⟨hint, k, hk, _, hz⟩ := ih.fresh z hz
        rw [hz]
        rcases (runs_boundConstraint hc).2 y hy with hy | hy
        · exact (hsettled y hy).ne_numbered (Nat.lt_of_le_of_lt hgrow hk)
        · exact (hfree y hy).ne_numbered (Nat.lt_trans (Nat.lt_of_succ_le hgrow) hk)
      rw [List.map_cons, admitted_cons, List.forall_mem_cons, Assignment.bindAll_cons, hlater,
        hcd.eval, Value.holds_truth]
      exact and_congr_right fun _ => ih.admits hbound'
        (hfree.mono (Nat.le_of_succ_le hgrow)) ds hds

theorem pairwise_iff_pairs {α : Type} {R : α → α → Prop} : ∀ {as : List α},
    as.Pairwise R ↔ ∀ p ∈ pairs as, R p.1 p.2
  | [] => by simp [pairs]
  | a :: as => by
    rw [List.pairwise_cons, pairwise_iff_pairs]
    simp only [pairs, List.mem_append, List.mem_map, or_imp, forall_and, forall_exists_index,
      and_imp, forall_apply_eq_imp_iff₂]

theorem admitted_iff {m : Relational.Multiplicity} {r : Set (Tuple E)} {disjoint : Bool}
    {vs : List Relational.Var} {as : List (RelSmt.Value E)} :
    Relational.Admitted m r disjoint vs as ↔ Relational.Admitted m r false vs as ∧
      (disjoint = true → as.Pairwise fun a b => a.rows ∩ b.rows = ∅) := by
  constructor
  · rintro ⟨hlen, hall, hapart⟩
    exact ⟨⟨hlen, hall, by simp⟩, hapart⟩
  · rintro ⟨⟨hlen, hall, _⟩, hapart⟩
    exact ⟨hlen, hall, hapart⟩

theorem denotes_imageOf {m : Relational.Multiplicity} {x : Variable}
    (hx : m = .one → x.sort.isTuple = true) (h : (ρ.get x).HasSort I.carrier x.sort) :
    (imageOf m x).Denotes I ρ (seen m (ρ.get x)) :=
  ⟨eval_imageOf m x, hasSort_imageOf hx h⟩

/-- Inside a binder its variables have values of their sorts. -/
theorem hasSort_get_bindAll : ∀ {vs : List Variable} {as : List (RelSmt.Value E)} {σ : Assignment E},
    I.HasSorts vs as → (vs.map Variable.name).Nodup →
    ∀ v ∈ vs, ((σ.bindAll vs as).get v).HasSort I.carrier v.sort
  | v :: vs, a :: as, σ, .cons ha has, hnames, w, hw => by
    rw [List.map_cons, List.nodup_cons] at hnames
    rcases List.mem_cons.1 hw with rfl | hw
    · rw [Assignment.bindAll_cons, Assignment.get_bindAll_of_not_mem vs as _ fun u hu he =>
        hnames.1 (List.mem_map.2 ⟨u, hu, he.symm⟩), Assignment.get_bind_self]
      exact ha
    · exact hasSort_get_bindAll has hnames.2 w hw

/-- Inside a binder, what is seen of its values is seen of the values of its variables. -/
theorem map_seen_eq {m : Relational.Multiplicity} {xs : List Variable} {bs : List (RelSmt.Value E)}
    (hbs : I.HasSorts xs bs) (hnames : (xs.map Variable.name).Nodup) :
    bs.map (seen m) = xs.map fun x => seen m ((ρ.bindAll xs bs).get x) := by
  conv_lhs => rw [← Assignment.map_get_bindAll xs bs ρ hbs.length hnames]
  rw [List.map_map]
  rfl

/-- Inside a binder the images of its variables denote what is seen of their values. -/
theorem denotes_images {m : Relational.Multiplicity} {xs : List Variable}
    {bs : List (RelSmt.Value E)} (hbs : I.HasSorts xs bs)
    (hnames : (xs.map Variable.name).Nodup)
    (htuple : ∀ x ∈ xs, m = .one → x.sort.isTuple = true) :
    List.Forall₂ (fun i a => i.Denotes I (ρ.bindAll xs bs) a) (xs.map (imageOf m))
      (bs.map (seen m)) := by
  rw [map_seen_eq hbs hnames, List.forall₂_map_left_iff, List.forall₂_map_right_iff]
  exact List.forall₂_same.2 fun x hx =>
    denotes_imageOf (htuple x hx) (hasSort_get_bindAll hbs hnames x hx)

/-- The images of variables are disjoint where the formulas that say so hold. -/
theorem holds_apart {m : Relational.Multiplicity} {xs : List Variable} {apart : List Term}
    (h : List.Forall₂ (fun p t => disjointSets p.1 p.2 = .ok t) (pairs (xs.map (imageOf m))) apart) :
    (∀ c ∈ apart, (c.eval I ρ).Holds) ↔
      xs.Pairwise fun x y => (seen m (ρ.get x)).rows ∩ (seen m (ρ.get y)).rows = ∅ := by
  have himages : (xs.Pairwise fun x y => (seen m (ρ.get x)).rows ∩ (seen m (ρ.get y)).rows = ∅) ↔
      (xs.map (imageOf m)).Pairwise fun l r => (l.eval I ρ).rows ∩ (r.eval I ρ).rows = ∅ := by
    simp only [List.pairwise_map, eval_imageOf]
  rw [himages, pairwise_iff_pairs]
  constructor
  · intro hall p hp
    obtain ⟨c, hc, hdisjoint⟩ := exists_mem_of_forall₂ h.flip hp
    exact (holds_disjointSets hdisjoint).1 (hall c hc)
  · intro hall c hc
    obtain ⟨p, hp, hdisjoint⟩ := exists_mem_of_forall₂ h hc
    exact (holds_disjointSets hdisjoint).2 (hall p hp)

theorem isTuple_boundSort {m : Relational.Multiplicity} {bound element : SmtSort}
    (h : m = .one → element.isTuple = true) : m = .one → (boundSort m bound element).isTuple = true := by
  intro hone
  rw [boundSort, if_pos hone]
  exact h hone

/-- The variable of a declaration is a tuple where it takes single elements, and a set otherwise. -/
theorem isTuple_boundSort_iff {m : Relational.Multiplicity} {element : SmtSort}
    (h : m = .one → element.isTuple = true) :
    m = .one ↔ (boundSort m (.set element) element).isTuple = true := by
  refine ⟨isTuple_boundSort h, fun htuple => ?_⟩
  by_contra hne
  rw [boundSort, if_neg hne] at htuple
  simp [SmtSort.isTuple] at htuple

/-- **Binding a declaration constrains new variables to what the declaration admits.** -/
theorem declares_bindDecl {vs : List Relational.Var} {m : Relational.Multiplicity} {bound : Term}
    {disjoint : Bool} {b b' : Bound} (h : Runs (bindDecl vs m bound disjoint b) s b' s') :
    ∃ element xs cs, bound.sort = .set element ∧
      Declares m bound element disjoint s b vs xs cs b' s' := by
  obtain ⟨element, b₁, images, apart, hsort, h₁, hapart, rfl⟩ := runs_bindDecl h
  obtain ⟨xs, cs, rfl, hdecl⟩ := declares_bindVars h₁
  refine ⟨element, xs, cs ++ apart, hsort, ⟨by simp [hdecl.result], hdecl.length, hdecl.grows,
    hdecl.fresh, hdecl.names, hdecl.sorts, ?_⟩⟩
  intro E I σ w hbound hfree bs hbs
  have hplain := hdecl.admits hbound hfree bs hbs
  simp only [List.mem_append, or_imp, forall_and]
  rw [admitted_iff, hplain]
  refine and_congr_right fun _ => ?_
  split at hapart
  · rename_i hdisjoint
    rw [holds_apart hapart, map_seen_eq (ρ := σ) hbs hdecl.names, List.pairwise_map]
    simp [hdisjoint]
  · rename_i hdisjoint
    simp [hapart, hdisjoint]

end Lowering

end RelSmt
