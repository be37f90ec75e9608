import Mathlib.Data.Set.Pairwise.List
import RelSmt.Proofs.Lowering.Constants
import RelSmt.Proofs.Relational.Hierarchy

/-!
# What the assertions about signatures say

Lowering the signatures of a forest asserts of the sets that their constants stand for what the
hierarchy demands, and nothing more. Each step is described by the condition on the columns under
which it goes through and by what the formula that it asserts means (`Demands`); what the steps of a
list demand is what each demands. The only condition that is left for a forest is that the parents
of a subset signature have one column, for all else in a tree has the column of its root.
-/

namespace RelSmt.Lowering

variable {E : Type} {all : List Relational.Signature} {s s' : Session} {t : Term}

/-- The set that a signature stands for. -/
def extent (I : Interpretation E) (r : Relational.SigRef) : Set (Tuple E) :=
  (I.function (signatureSymbol r) []).rows

/-- The constant of a signature as a term. -/
def signatureTerm (r : Relational.SigRef) : Term := .symbol (signatureSymbol r)

/-- Does the session know all these signatures by their constants? -/
def Session.Knows (s : Session) (all : List Relational.Signature) : Prop :=
  ∀ r ∈ all, s.signatures.lookup r.ref = some (signatureSymbol r.ref)

/-- Is this a reference to a listed signature? -/
def Listed (all : List Relational.Signature) (r : Relational.SigRef) : Prop := ∃ p ∈ all, p.ref = r

theorem listed_of_mem {r : Relational.Signature} (h : r ∈ all) : Listed all r.ref := ⟨r, h, rfl⟩

/-- A step that asserts something about listed signatures. It goes through if and only if some
condition holds, and then what it adds is true exactly in the interpretations that it has in mind.
-/
structure Demands (all : List Relational.Signature) (x : Lower Unit) (fits : Prop)
    (meaning : (E : Type) → Interpretation E → Prop) : Prop where
  returns : ∀ {s : Session}, s.Knows all → fits → ∃ s', Runs x s () s'
  fits : ∀ {s s' : Session}, s.Knows all → Runs x s () s' → fits
  grows : ∀ {s s' : Session}, s.Knows all → Runs x s () s' → Extends s s'
  means : ∀ {s s' : Session}, s.Knows all → Runs x s () s' → ∀ (E : Type) (I : Interpretation E),
    I.Satisfies (added s s') ↔ meaning E I

/-! ## Steps one after another -/

theorem Session.Knows.of_extends (h : s.Knows all) (hext : Extends s s') : s'.Knows all := by
  unfold Knows
  rw [hext.signatures]
  exact h

theorem satisfies_added_trans {I : Interpretation E} {m : Session} (h : Extends s m)
    (h' : Extends m s') :
    I.Satisfies (added s s') ↔ I.Satisfies (added s m) ∧ I.Satisfies (added m s') := by
  rw [added_trans h h']
  exact List.forall_mem_append

theorem demands_pure : Demands all (pure ()) True fun _ _ => True where
  returns _ _ := ⟨_, runs_pure.2 ⟨rfl, rfl⟩⟩
  fits _ _ := trivial
  grows _ h := by
    obtain ⟨_, rfl⟩ := runs_pure.1 h
    exact .refl _
  means _ h E I := by
    obtain ⟨_, rfl⟩ := runs_pure.1 h
    simp [Interpretation.Satisfies, added]

theorem Demands.bind {x y : Lower Unit} {p q : Prop} {P Q : (E : Type) → Interpretation E → Prop}
    (hx : Demands all x p P) (hy : Demands all y q Q) :
    Demands all (x >>= fun _ => y) (p ∧ q) fun E I => P E I ∧ Q E I where
  returns hs h := by
    obtain ⟨m, hm⟩ := hx.returns hs h.1
    obtain ⟨s', hs'⟩ := hy.returns (hs.of_extends (hx.grows hs hm)) h.2
    exact ⟨s', runs_bind.2 ⟨(), m, hm, hs'⟩⟩
  fits hs h := by
    obtain ⟨_, m, hm, hs'⟩ := runs_bind.1 h
    exact ⟨hx.fits hs hm, hy.fits (hs.of_extends (hx.grows hs hm)) hs'⟩
  grows hs h := by
    obtain ⟨_, m, hm, hs'⟩ := runs_bind.1 h
    have hext := hx.grows hs hm
    exact hext.trans (hy.grows (hs.of_extends hext) hs')
  means hs h E I := by
    obtain ⟨_, m, hm, hs'⟩ := runs_bind.1 h
    have hext := hx.grows hs hm
    have hknows := hs.of_extends hext
    rw [satisfies_added_trans hext (hy.grows hknows hs'), hx.means hs hm, hy.means hknows hs']

/-- The steps of a list demand what each of them demands. -/
theorem demands_forM {α : Type} {f : α → Lower Unit} {p : α → Prop}
    {P : α → (E : Type) → Interpretation E → Prop} : ∀ {as : List α},
    (∀ a ∈ as, Demands all (f a) (p a) (P a)) →
      Demands all (as.forM f) (∀ a ∈ as, p a) fun E I => ∀ a ∈ as, P a E I
  | [], _ => by simpa using demands_pure
  | a :: as, h => by
    obtain ⟨ha, has⟩ := List.forall_mem_cons.1 h
    change Demands all (f a >>= fun _ => as.forM f) _ _
    simpa only [List.forall_mem_cons] using ha.bind (demands_forM has)

/-- The condition and the meaning may be put in other words. -/
theorem Demands.congr {x : Lower Unit} {p q : Prop} {P Q : (E : Type) → Interpretation E → Prop}
    (h : Demands all x p P) (hp : p ↔ q) (hP : ∀ (E : Type) (I : Interpretation E), P E I ↔ Q E I) :
    Demands all x q Q where
  returns hs hq := h.returns hs (hp.2 hq)
  fits hs hx := hp.1 (h.fits hs hx)
  grows := h.grows
  means hs hx E I := (h.means hs hx E I).trans (hP E I)

/-- A step that asserts a closed formula, perhaps after it has taken names. -/
theorem demands_of_runs {x : Lower Unit} {p : Prop} {P : (E : Type) → Interpretation E → Prop}
    (comment : String) (named : Session → Session) (formula : Session → Term)
    (hruns : ∀ {s s' : Session}, s.Knows all →
      (Runs x s () s' ↔ p ∧ (named s).asserting ⟨comment, formula s, none⟩ = s'))
    (hnamed : ∀ s, Extends s (named s) ∧ (named s).program = s.program)
    (hclosed : ∀ s, (formula s).freeOccurrences = [])
    (hmeans : ∀ s, p → ∀ (E : Type) (I : Interpretation E), (formula s).Valid I ↔ P E I) :
    Demands all x p P where
  returns hs h := ⟨_, (hruns hs).2 ⟨h, rfl⟩⟩
  fits hs h := ((hruns hs).1 h).1
  grows {s s'} hs h := by
    obtain ⟨_, rfl⟩ := (hruns hs).1 h
    exact (hnamed s).1.trans (extends_asserting (Or.inl (hclosed s)))
  means {s s'} hs h E I := by
    obtain ⟨hp, rfl⟩ := (hruns hs).1 h
    have hadded : added s ((named s).asserting ⟨comment, formula s, none⟩)
        = [⟨comment, formula s, none⟩] :=
      added_eq (by rw [Session.asserting_assertions, (hnamed s).2])
    rw [hadded, ← hmeans s hp E I]
    exact List.forall_mem_singleton

/-! ## Terms for signatures -/

theorem isRelation_of_listed (hall : Relational.Forest all) {r : Relational.SigRef}
    (hr : Listed all r) : Session.IsRelation (signatureSymbol r) [r.column] := by
  obtain ⟨p, hp, rfl⟩ := hr
  have hmade := hall.made p hp
  unfold signatureSymbol
  split
  · rename_i hint
    rw [hmade.column, hmade.isInt.1 hint]
    exact ⟨rfl, rfl⟩
  · exact ⟨rfl, rfl⟩

theorem sort_signatureTerm (hall : Relational.Forest all) {r : Relational.SigRef}
    (hr : Listed all r) : (signatureTerm r).sort = relationSort [r.column] :=
  (isRelation_of_listed hall hr).2

theorem denotes_signatureTerm (hall : Relational.Forest all) {r : Relational.SigRef}
    (hr : Listed all r) (I : Interpretation E) (ρ : Assignment E) :
    (signatureTerm r).Denotes I ρ (.set (extent I r)) :=
  denotes_constant (isRelation_of_listed hall hr)

theorem relationSort_single_inj {c d : Relational.Column} :
    relationSort [c] = relationSort [d] ↔ c = d := by
  cases c <;> cases d <;> simp [relationSort, SmtSort.relation, columnSort, SmtSort.atom]

theorem runs_signature_of_listed (hs : s.Knows all) {r : Relational.SigRef} (hr : Listed all r) :
    Runs (signature r) s t s' ↔ signatureTerm r = t ∧ s = s' := by
  obtain ⟨p, hp, rfl⟩ := hr
  rw [runs_signature, hs p hp]
  simp [signatureTerm]

/-- Looking up a listed signature leaves the rest of a step to run with its term. -/
theorem runs_signature_bind (hs : s.Knows all) {r : Relational.SigRef} (hr : Listed all r) {α : Type}
    {f : Term → Lower α} {a : α} :
    Runs (signature r >>= f) s a s' ↔ Runs (f (signatureTerm r)) s a s' := by
  rw [runs_bind]
  simp only [runs_signature_of_listed hs hr]
  constructor
  · rintro ⟨_, _, ⟨rfl, rfl⟩, h⟩
    exact h
  · exact fun h => ⟨_, _, ⟨rfl, rfl⟩, h⟩

/-- A check that is followed by an assertion of what it returns. -/
theorem runs_lift_assert {c : Checked Term} {comment : String} {p : Prop} {formula : Term}
    (hc : ∀ {u}, c = .ok u ↔ p ∧ formula = u) (hsort : formula.sort = .bool) :
    Runs (liftM c >>= assert comment) s () s' ↔ p ∧ s.asserting ⟨comment, formula, none⟩ = s' := by
  simp only [runs_bind, runs_lift, runs_assert, hc]
  constructor
  · rintro ⟨_, _, ⟨⟨h, rfl⟩, rfl⟩, _, rfl⟩
    exact ⟨h, rfl⟩
  · rintro ⟨h, rfl⟩
    exact ⟨_, _, ⟨⟨h, rfl⟩, rfl⟩, hsort, rfl⟩

theorem disjointSets_eq_ok {l r u : Term} : disjointSets l r = .ok u ↔
    (l.sort.isSet = true ∧ l.sort = r.sort) ∧
      .binary .eq (.binary (.set .intersection) l r) (.emptySet l.sort) = u := by
  simp only [disjointSets, Checked.bind_eq_ok, Term.inter, Term.setOp_eq_ok, Term.emptyOf_eq_ok,
    Term.eqTo_eq_ok]
  constructor
  · rintro ⟨_, ⟨h, rfl⟩, _, ⟨_, rfl⟩, _, rfl⟩
    exact ⟨h, rfl⟩
  · rintro ⟨h, rfl⟩
    exact ⟨_, ⟨h, rfl⟩, _, ⟨h.1, rfl⟩, rfl, rfl⟩

/-- A term united with some signatures. -/
def unionWith (t : Term) (others : List Relational.SigRef) : Term :=
  others.foldl (fun t r => .binary (.set .union) t (signatureTerm r)) t

theorem sort_unionWith (others : List Relational.SigRef) : ∀ t, (unionWith t others).sort = t.sort := by
  induction others with
  | nil => exact fun _ => rfl
  | cons r others ih => exact fun t => ih _

theorem free_unionWith (others : List Relational.SigRef) :
    ∀ t, (unionWith t others).freeOccurrences = t.freeOccurrences := by
  induction others with
  | nil => exact fun _ => rfl
  | cons r others ih =>
    intro t
    refine (ih _).trans ?_
    simp [Term.freeOccurrences, signatureTerm]

theorem runs_unionWith (hall : Relational.Forest all) (hs : s.Knows all)
    {others : List Relational.SigRef} (hothers : ∀ r ∈ others, Listed all r) {c : Relational.Column} :
    ∀ {u : Term}, u.sort = relationSort [c] →
      (Runs (others.foldlM (fun t r => do t.union (← signature r)) u) s t s' ↔
        (∀ r ∈ others, r.column = c) ∧ unionWith u others = t ∧ s = s') := by
  induction others with
  | nil => simp [unionWith]
  | cons r others ih =>
    intro u hu
    obtain ⟨hr, hothers⟩ := List.forall_mem_cons.1 hothers
    have hfits : (u.sort.isSet = true ∧ u.sort = (signatureTerm r).sort) ↔ r.column = c := by
      rw [hu, sort_signatureTerm hall hr, relationSort_single_inj]
      exact ⟨fun h => h.2.symm, fun h => ⟨rfl, h.symm⟩⟩
    have ih := ih hothers (u := .binary (.set .union) u (signatureTerm r)) hu
    simp only [Term.union] at ih ⊢
    simp only [List.foldlM_cons, runs_bind, runs_signature_of_listed hs hr, runs_lift,
      Term.setOp_eq_ok, List.forall_mem_cons]
    constructor
    · rintro ⟨_, _, ⟨_, _, ⟨rfl, rfl⟩, ⟨h, rfl⟩, rfl⟩, hrest⟩
      obtain ⟨hcolumns, ht, rfl⟩ := ih.1 hrest
      exact ⟨⟨hfits.1 h, hcolumns⟩, ht, rfl⟩
    · rintro ⟨⟨hr, hcolumns⟩, ht, rfl⟩
      exact ⟨_, s, ⟨_, s, ⟨rfl, rfl⟩, ⟨hfits.2 hr, rfl⟩, rfl⟩, ih.2 ⟨hcolumns, ht, rfl⟩⟩

/-- A union goes through when all signatures have the column of the first. -/
theorem runs_unionOf_bind (hall : Relational.Forest all) (hs : s.Knows all)
    {first : Relational.SigRef} {others : List Relational.SigRef}
    (hlisted : ∀ r ∈ first :: others, Listed all r) {α : Type} {f : Term → Lower α} {a : α} :
    Runs (unionOf first others >>= f) s a s' ↔ (∀ r ∈ others, r.column = first.column) ∧
      Runs (f (unionWith (signatureTerm first) others)) s a s' := by
  obtain ⟨hfirst, hothers⟩ := List.forall_mem_cons.1 hlisted
  rw [runs_bind, unionOf]
  simp only [runs_signature_bind hs hfirst,
    runs_unionWith hall hs hothers (sort_signatureTerm hall hfirst)]
  constructor
  · rintro ⟨_, _, ⟨h, rfl, rfl⟩, hf⟩
    exact ⟨h, hf⟩
  · exact fun h => ⟨_, _, ⟨h.1, rfl, rfl⟩, h.2⟩

theorem denotes_unionWith (hall : Relational.Forest all) {others : List Relational.SigRef}
    (hothers : ∀ r ∈ others, Listed all r) (I : Interpretation E) (ρ : Assignment E)
    {c : Relational.Column} (hcolumns : ∀ r ∈ others, r.column = c) :
    ∀ {u : Term} {rows : Set (Tuple E)}, u.sort = relationSort [c] → u.Denotes I ρ (.set rows) →
      (unionWith u others).Denotes I ρ (.set {t | t ∈ rows ∨ ∃ r ∈ others, t ∈ extent I r}) := by
  induction others with
  | nil => simp [unionWith]
  | cons r others ih =>
    intro u rows hsort hu
    obtain ⟨hr, hothers⟩ := List.forall_mem_cons.1 hothers
    obtain ⟨hrc, hcolumns⟩ := List.forall_mem_cons.1 hcolumns
    have hunion := hu.binary (o := .set .union) (denotes_signatureTerm hall hr I ρ)
      (Term.binarySort_set.2 ⟨by rw [hsort]; rfl, by rw [hsort, sort_signatureTerm hall hr, hrc]⟩)
    have hrest := ih hothers hcolumns (u := .binary (.set .union) u (signatureTerm r)) hsort hunion
    simpa [unionWith, SetOp.apply, or_assoc] using hrest

/-- The union of some signatures holds what is in one of them. -/
theorem denotes_unionOf (hall : Relational.Forest all) {first : Relational.SigRef}
    {others : List Relational.SigRef} (hlisted : ∀ r ∈ first :: others, Listed all r)
    (hcolumns : ∀ r ∈ others, r.column = first.column) (I : Interpretation E) (ρ : Assignment E) :
    (unionWith (signatureTerm first) others).Denotes I ρ
      (.set {t | ∃ r ∈ first :: others, t ∈ extent I r}) := by
  obtain ⟨hfirst, hothers⟩ := List.forall_mem_cons.1 hlisted
  simpa using denotes_unionWith hall hothers I ρ hcolumns (sort_signatureTerm hall hfirst)
    (denotes_signatureTerm hall hfirst I ρ)

/-! ## What each step demands -/

/-- A formula that denotes a truth value is valid if this is so whatever its variables stand for. -/
theorem valid_iff_of_denotes {I : Interpretation E} {p : Prop}
    (h : ∀ ρ, t.Denotes I ρ (.truth p)) : t.Valid I ↔ p := by
  unfold Term.Valid
  simp only [fun ρ => (h ρ).eval, Value.holds_truth]
  exact ⟨fun h => h default, fun h _ => h⟩

/-- A formula that a check builds of signatures demands what it means. What has been put together
before the check may have a condition of its own. -/
theorem demands_check {x : Lower Unit} {p q : Prop} {P : (E : Type) → Interpretation E → Prop}
    {c : Checked Term} {formula : Term} (comment : String)
    (hruns : ∀ {s s' : Session}, s.Knows all →
      (Runs x s () s' ↔ p ∧ Runs (liftM c >>= assert comment) s () s'))
    (hc : p → ∀ {u}, c = .ok u ↔ q ∧ formula = u) (hclosed : formula.freeOccurrences = [])
    (hmeans : p → q → ∀ (E : Type) (I : Interpretation E) (ρ : Assignment E),
      formula.Denotes I ρ (.truth (P E I)))
    (hsort : formula.sort = .bool) : Demands all x (p ∧ q) P := by
  refine demands_of_runs comment id (fun _ => formula) (fun hs => ?_) (fun s => ⟨.refl s, rfl⟩)
    (fun _ => hclosed) fun _ hpq E I => valid_iff_of_denotes fun ρ => hmeans hpq.1 hpq.2 E I ρ
  rw [hruns hs, and_assoc]
  exact and_congr_right fun hp => runs_lift_assert (hc hp) hsort

theorem free_signatureTerm (r : Relational.SigRef) : (signatureTerm r).freeOccurrences = [] := by
  simp [signatureTerm, Term.freeOccurrences]

theorem isSet_relationSort (columns : List Relational.Column) :
    (relationSort columns).isSet = true := rfl

theorem demands_disjoint (hall : Relational.Forest all) {a b : Relational.SigRef}
    (ha : Listed all a) (hb : Listed all b) (comment : String) :
    Demands all (do
      let formula ← disjointSets (← signature a) (← signature b)
      assert comment formula) (a.column = b.column)
      fun _ I => extent I a ∩ extent I b = ∅ := by
  have hok : ∀ {u : Term}, disjointSets (signatureTerm a) (signatureTerm b) = .ok u ↔
      a.column = b.column ∧ .binary .eq (.binary (.set .intersection) (signatureTerm a)
        (signatureTerm b)) (.emptySet (signatureTerm a).sort) = u := fun {u} => by
    rw [disjointSets_eq_ok, sort_signatureTerm hall ha, sort_signatureTerm hall hb,
      relationSort_single_inj, isSet_relationSort]
    simp only [true_and]
  refine (demands_check (p := True) comment (fun hs => ?_) (fun _ => hok) ?_
    (fun _ hcolumn E I ρ => ?_) rfl).congr (iff_of_eq (true_and _)) fun _ _ => .rfl
  · rw [true_and, runs_signature_bind hs ha, runs_signature_bind hs hb]
  · simp [Term.freeOccurrences, free_signatureTerm]
  · have hdenotes := denotes_disjointSets (denotes_signatureTerm hall ha I ρ)
      (denotes_signatureTerm hall hb I ρ) (hok.2 ⟨hcolumn, rfl⟩)
    exact hdenotes

/-- Disjointness of some signatures with one column goes through. -/
theorem demands_assertDisjoint (hall : Relational.Forest all) {rs : List Relational.Signature}
    {c : Relational.Column} (hrs : ∀ r ∈ rs, r ∈ all ∧ r.ref.column = c) :
    Demands all (assertDisjoint rs) True
      fun _ I => rs.Pairwise fun a b => extent I a.ref ∩ extent I b.ref = ∅ := by
  refine (demands_forM (p := fun p : Relational.Signature × Relational.Signature =>
    p.1.ref.column = p.2.ref.column) (P := fun p _ I => extent I p.1.ref ∩ extent I p.2.ref = ∅)
    fun p hp => ?_).congr (iff_true_intro fun p hp => ?_) fun E I => (pairwise_iff_pairs
      (R := fun (a b : Relational.Signature) => extent I a.ref ∩ extent I b.ref = ∅)).symm
  · obtain ⟨ha, hb⟩ := mem_of_mem_pairs hp
    exact demands_disjoint hall (listed_of_mem (hrs _ ha).1) (listed_of_mem (hrs _ hb).1) _
  · obtain ⟨ha, hb⟩ := mem_of_mem_pairs hp
    exact (hrs _ ha).2.trans (hrs _ hb).2.symm

section Unions

variable (hall : Relational.Forest all) {r first : Relational.SigRef}
  {others : List Relational.SigRef} (hr : Listed all r)
  (hlisted : ∀ q ∈ first :: others, Listed all q) {x : Lower Unit} (comment : String)

include hall hlisted

theorem sort_unionOf :
    (unionWith (signatureTerm first) others).sort = relationSort [first.column] :=
  (sort_unionWith _ _).trans (sort_signatureTerm hall (hlisted _ List.mem_cons_self))

include hr

/-- Saying that a signature is inside the union of others. -/
theorem demands_within (hruns : ∀ {s s' : Session}, s.Knows all → (Runs x s () s' ↔
      (∀ q ∈ others, q.column = first.column) ∧ Runs (liftM ((signatureTerm r).within
        (unionWith (signatureTerm first) others)) >>= assert comment) s () s')) :
    Demands all x ((∀ q ∈ others, q.column = first.column) ∧ r.column = first.column)
      fun _ I => ∀ t ∈ extent I r, ∃ q ∈ first :: others, t ∈ extent I q := by
  have hfits : ((signatureTerm r).sort.isSet = true ∧
      (signatureTerm r).sort = (unionWith (signatureTerm first) others).sort) ↔
        r.column = first.column := by
    rw [sort_unionOf hall hlisted, sort_signatureTerm hall hr, relationSort_single_inj,
      isSet_relationSort]
    simp only [true_and]
  refine demands_check comment hruns (fun _ => Term.within_eq_ok.trans (and_congr_left' hfits)) ?_
    (fun hcolumns hcolumn E I ρ => ?_) rfl
  · simp [Term.freeOccurrences, free_signatureTerm, free_unionWith]
  · have hdenotes := (denotes_signatureTerm hall hr I ρ).binary (o := .subset)
      (denotes_unionOf hall hlisted hcolumns I ρ) (Term.binarySort_subset.2 (hfits.2 hcolumn))
    exact hdenotes

/-- Saying that a signature is the union of others. -/
theorem demands_eqTo (hruns : ∀ {s s' : Session}, s.Knows all → (Runs x s () s' ↔
      (∀ q ∈ others, q.column = first.column) ∧ Runs (liftM ((signatureTerm r).eqTo
        (unionWith (signatureTerm first) others)) >>= assert comment) s () s')) :
    Demands all x ((∀ q ∈ others, q.column = first.column) ∧ r.column = first.column)
      fun _ I => extent I r = {t | ∃ q ∈ first :: others, t ∈ extent I q} := by
  have hfits : (signatureTerm r).sort = (unionWith (signatureTerm first) others).sort ↔
      r.column = first.column := by
    rw [sort_unionOf hall hlisted, sort_signatureTerm hall hr, relationSort_single_inj]
  refine demands_check comment hruns (fun _ => Term.eqTo_eq_ok.trans (and_congr_left' hfits)) ?_
    (fun hcolumns hcolumn E I ρ => ?_) rfl
  · simp [Term.freeOccurrences, free_signatureTerm, free_unionWith]
  · have hdenotes := (denotes_signatureTerm hall hr I ρ).binary (o := .eq)
      (denotes_unionOf hall hlisted hcolumns I ρ) (Term.binarySort_eq.2 (hfits.2 hcolumn))
    simpa [Term.binaryValue] using hdenotes

end Unions

/-- Where a signature stands below others, the assertion says so. -/
theorem demands_assertParents (hall : Relational.Forest all) {r : Relational.Signature}
    (hr : r ∈ all) : Demands all (assertParents r)
      (∀ ps, r.kind = .subset ps → ∀ p ∈ ps, p.column = r.ref.column)
      fun _ I => (∀ p, r.kind = .extends p → extent I r.ref ⊆ extent I p) ∧
        ∀ ps, r.kind = .subset ps → ∀ t ∈ extent I r.ref, ∃ p ∈ ps, t ∈ extent I p := by
  have hmade := hall.made r hr
  have hcolumn := hmade.column
  have hlisted : ∀ q ∈ r.kind.parents, Listed all q := hall.parents r hr
  have hr := listed_of_mem hr
  unfold assertParents
  split
  · rename_i parent hkind
    rw [hkind] at hcolumn hlisted
    have hstep := demands_within hall hr hlisted (x := do
      let formula ← (← signature r.ref).within (← signature parent)
      assert s!"{r.ref.label} extends {parent.label}" formula) _ fun {s s'} hs => by
        rw [runs_signature_bind hs hr, runs_signature_bind hs (hlisted _ List.mem_cons_self)]
        exact (and_iff_right (List.forall_mem_nil _)).symm
    refine hstep.congr ?_ fun E I => ?_
    · simpa [hkind, Relational.SigKind.column] using hcolumn
    · simp [hkind, Set.subset_def]
  · rename_i first others hkind
    rw [hkind] at hcolumn hlisted
    have hfirst : r.ref.column = first.column := by
      simpa [Relational.SigKind.column] using hcolumn
    have hstep := demands_within hall hr hlisted (x := do
      let union ← unionOf first others
      let formula ← (← signature r.ref).within union
      assert s!"{r.ref.label} is a subset of its parents" formula) _ fun {s s'} hs => by
        rw [runs_unionOf_bind hall hs hlisted, runs_signature_bind hs hr]
    refine hstep.congr ?_ fun E I => ?_
    · simp [hkind, hfirst]
    · simp [hkind]
  · rename_i hextends hsubset
    -- a subset signature has a parent, so what is left has none to be within
    have hnone : ∀ ps, r.kind = .subset ps → ps = [] := by
      rintro (_ | ⟨first, others⟩) hkind
      · rfl
      · exact absurd hkind (hsubset first others)
    have hkinds : ∀ ps, r.kind ≠ .subset ps := fun ps hkind =>
      hmade.subset_ne_nil (hnone ps hkind ▸ hkind)
    refine demands_pure.congr (by simp [hkinds]) fun E I => iff_of_true trivial ⟨?_, ?_⟩
    · exact fun parent hkind => (hextends parent hkind).elim
    · exact fun ps hkind => absurd hkind (hkinds ps)

/-- The children of a signature. -/
theorem mem_children {c r : Relational.Signature} (hr : r ∈ all) :
    c ∈ all.filter (isChildOf r.ref) ↔ Relational.Signature.Child all c r := by
  rw [List.mem_filter, isChildOf, beq_iff_eq]
  exact ⟨fun h => ⟨h.1, hr, h.2⟩, fun h => ⟨h.listed, h.kind⟩⟩

theorem demands_assertChildren (hall : Relational.Forest all) {r : Relational.Signature}
    (hr : r ∈ all) : Demands all (assertChildren all r) True
      fun _ I => ((all.filter (isChildOf r.ref)).Pairwise fun a b =>
          extent I a.ref ∩ extent I b.ref = ∅) ∧
        (r.isAbstract = true → all.filter (isChildOf r.ref) ≠ [] →
          extent I r.ref = {t | ∃ c ∈ all.filter (isChildOf r.ref), t ∈ extent I c.ref}) := by
  have hchildren : ∀ c ∈ all.filter (isChildOf r.ref), c ∈ all ∧ c.ref.column = r.ref.column := by
    intro c hc
    have hc := (mem_children hr).1 hc
    refine ⟨hc.listed, (hall.made c hc.listed).column.trans ?_⟩
    rw [hc.kind]
    rfl
  have hr := listed_of_mem hr
  unfold assertChildren
  refine ((demands_assertDisjoint hall hchildren).bind ?_).congr (iff_of_eq (true_and True))
    fun _ _ => .rfl
  -- from here on only the columns of the children matter
  generalize all.filter (isChildOf r.ref) = children at hchildren ⊢
  match habstract : r.isAbstract, children with
  | true, first :: others =>
    have hlisted : ∀ q ∈ (first :: others).map Relational.Signature.ref, Listed all q :=
      List.forall_mem_map.2 fun c hc => listed_of_mem (hchildren c hc).1
    have hstep := demands_eqTo hall hr hlisted (x := do
      let union ← unionOf first.ref (others.map Relational.Signature.ref)
      let formula ← (← signature r.ref).eqTo union
      assert s!"abstract {r.ref.label} is the union of its children" formula) _ fun {s s'} hs => by
        rw [runs_unionOf_bind hall hs hlisted, runs_signature_bind hs hr]
    have hcolumns : ∀ c ∈ first :: others, c.ref.column = first.ref.column := fun c hc =>
      (hchildren c hc).2.trans (hchildren first List.mem_cons_self).2.symm
    refine hstep.congr (iff_true_intro ⟨?_, ?_⟩) fun E I => ?_
    · exact List.forall_mem_map.2 fun c hc => hcolumns c (List.mem_cons_of_mem _ hc)
    · exact (hchildren first List.mem_cons_self).2.symm
    · simp
  | true, [] => exact demands_pure.congr .rfl fun E I => by simp
  | false, children => exact demands_pure.congr .rfl fun E I => by simp

/-- Some tuple makes up the set alone. -/
def existsOne (t : Term) (element : SmtSort) (n : Nat) : Term :=
  .quantified .ex [.plain (numbered "x" n) element]
    (.binary .eq t (.unary .singleton (.variable (.plain (numbered "x" n) element))))

/-- Counting goes through for a set of tuples. -/
theorem runs_exactlyOne_iff {columns : List SmtSort} {u : Term} (ht : t.sort = .relation columns) :
    Runs (exactlyOne t) s u s' ↔ existsOne t (.tuple columns) (s.fresh + 1) = u ∧ s.next = s' := by
  simp only [exactlyOne, ht, SmtSort.relation, SmtSort.element?, runs_bind, runs_freshVariable,
    runs_lift, Term.single_eq_ok, Term.eqTo_eq_ok, Term.ex, Term.mkQuantified_eq_ok]
  constructor
  · rintro ⟨_, _, ⟨rfl, rfl⟩, _, _, ⟨⟨_, rfl⟩, rfl⟩, _, _, ⟨⟨_, rfl⟩, rfl⟩, ⟨_, _, rfl⟩, rfl⟩
    exact ⟨rfl, rfl⟩
  · rintro ⟨rfl, rfl⟩
    exact ⟨_, _, ⟨rfl, rfl⟩, _, _, ⟨⟨rfl, rfl⟩, rfl⟩, _, _, ⟨⟨rfl, rfl⟩, rfl⟩,
      ⟨List.cons_ne_nil _ _, rfl, rfl⟩, rfl⟩

theorem runs_atMostOne_iff {columns : List SmtSort} {u : Term} (ht : t.sort = .relation columns) :
    Runs (atMostOne t) s u s' ↔
      .binary (.connective .or) (.binary .eq t (.emptySet t.sort))
        (existsOne t (.tuple columns) (s.fresh + 1)) = u ∧ s.next = s' := by
  simp only [atMostOne, runs_bind, runs_lift, Term.isEmpty_eq_ok, Term.disj, Term.connective_eq_ok]
  constructor
  · rintro ⟨_, _, ⟨⟨_, rfl⟩, rfl⟩, _, _, hone, ⟨_, rfl⟩, rfl⟩
    obtain ⟨rfl, rfl⟩ := (runs_exactlyOne_iff ht).1 hone
    exact ⟨rfl, rfl⟩
  · rintro ⟨rfl, rfl⟩
    exact ⟨_, _, ⟨⟨by rw [ht]; rfl, rfl⟩, rfl⟩, _, _, (runs_exactlyOne_iff ht).2 ⟨rfl, rfl⟩,
      ⟨⟨rfl, rfl⟩, rfl⟩, rfl⟩

theorem free_existsOne {element : SmtSort} {n : Nat} (ht : t.freeOccurrences = []) :
    (existsOne t element n).freeOccurrences = [] := by
  simp [existsOne, Term.freeOccurrences, ht, Term.bindsName]

/-- A closed formula about a signature that takes some names. -/
theorem demands_formula {r : Relational.SigRef} (hr : Listed all r) {demand : Term → Lower Term}
    {P : (E : Type) → Interpretation E → Prop} (comment : String) (named : Session → Session)
    (formula : Session → Term) (hruns : ∀ {s s' : Session} {u : Term},
      Runs (demand (signatureTerm r)) s u s' ↔ formula s = u ∧ named s = s')
    (hnamed : ∀ s, Extends s (named s) ∧ (named s).program = s.program)
    (hformula : ∀ s, (formula s).freeOccurrences = [] ∧ (formula s).sort = .bool)
    (hmeans : ∀ (s : Session) (E : Type) (I : Interpretation E) (ρ : Assignment E),
      (formula s).Denotes I ρ (.truth (P E I))) :
    Demands all (do
      let formula ← demand (← signature r)
      assert comment formula) True P := by
  refine demands_of_runs comment named formula (fun {s s'} hs => ?_) hnamed
    (fun s => (hformula s).1) fun s _ E I => valid_iff_of_denotes (hmeans s E I)
  rw [runs_signature_bind hs hr, runs_bind]
  simp only [hruns, runs_assert, true_and]
  constructor
  · rintro ⟨_, _, ⟨rfl, rfl⟩, _, rfl⟩
    rfl
  · rintro rfl
    exact ⟨_, _, ⟨rfl, rfl⟩, (hformula s).2, rfl⟩

theorem demands_counts (hall : Relational.Forest all) {r : Relational.SigRef} (hr : Listed all r)
    {m : Relational.Multiplicity} {demand : Term → Lower Term}
    (hdemand : multiplicityFormula? m = some demand) (comment : String) :
    Demands all (do
      let formula ← demand (← signature r)
      assert comment formula) True fun _ I => m.Counts (extent I r) := by
  have hsort := sort_signatureTerm hall hr
  -- a signature's relation has no variables that a drawn name could clash with
  have hsettled : ∀ n, (signatureTerm r).SettledAt n := fun n v hv => by
    rw [free_signatureTerm] at hv
    cases hv
  cases m with
  | one =>
    obtain rfl := Option.some.inj hdemand
    refine demands_formula hr comment Session.next _ (runs_exactlyOne_iff hsort)
      (fun s => ⟨extends_next s, rfl⟩) (fun s => ⟨free_existsOne (free_signatureTerm r), rfl⟩)
      fun s E I ρ => ?_
    have hdenotes := denotes_exactlyOne (denotes_signatureTerm hall hr I ρ) (hsettled s.fresh)
      ((runs_exactlyOne_iff hsort).2 ⟨rfl, rfl⟩)
    exact hdenotes
  | lone =>
    obtain rfl := Option.some.inj hdemand
    refine demands_formula hr comment Session.next _ (runs_atMostOne_iff hsort)
      (fun s => ⟨extends_next s, rfl⟩) (fun s => ⟨?_, rfl⟩) fun s E I ρ => ?_
    · simp [Term.freeOccurrences, free_signatureTerm, free_existsOne]
    · have hdenotes := denotes_atMostOne (denotes_signatureTerm hall hr I ρ) (hsettled s.fresh)
        ((runs_atMostOne_iff hsort).2 ⟨rfl, rfl⟩)
      exact hdenotes
  | some =>
    obtain rfl := Option.some.inj hdemand
    have hok : ∀ {u : Term}, nonEmpty (signatureTerm r) = .ok u ↔
        .unary .not (.binary .eq (signatureTerm r) (.emptySet (signatureTerm r).sort)) = u :=
      fun {u} => nonEmpty_eq_ok.trans (and_iff_right (by rw [hsort]; rfl))
    refine demands_formula hr comment id _ (runs_lift.trans (and_congr_left' hok))
      (fun s => ⟨.refl s, rfl⟩) (fun s => ⟨?_, rfl⟩) fun s E I ρ => ?_
    · simp [Term.freeOccurrences, free_signatureTerm]
    · have hdenotes := denotes_nonEmpty (denotes_signatureTerm hall hr I ρ) (hok.2 rfl)
      exact hdenotes
  | no => simp [multiplicityFormula?] at hdemand
  | set => simp [multiplicityFormula?] at hdemand

/-- The multiplicity of a signature is asserted if there is one. -/
theorem demands_assertMultiplicity (hall : Relational.Forest all) {r : Relational.Signature}
    (hr : r ∈ all) : Demands all (assertMultiplicity r) True
      fun _ I => ∀ m, r.multiplicity = some m → m.Counts (extent I r.ref) := by
  have hmade := hall.made r hr
  unfold assertMultiplicity
  cases hmultiplicity : r.multiplicity with
  | none => exact demands_pure.congr .rfl fun E I => by simp
  | some m =>
    have hm := hmade.admits hmultiplicity
    obtain ⟨demand, hdemand⟩ : ∃ demand, multiplicityFormula? m = some demand := by
      cases m <;> simp [Relational.Signature.admits] at hm <;> exact ⟨_, rfl⟩
    simp only [Option.bind_some, hdemand, Option.map_some]
    refine (demands_counts hall (listed_of_mem hr) hdemand _).congr .rfl fun E I => by simp

/-- Each two of some signatures, listed once, are in a symmetric relation. -/
theorem pairwise_iff_ne {α : Type} {R : α → α → Prop} (hR : ∀ a b, R a b → R b a) {as : List α}
    (has : as.Nodup) : as.Pairwise R ↔ ∀ a ∈ as, ∀ b ∈ as, a ≠ b → R a b :=
  have : Std.Symm R := ⟨hR⟩
  (List.Nodup.pairwise_coe has).symm

/-- **What is asserted of declared signatures is the hierarchy**, with roots and siblings disjoint.
-/
theorem demands_hierarchy (hall : Relational.Forest all) :
    Demands all (do
      assertDisjoint (all.filter fun r => r.kind == .top)
      all.forM fun r => do
        assertParents r
        assertChildren all r
        assertMultiplicity r)
      (∀ r ∈ all, ∀ ps, r.kind = .subset ps → ∀ p ∈ ps, p.column = r.ref.column)
      fun _ I => Relational.Hierarchy (Relational.Signature.Adjacent all) (extent I) all := by
  have htop : ∀ r ∈ all.filter (fun r => r.kind == .top), r ∈ all ∧ r.ref.column = .atom := by
    intro r hr
    rw [List.mem_filter, beq_iff_eq] at hr
    exact ⟨hr.1, by rw [(hall.made r hr.1).column, hr.2]; rfl⟩
  have hnodup : all.Nodup := .of_map _ hall.distinct
  refine ((demands_assertDisjoint hall htop).bind (demands_forM fun r hr =>
    (demands_assertParents hall hr).bind ((demands_assertChildren hall hr).bind
      (demands_assertMultiplicity hall hr)))).congr (by simp) fun E I => ?_
  -- disjointness is demanded of pairs in the order of the list, and said of any two
  have hsymm : ∀ a b : Relational.Signature, extent I a.ref ∩ extent I b.ref = ∅ →
      extent I b.ref ∩ extent I a.ref = ∅ := fun a b h => Set.inter_comm _ _ ▸ h
  rw [pairwise_iff_ne hsymm (hnodup.filter _)]
  simp only [pairwise_iff_ne hsymm (hnodup.filter _)]
  constructor
  · rintro ⟨htops, hrest⟩
    refine ⟨fun c p hc => ?_, fun a ha b hb hab => ?_, fun p hp habstract hleaf => ?_, ?_, ?_⟩
    · exact (hrest c hc.listed).1.1 _ hc.kind
    -- neighbours are both on top or children of one parent, and each list is kept apart
    · rcases hab.siblings with ⟨hatop, hbtop⟩ | ⟨p, hap, hbp⟩
      · exact htops a (by simp [ha, hatop]) b (by simp [hb, hbtop]) hab.ne
      · have hp := hap.parent_listed
        exact (hrest p hp).2.1.1 a ((mem_children hp).2 hap) b ((mem_children hp).2 hbp) hab.ne
    -- an abstract signature is its children only if it has some
    · obtain ⟨c, hc⟩ := not_forall_not.1 hleaf
      have hc := (mem_children hp).2 hc
      refine ((hrest p hp).2.1.2 habstract (List.ne_nil_of_mem hc)).trans ?_
      simp only [mem_children hp]
    · exact fun r hr => (hrest r hr).1.2
    · exact fun r hr => (hrest r hr).2.2
  · intro h
    refine ⟨fun a ha b hb hne => ?_, fun r hr => ⟨⟨fun p hkind => ?_, h.subset r hr⟩,
      ⟨fun a ha b hb hne => ?_, fun habstract hne => ?_⟩, h.size r hr⟩⟩
    · rw [List.mem_filter, beq_iff_eq] at ha hb
      exact h.apart a ha.1 b hb.1 ⟨hne, Or.inl ⟨ha.2, hb.2⟩⟩
    · obtain ⟨q, hq, rfl⟩ := hall.parents r hr p (by simp [hkind, Relational.SigKind.parents])
      exact h.child r q ⟨hr, hq, hkind⟩
    · have ha := (mem_children hr).1 ha
      have hb := (mem_children hr).1 hb
      exact h.apart a ha.listed b hb.listed ⟨hne, Or.inr ⟨r, ha, hb⟩⟩
    · obtain ⟨c, hc⟩ := List.exists_mem_of_ne_nil _ hne
      have hleaf : ¬ r.IsLeaf all := fun hleaf => hleaf c ((mem_children hr).1 hc)
      simpa only [mem_children hr] using h.abstract r hr habstract hleaf

/-! ## Declarations -/

/-- The session after the set of all integers has been declared. -/
def Session.withIntegers (s : Session) : Session :=
  { (s.declaring integersSymbol).next.asserting ⟨"integers axiom",
      integersAxiom (.plain (numbered "x" (s.fresh + 1)) .uint), none⟩ with
    onDemand := { s.onDemand with integers := true } }

/-- The set of all integers is declared where it is used for the first time. -/
theorem runs_integers_iff : Runs integers s t s' ↔ .symbol integersSymbol = t ∧
    (if s.onDemand.integers = true then s else s.withIntegers) = s' := by
  have hruns : Runs integers s (.symbol integersSymbol)
      (if s.onDemand.integers = true then s else s.withIntegers) := by
    simp only [integers, runs_bind, runs_get]
    refine ⟨s, s, ⟨rfl, rfl⟩, ?_⟩
    split
    · exact runs_pure.2 ⟨rfl, rfl⟩
    · rfl
  constructor
  · exact hruns.unique
  · rintro ⟨rfl, rfl⟩
    exact hruns

/-- The session after a signature has been declared. -/
def Session.withSignature (s : Session) (r : Relational.Signature) : Session :=
  let m := if r.ref.isInt = true then (if s.onDemand.integers = true then s else s.withIntegers)
    else s.declaring (signatureSymbol r.ref)
  { m with signatures := m.signatures ++ [(r.ref, signatureSymbol r.ref)] }

theorem runs_declareSignature_iff {r : Relational.Signature} :
    Runs (declareSignature r) s () s' ↔ s.withSignature r = s' := by
  unfold declareSignature Session.withSignature signatureSymbol
  split
  · simp only [runs_bind, runs_integers_iff, runs_modify]
    constructor
    · rintro ⟨_, _, ⟨rfl, rfl⟩, rfl⟩
      rfl
    · rintro rfl
      exact ⟨_, _, ⟨rfl, rfl⟩, rfl⟩
  · simp only [runs_bind, runs_declare, runs_modify]
    constructor
    · rintro ⟨_, _, rfl, rfl⟩
      rfl
    · rintro rfl
      exact ⟨(), _, rfl, rfl⟩

theorem runs_declareSignatures_iff : ∀ {rs : List Relational.Signature} {s : Session},
    Runs (rs.forM declareSignature) s () s' ↔ rs.foldl Session.withSignature s = s'
  | [], s => by
    change Runs (pure ()) s () s' ↔ _
    rw [runs_pure]
    exact and_iff_right rfl
  | r :: rs, s => by
    change Runs (declareSignature r >>= fun _ => rs.forM declareSignature) s () s' ↔ _
    rw [runs_bind, List.foldl_cons, ← runs_declareSignatures_iff]
    constructor
    · rintro ⟨_, _, hr, h⟩
      obtain rfl := runs_declareSignature_iff.1 hr
      exact h
    · exact fun h => ⟨(), _, runs_declareSignature_iff.2 rfl, h⟩

theorem integers_withSignature {r : Relational.Signature} :
    (s.withSignature r).onDemand.integers = true ↔
      s.onDemand.integers = true ∨ r.ref.isInt = true := by
  unfold Session.withSignature
  by_cases hint : r.ref.isInt = true <;> by_cases hdemand : s.onDemand.integers = true <;>
    simp [hint, hdemand, Session.withIntegers, Session.declaring]

/-- Declaring a signature asserts nothing, unless it is the first one of the integers. -/
theorem satisfies_withSignature {I : Interpretation E} {r : Relational.Signature} :
    I.Satisfies (added s (s.withSignature r)) ↔ (s.onDemand.integers = false →
      r.ref.isInt = true → I.function integersSymbol [] = .set (I.singles .uint)) := by
  unfold Session.withSignature
  by_cases hint : r.ref.isInt = true
  · by_cases hdemand : s.onDemand.integers = true
    · simp [hint, hdemand, added, Interpretation.Satisfies]
    · have haxiom : (integersAxiom (.plain (numbered "x" (s.fresh + 1)) .uint)).Valid I ↔
          I.function integersSymbol [] = .set (I.singles .uint) :=
        ⟨function_integersSymbol rfl, valid_integersAxiom rfl⟩
      simp [hint, hdemand, added, Interpretation.Satisfies, Session.withIntegers, haxiom]
  · simp [hint, added, Interpretation.Satisfies]

/-- Declaring some signatures asserts of the integers, if they are among them, what they are. -/
theorem satisfies_declared {I : Interpretation E} : ∀ {rs : List Relational.Signature} {s : Session},
    I.Satisfies (added s (rs.foldl Session.withSignature s)) ↔ (s.onDemand.integers = false →
      ∀ r ∈ rs, r.ref.isInt = true → I.function integersSymbol [] = .set (I.singles .uint))
  | [], s => by simp [added, Interpretation.Satisfies]
  | r :: rs, s => by
    have hfirst := progress_declareSignature (runs_declareSignature_iff.2 (Eq.refl (s.withSignature r)))
    have hrest := progress_forM progress_declareSignature (runs_declareSignatures_iff.2
      (Eq.refl (rs.foldl Session.withSignature (s.withSignature r))))
    have hadded : added s ((r :: rs).foldl Session.withSignature s) = added s (s.withSignature r) ++
        added (s.withSignature r) (rs.foldl Session.withSignature (s.withSignature r)) :=
      added_eq (by rw [List.foldl_cons, hrest.assertions, hfirst.assertions, List.append_assoc])
    rw [hadded, Interpretation.Satisfies, List.forall_mem_append]
    refine (and_congr satisfies_withSignature satisfies_declared).trans ?_
    rw [List.forall_mem_cons, ← Bool.not_eq_true, ← Bool.not_eq_true, integers_withSignature]
    tauto

/-- Once all signatures are declared each is known, whatever the order. -/
theorem knows_declared (hs : s.signatures = []) : (all.foldl Session.withSignature s).Knows all := by
  have hlookup : ∀ {rs : List Relational.Signature} {r : Relational.Signature}, r ∈ rs →
      (rs.map fun r => (r.ref, signatureSymbol r.ref)).lookup r.ref
        = some (signatureSymbol r.ref) := by
    intro rs r hr
    induction rs with
    | nil => cases hr
    | cons q rs ih =>
      rw [List.map_cons, List.lookup_cons]
      by_cases he : r.ref = q.ref
      · simp [he]
      · have hmem : r ∈ rs := (List.mem_cons.1 hr).resolve_left fun h => he (h ▸ rfl)
        rw [beq_eq_false_iff_ne.2 he]
        exact ih hmem
  have hsignatures := forM_appends Session.signatures (fun h => (runs_declareSignature h).1)
    (runs_declareSignatures_iff.2 (Eq.refl (all.foldl Session.withSignature s)))
  intro r hr
  rw [hsignatures, hs, ← List.map_eq_flatMap, List.nil_append]
  exact hlookup hr

/-! ## Signatures -/

/-- The integers are what their axiom says, as a signature. -/
theorem extent_int {I : Interpretation E} {r : Relational.SigRef} (hr : r.isInt = true) :
    extent I r = I.singles .uint ↔ I.function integersSymbol [] = .set (I.singles .uint) := by
  have hsort : (I.function integersSymbol []).HasSort I.carrier .uints :=
    I.function_sort integersSymbol [] trivial List.Forall₂.nil
  rw [extent, signatureSymbol, if_pos hr, Value.eq_set_of_hasSort hsort]
  simp

/-- Lowering signatures declares all of them and then asserts the hierarchy. -/
theorem runs_signatures_iff : Runs (signatures all) s () s' ↔
    Runs (do
      assertDisjoint (all.filter fun r => r.kind == .top)
      all.forM fun r => do
        assertParents r
        assertChildren all r
        assertMultiplicity r) (all.foldl Session.withSignature s) () s' := by
  rw [signatures, runs_bind]
  constructor
  · rintro ⟨_, _, hall, h⟩
    obtain rfl := runs_declareSignatures_iff.1 hall
    exact h
  · exact fun h => ⟨(), _, runs_declareSignatures_iff.2 rfl, h⟩

section

variable (hall : Relational.Forest all) (singletonsOnly : Bool)
  (functions : List Relational.Function)

include hall

/-- Lowering signatures goes through if the parents of each subset signature have one column. -/
theorem exists_runs_signatures_iff :
    (∃ s', Runs (signatures all) (.initial singletonsOnly functions) () s') ↔
      ∀ r ∈ all, ∀ ps, r.kind = .subset ps → ∀ p ∈ ps, p.column = r.ref.column := by
  simp only [runs_signatures_iff]
  constructor
  · rintro ⟨s', h⟩
    exact (demands_hierarchy hall).fits (knows_declared rfl) h
  · exact (demands_hierarchy hall).returns (knows_declared rfl)

/-- What is asserted about the signatures of a forest holds if and only if they make a hierarchy,
and the signature of integers, if it is listed, is the set of all integers. -/
theorem satisfies_hierarchy_iff (h : Runs (signatures all) (.initial singletonsOnly functions) () s')
    (I : Interpretation E) : I.Satisfies (added (.initial singletonsOnly functions) s') ↔
      Relational.Hierarchy (Relational.Signature.Unrelated all) (extent I) all ∧
        ∀ r ∈ all, r.kind = .int → extent I r.ref = I.singles .uint := by
  rw [runs_signatures_iff] at h
  have hdeclared := progress_forM progress_declareSignature (runs_declareSignatures_iff.2
    (Eq.refl (all.foldl Session.withSignature (.initial singletonsOnly functions))))
  have hext := (demands_hierarchy hall).grows (knows_declared rfl) h
  have hadded : added (.initial singletonsOnly functions) s' = added (.initial singletonsOnly functions)
      (all.foldl Session.withSignature (.initial singletonsOnly functions)) ++
        added (all.foldl Session.withSignature (.initial singletonsOnly functions)) s' :=
    added_eq (by rw [hext.assertions, hdeclared.assertions, List.append_assoc])
  have hint : (∀ r ∈ all, r.ref.isInt = true →
      I.function integersSymbol [] = .set (I.singles .uint)) ↔
      ∀ r ∈ all, r.kind = .int → extent I r.ref = I.singles .uint :=
    forall₂_congr fun r hr => by
      rw [← (hall.made r hr).isInt]
      exact forall_congr' fun hint => (extent_int hint).symm
  rw [hadded, Interpretation.Satisfies, List.forall_mem_append, Relational.hierarchy_iff_adjacent hall,
    and_comm]
  refine and_congr ((demands_hierarchy hall).means (knows_declared rfl) h E I) ?_
  exact satisfies_declared.trans (Iff.trans (forall_prop_of_true rfl) hint)

end

/-- **The assertions about signatures characterise the hierarchy.** For signatures that make trees,
lowering goes through if and only if the parents of each subset signature have one column, and then
the assertions hold in an interpretation if and only if the sets that the constants stand for make a
hierarchy and the signature of integers is the set of all integers. In that case an element of a
root is in exactly one leaf of its tree, if each signature of the tree that has children is
abstract. -/
theorem hierarchy_of_signatures (hall : Relational.Forest all) (singletonsOnly : Bool)
    (functions : List Relational.Function) :
    ((∃ s', Runs (signatures all) (.initial singletonsOnly functions) () s') ↔
      ∀ r ∈ all, ∀ ps, r.kind = .subset ps → ∀ p ∈ ps, p.column = r.ref.column) ∧
    ∀ s', Runs (signatures all) (.initial singletonsOnly functions) () s' →
      ∀ (E : Type) (I : Interpretation E),
        (I.Satisfies (added (.initial singletonsOnly functions) s') ↔
          Relational.Hierarchy (Relational.Signature.Unrelated all) (extent I) all ∧
            ∀ r ∈ all, r.kind = .int → extent I r.ref = I.singles .uint) ∧
        (I.Satisfies (added (.initial singletonsOnly functions) s') →
          ∀ root ∈ all, root.kind = .top →
            (∀ p ∈ all, Relational.Signature.Below all p root → ¬ p.IsLeaf all →
              p.isAbstract = true) →
            ∀ t ∈ extent I root.ref, ∃! l, l ∈ all ∧ Relational.Signature.Below all l root ∧
              l.IsLeaf all ∧ t ∈ extent I l.ref) := by
  refine ⟨exists_runs_signatures_iff hall singletonsOnly functions, fun s' h E I => ?_⟩
  have hiff := satisfies_hierarchy_iff hall singletonsOnly functions h I
  exact ⟨hiff, fun hI root hroot htop habstract t ht =>
    (hiff.1 hI).1.exists_unique_leaf hall hroot htop habstract ht⟩

/-- The abstract signature of all shapes. -/
def shape : Relational.Signature := ⟨⟨0, "Shape", .atom, false⟩, .top, true, none, {}⟩

/-- All shapes are round or square, at most one is round, and exactly one is red. A child is listed
before its parent. -/
def shapes : List Relational.Signature :=
  [⟨⟨1, "Round", .atom, false⟩, .extends shape.ref, false, some .lone, {}⟩, shape,
    ⟨⟨2, "Square", .atom, false⟩, .extends shape.ref, false, none, {}⟩,
    ⟨⟨3, "Red", .atom, false⟩, .subset [⟨1, "Round", .atom, false⟩, ⟨2, "Square", .atom, false⟩],
      false, some .one, {}⟩]

theorem forest_shapes : Relational.Forest shapes where
  distinct := by decide
  made := List.forall_iff_forall_mem.1 ⟨rfl, rfl, rfl, rfl⟩
  parents := by simp [shapes, shape, Relational.SigKind.parents]
  rooted := by
    intro s hs htree
    have hshape : shape ∈ shapes := by simp [shapes]
    refine ⟨shape, hshape, rfl, ?_⟩
    rcases htree with htop | ⟨parent, hparent⟩
    · simp only [shapes, List.mem_cons, List.not_mem_nil, or_false] at hs
      rcases hs with rfl | rfl | rfl | rfl <;> first | exact .refl | simp at htop
    · refine .single ⟨hs, hshape, ?_⟩
      simp only [shapes, List.mem_cons, List.not_mem_nil, or_false] at hs
      rcases hs with rfl | rfl | rfl | rfl <;> first | rfl | simp [shape] at hparent

/-- Each shape is in exactly one of the two leaves, whatever the red one is. -/
theorem hierarchy_of_signatures_shapes :
    ∃ s', Runs (signatures shapes) (.initial true []) () s' ∧
      ∀ (E : Type) (I : Interpretation E), I.Satisfies (added (.initial true []) s') →
        ∀ t ∈ extent I shape.ref, ∃! l, l ∈ shapes ∧ Relational.Signature.Below shapes l shape ∧
          l.IsLeaf shapes ∧ t ∈ extent I l.ref := by
  obtain ⟨hreturns, hmeans⟩ := hierarchy_of_signatures forest_shapes true []
  obtain ⟨s', h⟩ := hreturns.2 (by simp [shapes, shape])
  refine ⟨s', h, fun E I hI => (hmeans s' h E I).2 hI shape (by simp [shapes]) rfl ?_⟩
  intro p hp _ hleaf
  simp only [shapes, List.mem_cons, List.not_mem_nil, or_false] at hp
  rcases hp with rfl | rfl | rfl | rfl
  case inr.inl => rfl
  all_goals
    refine absurd (fun c hc => ?_) hleaf
    have hlisted := hc.listed
    have hkind := hc.kind
    simp only [shapes, List.mem_cons, List.not_mem_nil, or_false] at hlisted
    rcases hlisted with rfl | rfl | rfl | rfl <;> simp [shape] at hkind

/-- The signatures of integers may be listed under two labels. -/
def twoInts : List Relational.Signature :=
  [⟨⟨0, "Int", .int, true⟩, .int, false, none, {}⟩,
    ⟨⟨1, "Integer", .int, true⟩, .int, false, none, {}⟩]

theorem forest_twoInts : Relational.Forest twoInts where
  distinct := by decide
  made := List.forall_iff_forall_mem.1 ⟨rfl, rfl⟩
  parents := by simp [twoInts, Relational.SigKind.parents]
  rooted := by simp [twoInts, Relational.Signature.InTree]

/-- The set of all integers where one atom stands for an integer. -/
def oneInteger : Set (Tuple Unit) := {[.element ()]}

/-- The interpretation in which every constant is one set. -/
noncomputable def uniformModel (r : Set (Tuple Unit)) : Interpretation Unit := .ofTable () fun _ _ => .set r

theorem singles_uniformModel (r : Set (Tuple Unit)) : (uniformModel r).singles .uint = oneInteger := by
  ext t
  constructor
  · rintro ⟨e, _, rfl⟩
    rfl
  · rintro rfl
    exact ⟨(), Set.mem_univ (), rfl⟩

theorem extent_uniformModel {r : Set (Tuple Unit)} (hr : r ⊆ oneInteger) :
    extent (uniformModel r) ⟨0, "Int", .int, true⟩ = r ∧
      extent (uniformModel r) ⟨1, "Integer", .int, true⟩ = r := by
  have hfunction : (uniformModel r).function integersSymbol [] = .set r :=
    Interpretation.function_ofTable () _ integersSymbol [] fun t ht => by
      obtain rfl := hr ht
      exact .cons (Set.mem_univ ()) .nil
  constructor <;> simp [extent, signatureSymbol, hfunction]

theorem not_child_twoInts (c p : Relational.Signature) : ¬ Relational.Signature.Child twoInts c p := by
  intro hc
  have hlisted := hc.listed
  have hkind := hc.kind
  simp only [twoInts, List.mem_cons, List.not_mem_nil, or_false] at hlisted
  rcases hlisted with rfl | rfl <;> simp at hkind

/-- Where nothing is said of subsets, children or sizes, all that is left to demand is disjointness.
-/
theorem hierarchy_twoInts {I : Interpretation E}
    {Apart : Relational.Signature → Relational.Signature → Prop} (happart : ∀ a ∈ twoInts,
      ∀ b ∈ twoInts, Apart a b → extent I a.ref ∩ extent I b.ref = ∅) :
    Relational.Hierarchy Apart (extent I) twoInts where
  child c p hc := absurd hc (not_child_twoInts c p)
  apart := happart
  abstract := by simp [twoInts]
  subset := by simp [twoInts]
  size := by simp [twoInts]

/-- Are these two signatures, neither of them a subset signature, of which none is below the other?
The signatures of integers count, although they are not in trees. -/
def Incomparable (all : List Relational.Signature) (a b : Relational.Signature) : Prop :=
  (∀ ps, a.kind ≠ .subset ps) ∧ (∀ ps, b.kind ≠ .subset ps) ∧
    ¬ Relational.Signature.Below all a b ∧ ¬ Relational.Signature.Below all b a

theorem incomparable_twoInts : Incomparable twoInts ⟨⟨0, "Int", .int, true⟩, .int, false, none, {}⟩
    ⟨⟨1, "Integer", .int, true⟩, .int, false, none, {}⟩ := by
  have hbelow : ∀ a b, Relational.Signature.Below twoInts a b → a = b := fun a b h => by
    rcases Relation.ReflTransGen.cases_head h with rfl | ⟨p, hp, _⟩
    · rfl
    · exact absurd hp (not_child_twoInts a p)
  refine ⟨by simp, by simp, fun h => ?_, fun h => ?_⟩ <;> simpa using hbelow _ _ h

/-- The signatures of integers are one set, the set of all integers. Incomparable ones need not be
disjoint for the assertions to hold, and if they are the assertions need not hold. -/
theorem not_hierarchy_twoInts : ∃ s', Runs (signatures twoInts) (.initial true []) () s' ∧
    (∃ I : Interpretation Unit, I.Satisfies (added (.initial true []) s') ∧
      ¬ Relational.Hierarchy (Incomparable twoInts) (extent I) twoInts) ∧
    ∃ I : Interpretation Unit, Relational.Hierarchy (Incomparable twoInts) (extent I) twoInts ∧
      ¬ I.Satisfies (added (.initial true []) s') := by
  obtain ⟨s', h⟩ := (exists_runs_signatures_iff forest_twoInts true []).2 (by simp [twoInts])
  have hiff := satisfies_hierarchy_iff forest_twoInts true [] h (E := Unit)
  obtain ⟨hint, hinteger⟩ := extent_uniformModel (Set.Subset.refl oneInteger)
  obtain ⟨hint', hinteger'⟩ := extent_uniformModel (Set.empty_subset oneInteger)
  refine ⟨s', h, ⟨uniformModel oneInteger, ?_, fun hhierarchy => ?_⟩, uniformModel ∅,
    hierarchy_twoInts ?_, fun hI => ?_⟩
  · refine (hiff _).2 ⟨hierarchy_twoInts fun a ha b hb hab => ?_, ?_⟩
    · simp only [twoInts, List.mem_cons, List.not_mem_nil, or_false] at ha
      have htree := hab.left
      rcases ha with rfl | rfl <;> simp [Relational.Signature.InTree] at htree
    · simp [twoInts, singles_uniformModel, hint, hinteger]
  · have hdisjoint := hhierarchy.apart _ (by simp [twoInts]) _ (by simp [twoInts]) incomparable_twoInts
    simp only [hint, hinteger, Set.inter_self] at hdisjoint
    exact Set.singleton_ne_empty _ hdisjoint
  · simp [twoInts, hint', hinteger']
  · have hsets := ((hiff _).1 hI).2
    simp [twoInts, singles_uniformModel, hint', hinteger', oneInteger, eq_comm] at hsets

end RelSmt.Lowering
