import RelSmt.Proofs.Lowering.Binding
import RelSmt.Proofs.Lowering.Integer

/-!
# Axioms of operations on integers

An operation on integers takes as parameters the variables of enclosing binders that its operands
mention, along with those that the constraints of such variables lead to. Its axioms are stated over
parameters too, with a fresh element in place of each set.

What is free in an axiom is read off this. Operands and arguments mention parameters only, so an
axiom has a free variable exactly where the constraint of a parameter mentions a variable that is no
parameter (`free_axioms`).
-/

namespace RelSmt.Lowering

variable {E : Type} {s s' m : Session} {env : Environment} {V : Set Variable} {t u : Term}

/-! ## Steps that add names, functions and assertions only -/

/-- The second session is the first with more names, more functions and these assertions. -/
structure Adds (s s' : Session) (as : List Assertion) : Prop where
  fresh : s.fresh ≤ s'.fresh
  singletonsOnly : s'.singletonsOnly = s.singletonsOnly
  signatures : s'.signatures = s.signatures
  fields : s'.fields = s.fields
  functions : s'.functions = s.functions
  onDemand : s'.onDemand = s.onDemand
  assertions : s'.program.assertions = s.program.assertions ++ as

theorem Adds.refl (s : Session) : Adds s s [] where
  fresh := Nat.le_refl _
  singletonsOnly := rfl
  signatures := rfl
  fields := rfl
  functions := rfl
  onDemand := rfl
  assertions := (List.append_nil _).symm

theorem Adds.trans {as bs : List Assertion} (h : Adds s m as) (h' : Adds m s' bs) :
    Adds s s' (as ++ bs) where
  fresh := Nat.le_trans h.fresh h'.fresh
  singletonsOnly := h'.singletonsOnly.trans h.singletonsOnly
  signatures := h'.signatures.trans h.signatures
  fields := h'.fields.trans h.fields
  functions := h'.functions.trans h.functions
  onDemand := h'.onDemand.trans h.onDemand
  assertions := by rw [h'.assertions, h.assertions, List.append_assoc]

theorem adds_next (s : Session) : Adds s s.next [] where
  fresh := Nat.le_succ _
  singletonsOnly := rfl
  signatures := rfl
  fields := rfl
  functions := rfl
  onDemand := rfl
  assertions := (List.append_nil _).symm

theorem adds_declaring (s : Session) (f : FunctionSymbol) : Adds s (s.declaring f) [] where
  fresh := Nat.le_refl _
  singletonsOnly := rfl
  signatures := rfl
  fields := rfl
  functions := rfl
  onDemand := rfl
  assertions := (List.append_nil _).symm

theorem adds_asserting (s : Session) (a : Assertion) : Adds s (s.asserting a) [a] where
  fresh := Nat.le_refl _
  singletonsOnly := rfl
  signatures := rfl
  fields := rfl
  functions := rfl
  onDemand := rfl
  assertions := rfl

theorem Adds.added {as : List Assertion} (h : Adds s s' as) : added s s' = as :=
  added_eq h.assertions

/-- Such steps extend a session by assertions that are accounted for. -/
theorem Adds.extends {as : List Assertion} (h : Adds s s' as)
    (has : ∀ a ∈ as, a.formula.freeOccurrences = [] ∨ IntegerAxiom a) : Extends s s' where
  fresh := h.fresh
  singletonsOnly := h.singletonsOnly
  signatures := h.signatures
  fields := h.fields
  functions := h.functions
  onDemand := by rw [h.onDemand]; exact .refl _
  assertions := by rw [h.added]; exact h.assertions
  accounted := by rw [h.added]; exact has
  supported I hI _ := by rw [h.onDemand]; exact hI

/-! ## Parameters -/

theorem subset_enclosingFrom (env : Environment) (found vs : List Variable) :
    ∀ v ∈ found, v ∈ enclosingFrom env found vs := by
  induction found, vs using enclosingFrom.induct env with
  | case1 found =>
    rw [enclosingFrom]
    exact fun v hv => hv
  | case2 found v vs hskip ih =>
    rw [enclosingFrom, if_pos hskip]
    exact ih
  | case3 found v vs hskip ih =>
    rw [enclosingFrom, if_neg hskip]
    exact fun w hw => ih w (List.mem_append_left _ hw)

/-- What is found belongs to enclosing binders, and is a candidate or reached from one. -/
theorem mem_enclosingFrom {p : Variable → Prop} (hp : ∀ u, p u → ∀ v ∈ constraintVariables u, p v)
    {found vs : List Variable} (hvs : ∀ v ∈ vs, p v) :
    ∀ v ∈ enclosingFrom env found vs, v ∈ found ∨ (env.mentions v = true ∧ p v) := by
  induction found, vs using enclosingFrom.induct env with
  | case1 found =>
    rw [enclosingFrom]
    exact fun v hv => Or.inl hv
  | case2 found v vs hskip ih =>
    rw [enclosingFrom, if_pos hskip]
    exact ih fun w hw => hvs w (List.mem_cons_of_mem _ hw)
  | case3 found v vs hskip ih =>
    rw [enclosingFrom, if_neg hskip]
    intro w hw
    have hv := hvs v List.mem_cons_self
    have hnext : ∀ u ∈ vs ++ constraintVariables v, p u := by
      intro u hu
      rcases List.mem_append.1 hu with hu | hu
      · exact hvs u (List.mem_cons_of_mem _ hu)
      · exact hp v hv u hu
    rcases ih hnext w hw with hw | hw
    · rcases List.mem_append.1 hw with hw | hw
      · exact Or.inl hw
      · rw [List.mem_singleton.1 hw]
        exact Or.inr ⟨by simp at hskip; exact hskip.2, hv⟩
    · exact Or.inr hw

/-- No variable is found twice. -/
theorem pairwise_enclosingFrom {found vs : List Variable}
    (hfound : found.Pairwise fun u v => (u == v) = false) :
    (enclosingFrom env found vs).Pairwise fun u v => (u == v) = false := by
  induction found, vs using enclosingFrom.induct env with
  | case1 found =>
    rw [enclosingFrom]
    exact hfound
  | case2 found v vs hskip ih =>
    rw [enclosingFrom, if_pos hskip]
    exact ih hfound
  | case3 found v vs hskip ih =>
    rw [enclosingFrom, if_neg hskip]
    refine ih (List.pairwise_append.2 ⟨hfound, by simp, fun u hu w hw => ?_⟩)
    rw [List.mem_singleton.1 hw, BEq.comm]
    simp only [Bool.or_eq_true, not_or, List.contains_eq_any_beq, List.any_eq_true,
      not_exists, not_and] at hskip
    simpa using hskip.1 u hu

/-- Every candidate of an enclosing binder is found, and so is what found variables lead to. -/
theorem exists_mem_enclosingFrom {found vs : List Variable}
    (hfound : ∀ u ∈ found, ∀ v ∈ constraintVariables u, env.mentions v = true →
      v ∈ vs ∨ ∃ w ∈ found, (v == w) = true) :
    ∀ v, (v ∈ vs ∨ ∃ u ∈ enclosingFrom env found vs, v ∈ constraintVariables u) →
      env.mentions v = true → ∃ w ∈ enclosingFrom env found vs, (v == w) = true := by
  induction found, vs using enclosingFrom.induct env with
  | case1 found =>
    rw [enclosingFrom]
    rintro v (hv | ⟨u, hu, hv⟩) hm
    · simp at hv
    · exact (hfound u hu v hv hm).resolve_left (by simp)
  | case2 found v vs hskip ih =>
    rw [enclosingFrom, if_pos hskip]
    -- a candidate that is passed over is known already
    have hknown : env.mentions v = true → ∃ w ∈ found, (v == w) = true := by
      intro hm
      simpa [hm, List.contains_eq_any_beq] using hskip
    have hfound' : ∀ u ∈ found, ∀ w ∈ constraintVariables u, env.mentions w = true →
        w ∈ vs ∨ ∃ x ∈ found, (w == x) = true := by
      intro u hu w hw hm
      rcases hfound u hu w hw hm with hw' | hw'
      · rcases List.mem_cons.1 hw' with rfl | hw'
        · exact Or.inr (hknown hm)
        · exact Or.inl hw'
      · exact Or.inr hw'
    rintro w (hw | hw) hm
    · rcases List.mem_cons.1 hw with rfl | hw
      · obtain ⟨x, hx, he⟩ := hknown hm
        exact ⟨x, subset_enclosingFrom env found vs x hx, he⟩
      · exact ih hfound' w (Or.inl hw) hm
    · exact ih hfound' w (Or.inr hw) hm
  | case3 found v vs hskip ih =>
    rw [enclosingFrom, if_neg hskip]
    have hfound' : ∀ u ∈ found ++ [v], ∀ w ∈ constraintVariables u, env.mentions w = true →
        w ∈ vs ++ constraintVariables v ∨ ∃ x ∈ found ++ [v], (w == x) = true := by
      intro u hu w hw hm
      rcases List.mem_append.1 hu with hu | hu
      · rcases hfound u hu w hw hm with hw' | ⟨x, hx, he⟩
        · rcases List.mem_cons.1 hw' with rfl | hw'
          · exact Or.inr ⟨w, List.mem_append_right _ List.mem_cons_self, BEq.rfl⟩
          · exact Or.inl (List.mem_append_left _ hw')
        · exact Or.inr ⟨x, List.mem_append_left _ hx, he⟩
      · rw [List.mem_singleton.1 hu] at hw
        exact Or.inl (List.mem_append_right _ hw)
    rintro w (hw | hw) hm
    · rcases List.mem_cons.1 hw with rfl | hw
      · exact ⟨w, subset_enclosingFrom env _ _ w (List.mem_append_right _ List.mem_cons_self),
          BEq.rfl⟩
      · exact ih hfound' w (Or.inl (List.mem_append_left _ hw)) hm
    · exact ih hfound' w (Or.inr hw) hm

/-! ## Narrowing -/

namespace Operand

/-- An operand of the same form with another term. -/
def withTerm (o : Operand) (t : Term) : Operand :=
  match o with
  | .value _ => .value t
  | .relation _ => .relation t

@[simp] theorem term_withTerm (o : Operand) (t : Term) : (o.withTerm t).term = t := by
  cases o <;> rfl

@[simp] theorem withTerm_term (o : Operand) : o.withTerm o.term = o := by
  cases o <;> rfl

@[simp] theorem withTerm_withTerm (o : Operand) (t u : Term) :
    (o.withTerm t).withTerm u = o.withTerm u := by
  cases o <;> rfl

theorem replace_eq_ok {o o' : Operand} {old new : Term} :
    o.replace old new = .ok o' ↔
      o.term.replace old new = .ok o'.term ∧ o' = o.withTerm o'.term := by
  cases o <;> cases o' <;> simp only [Operand.replace, Checked.bind_eq_ok, Checked.pure_eq_ok] <;>
    simp [Operand.term, withTerm]

end Operand

/-- All the terms that narrowing changes. -/
def Narrowed.terms (n : Narrowed) : List Term := n.a.term :: n.b.term :: n.constraints

/-- The axioms range over one more variable, which is an argument as it is. -/
def Narrowed.keeping (n : Narrowed) (p : Variable) : Narrowed :=
  ⟨n.a, n.b, n.constraints, n.vars ++ [p], n.arguments ++ [p.term]⟩

/-- One element stands for a set in every term, and its singleton is the argument. -/
structure Narrowed.ToElement (n m : Narrowed) (p e : Variable) : Prop where
  sort : p.sort = .set e.sort
  tuple : e.sort.isTuple = true
  terms : List.Forall₂ (fun t t' =>
    t.replace (.variable p) (.unary .singleton (.variable e)) = .ok t') n.terms m.terms
  left : m.a = n.a.withTerm m.a.term
  right : m.b = n.b.withTerm m.b.term
  binders : m.vars = n.vars ++ [e]
  arguments : m.arguments = n.arguments ++ [.unary .singleton (.variable e)]

/-- How parameters are taken into the axioms one by one: as they are, or with a fresh element in
place of a set. -/
inductive Narrows : Session → Narrowed → List Variable → Narrowed → Session → Prop where
  | nil {s : Session} {n : Narrowed} : Narrows s n [] n s
  | keep {s s' : Session} {n n' : Narrowed} {p : Variable} {ps : List Variable}
      (hp : p.sort.isSet = false) (hrest : Narrows s (n.keeping p) ps n' s') :
      Narrows s n (p :: ps) n' s'
  | element {s s' : Session} {n m n' : Narrowed} {p e : Variable} {ps : List Variable}
      (he : e = .plain (numbered "e" (s.fresh + 1)) e.sort) (hstep : n.ToElement m p e)
      (hrest : Narrows s.next m ps n' s') : Narrows s n (p :: ps) n' s'

theorem narrows_foldlM : ∀ {ps : List Variable} {n n' : Narrowed} {s s' : Session},
    Runs (ps.foldlM Narrowed.add n) s n' s' → Narrows s n ps n' s'
  | [], n, n', s, s', h => by
    obtain ⟨rfl, rfl⟩ := runs_pure.1 h
    exact .nil
  | p :: ps, n, n', s, s', h => by
    rw [List.foldlM_cons, runs_bind] at h
    obtain ⟨k, m, hadd, hrest⟩ := h
    have ih := narrows_foldlM hrest
    unfold Narrowed.add at hadd
    split at hadd
    · rename_i hp
      obtain ⟨rfl, rfl⟩ := runs_pure.1 hadd
      exact .keep (by cases hs : p.sort <;> simp_all [SmtSort.element?, SmtSort.isSet]) ih
    · rename_i sort hp
      simp only [runs_bind, runs_freshVariable, runs_lift, runs_mapM_lift, runs_pure,
        Term.single_eq_ok, Operand.replace_eq_ok] at hadd
      obtain ⟨_, _, ⟨rfl, rfl⟩, _, _, ⟨⟨hsort, rfl⟩, rfl⟩, a, _, ⟨⟨ha, ha'⟩, rfl⟩, b, _,
        ⟨⟨hb, hb'⟩, rfl⟩, cs, _, ⟨hcs, rfl⟩, rfl, rfl⟩ := hadd
      have hstep : n.ToElement ⟨a, b, cs, n.vars ++ [.plain (numbered "e" (s.fresh + 1)) sort],
          n.arguments ++ [.unary .singleton (.variable (.plain (numbered "e" (s.fresh + 1)) sort))]⟩ p
          (.plain (numbered "e" (s.fresh + 1)) sort) :=
        ⟨SmtSort.element?_eq_some.1 hp, hsort, .cons ha (.cons hb hcs), ha', hb', rfl, rfl⟩
      exact .element rfl hstep ih

section Narrows

variable {n n' : Narrowed} {ps : List Variable}

theorem Narrows.adds (h : Narrows s n ps n' s') : Adds s s' [] := by
  induction h with
  | nil => exact .refl _
  | keep _ _ ih => exact ih
  | element _ _ _ ih => exact (adds_next _).trans ih

theorem Narrows.operands (h : Narrows s n ps n' s') :
    n'.a = n.a.withTerm n'.a.term ∧ n'.b = n.b.withTerm n'.b.term := by
  induction h with
  | nil => simp
  | keep _ _ ih => exact ih
  | element _ hstep _ ih =>
    rw [hstep.left, hstep.right] at ih
    simpa using ih

/-- The variables of the axioms are the parameters that are no sets, and fresh elements. -/
theorem Narrows.binders (h : Narrows s n ps n' s') :
    ∃ vs, n'.vars = n.vars ++ vs ∧
      List.Forall₂ (fun p v => (p.sort.isSet = false ∧ v = p) ∨ (p.sort = .set v.sort ∧
        ∃ k, s.fresh < k ∧ k ≤ s'.fresh ∧ v = .plain (numbered "e" k) v.sort)) ps vs := by
  induction h with
  | nil => exact ⟨[], by simp, .nil⟩
  | @keep s s' n n' p ps hp _ ih =>
    obtain ⟨vs, hvs, hall⟩ := ih
    exact ⟨p :: vs, by simp [hvs, Narrowed.keeping], .cons (Or.inl ⟨hp, rfl⟩) hall⟩
  | @element s s' n m n' p e ps he hstep hrest ih =>
    obtain ⟨vs, hvs, hall⟩ := ih
    refine ⟨e :: vs, by simp [hvs, hstep.binders], .cons (Or.inr ⟨hstep.sort, ?_⟩) (hall.imp ?_)⟩
    · exact ⟨s.fresh + 1, Nat.lt_succ_self _, hrest.adds.fresh, he⟩
    · rintro q v (hq | ⟨hq, k, hk, hk', hv⟩)
      · exact Or.inl hq
      · exact Or.inr ⟨hq, k, Nat.lt_of_succ_lt hk, hk', hv⟩

theorem forall₂_comp {α β γ : Type} {R : α → β → Prop} {S : β → γ → Prop} {T : α → γ → Prop}
    (hT : ∀ a b c, R a b → S b c → T a c) : ∀ {as : List α} {bs : List β} {cs : List γ},
    List.Forall₂ R as bs → List.Forall₂ S bs cs → List.Forall₂ T as cs
  | [], [], [], .nil, .nil => .nil
  | _ :: _, _ :: _, _ :: _, .cons h hs, .cons h' hs' =>
    .cons (hT _ _ _ h h') (forall₂_comp hT hs hs')

/-- Narrowing leaves variables as they are, apart from set parameters, for which elements stand. -/
theorem Narrows.free (h : Narrows s n ps n' s') :
    List.Forall₂ (fun t t' => ∀ w ∈ t'.freeOccurrences,
      (w ∈ t.freeOccurrences ∧ ∀ p ∈ ps, p.sort.isSet = true → (w == p) = false) ∨
        w ∈ n'.vars) n.terms n'.terms := by
  induction h with
  | nil => exact List.forall₂_same.2 fun t _ w hw => Or.inl ⟨hw, by simp⟩
  | @keep s s' n n' p ps hp _ ih =>
    refine ih.imp fun t t' ht w hw => (ht w hw).imp_left fun ⟨hw, hps⟩ => ⟨hw, fun q hq hset => ?_⟩
    rcases List.mem_cons.1 hq with rfl | hq
    · rw [hp] at hset
      exact absurd hset (by simp)
    · exact hps q hq hset
  | @element s s' n m n' p e ps he hstep hrest ih =>
    obtain ⟨vs, hvs, _⟩ := hrest.binders
    refine forall₂_comp (fun t u t' hu ht w hw => ?_) hstep.terms ih
    rcases ht w hw with ⟨hw, hps⟩ | hw
    · rcases Term.mem_freeOccurrences_replace hu hw with ⟨hw, hp⟩ | hw
      · refine Or.inl ⟨hw, fun q hq hset => ?_⟩
        rcases List.mem_cons.1 hq with rfl | hq
        · exact hp
        · exact hps q hq hset
      · obtain rfl : w = e := by simpa [Term.freeOccurrences] using hw
        exact Or.inr (by simp [hvs, hstep.binders])
    · exact Or.inr hw

/-- A variable that is no parameter is left as it is. -/
theorem Narrows.free_of_ne (h : Narrows s n ps n' s') {w : Variable}
    (hw : ∀ p ∈ ps, (w == p) = false) : List.Forall₂ (fun t t' =>
      w ∈ t.freeOccurrences → w ∈ t'.freeOccurrences) n.terms n'.terms := by
  induction h with
  | nil => exact List.forall₂_same.2 fun _ _ h => h
  | keep _ _ ih => exact ih fun q hq => hw q (List.mem_cons_of_mem _ hq)
  | element _ hstep _ ih =>
    refine forall₂_comp (fun t u t' hu ht hmem => ht ?_) hstep.terms
      (ih fun q hq => hw q (List.mem_cons_of_mem _ hq))
    exact Term.mem_freeOccurrences_replace_of_ne (hw _ List.mem_cons_self) hu hmem

/-- What the function is applied to in the axioms mentions their variables. -/
theorem Narrows.free_arguments (h : Narrows s n ps n' s')
    (hn : ∀ t ∈ n.arguments, ∀ w ∈ t.freeOccurrences, w ∈ n.vars) :
    ∀ t ∈ n'.arguments, ∀ w ∈ t.freeOccurrences, w ∈ n'.vars := by
  induction h with
  | nil => exact hn
  | @keep s s' n n' p ps hp _ ih =>
    refine ih fun t ht w hw => ?_
    simp only [Narrowed.keeping, List.mem_append, List.mem_singleton] at ht ⊢
    rcases ht with ht | rfl
    · exact Or.inl (hn t ht w hw)
    · exact Or.inr (by simpa [Variable.term, Term.freeOccurrences] using hw)
  | @element s s' n m n' p e ps he hstep hrest ih =>
    refine ih fun t ht w hw => ?_
    rw [hstep.arguments, List.mem_append, List.mem_singleton] at ht
    rw [hstep.binders, List.mem_append, List.mem_singleton]
    rcases ht with ht | rfl
    · exact Or.inl (hn t ht w hw)
    · exact Or.inr (by simpa [Term.freeOccurrences] using hw)

end Narrows

/-! ## The shape of the axioms -/

/-- A closure over some variables, which over none is nothing. -/
theorem mem_free_closure {q : Quantifier} {vs : List Variable}
    (h : (if vs.isEmpty then .ok t else Term.mkQuantified q vs t) = .ok u) {w : Variable} :
    w ∈ u.freeOccurrences ↔ w ∈ t.freeOccurrences ∧ ∀ v ∈ vs, w.name ≠ v.name := by
  split at h
  · rename_i hempty
    rw [List.isEmpty_iff] at hempty
    obtain rfl := Except.ok.inj h
    simp [hempty]
  · obtain ⟨_, _, rfl⟩ := Term.mkQuantified_eq_ok.1 h
    exact Term.mem_freeOccurrences_quantified

theorem mem_free_allOver {vs : List Variable} (h : allOver vs t = .ok u) {w : Variable} :
    w ∈ u.freeOccurrences ↔ w ∈ t.freeOccurrences ∧ ∀ v ∈ vs, w.name ≠ v.name :=
  mem_free_closure (q := .all) h

theorem mem_free_exOver {vs : List Variable} (h : exOver vs t = .ok u) {w : Variable} :
    w ∈ u.freeOccurrences ↔ w ∈ t.freeOccurrences ∧ ∀ v ∈ vs, w.name ≠ v.name :=
  mem_free_closure (q := .ex) h

/-- How an operand is read in an axiom: as it is, or by a fresh element under a condition. -/
theorem runs_operandValue {condition : Term → Term → Checked Term} {o : Operand} {a : Value}
    (h : Runs (operandValue condition o) s a s') :
    (o = .value o.term ∧ a = { term := o.term } ∧ s' = s) ∨
    (o = .relation o.term ∧ (∃ x c, x = Variable.plain (numbered "x" (s.fresh + 1)) .uint ∧
      condition (.nary .mkTuple [.variable x]) o.term = .ok c ∧
      a = ⟨.call intValue [.variable x], [x], [c]⟩) ∧ s' = s.next) := by
  cases o with
  | value t =>
    obtain ⟨rfl, rfl⟩ := runs_pure.1 h
    exact Or.inl ⟨rfl, rfl, rfl⟩
  | relation r =>
    simp only [operandValue, runs_bind, runs_freshVariable, runs_lift, runs_pure, valueOf_eq_ok,
      Term.tuple_eq_ok] at h
    obtain ⟨_, _, ⟨rfl, rfl⟩, _, _, ⟨⟨_, _, rfl⟩, rfl⟩, c, _, ⟨hc, rfl⟩, _, _, ⟨⟨_, rfl⟩, rfl⟩, rfl,
      rfl⟩ := h
    exact Or.inr ⟨rfl, ⟨_, c, rfl, hc, rfl⟩, rfl⟩

/-- Does a condition mention what it is about and nothing else? -/
def MentionsOperands (condition : Term → Term → Checked Term) : Prop :=
  ∀ {t r c : Term}, condition t r = .ok c → ∀ x ∈ c.freeOccurrences,
    x ∈ t.freeOccurrences ∨ x ∈ r.freeOccurrences

theorem mentionsOperands_isIn : MentionsOperands Term.isIn :=
  fun h _ hx => mem_free_binary h hx

theorem isAllOf_eq_ok {r : Term} : isAllOf t r = .ok u ↔
    t.sort.isTuple = true ∧ r.sort = .set t.sort ∧ .binary .eq r (.unary .singleton t) = u := by
  simp only [isAllOf, Checked.bind_eq_ok, Term.single_eq_ok, Term.eqTo_eq_ok]
  constructor
  · rintro ⟨_, ⟨ht, rfl⟩, hsort, rfl⟩
    exact ⟨ht, hsort, rfl⟩
  · rintro ⟨ht, hsort, rfl⟩
    exact ⟨_, ⟨ht, rfl⟩, hsort, rfl⟩

theorem mentionsOperands_isAllOf : MentionsOperands isAllOf := by
  intro t r c h x hx
  obtain ⟨_, _, rfl⟩ := isAllOf_eq_ok.1 h
  simp only [Term.freeOccurrences, List.mem_append] at hx
  exact hx.symm

theorem adds_operandValue {condition : Term → Term → Checked Term} {o : Operand} {a : Value}
    (h : Runs (operandValue condition o) s a s') : Adds s s' [] := by
  rcases runs_operandValue h with ⟨_, _, rfl⟩ | ⟨_, _, rfl⟩
  · exact .refl _
  · exact adds_next s

theorem readsFrom_operandValue {condition : Term → Term → Checked Term} {o : Operand} {a : Value}
    (hcond : MentionsOperands condition) (h : Runs (operandValue condition o) s a s') :
    ReadsFrom s o.term a s' := by
  have hgrows := (adds_operandValue h).extends (by simp)
  rcases runs_operandValue h with ⟨_, rfl, rfl⟩ | ⟨_, ⟨x, c, rfl, hc, rfl⟩, rfl⟩
  · exact ⟨hgrows, by simp, by simp, by simp⟩
  · refine ⟨hgrows, by simp, ?_, ?_⟩
    · intro y hy
      simp only [Term.freeOccurrences, Term.freeOccurrencesList, List.append_nil,
        List.mem_singleton, exists_eq_left] at hy
      rcases hy with rfl | hy
      · exact Or.inr List.mem_cons_self
      · exact (hcond hc y hy).symm.imp_right fun hy => by
          simpa [Term.freeOccurrences, Term.freeOccurrencesList] using hy
    · intro y hy
      obtain rfl := List.mem_singleton.1 hy
      exact ⟨s.fresh + 1, Nat.lt_succ_self _, Nat.le_refl _, rfl⟩

/-- The formula that the value of an element is the result on two values. -/
def hasResult (op : Arithmetic) (x y : Value) (z : Variable) : Term :=
  .binary .eq (.binary (.arithmetic op) x.term y.term) (.call intValue [.variable z])

theorem resultIs_eq_ok {op : Arithmetic} {x y : Value} {z : Variable} :
    resultIs op x y (.call intValue [.variable z]) = .ok u → hasResult op x y z = u := by
  simp only [resultIs, Checked.bind_eq_ok, Term.mkBinary_eq_ok, Term.eqTo_eq_ok]
  rintro ⟨_, ⟨_, rfl⟩, _, rfl⟩
  rfl

/-- The formula that a relation holds an element. -/
def holdsElement (result : Term) (z : Variable) : Term :=
  .binary .member (.nary .mkTuple [.variable z]) result

theorem runs_soundAxiom {op : Arithmetic} {n : Narrowed} {guard result : Term}
    (h : Runs (soundAxiom op n guard result) s u s') :
    ∃ z x y body witness m, z = Variable.plain (numbered "z" (s.fresh + 1)) .uint ∧
      Runs (operandValue Term.isIn n.a) s.next x m ∧ Runs (operandValue Term.isIn n.b) m y s' ∧
      Term.allOf (x.conditions ++ y.conditions ++ [hasResult op x y z]) = .ok body ∧
      exOver (x.vars ++ y.vars) body = .ok witness ∧
      allOver (n.vars ++ [z]) (.binary (.connective .implies)
        (.binary (.connective .and) guard (holdsElement result z)) witness) = .ok u := by
  simp only [soundAxiom, runs_bind, runs_freshVariable, runs_lift, valueOf_eq_ok, Term.tuple_eq_ok,
    Term.isIn_eq_ok, Term.conj, Term.imp, Term.connective_eq_ok] at h
  obtain ⟨z, _, ⟨rfl, rfl⟩, _, _, ⟨⟨_, rfl⟩, rfl⟩, _, _, ⟨⟨_, _, rfl⟩, rfl⟩, _, _,
    ⟨⟨_, rfl⟩, rfl⟩, x, m, hx, h⟩ := h
  obtain ⟨y, _, hy, _, _, ⟨hval, rfl⟩, body, _, ⟨hbody, rfl⟩, h⟩ := h
  obtain ⟨witness, _, ⟨hwitness, rfl⟩, _, _, ⟨⟨_, rfl⟩, rfl⟩, h⟩ := h
  obtain ⟨_, _, ⟨⟨_, rfl⟩, rfl⟩, hall, rfl⟩ := h
  obtain rfl := resultIs_eq_ok hval
  exact ⟨_, x, y, body, witness, m, rfl, hx, hy, hbody, hwitness, hall⟩

theorem runs_completeAxiom {op : Arithmetic} {n : Narrowed} {guard result : Term}
    (h : Runs (completeAxiom op n guard result) s u s') :
    ∃ z x y body k m, z = Variable.plain (numbered "z" s'.fresh) .uint ∧
      Runs (operandValue Term.isIn n.a) s x k ∧ Runs (operandValue Term.isIn n.b) k y m ∧
      s' = m.next ∧ Term.allOf (guard :: x.conditions ++ y.conditions) = .ok body ∧
      allOver (n.vars ++ x.vars ++ y.vars) (.binary (.connective .implies) body
        (.quantified .ex [z] (.binary (.connective .and) (holdsElement result z)
          (hasResult op x y z)))) = .ok u := by
  simp only [completeAxiom, runs_bind, runs_freshVariable, runs_lift, valueOf_eq_ok,
    Term.tuple_eq_ok, Term.isIn_eq_ok, Term.conj, Term.imp, Term.ex, Term.connective_eq_ok,
    Term.mkQuantified_eq_ok] at h
  obtain ⟨x, k, hx, y, m, hy, z, _, ⟨rfl, rfl⟩, _, _, ⟨⟨_, rfl⟩, rfl⟩, h⟩ := h
  obtain ⟨_, _, ⟨⟨_, _, rfl⟩, rfl⟩, _, _, ⟨⟨_, rfl⟩, rfl⟩, _, _, ⟨hval, rfl⟩, h⟩ := h
  obtain ⟨_, _, ⟨⟨_, rfl⟩, rfl⟩, _, _, ⟨⟨_, _, rfl⟩, rfl⟩, body, _, ⟨hbody, rfl⟩, h⟩ := h
  obtain ⟨_, _, ⟨⟨_, rfl⟩, rfl⟩, hall, rfl⟩ := h
  obtain rfl := resultIs_eq_ok hval
  exact ⟨_, x, y, body, k, m, rfl, hx, hy, rfl, hbody, hall⟩

theorem runs_singletonAxiom {op : Arithmetic} {a b : Operand} {result : Term}
    (h : Runs (singletonAxiom op a b result) s u s') :
    ∃ z x y body k m, z = Variable.plain (numbered "z" s'.fresh) .uint ∧
      Runs (operandValue isAllOf a) s x k ∧ Runs (operandValue isAllOf b) k y m ∧ s' = m.next ∧
      Term.allOf (x.conditions ++ y.conditions ++ [.binary .eq result (.nary .mkTuple [.variable z]),
        hasResult op x y z]) = .ok body ∧
      exOver (x.vars ++ y.vars ++ [z]) body = .ok u := by
  simp only [singletonAxiom, runs_bind, runs_freshVariable, runs_lift, valueOf_eq_ok,
    Term.tuple_eq_ok, Term.eqTo_eq_ok] at h
  obtain ⟨x, k, hx, y, m, hy, z, _, ⟨rfl, rfl⟩, _, _, ⟨⟨_, _, rfl⟩, rfl⟩, h⟩ := h
  obtain ⟨_, _, ⟨⟨_, rfl⟩, rfl⟩, _, _, ⟨⟨_, rfl⟩, rfl⟩, _, _, ⟨hval, rfl⟩, h⟩ := h
  obtain ⟨body, _, ⟨hbody, rfl⟩, hex, rfl⟩ := h
  obtain rfl := resultIs_eq_ok hval
  exact ⟨_, x, y, body, k, m, rfl, hx, hy, rfl, hbody, hex⟩

/-! ## Free variables of the axioms -/

section

variable {op : Arithmetic} {x y : Value} {z w : Variable} {k m' : Session} {a b c : Term}
  (hx : ReadsFrom s a x k) (hy : ReadsFrom m b y m')

include hx hy

/-- The conditions of two readings mention the operands and what these are read by. -/
theorem mem_free_conditions (hc : c ∈ x.conditions ++ y.conditions) (hw : w ∈ c.freeOccurrences) :
    w ∈ a.freeOccurrences ∨ w ∈ b.freeOccurrences ∨ w ∈ x.vars ++ y.vars := by
  rw [List.mem_append] at hc ⊢
  rcases hc with hc | hc
  · rcases hx.free w (Or.inr ⟨c, hc, hw⟩) with h | h <;> simp [h]
  · rcases hy.free w (Or.inr ⟨c, hc, hw⟩) with h | h <;> simp [h]

theorem mem_free_hasResult (hw : w ∈ (hasResult op x y z).freeOccurrences) :
    w ∈ a.freeOccurrences ∨ w ∈ b.freeOccurrences ∨ w ∈ x.vars ++ y.vars ∨ w = z := by
  simp only [hasResult, Term.freeOccurrences, Term.freeOccurrencesList, List.append_nil,
    List.mem_append, List.mem_singleton] at hw ⊢
  rcases hw with (hw | hw) | hw
  · rcases hx.free w (Or.inl hw) with h | h <;> simp [h]
  · rcases hy.free w (Or.inl hw) with h | h <;> simp [h]
  · simp [hw]

end

theorem mem_free_holdsElement {result : Term} {z w : Variable}
    (hw : w ∈ (holdsElement result z).freeOccurrences) : w = z ∨ w ∈ result.freeOccurrences := by
  simpa [holdsElement, Term.freeOccurrences, Term.freeOccurrencesList] using hw

/-- An axiom over narrowed operands takes names only. What is free in it is free in what it is made
of and none of its variables, and what is free in its guard is free in it. -/
structure ClosesOver (s : Session) (n : Narrowed) (guard result u : Term) (s' : Session) : Prop where
  adds : Adds s s' []
  free : ∀ w ∈ u.freeOccurrences, (∀ v ∈ n.vars, w.name ≠ v.name) ∧
    (w ∈ guard.freeOccurrences ∨ w ∈ result.freeOccurrences ∨ w ∈ n.a.term.freeOccurrences ∨
      w ∈ n.b.term.freeOccurrences)
  guarded : ∀ w ∈ guard.freeOccurrences, Settled s.fresh w.name →
    (∀ v ∈ n.vars, w.name ≠ v.name) → w ∈ u.freeOccurrences

theorem closesOver_soundAxiom {op : Arithmetic} {n : Narrowed} {guard result : Term}
    (h : Runs (soundAxiom op n guard result) s u s') : ClosesOver s n guard result u s' := by
  obtain ⟨z, x, y, body, witness, m, hz, hx, hy, hbody, hwitness, hall⟩ := runs_soundAxiom h
  have hrx := readsFrom_operandValue mentionsOperands_isIn hx
  have hry := readsFrom_operandValue mentionsOperands_isIn hy
  refine ⟨((adds_next s).trans (adds_operandValue hx)).trans (adds_operandValue hy),
    fun w hw => ?_, fun w hw hset hne => ?_⟩
  · obtain ⟨hw, hne⟩ := (mem_free_allOver hall).1 hw
    have hnez : w ≠ z := fun he => hne z (List.mem_append_right _ List.mem_cons_self) (by rw [he])
    refine ⟨fun v hv => hne v (List.mem_append_left _ hv), ?_⟩
    simp only [Term.freeOccurrences, List.mem_append] at hw
    rcases hw with (hw | hw) | hw
    · exact Or.inl hw
    · exact Or.inr (Or.inl ((mem_free_holdsElement hw).resolve_left hnez))
    · obtain ⟨hw, hnex⟩ := (mem_free_exOver hwitness).1 hw
      obtain ⟨c, hc, hw⟩ := (Term.mem_free_allOf hbody).1 hw
      -- the witness speaks of the operands, of its own readings and of the element
      have hw : w ∈ n.a.term.freeOccurrences ∨ w ∈ n.b.term.freeOccurrences ∨
          w ∈ x.vars ++ y.vars ∨ w = z := by
        rcases List.mem_append.1 hc with hc | hc
        · rcases mem_free_conditions hrx hry hc hw with h | h | h <;> simp [h]
        · exact mem_free_hasResult hrx hry (List.mem_singleton.1 hc ▸ hw)
      rcases hw with hw | hw | hw | hw
      · exact Or.inr (Or.inr (Or.inl hw))
      · exact Or.inr (Or.inr (Or.inr hw))
      · exact absurd rfl (hnex w hw)
      · exact absurd hw hnez
  · refine (mem_free_allOver hall).2 ⟨by simp [Term.freeOccurrences, hw], fun v hv => ?_⟩
    rcases List.mem_append.1 hv with hv | hv
    · exact hne v hv
    · rw [List.mem_singleton.1 hv, hz]
      exact hset.ne_numbered (Nat.lt_succ_self _)

theorem closesOver_completeAxiom {op : Arithmetic} {n : Narrowed} {guard result : Term}
    (h : Runs (completeAxiom op n guard result) s u s') : ClosesOver s n guard result u s' := by
  obtain ⟨z, x, y, body, k, m, hz, hx, hy, rfl, hbody, hall⟩ := runs_completeAxiom h
  have hrx := readsFrom_operandValue mentionsOperands_isIn hx
  have hry := readsFrom_operandValue mentionsOperands_isIn hy
  refine ⟨((adds_operandValue hx).trans (adds_operandValue hy)).trans (adds_next m),
    fun w hw => ?_, fun w hw hset hne => ?_⟩
  · obtain ⟨hw, hne⟩ := (mem_free_allOver hall).1 hw
    refine ⟨fun v hv => hne v (by simp [hv]), ?_⟩
    -- the readings of the operands are closed over along with the narrowed variables
    have hnexy : w ∉ x.vars ++ y.vars := fun hmem => by
      refine hne w ?_ rfl
      rw [List.append_assoc]
      exact List.mem_append_right _ hmem
    rw [Term.freeOccurrences, List.mem_append] at hw
    rcases hw with hw | hw
    · obtain ⟨c, hc, hw⟩ := (Term.mem_free_allOf hbody).1 hw
      rcases List.mem_cons.1 hc with rfl | hc
      · exact Or.inl hw
      · rcases mem_free_conditions hrx hry hc hw with hw | hw | hw
        · exact Or.inr (Or.inr (Or.inl hw))
        · exact Or.inr (Or.inr (Or.inr hw))
        · exact absurd hw hnexy
    · obtain ⟨hw, hnez⟩ := Term.mem_freeOccurrences_quantified.1 hw
      have hnez : w ≠ z := fun he => hnez z List.mem_cons_self (by rw [he])
      rw [Term.freeOccurrences, List.mem_append] at hw
      rcases hw with hw | hw
      · exact Or.inr (Or.inl ((mem_free_holdsElement hw).resolve_left hnez))
      · rcases mem_free_hasResult hrx hry hw with hw | hw | hw | hw
        · exact Or.inr (Or.inr (Or.inl hw))
        · exact Or.inr (Or.inr (Or.inr hw))
        · exact absurd hw hnexy
        · exact absurd hw hnez
  -- what the guard mentions was there before the readings drew their names
  · refine (mem_free_allOver hall).2 ⟨?_, fun v hv => ?_⟩
    · rw [Term.freeOccurrences, List.mem_append]
      exact Or.inl ((Term.mem_free_allOf hbody).2 ⟨guard, List.mem_cons_self, hw⟩)
    · rcases List.mem_append.1 hv with hv | hv
      · rcases List.mem_append.1 hv with hv | hv
        · exact hne v hv
        · obtain ⟨j, hj, _, hname⟩ := hrx.fresh v hv
          rw [hname]
          exact hset.ne_numbered hj
      · obtain ⟨j, hj, _, hname⟩ := hry.fresh v hv
        rw [hname]
        exact hset.ne_numbered (Nat.lt_of_le_of_lt (adds_operandValue hx).fresh hj)

/-- The axiom of the mode that takes single elements only is guarded and closed afterwards. -/
theorem closesOver_singletonAxiom {op : Arithmetic} {n : Narrowed} {guard result body guarded : Term}
    (h : Runs (singletonAxiom op n.a n.b result) s body s')
    (hguard : (guard.bool? = some true ∧ guarded = body) ∨
      .binary (.connective .implies) guard body = guarded)
    (hall : allOver n.vars guarded = .ok u) : ClosesOver s n guard result u s' := by
  obtain ⟨z, x, y, inner, k, m, hz, hx, hy, rfl, hinner, hex⟩ := runs_singletonAxiom h
  have hrx := readsFrom_operandValue mentionsOperands_isAllOf hx
  have hry := readsFrom_operandValue mentionsOperands_isAllOf hy
  -- under its own binder the body speaks of the result and the operands alone
  have hbody : ∀ w ∈ body.freeOccurrences, w ∈ result.freeOccurrences ∨
      w ∈ n.a.term.freeOccurrences ∨ w ∈ n.b.term.freeOccurrences := by
    intro w hw
    obtain ⟨hw, hne⟩ := (mem_free_exOver hex).1 hw
    have hnez : w ≠ z := fun he => hne z (by simp) (by rw [he])
    have hnexy : w ∉ x.vars ++ y.vars := fun hmem =>
      hne w (List.mem_append_left _ hmem) rfl
    obtain ⟨c, hc, hw⟩ := (Term.mem_free_allOf hinner).1 hw
    rcases List.mem_append.1 hc with hc | hc
    · rcases mem_free_conditions hrx hry hc hw with hw | hw | hw
      · exact Or.inr (Or.inl hw)
      · exact Or.inr (Or.inr hw)
      · exact absurd hw hnexy
    · simp only [List.mem_cons, List.not_mem_nil, or_false] at hc
      rcases hc with rfl | rfl
      · simp only [Term.freeOccurrences, Term.freeOccurrencesList, List.append_nil, List.mem_append,
          List.mem_singleton] at hw
        exact Or.inl (hw.resolve_right hnez)
      · rcases mem_free_hasResult hrx hry hw with hw | hw | hw | hw
        · exact Or.inr (Or.inl hw)
        · exact Or.inr (Or.inr hw)
        · exact absurd hw hnexy
        · exact absurd hw hnez
  refine ⟨((adds_operandValue hx).trans (adds_operandValue hy)).trans (adds_next m),
    fun w hw => ?_, fun w hw _ hne => (mem_free_allOver hall).2 ⟨?_, hne⟩⟩
  -- what is free in the axiom, and then what the guard mentions
  · obtain ⟨hw, hne⟩ := (mem_free_allOver hall).1 hw
    refine ⟨hne, ?_⟩
    rcases hguard with ⟨_, rfl⟩ | rfl
    · exact Or.inr (hbody w hw)
    · rw [Term.freeOccurrences, List.mem_append] at hw
      exact hw.imp_right (hbody w)
  · rcases hguard with ⟨htrue, rfl⟩ | rfl
    · -- a guard that is left out mentions nothing
      cases guard with
      | literal c => simp [Term.freeOccurrences] at hw
      | _ => simp [Term.bool?] at htrue
    · exact List.mem_append_left _ hw

/-! ## A lowered operation -/

/-- What the lowering of an operation is made of: operands and parameters, these narrowed, the fresh
function with its application in the axioms, and the guard of the axioms. -/
structure Operation where
  left : Operand
  right : Operand
  parameters : List Variable
  narrowed : Narrowed
  function : FunctionSymbol
  result : Term
  guard : Term

/-- Is this what the lowering of an operation on two terms begins with? -/
structure Operation.Begins (o : Operation) (op : Arithmetic) (x y : Term) (env : Environment)
    (s m : Session) : Prop where
  left : Operand.ofTerm x = .ok o.left
  right : Operand.ofTerm y = .ok o.right
  parameters : o.parameters = enclosingVariables o.left o.right env
  narrows : Narrows s ⟨o.left, o.right, o.parameters.filterMap Variable.constraint, [], []⟩
    o.parameters o.narrowed m
  function : o.function = ⟨numbered (functionHint op) (m.fresh + 1),
    o.parameters.map Variable.sort, if s.singletonsOnly then .tuple [.uint] else .uints⟩
  result : o.function.apply o.narrowed.arguments = .ok o.result
  guard : Term.allOf o.narrowed.constraints = .ok o.guard

/-- What is asserted where integer relations are single elements. -/
def AssertsSingleton (op : Arithmetic) (o : Operation) (s : Session) (t : Term) (s' : Session) :
    Prop :=
  ∃ body guarded formula comment call m,
    Runs (singletonAxiom op o.narrowed.a o.narrowed.b o.result) s body m ∧
    ((o.guard.bool? = some true ∧ guarded = body) ∨
      .binary (.connective .implies) o.guard body = guarded) ∧
    allOver o.narrowed.vars guarded = .ok formula ∧
    o.function.apply (o.parameters.map Variable.term) = .ok call ∧ .unary .singleton call = t ∧
    s' = m.asserting ⟨comment, formula, none⟩

/-- What is asserted where integer relations are sets of any size. -/
def AssertsInclusions (op : Arithmetic) (o : Operation) (s : Session) (t : Term) (s' : Session) :
    Prop :=
  ∃ sound complete comment comment' k m,
    Runs (soundAxiom op o.narrowed o.guard o.result) s sound k ∧
    Runs (completeAxiom op o.narrowed o.guard o.result) k complete m ∧
    o.function.apply (o.parameters.map Variable.term) = .ok t ∧
    s' = (m.asserting ⟨comment, sound, none⟩).asserting ⟨comment', complete, none⟩

theorem runs_arithmetic {op : Arithmetic} {x y : Term} (h : Runs (arithmetic op x y env) s t s') :
    ∃ (o : Operation) (m : Session), o.Begins op x y env s m ∧
      if s.singletonsOnly then AssertsSingleton op o (m.next.declaring o.function) t s'
      else AssertsInclusions op o (m.next.declaring o.function) t s' := by
  simp only [arithmetic, runs_bind, runs_lift, runs_get, runs_freshName, runs_declare] at h
  obtain ⟨a, _, ⟨ha, rfl⟩, b, _, ⟨hb, rfl⟩, n, m, hn, _, _, ⟨rfl, rfl⟩, _, _, ⟨rfl, rfl⟩, _, _,
    rfl, result, _, ⟨hresult, rfl⟩, guard, _, ⟨hguard, rfl⟩, h⟩ := h
  have hnarrows := narrows_foldlM hn
  rw [hnarrows.adds.singletonsOnly] at h hresult
  -- the function symbol is named before the run is split, as both kinds of axioms mention it
  generalize hf : FunctionSymbol.mk _ _ _ = f at h hresult
  refine ⟨⟨a, b, _, n, f, result, guard⟩, m,
    ⟨ha, hb, rfl, hnarrows, hf.symm, hresult, hguard⟩, ?_⟩
  split at h
  · rename_i hsingle
    rw [if_pos hsingle]
    obtain ⟨body, k, hbody, h⟩ := runs_bind.1 h
    split at h
    · rename_i htrue
      simp only [runs_bind, runs_pure, runs_lift, runs_assert, Term.single_eq_ok] at h
      obtain ⟨_, _, ⟨rfl, rfl⟩, formula, _, ⟨hall, rfl⟩, _, _, ⟨_, rfl⟩, call, _, ⟨hcall, rfl⟩,
        ⟨_, rfl⟩, rfl⟩ := h
      exact ⟨body, body, formula, _, call, k, hbody, Or.inl ⟨htrue, rfl⟩, hall, hcall, rfl, rfl⟩
    · simp only [runs_bind, runs_lift, runs_assert, Term.imp, Term.connective_eq_ok,
        Term.single_eq_ok] at h
      obtain ⟨_, _, ⟨⟨_, rfl⟩, rfl⟩, formula, _, ⟨hall, rfl⟩, _, _, ⟨_, rfl⟩, call, _, ⟨hcall, rfl⟩,
        ⟨_, rfl⟩, rfl⟩ := h
      exact ⟨body, _, formula, _, call, k, hbody, Or.inr rfl, hall, hcall, rfl, rfl⟩
  · rename_i hsingle
    rw [if_neg hsingle]
    simp only [runs_bind, runs_lift, runs_assert] at h
    obtain ⟨sound, k, hsound, complete, k', hcomplete, _, _, ⟨_, rfl⟩, _, _, ⟨_, rfl⟩, hcall, rfl⟩ := h
    exact ⟨sound, complete, _, _, k, k', hsound, hcomplete, hcall, rfl⟩

theorem term_ofTerm {x : Term} {o : Operand} (h : Operand.ofTerm x = .ok o) : o.term = x := by
  unfold Operand.ofTerm at h
  split at h
  · rw [← Except.ok.inj h]
    rfl
  · split at h
    · rw [← Except.ok.inj h]
      rfl
    · simp at h

/-- The result of an operation is a set of integers. -/
theorem sort_arithmetic {op : Arithmetic} {x y : Term} (h : Runs (arithmetic op x y env) s t s') :
    t.sort = .uints := by
  obtain ⟨o, m, ho, hasserts⟩ := runs_arithmetic h
  split at hasserts
  · rename_i hsingle
    obtain ⟨_, _, _, _, call, _, _, _, _, happly, rfl, _⟩ := hasserts
    rw [Term.sort, Term.sort_apply happly, ho.function, if_pos hsingle]
    rfl
  · rename_i hsingle
    obtain ⟨_, _, _, _, _, _, _, _, happly, _⟩ := hasserts
    rw [Term.sort_apply happly, ho.function, if_neg hsingle]

/-- The axioms close over narrowed operands, and the term applies the function to the parameters. -/
theorem runs_arithmetic_adds {op : Arithmetic} {x y : Term}
    (h : Runs (arithmetic op x y env) s t s') :
    ∃ (o : Operation) (m : Session) (as : List Assertion), o.Begins op x y env s m ∧
      Adds s s' as ∧ as ≠ [] ∧ (∀ w, w ∈ t.freeOccurrences ↔ w ∈ o.parameters) ∧
      ∀ a ∈ as, ∃ k k', m.fresh ≤ k.fresh ∧
        ClosesOver k o.narrowed o.guard o.result a.formula k' := by
  obtain ⟨o, m, ho, h⟩ := runs_arithmetic h
  have hbegin : Adds s (m.next.declaring o.function) [] :=
    (ho.narrows.adds.trans (adds_next m)).trans (adds_declaring _ _)
  -- the number that the function takes comes after those of the narrowed parameters
  have hle : m.fresh ≤ (m.next.declaring o.function).fresh := Nat.le_succ _
  split at h
  · obtain ⟨body, guarded, formula, comment, call, k, hbody, hguard, hall, hcall, rfl, rfl⟩ := h
    have hcloses := closesOver_singletonAxiom hbody hguard hall
    refine ⟨o, m, _, ho, (hbegin.trans hcloses.adds).trans (adds_asserting k _), by simp,
      fun w => mem_free_apply hcall, fun a ha => ?_⟩
    obtain rfl := List.mem_singleton.1 ha
    exact ⟨_, _, hle, hcloses⟩
  · obtain ⟨sound, complete, comment, comment', k, k', hsound, hcomplete, hcall, rfl⟩ := h
    have hs := closesOver_soundAxiom hsound
    have hc := closesOver_completeAxiom hcomplete
    refine ⟨o, m, _, ho, (((hbegin.trans hs.adds).trans hc.adds).trans
      (adds_asserting k' _)).trans (adds_asserting _ _), by simp, fun w => mem_free_apply hcall,
      fun a ha => ?_⟩
    simp only [List.nil_append, List.singleton_append, List.mem_cons, List.not_mem_nil,
      or_false] at ha
    rcases ha with rfl | rfl
    · exact ⟨_, _, hle, hs⟩
    · exact ⟨_, _, Nat.le_trans hle hs.adds.fresh, hc⟩

theorem Narrowed.forall₂_terms {R : Term → Term → Prop} {n n' : Narrowed} :
    List.Forall₂ R n.terms n'.terms ↔ R n.a.term n'.a.term ∧ R n.b.term n'.b.term ∧
      List.Forall₂ R n.constraints n'.constraints := by
  simp [Narrowed.terms]

theorem mentions_congr {v w : Variable} (h : (v == w) = true) :
    env.mentions v = true ↔ env.mentions w = true := by
  rw [Environment.mentions_iff, Environment.mentions_iff]
  exact exists_congr fun u => and_congr_right fun _ =>
    ⟨fun he => BEq.trans he h, fun he => BEq.trans he (BEq.symm h)⟩

/-- The parameters of an operation on two terms. -/
def parametersOf (x y : Term) (env : Environment) : List Variable :=
  enclosingFrom env [] (x.freeOccurrences ++ y.freeOccurrences)

section Parameters

variable {op : Arithmetic} {x y : Term} {o : Operation} (ho : o.Begins op x y env s m)

include ho

theorem parameters_eq : o.parameters = parametersOf x y env := by
  rw [ho.parameters, enclosingVariables, term_ofTerm ho.left, term_ofTerm ho.right, parametersOf]

/-- Narrowing starts with the operands and with the constraints of the parameters. -/
theorem mem_operands {t : Term}
    (ht : t ∈ (⟨o.left, o.right, o.parameters.filterMap Variable.constraint, [], []⟩ :
      Narrowed).terms) : t = x ∨ t = y ∨ ∃ p ∈ o.parameters, p.constraint = some t := by
  simpa only [Narrowed.terms, term_ofTerm ho.left, term_ofTerm ho.right, List.mem_cons,
    List.not_mem_nil, List.mem_filterMap] using ht

/-- Parameters are known variables of enclosing binders. -/
theorem mem_parameters (hV : Hygienic s.fresh V) (hx : env.Covers V x) (hy : env.Covers V y)
    {p : Variable} (hp : p ∈ o.parameters) : p ∈ V ∧ env.mentions p = true := by
  rw [parameters_eq ho] at hp
  have hstart : ∀ v ∈ x.freeOccurrences ++ y.freeOccurrences, v ∈ V := by
    intro v hv
    rw [List.mem_append] at hv
    exact hv.elim (fun h => (hx v h).1) fun h => (hy v h).1
  have := (mem_enclosingFrom (fun u hu => hV.closed u hu) hstart p hp).resolve_left (by simp)
  exact this.symm

/-- A variable of an operand is a parameter, and so is one of the environment that the constraint of
a parameter mentions. -/
theorem exists_parameter {w : Variable} (hw : (w ∈ x.freeOccurrences ∨ w ∈ y.freeOccurrences) ∨
      ∃ p ∈ o.parameters, w ∈ constraintVariables p) (hm : env.mentions w = true) :
    ∃ p ∈ o.parameters, (w == p) = true := by
  rw [parameters_eq ho] at hw ⊢
  exact exists_mem_enclosingFrom (by simp) w (by rwa [List.mem_append]) hm

/-- Equal parameters are the same. -/
theorem pairwise_parameters : o.parameters.Pairwise fun u v => (u == v) = false := by
  rw [parameters_eq ho]
  exact pairwise_enclosingFrom List.Pairwise.nil

/-- A parameter that is no set is a variable of the axioms. -/
theorem mem_narrowed_of_parameter {p : Variable} (hp : p ∈ o.parameters)
    (hset : p.sort.isSet = false) : p ∈ o.narrowed.vars := by
  obtain ⟨vs, hvs, hall⟩ := ho.narrows.binders
  obtain ⟨v, hv, hpv⟩ := exists_mem_of_forall₂ hall.flip hp
  rcases hpv with ⟨_, rfl⟩ | ⟨hsort, _⟩
  · simp [hvs, hv]
  · simp [hsort, SmtSort.isSet] at hset

/-- The variables of the axioms are parameters or have names of their own. -/
theorem narrowed_variables {v : Variable} (hv : v ∈ o.narrowed.vars) :
    v ∈ o.parameters ∨ ∃ k, s.fresh < k ∧ k ≤ m.fresh ∧ v.name = numbered "e" k := by
  obtain ⟨vs, hvs, hall⟩ := ho.narrows.binders
  rw [hvs, List.nil_append] at hv
  obtain ⟨p, hp, hpv⟩ := exists_mem_of_forall₂ hall hv
  rcases hpv with ⟨_, rfl⟩ | ⟨_, k, hk, hk', he⟩
  · exact Or.inl hp
  · exact Or.inr ⟨k, hk, hk', by rw [he]; rfl⟩

theorem free_result {w : Variable} (hw : w ∈ o.result.freeOccurrences) :
    w ∈ o.narrowed.vars := by
  obtain ⟨_, hresult⟩ := FunctionSymbol.apply_eq_ok.1 ho.result
  rw [← hresult] at hw
  split at hw
  · simp [Term.freeOccurrences] at hw
  · rw [Term.freeOccurrences, Term.freeOccurrencesList_eq_flatMap, List.mem_flatMap] at hw
    obtain ⟨u, hu, hw⟩ := hw
    exact ho.narrows.free_arguments (by simp) u hu w hw

end Parameters

/-- **The axioms of an operation are closed exactly when the constraints of its parameters mention
variables of enclosing binders only.** -/
theorem free_axioms {op : Arithmetic} {x y : Term} (hV : Hygienic s.fresh V)
    (hx : env.Covers V x) (hy : env.Covers V y) {o : Operation} (ho : o.Begins op x y env s m)
    {k k' : Session} (hk : m.fresh ≤ k.fresh)
    (h : ClosesOver k o.narrowed o.guard o.result u k') :
    u.freeOccurrences = [] ↔
      ∀ p ∈ o.parameters, ∀ w ∈ constraintVariables p, env.mentions w = true := by
  have hfree := ho.narrows.free
  have hle := ho.narrows.adds.fresh
  constructor
  · intro hnil p hp w hw
    by_contra hm
    have hwV := hV.closed p (mem_parameters ho hV hx hy hp).1 w hw
    -- the variable is no parameter, so narrowing leaves it in the guard
    have hne : ∀ q ∈ o.parameters, (w == q) = false := by
      intro q hq
      rw [Bool.eq_false_iff]
      intro he
      exact hm ((mentions_congr he).2 (mem_parameters ho hV hx hy hq).2)
    have hguard : w ∈ o.guard.freeOccurrences := by
      obtain ⟨c, hc⟩ : ∃ c, p.constraint = some c := by
        cases hc : p.constraint with
        | none => simp [constraintVariables, hc] at hw
        | some c => exact ⟨c, rfl⟩
      have hwc : w ∈ c.freeOccurrences := by simpa [constraintVariables, hc] using hw
      obtain ⟨_, _, hcs⟩ := Narrowed.forall₂_terms.1 (ho.narrows.free_of_ne hne)
      obtain ⟨c', hc', hmem⟩ := exists_mem_of_forall₂ hcs.flip (List.mem_filterMap.2 ⟨p, hp, hc⟩)
      exact (Term.mem_free_allOf ho.guard).2 ⟨c', hc', hmem hwc⟩
    have hmem := h.guarded w hguard ((hV.settled w hwV).mono (Nat.le_trans hle hk)) fun v hv he => by
      rcases narrowed_variables ho hv with hv | ⟨j, hj, _, hname⟩
      · have hsort := hV.consistent w hwV v (mem_parameters ho hV hx hy hv).1 he
        have := hne v hv
        rw [Variable.beq_iff.2 ⟨he, hsort⟩] at this
        exact absurd this (by simp)
      · exact hV.ne_drawn hwV ⟨_, j, hj, hname⟩ he
    rw [hnil] at hmem
    simp at hmem
  · intro hclosed
    refine List.eq_nil_iff_forall_not_mem.2 fun w hw => ?_
    obtain ⟨hne, hw⟩ := h.free w hw
    -- a variable of the operands or the constraints is a parameter, so a binder of the axiom has it
    have hbound : ∀ {t t' : Term}, (∀ w ∈ t'.freeOccurrences,
        (w ∈ t.freeOccurrences ∧ ∀ p ∈ o.parameters, p.sort.isSet = true → (w == p) = false) ∨
          w ∈ o.narrowed.vars) →
        (∀ w ∈ t.freeOccurrences, ∃ p ∈ o.parameters, (w == p) = true) →
        w ∉ t'.freeOccurrences := by
      intro t t' hstep hall hmem
      rcases hstep w hmem with ⟨hmem, hset⟩ | hmem
      · obtain ⟨p, hp, he⟩ := hall w hmem
        cases hs : p.sort.isSet with
        | true =>
          have := hset p hp hs
          rw [he] at this
          exact absurd this (by simp)
        | false => exact hne p (mem_narrowed_of_parameter ho hp hs) (Variable.beq_iff.1 he).1
      · exact hne w hmem rfl
    obtain ⟨ha, hb, hcs⟩ := Narrowed.forall₂_terms.1 hfree
    rcases hw with hw | hw | hw | hw
    · obtain ⟨c', hc', hw⟩ := (Term.mem_free_allOf ho.guard).1 hw
      obtain ⟨c, hc, hstep⟩ := exists_mem_of_forall₂ hcs hc'
      obtain ⟨p, hp, hpc⟩ := List.mem_filterMap.1 hc
      refine hbound hstep (fun v hv => ?_) hw
      have hv : v ∈ constraintVariables p := by simpa [constraintVariables, hpc] using hv
      exact exists_parameter ho (Or.inr ⟨p, hp, hv⟩) (hclosed p hp v hv)
    · exact hne w (free_result ho hw) rfl
    · refine hbound ha (fun v hv => ?_) hw
      rw [term_ofTerm ho.left] at hv
      exact exists_parameter ho (Or.inl (Or.inl hv)) (hx v hv).2
    · refine hbound hb (fun v hv => ?_) hw
      rw [term_ofTerm ho.right] at hv
      exact exists_parameter ho (Or.inl (Or.inr hv)) (hy v hv).2

/-! ## What an operation extends a session by -/

section

variable {op : Arithmetic} {x y : Term} (h : Runs (arithmetic op x y env) s t s')
  (hV : Hygienic s.fresh V) (hx : env.Covers V x) (hy : env.Covers V y)

include h hV hx hy

theorem extends_arithmetic (hin : env.Within V) : Extends s s' := by
  obtain ⟨o, m, as, _, hadds, _⟩ := runs_arithmetic_adds h
  refine hadds.extends fun a ha => Or.inr ⟨V, op, x, y, env, s, t, s', hV, hin, hx, hy, h, ?_⟩
  rw [hadds.added]
  exact ha

/-- **An operation has the variables of the environment around it.** -/
theorem covers_arithmetic : env.Covers V t := by
  obtain ⟨o, m, as, ho, _, _, hfree, _⟩ := runs_arithmetic_adds h
  exact fun w hw => mem_parameters ho hV hx hy ((hfree w).1 hw)

end

end RelSmt.Lowering
