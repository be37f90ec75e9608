import RelSmt.Proofs.Term.Fragment
import RelSmt.Proofs.Term.Substitution

/-!
# When substitution fails, and what it returns

The check for capture is made binder by binder on the way down. Here capture is described from the
outside, by the binders that stand around each occurrence of the variable: a free occurrence is
captured when one of the binders around it has the name of a variable of the new term. Substitution
into a term that checked constructors build fails exactly then, and for no other reason once the
sorts agree.

What it returns is well sorted again, and means what the term meant where the variable had the value
of the term that takes its place.
-/

namespace RelSmt.Term

variable {E : Type} {old : Variable} {new : Term} {taken : List String}

/-! ## Binders around occurrences -/

mutual

/-- The binders around each occurrence of a variable, be it free or not, outermost first. -/
def bindersOver (x : Variable) : Term → List (List Variable)
  | .variable v => if v == x then [[]] else []
  | .unary _ t => t.bindersOver x
  | .binary _ l r => l.bindersOver x ++ r.bindersOver x
  | .ite c y n => c.bindersOver x ++ y.bindersOver x ++ n.bindersOver x
  | .nary _ ts => bindersOverList x ts
  | .quantified _ vs body => (body.bindersOver x).map (vs ++ ·)
  | .call _ ts => bindersOverList x ts
  | _ => []

/-- The binders around each occurrence of a variable in several terms. -/
def bindersOverList (x : Variable) : List Term → List (List Variable)
  | [] => []
  | t :: ts => t.bindersOver x ++ bindersOverList x ts

end

theorem mem_bindersOverList {x : Variable} {bs : List Variable} {ts : List Term} :
    bs ∈ bindersOverList x ts ↔ ∃ t ∈ ts, bs ∈ t.bindersOver x := by
  induction ts with
  | nil => simp [bindersOverList]
  | cons t ts ih => simp [bindersOverList, ih]

mutual

/-- A variable is free in a term where no binder around it has its name. -/
theorem occursFree_iff_bindersOver {x : Variable} : ∀ {t : Term},
    t.occursFree x = true ↔ ∃ bs ∈ t.bindersOver x, bindsName bs x.name = false
  | .literal _ => by simp [occursFree, freeOccurrences, bindersOver]
  | .variable v => by
    by_cases hv : (v == x) = true <;>
      simp [occursFree, freeOccurrences, bindersOver, bindsName, hv]
  | .symbol _ => by simp [occursFree, freeOccurrences, bindersOver]
  | .emptySet _ => by simp [occursFree, freeOccurrences, bindersOver]
  | .fullSet _ => by simp [occursFree, freeOccurrences, bindersOver]
  | .unary _ t => occursFree_iff_bindersOver (t := t)
  | .binary _ l r => by
    have ihl := occursFree_iff_bindersOver (x := x) (t := l)
    have ihr := occursFree_iff_bindersOver (x := x) (t := r)
    simp only [occursFree, freeOccurrences, bindersOver, List.any_append, Bool.or_eq_true,
      List.mem_append, or_and_right, exists_or] at ihl ihr ⊢
    rw [ihl, ihr]
  | .ite c y n => by
    have ihc := occursFree_iff_bindersOver (x := x) (t := c)
    have ihy := occursFree_iff_bindersOver (x := x) (t := y)
    have ihn := occursFree_iff_bindersOver (x := x) (t := n)
    simp only [occursFree, freeOccurrences, bindersOver, List.any_append, Bool.or_eq_true,
      List.mem_append, or_and_right, exists_or] at ihc ihy ihn ⊢
    rw [ihc, ihy, ihn]
  | .nary _ ts => occursFreeList_iff_bindersOver
  | .quantified _ vs body => by
    rw [occursFree_quantified, occursFree_iff_bindersOver (t := body)]
    -- the binders around an occurrence are these and those inside the body
    simp only [bindersOver, List.mem_map, bindsName, exists_exists_and_eq_and, List.any_append,
      Bool.or_eq_false_iff]
    constructor
    · rintro ⟨hvs, bs, hbs, hfree⟩
      exact ⟨bs, hbs, hvs, hfree⟩
    · rintro ⟨bs, hbs, hvs, hfree⟩
      exact ⟨hvs, bs, hbs, hfree⟩
  | .call _ ts => occursFreeList_iff_bindersOver

theorem occursFreeList_iff_bindersOver {x : Variable} : ∀ {ts : List Term},
    (freeOccurrencesList ts).any (· == x) = true ↔
      ∃ bs ∈ bindersOverList x ts, bindsName bs x.name = false
  | [] => by simp [freeOccurrencesList, bindersOverList]
  | t :: ts => by
    have iht := occursFree_iff_bindersOver (x := x) (t := t)
    have ihts : (freeOccurrencesList ts).any (· == x) = true ↔ _ := occursFreeList_iff_bindersOver
    simp only [occursFree] at iht
    simp only [freeOccurrencesList, bindersOverList, List.any_append, Bool.or_eq_true,
      List.mem_append, or_and_right, exists_or]
    rw [iht, ihts]

end

/-! ## Capture -/

/-- Does a free occurrence of the variable lie under a binder of one of these names? -/
def Captures (t : Term) (x : Variable) (names : List String) : Prop :=
  ∃ bs ∈ t.bindersOver x, bindsName bs x.name = false ∧ ∃ b ∈ bs, b.name ∈ names

instance (t : Term) (x : Variable) (names : List String) : Decidable (t.Captures x names) :=
  inferInstanceAs
    (Decidable (∃ bs ∈ t.bindersOver x, bindsName bs x.name = false ∧ ∃ b ∈ bs, b.name ∈ names))

theorem captures_unary {op : UnaryOp} {t : Term} :
    (unary op t).Captures old taken ↔ t.Captures old taken :=
  Iff.rfl

theorem captures_binary {op : BinaryOp} {l r : Term} :
    (binary op l r).Captures old taken ↔ l.Captures old taken ∨ r.Captures old taken := by
  simp only [Captures, bindersOver, List.mem_append, or_and_right, exists_or]

theorem captures_ite {c y n : Term} :
    (ite c y n).Captures old taken ↔
      c.Captures old taken ∨ y.Captures old taken ∨ n.Captures old taken := by
  simp only [Captures, bindersOver, List.mem_append, or_and_right, exists_or, or_assoc]

theorem captures_nary {op : NaryOp} {ts : List Term} :
    (nary op ts).Captures old taken ↔ ∃ t ∈ ts, t.Captures old taken := by
  simp only [Captures, bindersOver, mem_bindersOverList]
  constructor
  · rintro ⟨bs, ⟨t, ht, hbs⟩, h⟩
    exact ⟨t, ht, bs, hbs, h⟩
  · rintro ⟨t, ht, bs, hbs, h⟩
    exact ⟨bs, ⟨t, ht, hbs⟩, h⟩

theorem captures_call {f : FunctionSymbol} {ts : List Term} :
    (call f ts).Captures old taken ↔ ∃ t ∈ ts, t.Captures old taken :=
  @captures_nary old taken .mkTuple ts

/-- Under binders of other names, an occurrence is captured by these binders or further inside. -/
theorem captures_quantified {q : Quantifier} {vs : List Variable} {body : Term} :
    (quantified q vs body).Captures old taken ↔
      bindsName vs old.name = false ∧
        ((body.occursFree old = true ∧ ∃ v ∈ vs, v.name ∈ taken) ∨ body.Captures old taken) := by
  simp only [Captures, occursFree_iff_bindersOver, bindersOver, List.mem_map, bindsName,
    exists_exists_and_eq_and, List.any_append, Bool.or_eq_false_iff, List.mem_append, or_and_right,
    exists_or]
  constructor
  · rintro ⟨bs, hbs, ⟨hvs, hfree⟩, hv | hb⟩
    · exact ⟨hvs, Or.inl ⟨⟨bs, hbs, hfree⟩, hv⟩⟩
    · exact ⟨hvs, Or.inr ⟨bs, hbs, hfree, hb⟩⟩
  · rintro ⟨hvs, ⟨⟨bs, hbs, hfree⟩, hv⟩ | ⟨bs, hbs, hfree, hb⟩⟩
    · exact ⟨bs, hbs, ⟨hvs, hfree⟩, Or.inl hv⟩
    · exact ⟨bs, hbs, ⟨hvs, hfree⟩, Or.inr hb⟩

theorem Captures.occursFree {t : Term} (h : t.Captures old taken) : t.occursFree old = true := by
  obtain ⟨bs, hbs, hfree, _⟩ := h
  exact occursFree_iff_bindersOver.2 ⟨bs, hbs, hfree⟩

/-! ## Sorts

Each node that substitution builds again has operands of the sorts that it had, so any notion of
well-sorted term that looks at nothing else is kept. -/

theorem sort_unary_congr {op : UnaryOp} {t t' : Term} (h : t'.sort = t.sort) :
    (unary op t').sort = (unary op t).sort := by
  cases op <;> simp [sort, h]

theorem sort_binary_congr {op : BinaryOp} {l l' r r' : Term} (hl : l'.sort = l.sort)
    (hr : r'.sort = r.sort) : (binary op l' r').sort = (binary op l r).sort := by
  cases op <;> simp [sort, hl, hr]

theorem sort_nary_congr {op : NaryOp} {ts ts' : List Term} (h : sorts ts' = sorts ts) :
    (nary op ts').sort = (nary op ts).sort := by
  cases op <;> simp [sort, h]

mutual

/-- A term of the sort of the variable that makes way leaves the sort as it is. -/
theorem Replaced.sort {p : String → Prop} (hsort : new.sort = old.sort) : ∀ {t u : Term},
    Replaced old new p t u → u.sort = t.sort
  | _, _, .self _ => rfl
  | _, _, .variable h => hsort.trans (Variable.beq_iff.1 h).2.symm
  | _, _, .unary h => sort_unary_congr (h.sort hsort)
  | _, _, .binary hl hr => sort_binary_congr (hl.sort hsort) (hr.sort hsort)
  | _, _, .ite _ hy _ => by rw [Term.sort, Term.sort, hy.sort hsort]
  | _, _, .nary h => sort_nary_congr (AllReplaced.sorts hsort h)
  | _, _, .quantified _ _ _ => rfl
  | _, _, .call _ => rfl

theorem AllReplaced.sorts {p : String → Prop} (hsort : new.sort = old.sort) :
    ∀ {ts us : List Term}, AllReplaced old new p ts us → Term.sorts us = Term.sorts ts
  | _, _, .nil => rfl
  | _, _, .cons h hs => by
    rw [Term.sorts, Term.sorts, h.sort hsort, AllReplaced.sorts hsort hs]

end

theorem sort_substituteIn (hsort : new.sort = old.sort) {t u : Term}
    (h : t.substituteIn old new taken = .ok u) : u.sort = t.sort :=
  (replaced_substituteIn h).sort hsort

theorem sorts_substituteInList (hsort : new.sort = old.sort) {ts us : List Term}
    (h : substituteInList ts old new taken = .ok us) : sorts us = sorts ts :=
  AllReplaced.sorts hsort (allReplaced_substituteInList h)

/-- A property of terms that holds of the operands of a node, and of the node over any operands of
the same sorts that have the property. -/
structure RespectsSorts (P : Term → Prop) : Prop where
  unary : ∀ {op t}, P (.unary op t) → P t ∧ ∀ {t'}, P t' → t'.sort = t.sort → P (.unary op t')
  binary : ∀ {op l r}, P (.binary op l r) → P l ∧ P r ∧
    ∀ {l' r'}, P l' → P r' → l'.sort = l.sort → r'.sort = r.sort → P (.binary op l' r')
  ite : ∀ {c y n}, P (.ite c y n) → P c ∧ P y ∧ P n ∧ ∀ {c' y' n'}, P c' → P y' → P n' →
    c'.sort = c.sort → y'.sort = y.sort → n'.sort = n.sort → P (.ite c' y' n')
  nary : ∀ {op ts}, P (.nary op ts) → (∀ t ∈ ts, P t) ∧
    ∀ {ts'}, (∀ t ∈ ts', P t) → sorts ts' = sorts ts → P (.nary op ts')
  quantified : ∀ {q vs body}, P (.quantified q vs body) → P body ∧
    ∀ {body'}, P body' → body'.sort = body.sort → P (.quantified q vs body')
  call : ∀ {f ts}, P (.call f ts) → (∀ t ∈ ts, P t) ∧
    ∀ {ts'}, (∀ t ∈ ts', P t) → sorts ts' = sorts ts → P (.call f ts')

/-- Operands of the same sorts fit as well. -/
theorem fitsNary_congr {op : NaryOp} {ts ts' : List Term} (h : sorts ts' = sorts ts)
    (hne : ts ≠ []) (hfit : ∀ t ∈ ts, fitsNary op t.sort = true) :
    ts' ≠ [] ∧ ∀ t ∈ ts', fitsNary op t.sort = true := by
  rw [sorts_eq_map, sorts_eq_map] at h
  refine ⟨fun he => hne (by simpa [he] using h), fun t ht => ?_⟩
  obtain ⟨u, hu, he⟩ := List.mem_map.1 (h ▸ List.mem_map_of_mem ht)
  exact he ▸ hfit u hu

/-- The rules for the sorts of operands ask for nothing else of the operands than that they obey the
rules. -/
theorem respectsSorts_obeys {alone applied : FunctionSymbol → Prop} :
    RespectsSorts (Obeys alone applied) where
  unary := fun ⟨ht, hop⟩ => ⟨ht, fun ht' hs => ⟨ht', hs ▸ hop⟩⟩
  binary := fun ⟨hl, hr, hop⟩ => ⟨hl, hr, fun hl' hr' hls hrs => ⟨hl', hr', hls ▸ hrs ▸ hop⟩⟩
  ite := fun ⟨hc, hy, hn, hcs, hyn⟩ => ⟨hc, hy, hn, fun hc' hy' hn' hc hy hn =>
    ⟨hc', hy', hn', hc.trans hcs, hy.trans (hyn.trans hn.symm)⟩⟩
  nary := fun ⟨hne, hts, hfit⟩ => ⟨obeyAll_iff.1 hts, fun hts' hs =>
    ⟨(fitsNary_congr hs hne hfit).1, obeyAll_iff.2 hts', (fitsNary_congr hs hne hfit).2⟩⟩
  quantified := fun ⟨hne, hbody, hs⟩ =>
    ⟨hbody, fun hbody' hs' => ⟨hne, hbody', hs'.trans hs⟩⟩
  call := fun ⟨hts, hin, hout⟩ =>
    ⟨obeyAll_iff.1 hts, fun hts' hs => ⟨obeyAll_iff.2 hts', hs.trans hin, hout⟩⟩

mutual

/-- A term that has the property and the sort of the variable may take its place. -/
theorem RespectsSorts.replaced {P : Term → Prop} {p : String → Prop} (hP : RespectsSorts P)
    (hsort : new.sort = old.sort) (hnew : P new) : ∀ {t u : Term}, Replaced old new p t u →
    P t → P u
  | _, _, .self _, ht => ht
  | _, _, .variable _, _ => hnew
  | _, _, .unary h, ht => by
    obtain ⟨ht, hnode⟩ := hP.unary ht
    exact hnode (hP.replaced hsort hnew h ht) (h.sort hsort)
  | _, _, .binary hl hr, ht => by
    obtain ⟨htl, htr, hnode⟩ := hP.binary ht
    exact hnode (hP.replaced hsort hnew hl htl) (hP.replaced hsort hnew hr htr) (hl.sort hsort)
      (hr.sort hsort)
  | _, _, .ite hc hy hn, ht => by
    obtain ⟨htc, hty, htn, hnode⟩ := hP.ite ht
    exact hnode (hP.replaced hsort hnew hc htc) (hP.replaced hsort hnew hy hty)
      (hP.replaced hsort hnew hn htn) (hc.sort hsort) (hy.sort hsort) (hn.sort hsort)
  | _, _, .nary h, ht => by
    obtain ⟨hts, hnode⟩ := hP.nary ht
    exact hnode (hP.allReplaced hsort hnew h hts) (AllReplaced.sorts hsort h)
  | _, _, .quantified _ _ h, ht => by
    obtain ⟨ht, hnode⟩ := hP.quantified ht
    exact hnode (hP.replaced hsort hnew h ht) (h.sort hsort)
  | _, _, .call h, ht => by
    obtain ⟨hts, hnode⟩ := hP.call ht
    exact hnode (hP.allReplaced hsort hnew h hts) (AllReplaced.sorts hsort h)

theorem RespectsSorts.allReplaced {P : Term → Prop} {p : String → Prop} (hP : RespectsSorts P)
    (hsort : new.sort = old.sort) (hnew : P new) : ∀ {ts us : List Term},
    AllReplaced old new p ts us → (∀ t ∈ ts, P t) → ∀ u ∈ us, P u
  | _, _, .nil, hts => hts
  | _, _, .cons h hs, hts => by
    rw [List.forall_mem_cons] at hts ⊢
    exact ⟨hP.replaced hsort hnew h hts.1, hP.allReplaced hsort hnew hs hts.2⟩

end

/-- Substitution keeps what goes by the sorts of operands. -/
theorem RespectsSorts.substituteIn {P : Term → Prop} (hP : RespectsSorts P)
    (hsort : new.sort = old.sort) (hnew : P new) {t u : Term}
    (h : t.substituteIn old new taken = .ok u) (ht : P t) : P u :=
  hP.replaced hsort hnew (replaced_substituteIn h) ht

/-! ## Building again

A node that checked constructors have built they build again over operands of the same sorts. -/

section Again

variable {t t' l l' r r' c c' y y' n n' : Term} {ts ts' : List Term}

theorem mkUnary_again {op : UnaryOp} (h : (unary op t).Built) (ht : t'.sort = t.sort) :
    mkUnary op t' = .ok (.unary op t') :=
  mkUnary_eq_ok.2 ⟨ht ▸ h.2, rfl⟩

theorem mkBinary_again {op : BinaryOp} (h : (binary op l r).Built) (hl : l'.sort = l.sort)
    (hr : r'.sort = r.sort) : mkBinary op l' r' = .ok (.binary op l' r') :=
  mkBinary_eq_ok.2 ⟨hl ▸ hr ▸ h.2.2, rfl⟩

theorem mkIte_again (h : (ite c y n).Built) (hc : c'.sort = c.sort) (hy : y'.sort = y.sort)
    (hn : n'.sort = n.sort) : mkIte c' y' n' = .ok (.ite c' y' n') := by
  obtain ⟨-, -, -, hbool, hsort⟩ := h
  exact mkIte_eq_ok.2 ⟨hc.trans hbool, hy.trans (hsort.trans hn.symm), rfl⟩

theorem mkNary_again {op : NaryOp} (h : (nary op ts).Built) (hts : sorts ts' = sorts ts) :
    mkNary op ts' = .ok (.nary op ts') := by
  obtain ⟨hne, -, hfit⟩ := h
  obtain ⟨hne, hfit⟩ := fitsNary_congr hts hne hfit
  exact mkNary_eq_ok.2 ⟨hne, hfit, rfl⟩

theorem mkQuantified_again {q : Quantifier} {vs : List Variable} (h : (quantified q vs t).Built)
    (ht : t'.sort = t.sort) : mkQuantified q vs t' = .ok (.quantified q vs t') :=
  mkQuantified_eq_ok.2 ⟨h.1, ht.trans h.2.2, rfl⟩

theorem mkCall_again {f : FunctionSymbol} (h : (call f ts).Built) (hts : sorts ts' = sorts ts) :
    mkCall f ts' = .ok (.call f ts') :=
  mkCall_eq_ok.2 ⟨hts.trans h.2.1, rfl⟩

end Again

/-! ## Outcomes -/

/-- A step that fails for capture, of one of these names, exactly if this is so, and returns
otherwise. -/
def FailsIff {α : Type} (names : List String) (p : Prop) (x : Checked α) : Prop :=
  (¬p ∧ ∃ a, x = .ok a) ∨ (p ∧ ∃ v t, v.name ∈ names ∧ x = .error (.capture v t))

section FailsIff

variable {α β : Type} {names : List String} {p q : Prop}

theorem failsIff_ok {a : α} : FailsIff names False (.ok a) :=
  Or.inl ⟨not_false, a, rfl⟩

theorem FailsIff.congr {x : Checked α} (h : FailsIff names p x) (hpq : p ↔ q) :
    FailsIff names q x :=
  propext hpq ▸ h

/-- One step after the other fails if either does. -/
theorem FailsIff.bind {x : Checked α} {f : α → Checked β} (hx : FailsIff names p x)
    (hf : ∀ a, x = .ok a → FailsIff names q (f a)) : FailsIff names (p ∨ q) (x >>= f) := by
  rcases hx with ⟨hp, a, rfl⟩ | ⟨hp, v, t, hv, rfl⟩
  · exact (hf a rfl).congr ⟨Or.inr, fun h => h.resolve_left hp⟩
  · exact Or.inr ⟨Or.inl hp, v, t, hv, rfl⟩

/-- A step that returns does not count. -/
theorem FailsIff.bind_ok {x : Checked α} {f : α → Checked β} (hx : FailsIff names p x)
    (hf : ∀ a, x = .ok a → ∃ b, f a = .ok b) : FailsIff names p (x >>= f) :=
  (hx.bind fun a ha => Or.inl ⟨not_false, hf a ha⟩).congr (or_iff_left not_false)

end FailsIff

mutual

/-- **Substitution fails exactly on capture.** The sorts of operands do not change, so that no node
is refused on the way up. -/
theorem failsIff_substituteIn (hsort : new.sort = old.sort) : ∀ {t : Term}, t.Built →
    FailsIff taken (t.Captures old taken) (t.substituteIn old new taken)
  | .literal _, _ => failsIff_ok.congr (by simp [Captures, bindersOver])
  | .variable v, _ => by
    refine failsIff_ok.congr ⟨False.elim, ?_⟩
    -- no binder is around the variable itself
    rintro ⟨bs, hbs, -, b, hb, -⟩
    simp only [bindersOver, List.mem_ite_nil_right, List.mem_singleton] at hbs
    simp [hbs.2] at hb
  | .symbol _, _ => failsIff_ok.congr (by simp [Captures, bindersOver])
  | .emptySet _, _ => failsIff_ok.congr (by simp [Captures, bindersOver])
  | .fullSet _, _ => failsIff_ok.congr (by simp [Captures, bindersOver])
  | .unary op t, ht => by
    rw [captures_unary]
    refine (failsIff_substituteIn hsort ht.1).bind_ok fun t' ht' => ?_
    exact ⟨_, mkUnary_again ht (sort_substituteIn hsort ht')⟩
  | .binary op l r, ht => by
    rw [captures_binary]
    refine (failsIff_substituteIn hsort ht.1).bind fun l' hl' =>
      (failsIff_substituteIn hsort ht.2.1).bind_ok fun r' hr' => ?_
    exact ⟨_, mkBinary_again ht (sort_substituteIn hsort hl') (sort_substituteIn hsort hr')⟩
  | .ite c y n, ht => by
    obtain ⟨hc, hy, hn, -⟩ := id ht
    rw [captures_ite]
    refine (failsIff_substituteIn hsort hc).bind fun c' hc' =>
      (failsIff_substituteIn hsort hy).bind fun y' hy' =>
      (failsIff_substituteIn hsort hn).bind_ok fun n' hn' => ?_
    exact ⟨_, mkIte_again ht (sort_substituteIn hsort hc') (sort_substituteIn hsort hy')
      (sort_substituteIn hsort hn')⟩
  | .nary op ts, ht => by
    rw [captures_nary]
    refine (failsIff_substituteInList hsort ht.2.1).bind_ok fun ts' hts' => ?_
    exact ⟨_, mkNary_again ht (sorts_substituteInList hsort hts')⟩
  | .quantified q vs body, ht => by
    simp only [substituteIn]
    split
    · -- where the variable is not free there is nothing to capture
      rename_i hstop
      refine failsIff_ok.congr ⟨False.elim, fun h => ?_⟩
      exact absurd h.occursFree (by simp [occursFree_eq_false_of_stop hstop])
    · rename_i hgo
      simp only [Bool.or_eq_true, Bool.not_eq_true', not_or, Bool.not_eq_true,
        Bool.not_eq_false] at hgo
      rw [captures_quantified]
      split
      · -- the variable is free in the body, so a binder of a taken name captures an occurrence
        rename_i v hv
        have hname : v.name ∈ taken := by simpa using List.find?_some hv
        exact Or.inr ⟨⟨hgo.1, Or.inl ⟨hgo.2, v, List.mem_of_find?_eq_some hv, hname⟩⟩,
          v, _, hname, rfl⟩
      · -- these binders capture nothing, and what is captured is so further inside
        rename_i hpass
        have hfree : ¬∃ v ∈ vs, v.name ∈ taken := by
          simpa only [List.find?_eq_none, List.contains_iff_mem, not_exists, not_and] using hpass
        refine ((failsIff_substituteIn hsort ht.2.1).congr ?_).bind_ok fun body' hbody' => ?_
        · simp [hgo.1, hfree]
        · exact ⟨_, mkQuantified_again ht (sort_substituteIn hsort hbody')⟩
  | .call f ts, ht => by
    rw [captures_call]
    refine (failsIff_substituteInList hsort ht.1).bind_ok fun ts' hts' => ?_
    exact ⟨_, mkCall_again ht (sorts_substituteInList hsort hts')⟩

theorem failsIff_substituteInList (hsort : new.sort = old.sort) : ∀ {ts : List Term}, BuiltAll ts →
    FailsIff taken (∃ t ∈ ts, t.Captures old taken) (substituteInList ts old new taken)
  | [], _ => failsIff_ok.congr (by simp)
  | t :: ts, ⟨ht, hts⟩ => by
    rw [List.exists_mem_cons_iff]
    exact (failsIff_substituteIn hsort ht).bind fun t' _ =>
      (failsIff_substituteInList hsort hts).bind_ok fun ts' _ => ⟨_, rfl⟩

end

/-! ## Substitution as a whole -/

theorem substitute_of_sort_ne {t : Term} (h : new.sort ≠ old.sort) :
    t.substitute old new = .error (.sortMismatch (.substitution new old)) :=
  if_neg h

theorem failsIff_substitute {t : Term} (hsort : new.sort = old.sort) (ht : t.Built) :
    FailsIff (new.freeVariables.map Variable.name)
      (t.Captures old (new.freeVariables.map Variable.name)) (t.substitute old new) := by
  rw [substitute, if_pos hsort]
  exact failsIff_substituteIn hsort ht

/-- **Substitution fails exactly on capture, and keeps track of free variables.** It faults on the
sorts where these differ, on capture where a free occurrence of the variable lies under a binder of
the name of a variable of the new term, and never otherwise. The variables of what it returns are
those of the term without the one that made way, and those of the new term if there was an
occurrence for it to take. -/
theorem substitute_outcome {e t : Term} {x : Variable} (he : e.Built) :
    (∀ cause, e.substitute x t = .error (.sortMismatch cause) ↔
      t.sort ≠ x.sort ∧ cause = .substitution t x) ∧
    ((∃ v u, e.substitute x t = .error (.capture v u)) ↔
      t.sort = x.sort ∧ e.Captures x (t.freeVariables.map Variable.name)) ∧
    ((∃ r, e.substitute x t = .ok r) ↔
      t.sort = x.sort ∧ ¬e.Captures x (t.freeVariables.map Variable.name)) ∧
    ∀ r, e.substitute x t = .ok r → ∀ w, r.freeVariables.contains w = true ↔
      (e.freeVariables.contains w = true ∧ (w == x) = false) ∨
        (e.freeVariables.contains x = true ∧ t.freeVariables.contains w = true) := by
  refine ⟨?_, ?_, ?_, fun r hr w => ?_⟩
  · intro cause
    by_cases hsort : t.sort = x.sort
    · rcases failsIff_substitute hsort he with ⟨-, r, hr⟩ | ⟨-, v, u, -, hr⟩ <;> simp [hr, hsort]
    · simp [substitute_of_sort_ne hsort, hsort, eq_comm]
  · by_cases hsort : t.sort = x.sort
    · rcases failsIff_substitute hsort he with ⟨hc, r, hr⟩ | ⟨hc, v, u, -, hr⟩ <;>
        simp [hr, hsort, hc]
    · simp [substitute_of_sort_ne hsort, hsort]
  · by_cases hsort : t.sort = x.sort
    · rcases failsIff_substitute hsort he with ⟨hc, r, hr⟩ | ⟨hc, v, u, -, hr⟩ <;>
        simp [hr, hsort, hc]
    · simp [substitute_of_sort_ne hsort, hsort]
  -- the list of free variables is read as the occurrences that it stands for
  · simp only [contains_freeVariables, occursFree_iff (t := r), occursFree_iff (v := w),
      mem_freeOccurrences_substitute hr, FreeAfter]
    constructor
    · rintro ⟨u, ⟨hu, hne⟩ | ⟨hx, hu⟩, he⟩
      · exact Or.inl ⟨⟨u, hu, he⟩, BEq.congr_left he ▸ hne⟩
      · exact Or.inr ⟨hx, u, hu, he⟩
    · rintro (⟨⟨u, hu, he⟩, hne⟩ | ⟨hx, u, hu, he⟩)
      · exact ⟨u, Or.inl ⟨hu, BEq.congr_left he ▸ hne⟩, he⟩
      · exact ⟨u, Or.inr ⟨hx, hu⟩, he⟩

/-- **Substitution respects meaning.** What it returns has the sort of the term, is well sorted if
the terms were, and has the value of the term where the variable has the value of the new term. -/
theorem substitute_respects_meaning {e t r : Term} {x : Variable} (h : e.substitute x t = .ok r) :
    r.sort = e.sort ∧ (e.Built → t.Built → r.Built) ∧
    (e.WellSorted → t.WellSorted → r.WellSorted) ∧
    ∀ (E : Type) (I : Interpretation E) (ρ : Assignment E),
      r.eval I ρ = e.eval I (ρ.set x (t.eval I ρ)) := by
  have hsort : t.sort = x.sort := by
    by_contra hne
    simp [substitute_of_sort_ne hne] at h
  refine ⟨?_, ?_, ?_, fun E I ρ => eval_substitute I h⟩ <;>
    rw [substitute, if_pos hsort] at h
  · exact sort_substituteIn hsort h
  · exact fun he ht => respectsSorts_obeys.substituteIn hsort ht h he
  · exact fun he ht => respectsSorts_obeys.substituteIn hsort ht h he

/-- An atom variable. -/
def atomVariable (name : String) : Variable := .plain name (.named "Atom")

/-- `(∃ z, ∀ y, x = y) ∧ (∀ x, x = y)`: an occurrence of `x` under two binders of other names, and
one under a binder of its own. -/
def freeAndBound : Term :=
  let x := atomVariable "x"
  let y := atomVariable "y"
  let z := atomVariable "z"
  .binary (.connective .and)
    (.quantified .ex [z] (.quantified .all [y] (.binary .eq x.term y.term)))
    (.quantified .all [x] (.binary .eq x.term y.term))

theorem wellSorted_freeAndBound : freeAndBound.WellSorted := by
  simp [freeAndBound, WellSorted, Obeys, Variable.term, sort, atomVariable, Variable.plain, Variable.sort]

theorem built_freeAndBound : freeAndBound.Built := by
  simp [freeAndBound, Built, Obeys, Variable.term, sort, atomVariable, Variable.plain, Variable.sort]

/-- The inner binder captures `y` and the outer one `z`, while `w` takes the place of `x`. -/
theorem substitute_outcome_freeAndBound :
    (∃ v u, freeAndBound.substitute (atomVariable "x") (atomVariable "y").term
      = .error (.capture v u)) ∧
    (∃ v u, freeAndBound.substitute (atomVariable "x") (atomVariable "z").term
      = .error (.capture v u)) ∧
    (∃ r, freeAndBound.substitute (atomVariable "x") (atomVariable "w").term = .ok r ∧
      r.freeVariables.contains (atomVariable "w") = true ∧
      r.freeVariables.contains (atomVariable "x") = false) := by
  refine ⟨(substitute_outcome built_freeAndBound).2.1.2 ⟨rfl, by decide⟩,
    (substitute_outcome built_freeAndBound).2.1.2 ⟨rfl, by decide⟩, ?_⟩
  obtain ⟨r, hr⟩ := (substitute_outcome built_freeAndBound (x := atomVariable "x")
    (t := (atomVariable "w").term)).2.2.1.2 ⟨rfl, by decide⟩
  have hfree := (substitute_outcome built_freeAndBound).2.2.2 r hr
  refine ⟨r, hr, (hfree _).2 (Or.inr ⟨by decide, by decide⟩), ?_⟩
  rw [← Bool.not_eq_true, hfree]
  decide

/-- With `w` in the place of `x` the term says of `w` what it said of `x`. -/
theorem substitute_respects_meaning_freeAndBound :
    ∃ r, freeAndBound.substitute (atomVariable "x") (atomVariable "w").term = .ok r ∧
      r.WellSorted ∧ r.sort = .bool ∧ ∀ (E : Type) (I : Interpretation E) (ρ : Assignment E),
        r.eval I ρ = freeAndBound.eval I
          (ρ.set (atomVariable "x") (ρ.get (atomVariable "w"))) := by
  obtain ⟨hsort, -, hwell, hmeaning⟩ := substitute_respects_meaning
    (e := freeAndBound) (x := atomVariable "x") (t := (atomVariable "w").term) rfl
  exact ⟨_, rfl, hwell wellSorted_freeAndBound trivial, hsort, hmeaning⟩

end RelSmt.Term
