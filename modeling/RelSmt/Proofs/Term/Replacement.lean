import RelSmt.Proofs.Term.Capture

/-!
# Replacement of subterms

Replacement exchanges whole subterms and goes by sorts alone: where the new term has the sort of the
old one it succeeds, and keeps terms built and of their sort.

Replacement of a variable does what substitution does wherever substitution succeeds. The two stop
at different binders. Substitution leaves a binder as it is when it binds the variable's name or
when the variable is not free under it; replacement stops at the first kind only, and builds the
second kind again as it was.
-/

namespace RelSmt.Term

/-! ## Equal terms have equal sorts -/

mutual

/-- Equality ignores the constraints of variables, which have no part in the sort. -/
theorem sort_eq_of_beq : ∀ {t u : Term}, t.beq u = true → t.sort = u.sort
  | .literal _, .literal _, h => by
    rw [beq, beq_iff_eq] at h
    rw [h]
  | .variable _, .variable _, h => by
    rw [beq] at h
    exact (Variable.beq_iff.1 h).2
  | .symbol _, .symbol _, h => by
    rw [beq, Bool.and_eq_true, beq_iff_eq, beq_iff_eq] at h
    exact h.2
  | .emptySet _, .emptySet _, h => by
    rw [beq, beq_iff_eq] at h
    exact h
  | .fullSet _, .fullSet _, h => by
    rw [beq, beq_iff_eq] at h
    exact h
  | .unary _ _, .unary _ _, h => by
    rw [beq, Bool.and_eq_true, beq_iff_eq] at h
    rw [h.1]
    exact sort_unary_congr (sort_eq_of_beq h.2)
  | .binary _ _ _, .binary _ _ _, h => by
    rw [beq, Bool.and_eq_true, Bool.and_eq_true, beq_iff_eq] at h
    rw [h.1.1]
    exact sort_binary_congr (sort_eq_of_beq h.1.2) (sort_eq_of_beq h.2)
  | .ite _ _ _, .ite _ _ _, h => by
    rw [beq, Bool.and_eq_true, Bool.and_eq_true] at h
    rw [sort, sort]
    exact sort_eq_of_beq h.1.2
  | .nary _ _, .nary _ _, h => by
    rw [beq, Bool.and_eq_true, beq_iff_eq] at h
    rw [h.1]
    exact sort_nary_congr (sorts_eq_of_beqList h.2)
  | .quantified _ _ _, .quantified _ _ _, _ => rfl
  | .call _ _, .call _ _, h => by
    rw [beq, Bool.and_eq_true, beq_iff_eq] at h
    rw [sort, sort, h.1]

theorem sorts_eq_of_beqList : ∀ {ts us : List Term}, beqList ts us = true → sorts ts = sorts us
  | [], [], _ => rfl
  | t :: ts, u :: us, h => by
    rw [beqList, Bool.and_eq_true] at h
    rw [sorts, sorts, sort_eq_of_beq h.1, sorts_eq_of_beqList h.2]

end

/-! ## Replacement keeps sorts -/

section KeepsSort

variable {old new : Term}

/-- Is this a built term of the sort that the term has? -/
def Retains (t : Term) (x : Checked Term) : Prop := ∃ u, x = .ok u ∧ u.Built ∧ u.sort = t.sort

/-- A term is exchanged for one of its sort, or something is done to its operands. -/
theorem retains_of_beq (hsort : new.sort = old.sort) (hnew : new.Built) {t : Term} {x : Checked Term}
    (hx : t.Retains x) : t.Retains (if t == old then .ok new else x) := by
  split
  · rename_i h
    exact ⟨new, rfl, hnew, hsort.trans (sort_eq_of_beq h).symm⟩
  · exact hx

theorem retains_self {t : Term} (ht : t.Built) : t.Retains (.ok t) := ⟨t, rfl, ht, rfl⟩

/-- Are these built terms of the sorts that the terms have? -/
def RetainsAll (ts : List Term) (x : Checked (List Term)) : Prop :=
  ∃ us, x = .ok us ∧ (∀ u ∈ us, u.Built) ∧ sorts us = sorts ts

/-! A node is built again over what takes the place of its operands. -/

theorem retains_unary {op : UnaryOp} {t : Term} {x : Checked Term} (h : (unary op t).Built)
    (hx : t.Retains x) : (unary op t).Retains (do mkUnary op (← x)) := by
  obtain ⟨t', rfl, ht, hs⟩ := hx
  exact ⟨_, mkUnary_again h hs, (respectsSorts_obeys.unary h).2 ht hs, sort_unary_congr hs⟩

theorem retains_binary {op : BinaryOp} {l r : Term} {x y : Checked Term}
    (h : (binary op l r).Built) (hx : l.Retains x) (hy : r.Retains y) :
    (binary op l r).Retains (do mkBinary op (← x) (← y)) := by
  obtain ⟨l', rfl, hl, hls⟩ := hx
  obtain ⟨r', rfl, hr, hrs⟩ := hy
  exact ⟨_, mkBinary_again h hls hrs, (respectsSorts_obeys.binary h).2.2 hl hr hls hrs,
    sort_binary_congr hls hrs⟩

theorem retains_ite {c y n : Term} {x z w : Checked Term} (h : (ite c y n).Built)
    (hx : c.Retains x) (hz : y.Retains z) (hw : n.Retains w) :
    (ite c y n).Retains (do mkIte (← x) (← z) (← w)) := by
  obtain ⟨c', rfl, hc, hcs⟩ := hx
  obtain ⟨y', rfl, hy, hys⟩ := hz
  obtain ⟨n', rfl, hn, hns⟩ := hw
  refine ⟨_, mkIte_again h hcs hys hns, ?_, by rw [sort, sort, hys]⟩
  exact (respectsSorts_obeys.ite h).2.2.2 hc hy hn hcs hys hns

theorem retains_nary {op : NaryOp} {ts : List Term} {x : Checked (List Term)}
    (h : (nary op ts).Built) (hx : RetainsAll ts x) :
    (nary op ts).Retains (do mkNary op (← x)) := by
  obtain ⟨ts', rfl, hts, hs⟩ := hx
  exact ⟨_, mkNary_again h hs, (respectsSorts_obeys.nary h).2 hts hs, sort_nary_congr hs⟩

theorem retains_quantified {q : Quantifier} {vs : List Variable} {body : Term} {x : Checked Term}
    (h : (quantified q vs body).Built) (hx : body.Retains x) :
    (quantified q vs body).Retains (do mkQuantified q vs (← x)) := by
  obtain ⟨body', rfl, hbody, hs⟩ := hx
  exact ⟨_, mkQuantified_again h hs, (respectsSorts_obeys.quantified h).2 hbody hs, rfl⟩

theorem retains_call {f : FunctionSymbol} {ts : List Term} {x : Checked (List Term)}
    (h : (call f ts).Built) (hx : RetainsAll ts x) : (call f ts).Retains (do mkCall f (← x)) := by
  obtain ⟨ts', rfl, hts, hs⟩ := hx
  exact ⟨_, mkCall_again h hs, (respectsSorts_obeys.call h).2 hts hs, rfl⟩

mutual

/-- **Replacement keeps terms well sorted**: by a term of the same sort it always succeeds. -/
theorem retains_replace (hsort : new.sort = old.sort) (hnew : new.Built) : ∀ {t : Term}, t.Built →
    t.Retains (t.replace old new)
  | .literal _, ht => by
    rw [replace]
    exact retains_of_beq hsort hnew (retains_self ht)
  | .variable _, ht => by
    rw [replace]
    exact retains_of_beq hsort hnew (retains_self ht)
  | .symbol _, ht => by
    rw [replace]
    exact retains_of_beq hsort hnew (retains_self ht)
  | .emptySet _, ht => by
    rw [replace]
    exact retains_of_beq hsort hnew (retains_self ht)
  | .fullSet _, ht => by
    rw [replace]
    exact retains_of_beq hsort hnew (retains_self ht)
  | .unary op t, ht => by
    rw [replace]
    exact retains_of_beq hsort hnew (retains_unary ht (retains_replace hsort hnew ht.1))
  | .binary op l r, ht => by
    rw [replace]
    exact retains_of_beq hsort hnew
      (retains_binary ht (retains_replace hsort hnew ht.1) (retains_replace hsort hnew ht.2.1))
  | .ite c y n, ht => by
    rw [replace]
    exact retains_of_beq hsort hnew (retains_ite ht (retains_replace hsort hnew ht.1)
      (retains_replace hsort hnew ht.2.1) (retains_replace hsort hnew ht.2.2.1))
  | .nary op ts, ht => by
    rw [replace]
    exact retains_of_beq hsort hnew (retains_nary ht (retainsAll_replaceList hsort hnew ht.2.1))
  | .quantified q vs body, ht => by
    rw [replace]
    refine retains_of_beq hsort hnew ?_
    split
    · exact retains_self ht
    · exact retains_quantified ht (retains_replace hsort hnew ht.2.1)
  | .call f ts, ht => by
    rw [replace]
    exact retains_of_beq hsort hnew (retains_call ht (retainsAll_replaceList hsort hnew ht.1))

theorem retainsAll_replaceList (hsort : new.sort = old.sort) (hnew : new.Built) :
    ∀ {ts : List Term}, BuiltAll ts → RetainsAll ts (replaceList ts old new)
  | [], _ => ⟨[], rfl, List.forall_mem_nil _, rfl⟩
  | t :: ts, ⟨ht, hts⟩ => by
    obtain ⟨t', ht, hbuilt, hs⟩ := retains_replace hsort hnew ht
    obtain ⟨ts', hts, hbuilts, hss⟩ := retainsAll_replaceList hsort hnew hts
    refine ⟨t' :: ts', ?_, List.forall_mem_cons.2 ⟨hbuilt, hbuilts⟩, ?_⟩
    · rw [replaceList, ht, hts]
      rfl
    · rw [sorts, sorts, hs, hss]

end

end KeepsSort

/-! ## Replacement of a variable and substitution -/

section Agreement

variable {old : Variable} {new : Term} {taken : List String}

mutual

/-- Replacement builds a term again as it was where the variable is not free. -/
theorem replace_of_not_occursFree : ∀ {t : Term}, t.Built → t.occursFree old = false →
    t.replace (.variable old) new = .ok t
  | .literal _, _, _ => replace_literal _
  | .variable v, _, hfree => by
    have hne : (v == old) = false := by simpa [occursFree, freeOccurrences] using hfree
    rw [replace_variable, hne]
    rfl
  | .symbol _, _, _ => replace_symbol _
  | .emptySet _, _, _ => replace_emptySet _
  | .fullSet _, _, _ => replace_fullSet _
  | .unary op t, ht, hfree => by
    rw [replace_unary, replace_of_not_occursFree ht.1 hfree]
    exact mkUnary_again ht rfl
  | .binary op l r, ht, hfree => by
    rw [occursFree, freeOccurrences, List.any_append, Bool.or_eq_false_iff] at hfree
    rw [replace_binary, replace_of_not_occursFree ht.1 hfree.1,
      replace_of_not_occursFree ht.2.1 hfree.2]
    exact mkBinary_again ht rfl rfl
  | .ite c y n, ht, hfree => by
    obtain ⟨hc, hy, hn, -⟩ := id ht
    rw [occursFree, freeOccurrences, List.any_append, List.any_append, Bool.or_eq_false_iff,
      Bool.or_eq_false_iff] at hfree
    rw [replace_ite, replace_of_not_occursFree hc hfree.1.1, replace_of_not_occursFree hy hfree.1.2,
      replace_of_not_occursFree hn hfree.2]
    exact mkIte_again ht rfl rfl rfl
  | .nary op ts, ht, hfree => by
    rw [replace_nary, replaceList_of_not_occursFree ht.2.1 hfree]
    exact mkNary_again ht rfl
  | .quantified q vs body, ht, hfree => by
    rw [replace_quantified]
    split
    · rfl
    · rename_i hbound
      have hbody : body.occursFree old = false := by
        rw [← Bool.not_eq_true] at hfree ⊢
        exact fun h => hfree (occursFree_quantified.2 ⟨Bool.eq_false_iff.2 hbound, h⟩)
      rw [replace_of_not_occursFree ht.2.1 hbody]
      exact mkQuantified_again ht rfl
  | .call f ts, ht, hfree => by
    rw [replace_call, replaceList_of_not_occursFree ht.1 hfree]
    exact mkCall_again ht rfl

theorem replaceList_of_not_occursFree : ∀ {ts : List Term}, BuiltAll ts →
    (freeOccurrencesList ts).any (· == old) = false →
    replaceList ts (.variable old) new = .ok ts
  | [], _, _ => rfl
  | t :: ts, ⟨ht, hts⟩, hfree => by
    rw [freeOccurrencesList, List.any_append, Bool.or_eq_false_iff] at hfree
    rw [replaceList, replace_of_not_occursFree ht hfree.1, replaceList_of_not_occursFree hts hfree.2]
    rfl

end

mutual

/-- A term with another in the place of the variable is what replacement returns. -/
theorem Replaced.replace_eq {p : String → Prop} (hsort : new.sort = old.sort) : ∀ {t u : Term},
    Replaced old new p t u → t.Built → t.replace (.variable old) new = .ok u
  | _, _, .self h, ht => replace_of_not_occursFree ht h
  | _, _, .variable h, _ => by rw [replace_variable, if_pos h]
  | _, _, .unary h, ht => by
    rw [replace_unary, h.replace_eq hsort ht.1]
    exact mkUnary_again ht (h.sort hsort)
  | _, _, .binary hl hr, ht => by
    rw [replace_binary, hl.replace_eq hsort ht.1, hr.replace_eq hsort ht.2.1]
    exact mkBinary_again ht (hl.sort hsort) (hr.sort hsort)
  | _, _, .ite hc hy hn, ht => by
    rw [replace_ite, hc.replace_eq hsort ht.1, hy.replace_eq hsort ht.2.1,
      hn.replace_eq hsort ht.2.2.1]
    exact mkIte_again ht (hc.sort hsort) (hy.sort hsort) (hn.sort hsort)
  | _, _, .nary h, ht => by
    rw [replace_nary, AllReplaced.replaceList_eq hsort h ht.2.1]
    exact mkNary_again ht (AllReplaced.sorts hsort h)
  | _, _, .quantified hold _ h, ht => by
    rw [replace_quantified, hold, h.replace_eq hsort ht.2.1]
    exact mkQuantified_again ht (h.sort hsort)
  | _, _, .call h, ht => by
    rw [replace_call, AllReplaced.replaceList_eq hsort h ht.1]
    exact mkCall_again ht (AllReplaced.sorts hsort h)

theorem AllReplaced.replaceList_eq {p : String → Prop} (hsort : new.sort = old.sort) :
    ∀ {ts us : List Term}, AllReplaced old new p ts us → BuiltAll ts →
    replaceList ts (.variable old) new = .ok us
  | _, _, .nil, _ => rfl
  | _, _, .cons h hs, ⟨ht, hts⟩ => by
    rw [replaceList, h.replace_eq hsort ht, AllReplaced.replaceList_eq hsort hs hts]
    rfl

end

mutual

/-- The binders around an occurrence are binders of the term. -/
theorem mem_boundNames_of_mem_bindersOver {x b : Variable} {bs : List Variable} (hb : b ∈ bs) :
    ∀ {t : Term}, bs ∈ t.bindersOver x → b.name ∈ t.boundNames
  | .variable v, h => by
    rw [bindersOver, List.mem_ite_nil_right, List.mem_singleton] at h
    rw [h.2] at hb
    cases hb
  | .unary _ t, h => mem_boundNames_of_mem_bindersOver (t := t) hb h
  | .binary _ l r, h => by
    rw [boundNames, List.mem_append]
    exact (List.mem_append.1 h).imp (mem_boundNames_of_mem_bindersOver hb)
      (mem_boundNames_of_mem_bindersOver hb)
  | .ite c y n, h => by
    rw [boundNames, List.mem_append, List.mem_append]
    refine (List.mem_append.1 h).imp (fun h => ?_) (mem_boundNames_of_mem_bindersOver hb)
    exact (List.mem_append.1 h).imp (mem_boundNames_of_mem_bindersOver hb)
      (mem_boundNames_of_mem_bindersOver hb)
  | .nary _ ts, h => mem_boundNamesList_of_mem_bindersOver (l := ts) hb h
  | .quantified _ vs body, h => by
    obtain ⟨inner, hinner, rfl⟩ := List.mem_map.1 h
    rw [boundNames, List.mem_append]
    rcases List.mem_append.1 hb with hb | hb
    · exact Or.inl (List.mem_map_of_mem hb)
    · exact Or.inr (mem_boundNames_of_mem_bindersOver hb hinner)
  | .call _ ts, h => mem_boundNamesList_of_mem_bindersOver (l := ts) hb h

theorem mem_boundNamesList_of_mem_bindersOver {x b : Variable} {bs : List Variable} (hb : b ∈ bs) :
    ∀ {l : List Term}, bs ∈ bindersOverList x l → b.name ∈ boundNamesList l
  | t :: ts, h => by
    rw [boundNamesList, List.mem_append]
    exact (List.mem_append.1 h).imp (mem_boundNames_of_mem_bindersOver hb)
      (mem_boundNamesList_of_mem_bindersOver hb)

end

/-- Binders of other names capture nothing. -/
theorem not_captures_of_boundNames {t : Term} (h : ∀ name ∈ taken, name ∉ t.boundNames) :
    ¬t.Captures old taken := by
  rintro ⟨bs, hbs, -, b, hb, htaken⟩
  exact h b.name htaken (mem_boundNames_of_mem_bindersOver hb hbs)

end Agreement

/-- **Replacement of a variable agrees with substitution.** Wherever substitution returns a term
replacement returns the same term; and substitution does return one if no binder of the term
declares the name of a free variable of the new term. -/
theorem replace_agrees_with_substitute {e t : Term} {x : Variable} (he : e.Built)
    (hsort : t.sort = x.sort) :
    (∀ r, e.substitute x t = .ok r → e.replace x.term t = .ok r) ∧
    ((∀ v ∈ t.freeVariables, v.name ∉ e.boundNames) → ∃ r, e.substitute x t = .ok r) := by
  constructor
  · intro r hr
    exact (replaced_substitute hr).replace_eq hsort he
  · intro hapart
    refine (substitute_outcome he).2.2.1.2 ⟨hsort, not_captures_of_boundNames fun name hname => ?_⟩
    obtain ⟨v, hv, rfl⟩ := List.mem_map.1 hname
    exact hapart v hv

/-- In the place of `x` both put `w`; `z` is put there by replacement alone, as a binder captures
it. -/
theorem replace_agrees_with_substitute_freeAndBound :
    (∃ r, freeAndBound.substitute (atomVariable "x") (atomVariable "w").term = .ok r ∧
      freeAndBound.replace (atomVariable "x").term (atomVariable "w").term = .ok r) ∧
    (∃ r, freeAndBound.replace (atomVariable "x").term (atomVariable "z").term = .ok r) ∧
    ¬∃ r, freeAndBound.substitute (atomVariable "x") (atomVariable "z").term = .ok r := by
  have hw := replace_agrees_with_substitute (t := (atomVariable "w").term)
    (x := atomVariable "x") built_freeAndBound rfl
  obtain ⟨r, hr⟩ := hw.2 (by decide)
  refine ⟨⟨r, hr, hw.1 r hr⟩, ?_, ?_⟩
  · have hsort : (atomVariable "z").term.sort = (atomVariable "x").term.sort := rfl
    exact (retains_replace hsort trivial built_freeAndBound).imp fun _ hu => hu.1
  · rintro ⟨r, hr⟩
    exact ((substitute_outcome built_freeAndBound).2.2.1.1 ⟨r, hr⟩).2 (by decide)

end RelSmt.Term
