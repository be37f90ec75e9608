import RelSmt.Proofs.Term.Parts

/-!
# Terms that bind no name again

A quantifier binds a name again when one around it binds that name already. `Term.rebinds` looks for
such a quantifier from the outside in, and knows on its way the names that are bound around. A term
that binds no name again may stand below other quantifiers, as long as these bind none of its names
(`rebinds_append`). So terms are put together under a condition on bound names alone, which
`Term.Unshadowed` makes a part of the invariant.
-/

namespace RelSmt

namespace Term

mutual

/-- Does a quantifier bind one of the outer names or a name that a quantifier around it binds? -/
def rebinds (outer : List String) : Term → Bool
  | .unary _ t => t.rebinds outer
  | .binary _ l r => l.rebinds outer || r.rebinds outer
  | .ite c y n => c.rebinds outer || y.rebinds outer || n.rebinds outer
  | .nary _ ts => rebindsList outer ts
  | .quantified _ vs body =>
    vs.any (fun v => outer.contains v.name) || body.rebinds (vs.map Variable.name ++ outer)
  | .call _ ts => rebindsList outer ts
  | _ => false

/-- Does a quantifier in one of the terms do so? -/
def rebindsList (outer : List String) : List Term → Bool
  | [] => false
  | t :: ts => t.rebinds outer || rebindsList outer ts

end

/-! ## Outer names -/

/-- No outer name is a name of these binders. -/
theorem any_binders_eq_false {vs : List Variable} {outer : List String} :
    vs.any (fun v => outer.contains v.name) = false ↔ ∀ x ∈ vs.map Variable.name, x ∉ outer := by
  simp

mutual

/-- More names may be bound around a term that has no binder of these names. -/
theorem rebinds_append (outer more : List String) : ∀ t : Term,
    t.rebinds (outer ++ more) = false ↔
      t.rebinds outer = false ∧ ∀ x ∈ t.boundNames, x ∉ more
  | .literal _ => by simp [rebinds, boundNames]
  | .variable _ => by simp [rebinds, boundNames]
  | .symbol _ => by simp [rebinds, boundNames]
  | .emptySet _ => by simp [rebinds, boundNames]
  | .fullSet _ => by simp [rebinds, boundNames]
  | .unary _ t => rebinds_append outer more t
  | .binary _ l r => by
    simp only [rebinds, boundNames, Bool.or_eq_false_iff, rebinds_append outer more l,
      rebinds_append outer more r, List.forall_mem_append]
    exact and_and_and_comm
  | .ite c y n => by
    simp only [rebinds, boundNames, Bool.or_eq_false_iff, rebinds_append outer more c,
      rebinds_append outer more y, rebinds_append outer more n, List.forall_mem_append]
    tauto
  | .nary _ ts => rebindsList_append outer more ts
  | .quantified _ vs body => by
    simp only [rebinds, boundNames, Bool.or_eq_false_iff, any_binders_eq_false,
      ← List.append_assoc, rebinds_append _ more body, List.forall_mem_append]
    have hbinders : (∀ x ∈ vs.map Variable.name, x ∉ outer ++ more) ↔
        (∀ x ∈ vs.map Variable.name, x ∉ outer) ∧ ∀ x ∈ vs.map Variable.name, x ∉ more := by
      simp only [List.mem_append, not_or, ← forall_and]
    rw [hbinders]
    exact and_and_and_comm
  | .call _ ts => rebindsList_append outer more ts

theorem rebindsList_append (outer more : List String) : ∀ ts : List Term,
    rebindsList (outer ++ more) ts = false ↔
      rebindsList outer ts = false ∧ ∀ x ∈ boundNamesList ts, x ∉ more
  | [] => by simp [rebindsList, boundNamesList]
  | t :: ts => by
    simp only [rebindsList, boundNamesList, Bool.or_eq_false_iff, rebinds_append outer more t,
      rebindsList_append outer more ts, List.forall_mem_append]
    exact and_and_and_comm

end

theorem rebindsList_eq_false {outer : List String} {ts : List Term} :
    rebindsList outer ts = false ↔ ∀ t ∈ ts, t.rebinds outer = false := by
  induction ts with
  | nil => simp [rebindsList]
  | cons t ts ih => simp [rebindsList, ih]

theorem forall_boundNamesList {p : String → Prop} {ts : List Term} :
    (∀ x ∈ boundNamesList ts, p x) ↔ ∀ t ∈ ts, ∀ x ∈ t.boundNames, p x := by
  induction ts with
  | nil => simp [boundNamesList]
  | cons t ts ih => simp only [boundNamesList, List.forall_mem_append, ih, List.forall_mem_cons]

/-! ## Terms without shadowing -/

/-- Does the term bind no name again, and are all names that it binds of `p`? -/
structure Unshadowed (p : String → Prop) (t : Term) : Prop where
  once : t.rebinds [] = false
  names : ∀ x ∈ t.boundNames, p x

variable {p p' : String → Prop} {t u : Term}

theorem Unshadowed.mono (h : t.Unshadowed p) (hp : ∀ x, p x → p' x) : t.Unshadowed p' :=
  ⟨h.once, fun x hx => hp x (h.names x hx)⟩

/-- A quantifier may stand around a term that has no binder of its names. -/
theorem unshadowed_quantified {q : Quantifier} {vs : List Variable} (ht : t.Unshadowed p)
    (hvs : ∀ v ∈ vs, p v.name) (hne : ∀ x ∈ t.boundNames, ∀ v ∈ vs, x ≠ v.name) :
    (Term.quantified q vs t).Unshadowed p where
  once := by
    -- for the body the names of this quantifier are outer names
    have hbody : t.rebinds ([] ++ vs.map Variable.name) = false := by
      refine (rebinds_append _ _ t).2 ⟨ht.once, fun x hx hmem => ?_⟩
      obtain ⟨v, hv, rfl⟩ := List.mem_map.1 hmem
      exact hne _ hx v hv rfl
    simpa [rebinds] using hbody
  names x hx := by
    rw [boundNames, List.mem_append] at hx
    rcases hx with hx | hx
    · obtain ⟨v, hv, rfl⟩ := List.mem_map.1 hx
      exact hvs v hv
    · exact ht.names x hx

theorem unshadowed_ite {c y n : Term} (hc : c.Unshadowed p) (hy : y.Unshadowed p)
    (hn : n.Unshadowed p) : (Term.ite c y n).Unshadowed p where
  once := by simp [rebinds, hc.once, hy.once, hn.once]
  names := by
    simp only [boundNames, List.forall_mem_append]
    exact ⟨⟨hc.names, hy.names⟩, hn.names⟩

theorem unshadowed_call {f : FunctionSymbol} {ts : List Term} (hts : ∀ t ∈ ts, t.Unshadowed p) :
    (Term.call f ts).Unshadowed p :=
  ⟨rebindsList_eq_false.2 fun t ht => (hts t ht).once,
    forall_boundNamesList.2 fun t ht => (hts t ht).names⟩

theorem unshadowed_variable (v : Variable) : (Term.variable v).Unshadowed p :=
  ⟨rfl, by simp [boundNames]⟩

theorem unshadowed_symbol (f : FunctionSymbol) : (Term.symbol f).Unshadowed p :=
  ⟨rfl, by simp [boundNames]⟩

instance : Composes (Unshadowed p) where
  literal _ := ⟨rfl, by simp [boundNames]⟩
  emptySet _ := ⟨rfl, by simp [boundNames]⟩
  fullSet _ := ⟨rfl, by simp [boundNames]⟩
  unary h := ⟨h.once, h.names⟩
  binary hl hr :=
    ⟨by simp [rebinds, hl.once, hr.once], List.forall_mem_append.2 ⟨hl.names, hr.names⟩⟩
  nary h := ⟨rebindsList_eq_false.2 fun t ht => (h t ht).once,
    forall_boundNamesList.2 fun t ht => (h t ht).names⟩

theorem Unshadowed.apply {f : FunctionSymbol} {ts : List Term} (h : f.apply ts = .ok u)
    (hts : ∀ t ∈ ts, t.Unshadowed p) : u.Unshadowed p := by
  obtain ⟨_, rfl⟩ := FunctionSymbol.apply_eq_ok.1 h
  split
  · exact unshadowed_symbol f
  · exact unshadowed_call hts

/-! ## Exchanged variables -/

mutual

/-- What has no binder may take the place of variables: the binders stay as they are. -/
theorem Exchanged.binders {new : Term} (hnew : new.Unshadowed fun _ => False) : ∀ {t u : Term},
    Exchanged new t u →
      u.boundNames = t.boundNames ∧ ∀ outer, u.rebinds outer = t.rebinds outer
  | _, _, .self _ => ⟨rfl, fun _ => rfl⟩
  | _, _, .variable _ => by
    -- the new term has no binder at all, so outer names cannot matter to it
    refine ⟨List.eq_nil_iff_forall_not_mem.2 hnew.names, fun outer => ?_⟩
    exact (rebinds_append [] outer new).2 ⟨hnew.once, fun x hx => (hnew.names x hx).elim⟩
  | .unary _ t, .unary _ u, .unary h => Exchanged.binders hnew (t := t) (u := u) h
  | _, _, .binary hl hr => by
    obtain ⟨hlnames, hlonce⟩ := Exchanged.binders hnew hl
    obtain ⟨hrnames, hronce⟩ := Exchanged.binders hnew hr
    exact ⟨by rw [boundNames, boundNames, hlnames, hrnames],
      fun outer => by rw [rebinds, rebinds, hlonce, hronce]⟩
  | _, _, .ite hc hy hn => by
    obtain ⟨hcnames, hconce⟩ := Exchanged.binders hnew hc
    obtain ⟨hynames, hyonce⟩ := Exchanged.binders hnew hy
    obtain ⟨hnnames, hnonce⟩ := Exchanged.binders hnew hn
    exact ⟨by rw [boundNames, boundNames, hcnames, hynames, hnnames],
      fun outer => by rw [rebinds, rebinds, hconce, hyonce, hnonce]⟩
  | _, _, .nary h => AllExchanged.binders hnew h
  | _, _, .quantified h => by
    obtain ⟨hnames, honce⟩ := Exchanged.binders hnew h
    exact ⟨by rw [boundNames, boundNames, hnames],
      fun outer => by rw [rebinds, rebinds, honce]⟩
  | _, _, .call h => AllExchanged.binders hnew h

theorem AllExchanged.binders {new : Term} (hnew : new.Unshadowed fun _ => False) :
    ∀ {l m : List Term}, AllExchanged new l m →
      boundNamesList m = boundNamesList l ∧ ∀ outer, rebindsList outer m = rebindsList outer l
  | _, _, .nil => ⟨rfl, fun _ => rfl⟩
  | _, _, .cons h hs => by
    obtain ⟨hnames, honce⟩ := Exchanged.binders hnew h
    obtain ⟨hsnames, hsonce⟩ := AllExchanged.binders hnew hs
    exact ⟨by rw [boundNamesList, boundNamesList, hnames, hsnames],
      fun outer => by rw [rebindsList, rebindsList, honce, hsonce]⟩

end

theorem Unshadowed.exchanged {new : Term} (hnew : new.Unshadowed fun _ => False)
    (h : Exchanged new t u) (ht : t.Unshadowed p) : u.Unshadowed p := by
  obtain ⟨hnames, honce⟩ := h.binders hnew
  exact ⟨(honce []).trans ht.once, hnames ▸ ht.names⟩

end Term

end RelSmt
