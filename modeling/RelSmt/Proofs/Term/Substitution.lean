import RelSmt.Proofs.Term.Checked
import RelSmt.Proofs.Term.Denotation
import RelSmt.Term.Substitution

/-!
# Substitution and replacement of variables

Both operations put a term in the place of a variable. What is said of either: which variables the
result has, and that its value is the value of the original where the variable has the value of the
term that takes its place. Both are shown of the relation between a term and what either operation
makes of it (`Replaced`).

Substitution checks for capture, so its law has no condition. Replacement does not: its law asks
that no binder of the original has the name of a variable of the new term.
-/

namespace RelSmt.Term

variable {E : Type}

/-! ## A term in the place of a variable -/

mutual

/-- Is the second term the first one with `new` in the place of `old` wherever `old` is free? A
binder of the variable's name hides it; the binders around what changes have names of `p`. -/
inductive Replaced (old : Variable) (new : Term) (p : String → Prop) : Term → Term → Prop where
  | self {t : Term} (h : t.occursFree old = false) : Replaced old new p t t
  | variable {v : Variable} (h : (v == old) = true) : Replaced old new p (.variable v) new
  | unary {op : UnaryOp} {t t' : Term} (h : Replaced old new p t t') :
      Replaced old new p (.unary op t) (.unary op t')
  | binary {op : BinaryOp} {l l' r r' : Term} (hl : Replaced old new p l l')
      (hr : Replaced old new p r r') : Replaced old new p (.binary op l r) (.binary op l' r')
  | ite {c c' y y' n n' : Term} (hc : Replaced old new p c c') (hy : Replaced old new p y y')
      (hn : Replaced old new p n n') : Replaced old new p (.ite c y n) (.ite c' y' n')
  | nary {op : NaryOp} {ts ts' : List Term} (h : AllReplaced old new p ts ts') :
      Replaced old new p (.nary op ts) (.nary op ts')
  | quantified {q : Quantifier} {vs : List Variable} {t t' : Term}
      (hold : bindsName vs old.name = false) (hp : ∀ v ∈ vs, p v.name)
      (h : Replaced old new p t t') : Replaced old new p (.quantified q vs t) (.quantified q vs t')
  | call {f : FunctionSymbol} {ts ts' : List Term} (h : AllReplaced old new p ts ts') :
      Replaced old new p (.call f ts) (.call f ts')

/-- Does the term take the place of the variable in several terms, one by one? -/
inductive AllReplaced (old : Variable) (new : Term) (p : String → Prop) :
    List Term → List Term → Prop where
  | nil : AllReplaced old new p [] []
  | cons {t t' : Term} {ts ts' : List Term} (h : Replaced old new p t t')
      (hs : AllReplaced old new p ts ts') : AllReplaced old new p (t :: ts) (t' :: ts')

end

section Replaced

variable {old : Variable} {new : Term} {p : String → Prop}

/-- What is free in a term after a variable, free there or not, makes way for a term. -/
def FreeAfter (t : Term) (old : Variable) (new : Term) (w : Variable) : Prop :=
  (w ∈ t.freeOccurrences ∧ (w == old) = false) ∨
    (t.occursFree old = true ∧ w ∈ new.freeOccurrences)

/-- Is the variable one of these but not `old`, or is `old` one of these and `q` the case? -/
def LeftOr (vs : List Variable) (old w : Variable) (q : Prop) : Prop :=
  (w ∈ vs ∧ (w == old) = false) ∨ (vs.any (· == old) = true ∧ q)

theorem leftOr_append {vs ws : List Variable} {w : Variable} {q : Prop} :
    LeftOr (vs ++ ws) old w q ↔ LeftOr vs old w q ∨ LeftOr ws old w q := by
  simp only [LeftOr, List.mem_append, List.any_append, Bool.or_eq_true, or_and_right]
  exact or_or_or_comm

mutual

/-- What is free in the result was free in the term, or comes in with the new term. -/
theorem Replaced.leftOr_of_mem {w : Variable} : ∀ {t u : Term}, Replaced old new p t u →
    w ∈ u.freeOccurrences → LeftOr t.freeOccurrences old w (w ∈ new.freeOccurrences)
  | _, _, .self h, hw => Or.inl ⟨hw, beq_eq_false_of_not_occursFree h hw⟩
  | _, _, .variable h, hw => Or.inr ⟨by simp [freeOccurrences, h], hw⟩
  | .unary _ t, .unary _ u, .unary h, hw => Replaced.leftOr_of_mem (t := t) (u := u) h hw
  | _, _, .binary hl hr, hw =>
    leftOr_append.2 ((List.mem_append.1 hw).imp hl.leftOr_of_mem hr.leftOr_of_mem)
  | _, _, .ite hc hy hn, hw => by
    refine leftOr_append.2 ((List.mem_append.1 hw).imp (fun hw => ?_) hn.leftOr_of_mem)
    exact leftOr_append.2 ((List.mem_append.1 hw).imp hc.leftOr_of_mem hy.leftOr_of_mem)
  | _, _, .nary h, hw => AllReplaced.leftOr_of_mem h hw
  | _, _, .quantified hold _ h, hw => by
    obtain ⟨hw, hfree⟩ := mem_freeOccurrences_quantified.1 hw
    rcases h.leftOr_of_mem hw with ⟨hw, hne⟩ | ⟨hfound, hw⟩
    · exact Or.inl ⟨mem_freeOccurrences_quantified.2 ⟨hw, hfree⟩, hne⟩
    · exact Or.inr ⟨occursFree_quantified.2 ⟨hold, hfound⟩, hw⟩
  | _, _, .call h, hw => AllReplaced.leftOr_of_mem h hw

theorem AllReplaced.leftOr_of_mem {w : Variable} : ∀ {ts us : List Term},
    AllReplaced old new p ts us → w ∈ freeOccurrencesList us →
    LeftOr (freeOccurrencesList ts) old w (w ∈ new.freeOccurrences)
  | _, _, .nil, hw => by simp [freeOccurrencesList] at hw
  | _, _, .cons h hs, hw =>
    leftOr_append.2 ((List.mem_append.1 hw).imp h.leftOr_of_mem hs.leftOr_of_mem)

end

mutual

/-- What was free stays so, and what is free in the new term comes in where no binder around the
variable can capture it. -/
theorem Replaced.mem_of_leftOr {w : Variable} {q : Prop}
    (hq : q → w ∈ new.freeOccurrences ∧ ¬p w.name) : ∀ {t u : Term}, Replaced old new p t u →
    LeftOr t.freeOccurrences old w q → w ∈ u.freeOccurrences
  | t, _, .self h, hw => by
    rcases hw with ⟨hw, _⟩ | ⟨hfound, _⟩
    · exact hw
    · exact absurd (show t.occursFree old = true from hfound) (by simp [h])
  | _, _, .variable h, hw => by
    rcases hw with ⟨hw, hne⟩ | ⟨_, hw⟩
    · rw [freeOccurrences, List.mem_singleton] at hw
      simp [hw, h] at hne
    · exact (hq hw).1
  | .unary _ t, .unary _ u, .unary h, hw => Replaced.mem_of_leftOr hq (t := t) (u := u) h hw
  | _, _, .binary hl hr, hw =>
    List.mem_append.2 ((leftOr_append.1 hw).imp (hl.mem_of_leftOr hq) (hr.mem_of_leftOr hq))
  | _, _, .ite hc hy hn, hw => by
    refine List.mem_append.2 ((leftOr_append.1 hw).imp (fun hw => ?_) (hn.mem_of_leftOr hq))
    exact List.mem_append.2
      ((leftOr_append.1 hw).imp (hc.mem_of_leftOr hq) (hy.mem_of_leftOr hq))
  | _, _, .nary h, hw => AllReplaced.mem_of_leftOr hq h hw
  | _, _, .quantified _ hp h, hw => by
    rw [mem_freeOccurrences_quantified]
    rcases hw with ⟨hw, hne⟩ | ⟨hfound, hw⟩
    · obtain ⟨hw, hfree⟩ := mem_freeOccurrences_quantified.1 hw
      exact ⟨h.mem_of_leftOr hq (Or.inl ⟨hw, hne⟩), hfree⟩
    · refine ⟨h.mem_of_leftOr hq (Or.inr ⟨(occursFree_quantified.1 hfound).2, hw⟩), ?_⟩
      exact fun v hv he => (hq hw).2 (he ▸ hp v hv)
  | _, _, .call h, hw => AllReplaced.mem_of_leftOr hq h hw

theorem AllReplaced.mem_of_leftOr {w : Variable} {q : Prop}
    (hq : q → w ∈ new.freeOccurrences ∧ ¬p w.name) : ∀ {ts us : List Term},
    AllReplaced old new p ts us → LeftOr (freeOccurrencesList ts) old w q →
    w ∈ freeOccurrencesList us
  | _, _, .nil, hw => by simp [LeftOr, freeOccurrencesList] at hw
  | _, _, .cons h hs, hw =>
    List.mem_append.2 ((leftOr_append.1 hw).imp (h.mem_of_leftOr hq) (hs.mem_of_leftOr hq))

end

/-- **The variable makes way, and the variables of the new term come in**, these only where the
variable was free. -/
theorem Replaced.mem_freeOccurrences (hnew : ∀ w ∈ new.freeOccurrences, ¬p w.name) {t u : Term}
    (h : Replaced old new p t u) {w : Variable} :
    w ∈ u.freeOccurrences ↔ t.FreeAfter old new w :=
  ⟨h.leftOr_of_mem, h.mem_of_leftOr fun hw => ⟨hw, hnew w hw⟩⟩

mutual

/-- The binders are those of the term and those of the new term. -/
theorem Replaced.mem_boundNames {name : String} : ∀ {t u : Term}, Replaced old new p t u →
    name ∈ u.boundNames → name ∈ t.boundNames ∨ name ∈ new.boundNames
  | _, _, .self _, hn => Or.inl hn
  | _, _, .variable _, hn => Or.inr hn
  | .unary _ t, .unary _ u, .unary h, hn => Replaced.mem_boundNames (t := t) (u := u) h hn
  | _, _, .binary hl hr, hn => by
    simp only [boundNames, List.mem_append] at hn ⊢
    rcases hn with hn | hn
    · exact (hl.mem_boundNames hn).imp_left Or.inl
    · exact (hr.mem_boundNames hn).imp_left Or.inr
  | _, _, .ite hc hy hn', hn => by
    simp only [boundNames, List.mem_append] at hn ⊢
    rcases hn with (hn | hn) | hn
    · exact (hc.mem_boundNames hn).imp_left fun h => Or.inl (Or.inl h)
    · exact (hy.mem_boundNames hn).imp_left fun h => Or.inl (Or.inr h)
    · exact (hn'.mem_boundNames hn).imp_left Or.inr
  | _, _, .nary h, hn => AllReplaced.mem_boundNames h hn
  | _, _, .quantified _ _ h, hn => by
    simp only [boundNames, List.mem_append] at hn ⊢
    rcases hn with hn | hn
    · exact Or.inl (Or.inl hn)
    · exact (h.mem_boundNames hn).imp_left Or.inr
  | _, _, .call h, hn => AllReplaced.mem_boundNames h hn

theorem AllReplaced.mem_boundNames {name : String} : ∀ {ts us : List Term},
    AllReplaced old new p ts us → name ∈ boundNamesList us →
    name ∈ boundNamesList ts ∨ name ∈ new.boundNames
  | _, _, .nil, hn => Or.inl hn
  | _, _, .cons h hs, hn => by
    simp only [boundNamesList, List.mem_append] at hn ⊢
    rcases hn with hn | hn
    · exact (h.mem_boundNames hn).imp_left Or.inl
    · exact (hs.mem_boundNames hn).imp_left Or.inr

end

/-- Where a variable is not free it may have any value. -/
theorem eval_set_of_not_occursFree (I : Interpretation E) {t : Term} {ρ : Assignment E}
    {v : Variable} (a : Value E) (h : t.occursFree v = false) :
    t.eval I (ρ.set v a) = t.eval I ρ := by
  refine eval_congr I t fun w hw => Assignment.get_set_of_ne ρ a fun he => ?_
  have : w == v := Variable.beq_iff.2 he
  simp only [occursFree, List.any_eq_false] at h
  exact h w hw this

/-- Inside binders of other names than those of `old` and of the variables of `new`, giving `old`
the value of `new` comes to the same as outside. -/
theorem bindAll_set_eval (I : Interpretation E) {vs : List Variable} (ρ : Assignment E)
    (as : List (Value E)) (hold : ∀ v ∈ vs, v.name ≠ old.name)
    (hnew : ∀ v ∈ vs, ∀ w ∈ new.freeOccurrences, w.name ≠ v.name) :
    (ρ.bindAll vs as).set old (new.eval I (ρ.bindAll vs as))
      = (ρ.set old (new.eval I ρ)).bindAll vs as := by
  rw [Assignment.bindAll_set_comm ρ _ vs as hold,
    eval_bindAll_of_fresh I as ρ fun w hw v hv => hnew v hv w hw]

mutual

/-- **A term in the place of a variable means another value for the variable**, where no binder
around the variable can capture a variable of the term. -/
theorem Replaced.eval (I : Interpretation E) (hnew : ∀ w ∈ new.freeOccurrences, ¬p w.name) :
    ∀ {t u : Term} {ρ : Assignment E}, Replaced old new p t u →
    u.eval I ρ = t.eval I (ρ.set old (new.eval I ρ))
  | _, _, _, .self h => (eval_set_of_not_occursFree I _ h).symm
  | _, _, ρ, .variable h => by
    obtain ⟨hname, hsort⟩ := Variable.beq_iff.1 h
    simp [Term.eval, Assignment.get, Assignment.set, hname, hsort]
  | _, _, _, .unary h => by simp only [Term.eval, h.eval I hnew]
  | _, _, _, .binary hl hr => by simp only [Term.eval, hl.eval I hnew, hr.eval I hnew]
  | _, _, _, .ite hc hy hn => by
    simp only [Term.eval]
    rw [hc.eval I hnew, hy.eval I hnew, hn.eval I hnew]
  | _, _, _, .nary h => by simp only [Term.eval, AllReplaced.evalAll I hnew h]
  | .quantified q vs body, .quantified _ _ body', ρ, .quantified hold hp h => by
    have hold' : ∀ v ∈ vs, v.name ≠ old.name := by
      simpa only [bindsName, List.any_eq_false, beq_iff_eq] using hold
    have step : ∀ as, body'.eval I (ρ.bindAll vs as)
        = body.eval I ((ρ.set old (new.eval I ρ)).bindAll vs as) := by
      intro as
      -- the binders are apart from the variable and from the new term, so binding them comes last
      rw [h.eval I hnew, bindAll_set_eval I ρ as hold' fun v hv w hw he =>
        hnew w hw (he ▸ hp v hv)]
    cases q <;> simp only [Term.eval, step]
  | _, _, _, .call h => by simp only [Term.eval, AllReplaced.evalAll I hnew h]

theorem AllReplaced.evalAll (I : Interpretation E)
    (hnew : ∀ w ∈ new.freeOccurrences, ¬p w.name) : ∀ {ts us : List Term} {ρ : Assignment E},
    AllReplaced old new p ts us →
    Term.evalAll I us ρ = Term.evalAll I ts (ρ.set old (new.eval I ρ))
  | _, _, _, .nil => rfl
  | _, _, _, .cons h hs => by
    simp only [Term.evalAll, h.eval I hnew, AllReplaced.evalAll I hnew hs]

end

end Replaced

/-! ## Substitution -/

section Substitution

variable {old : Variable} {new : Term} {taken : List String}

/-- A binder where substitution stops is one under which the variable is not free. -/
theorem occursFree_eq_false_of_stop {q : Quantifier} {vs : List Variable} {body : Term}
    (h : (bindsName vs old.name || !body.occursFree old) = true) :
    (Term.quantified q vs body).occursFree old = false := by
  rw [← Bool.not_eq_true, occursFree_quantified]
  rintro ⟨hname, hfree⟩
  simp [hname, hfree] at h

/-- No binder that substitution passes has a name that is taken. -/
theorem name_not_mem_of_pass {vs : List Variable}
    (h : (vs.find? fun v => taken.contains v.name) = none) : ∀ v ∈ vs, v.name ∉ taken := by
  simpa only [List.find?_eq_none, List.contains_iff_mem] using h

mutual

/-- Substitution puts the term in the place of the variable, under binders of names that are not
taken. -/
theorem replaced_substituteIn : ∀ {t u : Term}, t.substituteIn old new taken = .ok u →
    Replaced old new (· ∉ taken) t u
  | .literal _, u, h => by
    rw [substituteIn] at h
    exact Except.ok.inj h ▸ .self rfl
  | .variable v, u, h => by
    rw [substituteIn] at h
    rw [← Except.ok.inj h]
    split
    · rename_i hv
      exact .variable hv
    · rename_i hv
      exact .self (by simpa [occursFree, freeOccurrences] using hv)
  | .symbol _, u, h => by
    rw [substituteIn] at h
    exact Except.ok.inj h ▸ .self rfl
  | .emptySet _, u, h => by
    rw [substituteIn] at h
    exact Except.ok.inj h ▸ .self rfl
  | .fullSet _, u, h => by
    rw [substituteIn] at h
    exact Except.ok.inj h ▸ .self rfl
  | .unary op t, u, h => by
    simp only [substituteIn, Checked.bind_eq_ok, mkUnary_eq_ok] at h
    obtain ⟨t', ht, _, rfl⟩ := h
    exact .unary (replaced_substituteIn ht)
  | .binary op l r, u, h => by
    simp only [substituteIn, Checked.bind_eq_ok, mkBinary_eq_ok] at h
    obtain ⟨l', hl, r', hr, _, rfl⟩ := h
    exact .binary (replaced_substituteIn hl) (replaced_substituteIn hr)
  | .ite c y n, u, h => by
    simp only [substituteIn, Checked.bind_eq_ok, mkIte_eq_ok] at h
    obtain ⟨c', hc, y', hy, n', hn, _, _, rfl⟩ := h
    exact .ite (replaced_substituteIn hc) (replaced_substituteIn hy) (replaced_substituteIn hn)
  | .nary op ts, u, h => by
    simp only [substituteIn, Checked.bind_eq_ok, mkNary_eq_ok] at h
    obtain ⟨ts', hts, _, _, rfl⟩ := h
    exact .nary (allReplaced_substituteInList hts)
  | .quantified q vs body, u, h => by
    rw [substituteIn] at h
    split at h
    · rename_i hstop
      exact Except.ok.inj h ▸ .self (occursFree_eq_false_of_stop hstop)
    · rename_i hgo
      rw [Bool.or_eq_true, not_or] at hgo
      split at h
      · simp at h
      · rename_i hpass
        simp only [Checked.bind_eq_ok, mkQuantified_eq_ok] at h
        obtain ⟨body', hbody, _, _, rfl⟩ := h
        exact .quantified (Bool.eq_false_iff.2 hgo.1) (name_not_mem_of_pass hpass)
          (replaced_substituteIn hbody)
  | .call f ts, u, h => by
    simp only [substituteIn, Checked.bind_eq_ok, mkCall_eq_ok] at h
    obtain ⟨ts', hts, _, rfl⟩ := h
    exact .call (allReplaced_substituteInList hts)

theorem allReplaced_substituteInList : ∀ {ts us : List Term},
    substituteInList ts old new taken = .ok us → AllReplaced old new (· ∉ taken) ts us
  | [], us, h => by
    rw [substituteInList] at h
    exact Except.ok.inj h ▸ .nil
  | t :: ts, us, h => by
    simp only [substituteInList, Checked.bind_eq_ok, Checked.pure_eq_ok] at h
    obtain ⟨t', ht, ts', hts, rfl⟩ := h
    exact .cons (replaced_substituteIn ht) (allReplaced_substituteInList hts)

end

theorem name_mem_taken {v : Variable} (hv : v ∈ new.freeOccurrences) :
    v.name ∈ new.freeVariables.map Variable.name := by
  obtain ⟨w, hw, he⟩ := exists_mem_freeVariables hv
  exact List.mem_map.2 ⟨w, hw, (Variable.beq_iff.1 he).1.symm⟩

theorem replaced_substitute {t u : Term} (h : t.substitute old new = .ok u) :
    Replaced old new (· ∉ new.freeVariables.map Variable.name) t u := by
  unfold substitute at h
  split at h
  · exact replaced_substituteIn h
  · simp at h

/-- **Substitution takes the variable out and brings in those of the new term**, these only where
the variable was free. -/
theorem mem_freeOccurrences_substitute {t u : Term} {w : Variable}
    (h : t.substitute old new = .ok u) :
    w ∈ u.freeOccurrences ↔ t.FreeAfter old new w :=
  (replaced_substitute h).mem_freeOccurrences fun _ hw => not_not.2 (name_mem_taken hw)

/-- **Substitution means another value for the variable.** -/
theorem eval_substitute (I : Interpretation E) {t u : Term} {ρ : Assignment E}
    (h : t.substitute old new = .ok u) : u.eval I ρ = t.eval I (ρ.set old (new.eval I ρ)) :=
  (replaced_substitute h).eval I fun _ hw => not_not.2 (name_mem_taken hw)

end Substitution

/-! ## Replacement of a variable -/

section Replacement

variable {old : Variable} {new : Term}

attribute [local simp] replace

@[simp] theorem variable_beq_variable {v w : Variable} :
    (Term.variable v == Term.variable w) = (v == w) := by
  rw [show (Term.variable v == Term.variable w) = beq (.variable v) (.variable w) from rfl, beq]

/-- Only a variable is equal to a variable. -/
theorem beq_variable_eq_false {t : Term} {v : Variable} (h : ∀ w, t ≠ .variable w) :
    (t == Term.variable v) = false := by
  rw [show (t == Term.variable v) = beq t (.variable v) from rfl]
  cases t with
  | «variable» w => exact absurd rfl (h w)
  | _ => simp [beq]

theorem replace_variable (v : Variable) :
    (Term.variable v).replace (.variable old) new
      = .ok (if v == old then new else .variable v) := by
  simp only [replace, variable_beq_variable]
  split <;> rfl

theorem replace_literal (c : Literal) :
    (Term.literal c).replace (.variable old) new = .ok (.literal c) := by
  rw [replace, beq_variable_eq_false (by simp), if_neg (by simp)]

theorem replace_symbol (f : FunctionSymbol) :
    (Term.symbol f).replace (.variable old) new = .ok (.symbol f) := by
  rw [replace, beq_variable_eq_false (by simp), if_neg (by simp)]

theorem replace_emptySet (s : SmtSort) :
    (Term.emptySet s).replace (.variable old) new = .ok (.emptySet s) := by
  rw [replace, beq_variable_eq_false (by simp), if_neg (by simp)]

theorem replace_fullSet (s : SmtSort) :
    (Term.fullSet s).replace (.variable old) new = .ok (.fullSet s) := by
  rw [replace, beq_variable_eq_false (by simp), if_neg (by simp)]

theorem replace_unary (op : UnaryOp) (t : Term) :
    (Term.unary op t).replace (.variable old) new = (do
      mkUnary op (← t.replace (.variable old) new)) := by
  rw [replace, beq_variable_eq_false (by simp), if_neg (by simp)]

theorem replace_binary (op : BinaryOp) (l r : Term) :
    (Term.binary op l r).replace (.variable old) new = (do
      mkBinary op (← l.replace (.variable old) new) (← r.replace (.variable old) new)) := by
  rw [replace, beq_variable_eq_false (by simp), if_neg (by simp)]

theorem replace_ite (c y n : Term) :
    (Term.ite c y n).replace (.variable old) new = (do
      mkIte (← c.replace (.variable old) new) (← y.replace (.variable old) new)
        (← n.replace (.variable old) new)) := by
  rw [replace, beq_variable_eq_false (by simp), if_neg (by simp)]

theorem replace_nary (op : NaryOp) (ts : List Term) :
    (Term.nary op ts).replace (.variable old) new = (do
      mkNary op (← replaceList ts (.variable old) new)) := by
  rw [replace, beq_variable_eq_false (by simp), if_neg (by simp)]

theorem replace_call (f : FunctionSymbol) (ts : List Term) :
    (Term.call f ts).replace (.variable old) new = (do
      mkCall f (← replaceList ts (.variable old) new)) := by
  rw [replace, beq_variable_eq_false (by simp), if_neg (by simp)]

theorem replace_quantified (q : Quantifier) (vs : List Variable) (body : Term) :
    (Term.quantified q vs body).replace (.variable old) new =
      if bindsName vs old.name then .ok (.quantified q vs body)
      else (do mkQuantified q vs (← body.replace (.variable old) new)) := by
  rw [replace, beq_variable_eq_false (by simp), if_neg (by simp)]
  rfl

mutual

/-- Replacement puts the term in the place of the variable, under binders of the term. -/
theorem replaced_replace {p : String → Prop} : ∀ {t u : Term}, (∀ x ∈ t.boundNames, p x) →
    t.replace (.variable old) new = .ok u → Replaced old new p t u
  | .literal _, u, _, h => by
    rw [replace_literal] at h
    exact Except.ok.inj h ▸ .self rfl
  | .variable v, u, _, h => by
    rw [replace_variable] at h
    rw [← Except.ok.inj h]
    split
    · rename_i hv
      exact .variable hv
    · rename_i hv
      exact .self (by simpa [occursFree, freeOccurrences] using hv)
  | .symbol _, u, _, h => by
    rw [replace_symbol] at h
    exact Except.ok.inj h ▸ .self rfl
  | .emptySet _, u, _, h => by
    rw [replace_emptySet] at h
    exact Except.ok.inj h ▸ .self rfl
  | .fullSet _, u, _, h => by
    rw [replace_fullSet] at h
    exact Except.ok.inj h ▸ .self rfl
  | .unary op t, u, hp, h => by
    simp only [replace_unary, Checked.bind_eq_ok, mkUnary_eq_ok] at h
    obtain ⟨t', ht, _, rfl⟩ := h
    exact .unary (replaced_replace hp ht)
  | .binary op l r, u, hp, h => by
    simp only [replace_binary, Checked.bind_eq_ok, mkBinary_eq_ok] at h
    obtain ⟨l', hl, r', hr, _, rfl⟩ := h
    obtain ⟨hpl, hpr⟩ := List.forall_mem_append.1 hp
    exact .binary (replaced_replace hpl hl) (replaced_replace hpr hr)
  | .ite c y n, u, hp, h => by
    simp only [replace_ite, Checked.bind_eq_ok, mkIte_eq_ok] at h
    obtain ⟨c', hc, y', hy, n', hn, _, _, rfl⟩ := h
    obtain ⟨hp, hpn⟩ := List.forall_mem_append.1 hp
    obtain ⟨hpc, hpy⟩ := List.forall_mem_append.1 hp
    exact .ite (replaced_replace hpc hc) (replaced_replace hpy hy) (replaced_replace hpn hn)
  | .nary op ts, u, hp, h => by
    simp only [replace_nary, Checked.bind_eq_ok, mkNary_eq_ok] at h
    obtain ⟨ts', hts, _, _, rfl⟩ := h
    exact .nary (allReplaced_replaceList hp hts)
  | .quantified q vs body, u, hp, h => by
    rw [replace_quantified] at h
    split at h
    · -- a binder of the name hides the variable
      rename_i hbound
      refine Except.ok.inj h ▸ .self (Bool.eq_false_iff.2 fun hfree => ?_)
      exact absurd hbound (by simp [(occursFree_quantified.1 hfree).1])
    · rename_i hgo
      simp only [Checked.bind_eq_ok, mkQuantified_eq_ok] at h
      obtain ⟨body', hbody, _, _, rfl⟩ := h
      obtain ⟨hpvs, hp⟩ := List.forall_mem_append.1 hp
      exact .quantified (Bool.eq_false_iff.2 hgo)
        (fun v hv => hpvs v.name (List.mem_map_of_mem hv)) (replaced_replace hp hbody)
  | .call f ts, u, hp, h => by
    simp only [replace_call, Checked.bind_eq_ok, mkCall_eq_ok] at h
    obtain ⟨ts', hts, _, rfl⟩ := h
    exact .call (allReplaced_replaceList hp hts)

theorem allReplaced_replaceList {p : String → Prop} : ∀ {ts us : List Term},
    (∀ x ∈ boundNamesList ts, p x) → replaceList ts (.variable old) new = .ok us →
    AllReplaced old new p ts us
  | [], us, _, h => by
    rw [replaceList] at h
    exact Except.ok.inj h ▸ .nil
  | t :: ts, us, hp, h => by
    simp only [replaceList, Checked.bind_eq_ok, Checked.pure_eq_ok] at h
    obtain ⟨t', ht, ts', hts, rfl⟩ := h
    obtain ⟨hpt, hp⟩ := List.forall_mem_append.1 hp
    exact .cons (replaced_replace hpt ht) (allReplaced_replaceList hp hts)

end

variable {t u : Term} {w : Variable}

/-- Replacement takes the variable out and brings in those of the new term. -/
theorem mem_freeOccurrences_replace (h : t.replace (.variable old) new = .ok u)
    (hw : w ∈ u.freeOccurrences) :
    (w ∈ t.freeOccurrences ∧ (w == old) = false) ∨ w ∈ new.freeOccurrences :=
  ((replaced_replace (p := fun _ => True) (fun _ _ => trivial) h).leftOr_of_mem hw).imp_right
    And.right

/-- Replacement keeps all other variables. -/
theorem mem_freeOccurrences_replace_of_ne (hne : (w == old) = false)
    (h : t.replace (.variable old) new = .ok u) (hw : w ∈ t.freeOccurrences) :
    w ∈ u.freeOccurrences :=
  (replaced_replace (p := fun _ => True) (fun _ _ => trivial) h).mem_of_leftOr False.elim
    (Or.inl ⟨hw, hne⟩)

/-- Replacement adds no binder but those of the new term. -/
theorem mem_boundNames_replace {name : String} (h : t.replace (.variable old) new = .ok u)
    (hn : name ∈ u.boundNames) : name ∈ t.boundNames ∨ name ∈ new.boundNames :=
  (replaced_replace (p := fun _ => True) (fun _ _ => trivial) h).mem_boundNames hn

/-- **Replacement means another value for the variable** where no binder can capture a variable of
the new term. -/
theorem eval_replace (I : Interpretation E) {ρ : Assignment E}
    (h : t.replace (.variable old) new = .ok u)
    (hnew : ∀ w ∈ new.freeOccurrences, w.name ∉ t.boundNames) :
    u.eval I ρ = t.eval I (ρ.set old (new.eval I ρ)) :=
  (replaced_replace (p := (· ∈ t.boundNames)) (fun _ hx => hx) h).eval I hnew

end Replacement

end RelSmt.Term
