import Mathlib.Data.List.Forall2
import RelSmt.Proofs.Term.Substitution

/-!
# Terms up to the names of their variables and functions

Two terms are *renamed* into each other when they differ in names alone: the name of every variable
of the one, bound or free, is paired with that of the other, and so is the name of every function
that is not among the given ones, which both have. The relation goes through constraints, and it
carries sorts over, so whatever can be built of the one can be built of the other.

Where the pairing is one to one, variables are the same on the one side when they are the same on
the other. Then free variables, substitution and replacement go along with it.
-/

namespace RelSmt

/-- The second is what the first gives, whenever the first gives something. -/
def Checked.Follows {α β : Type} (R : α → β → Prop) (x : Checked α) (y : Checked β) : Prop :=
  ∀ a, x = .ok a → ∃ b, y = .ok b ∧ R a b

namespace Checked

variable {α β γ δ : Type} {R : α → β → Prop} {S : γ → δ → Prop}

theorem follows_ok {a : α} {b : β} (h : R a b) : Checked.Follows R (.ok a) (.ok b) := by
  intro a' ha
  exact ⟨b, rfl, Except.ok.inj ha ▸ h⟩

theorem follows_error {e : Fault} {y : Checked β} : Checked.Follows R (.error e) y := by
  intro a ha
  simp at ha

theorem Follows.bind {x : Checked α} {y : Checked β} {f : α → Checked γ} {g : β → Checked δ}
    (h : Checked.Follows R x y) (hf : ∀ a b, R a b → Checked.Follows S (f a) (g b)) :
    Checked.Follows S (x >>= f) (y >>= g) := by
  intro c hc
  obtain ⟨a, ha, hc⟩ := Checked.bind_eq_ok.1 hc
  obtain ⟨b, hb, hab⟩ := h a ha
  obtain ⟨d, hd, hcd⟩ := hf a b hab c hc
  exact ⟨d, Checked.bind_eq_ok.2 ⟨b, hb, hd⟩, hcd⟩

theorem Follows.foldlM {f : α → γ → Checked α} {g : β → δ → Checked β}
    (hf : ∀ a b c d, R a b → S c d → Checked.Follows R (f a c) (g b d)) :
    ∀ {cs : List γ} {ds : List δ} {a : α} {b : β}, List.Forall₂ S cs ds → R a b →
      Checked.Follows R (cs.foldlM f a) (ds.foldlM g b)
  | [], _, a, b, .nil, hab => follows_ok hab
  | c :: cs, _, a, b, .cons hcd hcds, hab => by
    rw [List.foldlM_cons, List.foldlM_cons]
    exact (hf a b _ _ hab hcd).bind fun _ _ h => Follows.foldlM hf hcds h

theorem Follows.mapM {f : γ → Checked α} {g : δ → Checked β}
    (hf : ∀ c d, S c d → Checked.Follows R (f c) (g d)) :
    ∀ {cs : List γ} {ds : List δ}, List.Forall₂ S cs ds →
      Checked.Follows (List.Forall₂ R) (cs.mapM f) (ds.mapM g)
  | [], _, .nil => follows_ok .nil
  | c :: cs, _, .cons hcd hcds => by
    rw [List.mapM_cons, List.mapM_cons]
    refine (hf _ _ hcd).bind fun a b hab => (Follows.mapM hf hcds).bind fun as bs habs => ?_
    exact follows_ok (.cons hab habs)

end Checked

/-! ## Renamed terms -/

section

variable (G : FunctionSymbol → Prop) (r : String → String → Prop)

/-- A given function is kept. Any other has the same sorts under a paired name. -/
inductive FunctionSymbol.Renamed : FunctionSymbol → FunctionSymbol → Prop where
  | given {f} (h : G f) : FunctionSymbol.Renamed f f
  | made {x y inputs output} (h : r x y) :
      FunctionSymbol.Renamed ⟨x, inputs, output⟩ ⟨y, inputs, output⟩

mutual

/-- The terms differ in the names of their variables and of functions that are not given. -/
inductive Term.Renamed : Term → Term → Prop where
  | literal (c) : Term.Renamed (.literal c) (.literal c)
  | variable {v w} (h : Variable.Renamed v w) : Term.Renamed (.variable v) (.variable w)
  | symbol {f g} (h : FunctionSymbol.Renamed G r f g) : Term.Renamed (.symbol f) (.symbol g)
  | emptySet (s) : Term.Renamed (.emptySet s) (.emptySet s)
  | fullSet (s) : Term.Renamed (.fullSet s) (.fullSet s)
  | unary {op t u} (h : Term.Renamed t u) : Term.Renamed (.unary op t) (.unary op u)
  | binary {op l l' k k'} (hl : Term.Renamed l l') (hk : Term.Renamed k k') :
      Term.Renamed (.binary op l k) (.binary op l' k')
  | ite {c c' y y' n n'} (hc : Term.Renamed c c') (hy : Term.Renamed y y')
      (hn : Term.Renamed n n') : Term.Renamed (.ite c y n) (.ite c' y' n')
  | nary {op ts us} (h : List.Forall₂ Term.Renamed ts us) :
      Term.Renamed (.nary op ts) (.nary op us)
  | quantified {q vs ws t u} (hvs : List.Forall₂ Variable.Renamed vs ws) (h : Term.Renamed t u) :
      Term.Renamed (.quantified q vs t) (.quantified q ws u)
  | call {f g ts us} (hf : FunctionSymbol.Renamed G r f g) (h : List.Forall₂ Term.Renamed ts us) :
      Term.Renamed (.call f ts) (.call g us)

/-- The variables have paired names, one sort, and constraints that are renamed. -/
inductive Variable.Renamed : Variable → Variable → Prop where
  | plain {x y s} (h : r x y) : Variable.Renamed (.mk x s none) (.mk y s none)
  | limited {x y s c d} (h : r x y) (hc : Term.Renamed c d) :
      Variable.Renamed (.mk x s (some c)) (.mk y s (some d))

end

end

variable {G : FunctionSymbol → Prop} {r r' : String → String → Prop}

namespace FunctionSymbol.Renamed

variable {f g : FunctionSymbol}

theorem inputs_eq (h : f.Renamed G r g) : f.inputs = g.inputs := by
  cases h <;> rfl

theorem output_eq (h : f.Renamed G r g) : f.output = g.output := by
  cases h <;> rfl

theorem mono (hr : ∀ x y, r x y → r' x y) (h : f.Renamed G r g) : f.Renamed G r' g := by
  cases h with
  | given h => exact .given h
  | made h => exact .made (hr _ _ h)

/-- Names that are only paired with themselves change nothing. -/
theorem eq_of_diagonal (hr : ∀ x y, r x y → x = y) (h : f.Renamed G r g) : f = g := by
  cases h with
  | given => rfl
  | made h => rw [hr _ _ h]

end FunctionSymbol.Renamed

namespace Variable.Renamed

variable {v w : Variable}

theorem name (h : v.Renamed G r w) : r v.name w.name := by
  cases h with
  | plain h => exact h
  | limited h _ => exact h

theorem sort_eq (h : v.Renamed G r w) : v.sort = w.sort := by
  cases h <;> rfl

theorem sorts_eq {vs ws : List Variable} (h : List.Forall₂ (Variable.Renamed G r) vs ws) :
    vs.map Variable.sort = ws.map Variable.sort := by
  induction h with
  | nil => rfl
  | cons h _ ih => rw [List.map_cons, List.map_cons, h.sort_eq, ih]

theorem term (h : v.Renamed G r w) : v.term.Renamed G r w.term := .variable h

end Variable.Renamed

mutual

/-- Renamed terms have one sort. -/
theorem Term.Renamed.sort_eq : ∀ {t u : Term}, t.Renamed G r u → t.sort = u.sort
  | .literal _, _, .literal _ => rfl
  | .variable _, _, .variable h => h.sort_eq
  | .symbol _, _, .symbol h => h.output_eq
  | .emptySet _, _, .emptySet _ => rfl
  | .fullSet _, _, .fullSet _ => rfl
  | .unary op _, _, .unary h => by
    have ht := Term.Renamed.sort_eq h
    cases op <;> simp [Term.sort, ht]
  | .binary op _ _, _, .binary hl hk => by
    have hl := Term.Renamed.sort_eq hl
    have hk := Term.Renamed.sort_eq hk
    cases op <;> simp [Term.sort, hl, hk]
  | .ite _ _ _, _, .ite _ hy _ => by
    have hy := Term.Renamed.sort_eq hy
    simp [Term.sort, hy]
  | .nary op _, _, .nary h => by
    have hts := Term.Renamed.sorts_eq h
    cases op <;> simp [Term.sort, hts]
  | .quantified _ _ _, _, .quantified _ _ => rfl
  | .call _ _, _, .call hf _ => hf.output_eq

theorem Term.Renamed.sorts_eq : ∀ {ts us : List Term}, List.Forall₂ (Term.Renamed G r) ts us →
    Term.sorts ts = Term.sorts us
  | [], _, .nil => rfl
  | _ :: _, _, .cons h hs => by
    rw [Term.sorts, Term.sorts, Term.Renamed.sort_eq h, Term.Renamed.sorts_eq hs]

end

mutual

/-- More pairs relate more terms. -/
theorem Term.Renamed.mono (hr : ∀ x y, r x y → r' x y) :
    ∀ {t u : Term}, t.Renamed G r u → t.Renamed G r' u
  | .literal _, _, .literal c => .literal c
  | .variable _, _, .variable h => .variable (Variable.Renamed.mono hr h)
  | .symbol _, _, .symbol h => .symbol (h.mono hr)
  | .emptySet _, _, .emptySet s => .emptySet s
  | .fullSet _, _, .fullSet s => .fullSet s
  | .unary _ _, _, .unary h => .unary (Term.Renamed.mono hr h)
  | .binary _ _ _, _, .binary hl hk => .binary (Term.Renamed.mono hr hl) (Term.Renamed.mono hr hk)
  | .ite _ _ _, _, .ite hc hy hn =>
    .ite (Term.Renamed.mono hr hc) (Term.Renamed.mono hr hy) (Term.Renamed.mono hr hn)
  | .nary _ _, _, .nary h => .nary (Term.Renamed.monoAll hr h)
  | .quantified _ _ _, _, .quantified hvs h =>
    .quantified (Variable.Renamed.monoAll hr hvs) (Term.Renamed.mono hr h)
  | .call _ _, _, .call hf h => .call (hf.mono hr) (Term.Renamed.monoAll hr h)

theorem Term.Renamed.monoAll (hr : ∀ x y, r x y → r' x y) : ∀ {ts us : List Term},
    List.Forall₂ (Term.Renamed G r) ts us → List.Forall₂ (Term.Renamed G r') ts us
  | [], _, .nil => .nil
  | _ :: _, _, .cons h hs => .cons (Term.Renamed.mono hr h) (Term.Renamed.monoAll hr hs)

theorem Variable.Renamed.mono (hr : ∀ x y, r x y → r' x y) : ∀ {v w : Variable},
    v.Renamed G r w → v.Renamed G r' w
  | .mk _ _ none, _, .plain h => .plain (hr _ _ h)
  | .mk _ _ (some _), _, .limited h hc => .limited (hr _ _ h) (Term.Renamed.mono hr hc)

theorem Variable.Renamed.monoAll (hr : ∀ x y, r x y → r' x y) :
    ∀ {vs ws : List Variable}, List.Forall₂ (Variable.Renamed G r) vs ws →
      List.Forall₂ (Variable.Renamed G r') vs ws
  | [], _, .nil => .nil
  | _ :: _, _, .cons h hs => .cons (Variable.Renamed.mono hr h) (Variable.Renamed.monoAll hr hs)

end

mutual

/-- Where names are only paired with themselves, renamed terms are equal. -/
theorem Term.Renamed.eq_of_diagonal (hr : ∀ x y, r x y → x = y) :
    ∀ {t u : Term}, t.Renamed G r u → t = u
  | .literal _, _, .literal _ => rfl
  | .variable _, _, .variable h => congrArg Term.variable (Variable.Renamed.eq_of_diagonal hr h)
  | .symbol _, _, .symbol h => congrArg Term.symbol (h.eq_of_diagonal hr)
  | .emptySet _, _, .emptySet _ => rfl
  | .fullSet _, _, .fullSet _ => rfl
  | .unary _ _, _, .unary h => by rw [Term.Renamed.eq_of_diagonal hr h]
  | .binary _ _ _, _, .binary hl hk => by
    rw [Term.Renamed.eq_of_diagonal hr hl, Term.Renamed.eq_of_diagonal hr hk]
  | .ite _ _ _, _, .ite hc hy hn => by
    rw [Term.Renamed.eq_of_diagonal hr hc, Term.Renamed.eq_of_diagonal hr hy,
      Term.Renamed.eq_of_diagonal hr hn]
  | .nary _ _, _, .nary h => by rw [Term.Renamed.eq_of_diagonal_all hr h]
  | .quantified _ _ _, _, .quantified hvs h => by
    rw [Variable.Renamed.eq_of_diagonal_all hr hvs, Term.Renamed.eq_of_diagonal hr h]
  | .call _ _, _, .call hf h => by
    rw [hf.eq_of_diagonal hr, Term.Renamed.eq_of_diagonal_all hr h]

theorem Term.Renamed.eq_of_diagonal_all (hr : ∀ x y, r x y → x = y) :
    ∀ {ts us : List Term}, List.Forall₂ (Term.Renamed G r) ts us → ts = us
  | [], _, .nil => rfl
  | _ :: _, _, .cons h hs => by
    rw [Term.Renamed.eq_of_diagonal hr h, Term.Renamed.eq_of_diagonal_all hr hs]

theorem Variable.Renamed.eq_of_diagonal (hr : ∀ x y, r x y → x = y) :
    ∀ {v w : Variable}, v.Renamed G r w → v = w
  | .mk _ _ none, _, .plain h => by rw [hr _ _ h]
  | .mk _ _ (some _), _, .limited h hc => by rw [hr _ _ h, Term.Renamed.eq_of_diagonal hr hc]

theorem Variable.Renamed.eq_of_diagonal_all (hr : ∀ x y, r x y → x = y) :
    ∀ {vs ws : List Variable}, List.Forall₂ (Variable.Renamed G r) vs ws → vs = ws
  | [], _, .nil => rfl
  | _ :: _, _, .cons h hs => by
    rw [Variable.Renamed.eq_of_diagonal hr h, Variable.Renamed.eq_of_diagonal_all hr hs]

end

/-! ## Free variables -/

section

variable {t u : Term} {v v' w w' : Variable} {vs ws : List Variable}

/-- Names paired one to one are equal on both sides or on neither. -/
theorem name_beq_congr (hone : Relator.BiUnique r) {x x' y y' : String} (h : r x y) (h' : r x' y') :
    (x == x') = (y == y') := by
  by_cases hx : x = x'
  · subst hx
    simp [hone.2 h h']
  · have hy : y ≠ y' := fun hy => hx (hone.1 h (hy ▸ h'))
    simp [hx, hy]

theorem Variable.Renamed.beq_congr (hone : Relator.BiUnique r) (h : v.Renamed G r v')
    (h' : w.Renamed G r w') : (v == w) = (v' == w') := by
  show (v.name == w.name && v.sort == w.sort) = (v'.name == w'.name && v'.sort == w'.sort)
  rw [name_beq_congr hone h.name h'.name, h.sort_eq, h'.sort_eq]

theorem isEmpty_congr {α β : Type} {R : α → β → Prop} {as : List α} {bs : List β}
    (h : List.Forall₂ R as bs) : as.isEmpty = bs.isEmpty := by
  cases h <;> rfl

theorem any_congr {α β : Type} {R : α → β → Prop} {p : α → Bool} {q : β → Bool}
    (hpq : ∀ a b, R a b → p a = q b) {as : List α} {bs : List β} (h : List.Forall₂ R as bs) :
    as.any p = bs.any q := by
  induction h with
  | nil => rfl
  | cons h _ ih => rw [List.any_cons, List.any_cons, hpq _ _ h, ih]

theorem forall₂_filter {α β : Type} {R : α → β → Prop} {p : α → Bool} {q : β → Bool}
    (hpq : ∀ a b, R a b → p a = q b) {as : List α} {bs : List β} (h : List.Forall₂ R as bs) :
    List.Forall₂ R (as.filter p) (bs.filter q) :=
  List.rel_filter (fun a b hab => Bool.eq_iff_iff.1 (hpq a b hab)) h

theorem Variable.Renamed.contains_congr (hone : Relator.BiUnique r) (h : v.Renamed G r v')
    (hvs : List.Forall₂ (Variable.Renamed G r) vs ws) : vs.contains v = ws.contains v' := by
  rw [List.contains_eq_any_beq, List.contains_eq_any_beq]
  exact any_congr (fun _ _ hw => h.beq_congr hone hw) hvs

theorem bindsName_congr (hone : Relator.BiUnique r)
    (hvs : List.Forall₂ (Variable.Renamed G r) vs ws) {x y : String} (h : r x y) :
    Term.bindsName vs x = Term.bindsName ws y :=
  any_congr (fun _ _ hv => name_beq_congr hone hv.name h) hvs

mutual

/-- Free occurrences of variables correspond to each other, one by one. -/
theorem Term.Renamed.freeOccurrences (hone : Relator.BiUnique r) : ∀ {t u : Term}, t.Renamed G r u →
    List.Forall₂ (Variable.Renamed G r) t.freeOccurrences u.freeOccurrences
  | .literal _, _, .literal _ => .nil
  | .variable _, _, .variable h => .cons h .nil
  | .symbol _, _, .symbol _ => .nil
  | .emptySet _, _, .emptySet _ => .nil
  | .fullSet _, _, .fullSet _ => .nil
  | .unary _ _, _, .unary h => by
    have h := Term.Renamed.freeOccurrences hone h
    simpa only [Term.freeOccurrences] using h
  | .binary _ _ _, _, .binary hl hk =>
    List.rel_append (Term.Renamed.freeOccurrences hone hl) (Term.Renamed.freeOccurrences hone hk)
  | .ite _ _ _, _, .ite hc hy hn =>
    List.rel_append (List.rel_append (Term.Renamed.freeOccurrences hone hc)
      (Term.Renamed.freeOccurrences hone hy)) (Term.Renamed.freeOccurrences hone hn)
  | .nary _ _, _, .nary h => Term.Renamed.freeOccurrencesList hone h
  | .quantified _ _ _, _, .quantified hvs h =>
    forall₂_filter (fun _ _ hv => congrArg not (bindsName_congr hone hvs hv.name))
      (Term.Renamed.freeOccurrences hone h)
  | .call _ _, _, .call _ h => Term.Renamed.freeOccurrencesList hone h

theorem Term.Renamed.freeOccurrencesList (hone : Relator.BiUnique r) : ∀ {ts us : List Term},
    List.Forall₂ (Term.Renamed G r) ts us → List.Forall₂ (Variable.Renamed G r)
      (Term.freeOccurrencesList ts) (Term.freeOccurrencesList us)
  | [], _, .nil => .nil
  | _ :: _, _, .cons h hs =>
    List.rel_append (Term.Renamed.freeOccurrences hone h) (Term.Renamed.freeOccurrencesList hone hs)

end

/-- Without repeats the lists still correspond, since repeats do. -/
theorem forall₂_eraseDups (hone : Relator.BiUnique r) (n : Nat) : ∀ {vs ws : List Variable},
    vs.length ≤ n → List.Forall₂ (Variable.Renamed G r) vs ws →
    List.Forall₂ (Variable.Renamed G r) vs.eraseDups ws.eraseDups := by
  induction n with
  | zero =>
    intro vs ws hlen h
    obtain rfl := List.length_eq_zero_iff.1 (Nat.le_zero.1 hlen)
    cases h
    exact .nil
  | succ n ih =>
    intro vs ws hlen h
    cases h with
    | nil => exact .nil
    | @cons v w vs ws h hs =>
      rw [List.eraseDups_cons, List.eraseDups_cons]
      refine .cons h (ih ?_ (forall₂_filter (fun _ _ hv => ?_) hs))
      · have := List.length_filter_le (fun b => !b == v) vs
        simp only [List.length_cons] at hlen
        omega
      · exact congrArg not (hv.beq_congr hone h)

theorem Term.Renamed.freeVariables (hone : Relator.BiUnique r) (h : t.Renamed G r u) :
    List.Forall₂ (Variable.Renamed G r) t.freeVariables u.freeVariables :=
  forall₂_eraseDups hone _ (Nat.le_refl _) (h.freeOccurrences hone)

theorem Term.Renamed.occursFree_congr (hone : Relator.BiUnique r) (h : t.Renamed G r u)
    (hv : v.Renamed G r w) : t.occursFree v = u.occursFree w :=
  any_congr (fun _ _ hx => hx.beq_congr hone hv) (h.freeOccurrences hone)

end

/-! ## Building terms -/

section

variable {t t' l l' k k' : Term} {ts us : List Term} {vs ws : List Variable}

theorem Term.Renamed.mkUnary {op : UnaryOp} (h : t.Renamed G r t') :
    Checked.Follows (Term.Renamed G r) (Term.mkUnary op t) (Term.mkUnary op t') := by
  intro u hu
  obtain ⟨hsort, rfl⟩ := Term.mkUnary_eq_ok.1 hu
  rw [h.sort_eq] at hsort
  exact ⟨_, Term.mkUnary_eq_ok.2 ⟨hsort, rfl⟩, .unary h⟩

theorem Term.Renamed.mkBinary {op : BinaryOp} (hl : l.Renamed G r l') (hk : k.Renamed G r k') :
    Checked.Follows (Term.Renamed G r) (Term.mkBinary op l k) (Term.mkBinary op l' k') := by
  intro u hu
  obtain ⟨hsort, rfl⟩ := Term.mkBinary_eq_ok.1 hu
  rw [hl.sort_eq, hk.sort_eq] at hsort
  exact ⟨_, Term.mkBinary_eq_ok.2 ⟨hsort, rfl⟩, .binary hl hk⟩

theorem Term.Renamed.mkIte (h : t.Renamed G r t') (hl : l.Renamed G r l') (hk : k.Renamed G r k') :
    Checked.Follows (Term.Renamed G r) (Term.mkIte t l k) (Term.mkIte t' l' k') := by
  intro u hu
  obtain ⟨hbool, hsort, rfl⟩ := Term.mkIte_eq_ok.1 hu
  rw [h.sort_eq] at hbool
  rw [hl.sort_eq, hk.sort_eq] at hsort
  exact ⟨_, Term.mkIte_eq_ok.2 ⟨hbool, hsort, rfl⟩, .ite h hl hk⟩

theorem Term.Renamed.mkNary {op : NaryOp} (h : List.Forall₂ (Term.Renamed G r) ts us) :
    Checked.Follows (Term.Renamed G r) (Term.mkNary op ts) (Term.mkNary op us) := by
  intro u hu
  obtain ⟨hne, hfits, rfl⟩ := Term.mkNary_eq_ok.1 hu
  refine ⟨_, Term.mkNary_eq_ok.2 ⟨fun hnil => ?_, fun u hu => ?_, rfl⟩, .nary h⟩
  · subst hnil
    exact hne (List.forall₂_nil_right_iff.1 h)
  · obtain ⟨t, ht, htu⟩ := exists_mem_of_forall₂ h hu
    rw [← htu.sort_eq]
    exact hfits t ht

theorem Term.Renamed.mkQuantified {q : Quantifier} (hvs : List.Forall₂ (Variable.Renamed G r) vs ws)
    (h : t.Renamed G r t') :
    Checked.Follows (Term.Renamed G r) (Term.mkQuantified q vs t) (Term.mkQuantified q ws t') := by
  intro u hu
  obtain ⟨hne, hbool, rfl⟩ := Term.mkQuantified_eq_ok.1 hu
  rw [h.sort_eq] at hbool
  refine ⟨_, Term.mkQuantified_eq_ok.2 ⟨fun hnil => ?_, hbool, rfl⟩, .quantified hvs h⟩
  subst hnil
  exact hne (List.forall₂_nil_right_iff.1 hvs)

theorem FunctionSymbol.Renamed.mkCall {f g : FunctionSymbol} (hf : f.Renamed G r g)
    (h : List.Forall₂ (Term.Renamed G r) ts us) :
    Checked.Follows (Term.Renamed G r) (Term.mkCall f ts) (Term.mkCall g us) := by
  intro u hu
  obtain ⟨hsorts, rfl⟩ := Term.mkCall_eq_ok.1 hu
  rw [Term.Renamed.sorts_eq h, hf.inputs_eq] at hsorts
  exact ⟨_, Term.mkCall_eq_ok.2 ⟨hsorts, rfl⟩, .call hf h⟩

theorem FunctionSymbol.Renamed.apply {f g : FunctionSymbol} (hf : f.Renamed G r g)
    (h : List.Forall₂ (Term.Renamed G r) ts us) :
    Checked.Follows (Term.Renamed G r) (f.apply ts) (g.apply us) := by
  unfold FunctionSymbol.apply
  rw [hf.inputs_eq, isEmpty_congr h]
  split
  · exact Checked.follows_ok (.symbol hf)
  · exact hf.mkCall h

theorem Term.Renamed.allOf (h : List.Forall₂ (Term.Renamed G r) ts us) :
    Checked.Follows (Term.Renamed G r) (Term.allOf ts) (Term.allOf us) := by
  match h with
  | .nil => exact Checked.follows_ok (.literal _)
  | .cons ht .nil => exact Checked.follows_ok ht
  | .cons ht (.cons hu hus) => exact Term.Renamed.mkNary (.cons ht (.cons hu hus))

theorem Term.Renamed.anyOf (h : List.Forall₂ (Term.Renamed G r) ts us) :
    Checked.Follows (Term.Renamed G r) (Term.anyOf ts) (Term.anyOf us) := by
  match h with
  | .nil => exact Checked.follows_ok (.literal _)
  | .cons ht .nil => exact Checked.follows_ok ht
  | .cons ht (.cons hu hus) => exact Term.Renamed.mkNary (.cons ht (.cons hu hus))

theorem follows_emptyOf (s : SmtSort) :
    Checked.Follows (Term.Renamed G r) (Term.emptyOf s) (Term.emptyOf s) := by
  intro u hu
  obtain ⟨_, rfl⟩ := Term.emptyOf_eq_ok.1 hu
  exact ⟨_, hu, .emptySet s⟩

theorem follows_fullOf (s : SmtSort) :
    Checked.Follows (Term.Renamed G r) (Term.fullOf s) (Term.fullOf s) := by
  intro u hu
  obtain ⟨_, rfl⟩ := Term.fullOf_eq_ok.1 hu
  exact ⟨_, hu, .fullSet s⟩

end

/-! ## Substitution and replacement -/

section

variable {old old' : Variable} {new new' : Term} {taken taken' : List String}

theorem find?_none_congr {α β : Type} {R : α → β → Prop} {p : α → Bool} {q : β → Bool}
    (hpq : ∀ a b, R a b → p a = q b) {as : List α} {bs : List β} (h : List.Forall₂ R as bs) :
    as.find? p = none ↔ bs.find? q = none := by
  induction h with
  | nil => simp
  | @cons a b _ _ h _ ih =>
    rw [List.find?_cons, List.find?_cons, hpq a b h]
    cases q b <;> simp [ih]

mutual

/-- Substitution goes along with a renaming. -/
theorem Term.Renamed.substituteIn (hone : Relator.BiUnique r) (hold : old.Renamed G r old')
    (hnew : new.Renamed G r new') (htaken : List.Forall₂ r taken taken') :
    ∀ {t u : Term}, t.Renamed G r u → Checked.Follows (Term.Renamed G r)
      (t.substituteIn old new taken) (u.substituteIn old' new' taken')
  | .literal _, _, .literal c => by
    simp only [Term.substituteIn]
    exact Checked.follows_ok (.literal c)
  | .variable _, _, .variable h => by
    simp only [Term.substituteIn]
    rw [h.beq_congr hone hold]
    split
    · exact Checked.follows_ok hnew
    · exact Checked.follows_ok (.variable h)
  | .symbol _, _, .symbol h => by
    simp only [Term.substituteIn]
    exact Checked.follows_ok (.symbol h)
  | .emptySet _, _, .emptySet s => by
    simp only [Term.substituteIn]
    exact Checked.follows_ok (.emptySet s)
  | .fullSet _, _, .fullSet s => by
    simp only [Term.substituteIn]
    exact Checked.follows_ok (.fullSet s)
  | .unary _ _, _, .unary h => by
    simp only [Term.substituteIn]
    exact (Term.Renamed.substituteIn hone hold hnew htaken h).bind fun _ _ h => h.mkUnary
  | .binary _ _ _, _, .binary hl hk => by
    simp only [Term.substituteIn]
    exact (Term.Renamed.substituteIn hone hold hnew htaken hl).bind fun _ _ hl =>
      (Term.Renamed.substituteIn hone hold hnew htaken hk).bind fun _ _ hk => hl.mkBinary hk
  | .ite _ _ _, _, .ite hc hy hn => by
    simp only [Term.substituteIn]
    exact (Term.Renamed.substituteIn hone hold hnew htaken hc).bind fun _ _ hc =>
      (Term.Renamed.substituteIn hone hold hnew htaken hy).bind fun _ _ hy =>
        (Term.Renamed.substituteIn hone hold hnew htaken hn).bind fun _ _ hn => hc.mkIte hy hn
  | .nary _ _, _, .nary h => by
    simp only [Term.substituteIn]
    exact (Term.Renamed.substituteInList hone hold hnew htaken h).bind fun _ _ h =>
      Term.Renamed.mkNary h
  | .quantified _ vs _, .quantified _ ws _, .quantified hvs h => by
    -- a binder captures on one side exactly when it does on the other
    have htakes : vs.find? (fun v => taken.contains v.name) = none ↔
        ws.find? (fun v => taken'.contains v.name) = none := by
      refine find?_none_congr (fun v w hv => ?_) hvs
      rw [List.contains_eq_any_beq, List.contains_eq_any_beq]
      exact any_congr (fun _ _ hx => name_beq_congr hone hv.name hx) htaken
    simp only [Term.substituteIn]
    rw [bindsName_congr hone hvs hold.name, h.occursFree_congr hone hold]
    split
    · exact Checked.follows_ok (.quantified hvs h)
    · cases hfind : vs.find? fun v => taken.contains v.name with
      | some v => exact Checked.follows_error
      | none =>
        rw [htakes.1 hfind]
        exact (Term.Renamed.substituteIn hone hold hnew htaken h).bind fun _ _ h =>
          Term.Renamed.mkQuantified hvs h
  | .call _ _, _, .call hf h => by
    simp only [Term.substituteIn]
    exact (Term.Renamed.substituteInList hone hold hnew htaken h).bind fun _ _ h => hf.mkCall h

theorem Term.Renamed.substituteInList (hone : Relator.BiUnique r) (hold : old.Renamed G r old')
    (hnew : new.Renamed G r new') (htaken : List.Forall₂ r taken taken') :
    ∀ {ts us : List Term}, List.Forall₂ (Term.Renamed G r) ts us →
      Checked.Follows (List.Forall₂ (Term.Renamed G r))
        (Term.substituteInList ts old new taken) (Term.substituteInList us old' new' taken')
  | [], _, .nil => by
    simp only [Term.substituteInList]
    exact Checked.follows_ok .nil
  | _ :: _, _, .cons h hs => by
    simp only [Term.substituteInList]
    exact (Term.Renamed.substituteIn hone hold hnew htaken h).bind fun _ _ h =>
      (Term.Renamed.substituteInList hone hold hnew htaken hs).bind fun _ _ hs =>
        Checked.follows_ok (.cons h hs)

end

theorem Term.Renamed.substitute (hone : Relator.BiUnique r) {t u : Term} (h : t.Renamed G r u)
    (hold : old.Renamed G r old') (hnew : new.Renamed G r new') :
    Checked.Follows (Term.Renamed G r) (t.substitute old new) (u.substitute old' new') := by
  have htaken : List.Forall₂ r (new.freeVariables.map Variable.name)
      (new'.freeVariables.map Variable.name) :=
    List.rel_map (fun _ _ hv => hv.name) (hnew.freeVariables hone)
  unfold Term.substitute
  rw [hnew.sort_eq, hold.sort_eq]
  split
  · exact Term.Renamed.substituteIn hone hold hnew htaken h
  · exact Checked.follows_error

mutual

/-- Replacement of a variable goes along with a renaming. -/
theorem Term.Renamed.replace (hone : Relator.BiUnique r) (hold : old.Renamed G r old')
    (hnew : new.Renamed G r new') : ∀ {t u : Term}, t.Renamed G r u →
    Checked.Follows (Term.Renamed G r) (t.replace (.variable old) new)
      (u.replace (.variable old') new')
  | .literal _, _, .literal c => by
    rw [Term.replace_literal, Term.replace_literal]
    exact Checked.follows_ok (.literal c)
  | .variable _, _, .variable h => by
    rw [Term.replace_variable, Term.replace_variable, h.beq_congr hone hold]
    split
    · exact Checked.follows_ok hnew
    · exact Checked.follows_ok (.variable h)
  | .symbol _, _, .symbol h => by
    rw [Term.replace_symbol, Term.replace_symbol]
    exact Checked.follows_ok (.symbol h)
  | .emptySet _, _, .emptySet s => by
    rw [Term.replace_emptySet]
    exact Checked.follows_ok (.emptySet s)
  | .fullSet _, _, .fullSet s => by
    rw [Term.replace_fullSet]
    exact Checked.follows_ok (.fullSet s)
  | .unary _ _, _, .unary h => by
    rw [Term.replace_unary, Term.replace_unary]
    exact (Term.Renamed.replace hone hold hnew h).bind fun _ _ h => h.mkUnary
  | .binary _ _ _, _, .binary hl hk => by
    rw [Term.replace_binary, Term.replace_binary]
    exact (Term.Renamed.replace hone hold hnew hl).bind fun _ _ hl =>
      (Term.Renamed.replace hone hold hnew hk).bind fun _ _ hk => hl.mkBinary hk
  | .ite _ _ _, _, .ite hc hy hn => by
    rw [Term.replace_ite, Term.replace_ite]
    exact (Term.Renamed.replace hone hold hnew hc).bind fun _ _ hc =>
      (Term.Renamed.replace hone hold hnew hy).bind fun _ _ hy =>
        (Term.Renamed.replace hone hold hnew hn).bind fun _ _ hn => hc.mkIte hy hn
  | .nary _ _, _, .nary h => by
    rw [Term.replace_nary, Term.replace_nary]
    exact (Term.Renamed.replaceList hone hold hnew h).bind fun _ _ h => Term.Renamed.mkNary h
  | .quantified _ _ _, _, .quantified hvs h => by
    -- a renaming takes different names to different names, so both binders hide the variable or
    -- neither does
    rw [Term.replace_quantified, Term.replace_quantified, bindsName_congr hone hvs hold.name]
    split
    · exact Checked.follows_ok (.quantified hvs h)
    · exact (Term.Renamed.replace hone hold hnew h).bind fun _ _ h =>
        Term.Renamed.mkQuantified hvs h
  | .call _ _, _, .call hf h => by
    rw [Term.replace_call, Term.replace_call]
    exact (Term.Renamed.replaceList hone hold hnew h).bind fun _ _ h => hf.mkCall h

theorem Term.Renamed.replaceList (hone : Relator.BiUnique r) (hold : old.Renamed G r old')
    (hnew : new.Renamed G r new') : ∀ {ts us : List Term},
    List.Forall₂ (Term.Renamed G r) ts us → Checked.Follows (List.Forall₂ (Term.Renamed G r))
      (Term.replaceList ts (.variable old) new) (Term.replaceList us (.variable old') new')
  | [], _, .nil => by
    simp only [Term.replaceList]
    exact Checked.follows_ok .nil
  | _ :: _, _, .cons h hs => by
    simp only [Term.replaceList]
    exact (Term.Renamed.replace hone hold hnew h).bind fun _ _ h =>
      (Term.Renamed.replaceList hone hold hnew hs).bind fun _ _ hs =>
        Checked.follows_ok (.cons h hs)

end

end

end RelSmt
