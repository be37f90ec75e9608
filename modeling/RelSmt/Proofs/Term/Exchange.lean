import RelSmt.Proofs.Term.Substitution

/-!
# Terms with a variable exchanged

Substitution and replacement stop at different binders and rebuild different parts of a term, but
what they make is of one kind: the term as it was, with a new term in the place of some occurrences
of the variable, under the same binders (`Exchanged`). What such an exchange leaves alone is shown
for both of them together.
-/

namespace RelSmt.Term

mutual

/-- Is the second term the first one with `new` in the place of some variables? -/
inductive Exchanged (new : Term) : Term → Term → Prop where
  | self (t : Term) : Exchanged new t t
  | variable (v : Variable) : Exchanged new (.variable v) new
  | unary {op : UnaryOp} {t t' : Term} (h : Exchanged new t t') :
      Exchanged new (.unary op t) (.unary op t')
  | binary {op : BinaryOp} {l l' r r' : Term} (hl : Exchanged new l l') (hr : Exchanged new r r') :
      Exchanged new (.binary op l r) (.binary op l' r')
  | ite {c c' y y' n n' : Term} (hc : Exchanged new c c') (hy : Exchanged new y y')
      (hn : Exchanged new n n') : Exchanged new (.ite c y n) (.ite c' y' n')
  | nary {op : NaryOp} {ts ts' : List Term} (h : AllExchanged new ts ts') :
      Exchanged new (.nary op ts) (.nary op ts')
  | quantified {q : Quantifier} {vs : List Variable} {t t' : Term} (h : Exchanged new t t') :
      Exchanged new (.quantified q vs t) (.quantified q vs t')
  | call {f : FunctionSymbol} {ts ts' : List Term} (h : AllExchanged new ts ts') :
      Exchanged new (.call f ts) (.call f ts')

/-- Are several terms exchanged, one by one? -/
inductive AllExchanged (new : Term) : List Term → List Term → Prop where
  | nil : AllExchanged new [] []
  | cons {t t' : Term} {ts ts' : List Term} (h : Exchanged new t t')
      (hs : AllExchanged new ts ts') : AllExchanged new (t :: ts) (t' :: ts')

end

variable {old : Variable} {new t u : Term}

mutual

/-- A term in the place of a variable is an exchange that minds neither which variables make way nor
what binders are called. -/
theorem Replaced.exchanged {p : String → Prop} : ∀ {t u : Term}, Replaced old new p t u →
    Exchanged new t u
  | _, _, .self _ => .self _
  | _, _, .variable _ => .variable _
  | _, _, .unary h => .unary h.exchanged
  | _, _, .binary hl hr => .binary hl.exchanged hr.exchanged
  | _, _, .ite hc hy hn => .ite hc.exchanged hy.exchanged hn.exchanged
  | _, _, .nary h => .nary (AllReplaced.exchanged h)
  | _, _, .quantified _ _ h => .quantified h.exchanged
  | _, _, .call h => .call (AllReplaced.exchanged h)

theorem AllReplaced.exchanged {p : String → Prop} : ∀ {ts us : List Term},
    AllReplaced old new p ts us → AllExchanged new ts us
  | _, _, .nil => .nil
  | _, _, .cons h hs => .cons h.exchanged (AllReplaced.exchanged hs)

end

theorem exchanged_substitute (h : t.substitute old new = .ok u) : Exchanged new t u :=
  (replaced_substitute h).exchanged

theorem exchanged_replace (h : t.replace (.variable old) new = .ok u) : Exchanged new t u :=
  (replaced_replace (p := fun _ => True) (fun _ _ => trivial) h).exchanged

end RelSmt.Term
