import RelSmt.Proofs.Term.Exchange
import RelSmt.Proofs.Term.Fragment

/-!
# What terms are made of

A term has variables, bound and free, and functions, and so have the constraints of its free
variables, which turn up in guards and in the axioms of operations on integers. `MadeOf p q` says
that all these variables have names of `p` and that all these functions are of `q`. No way of
building, substituting or replacing terms brings in a name or a function that was not in one of the
parts.

Other properties of terms pass from parts to wholes as well. Those that every operator keeps
(`Composes`) share one lemma for each way of putting terms together.
-/

namespace RelSmt

/-- Does the property hold of what operators make of terms that have it? -/
class Composes (P : Term → Prop) : Prop where
  literal (c : Literal) : P (.literal c)
  emptySet (s : SmtSort) : P (.emptySet s)
  fullSet (s : SmtSort) : P (.fullSet s)
  unary {op : UnaryOp} {t : Term} (h : P t) : P (.unary op t)
  binary {op : BinaryOp} {l r : Term} (hl : P l) (hr : P r) : P (.binary op l r)
  nary {op : NaryOp} {ts : List Term} (h : ∀ t ∈ ts, P t) : P (.nary op ts)

namespace Composes

variable {P : Term → Prop} [Composes P] {t u l r : Term} {ts : List Term}

theorem mkUnary {op : UnaryOp} (h : Term.mkUnary op t = .ok u) (ht : P t) : P u := by
  obtain ⟨_, rfl⟩ := Term.mkUnary_eq_ok.1 h
  exact unary ht

theorem mkBinary {op : BinaryOp} (h : Term.mkBinary op l r = .ok u) (hl : P l) (hr : P r) : P u := by
  obtain ⟨_, rfl⟩ := Term.mkBinary_eq_ok.1 h
  exact binary hl hr

theorem joined {all : Bool} (h : Term.Joined all ts u) (hts : ∀ t ∈ ts, P t) : P u := by
  cases h with
  | none => exact literal _
  | one => exact hts u List.mem_cons_self
  | several => exact nary hts

theorem allOf (h : Term.allOf ts = .ok u) (hts : ∀ t ∈ ts, P t) : P u :=
  joined (Term.joined_allOf h) hts

end Composes

mutual

/-- Do the variables of the term and of their constraints have names of `p`, and are all functions
mentioned there of `q`? -/
def Term.MadeOf (p : String → Prop) (q : FunctionSymbol → Prop) : Term → Prop
  | .literal _ => True
  | .variable v => v.MadeOf p q
  | .symbol f => q f
  | .emptySet _ => True
  | .fullSet _ => True
  | .unary _ t => t.MadeOf p q
  | .binary _ l r => l.MadeOf p q ∧ r.MadeOf p q
  | .ite c y n => c.MadeOf p q ∧ y.MadeOf p q ∧ n.MadeOf p q
  | .nary _ ts => Term.AllMadeOf p q ts
  | .quantified _ vs body => (∀ v ∈ vs, p v.name) ∧ body.MadeOf p q
  | .call f ts => q f ∧ Term.AllMadeOf p q ts

/-- Does the variable have a name of `p`, and is its constraint made of such variables and
functions? -/
def Variable.MadeOf (p : String → Prop) (q : FunctionSymbol → Prop) : Variable → Prop
  | .mk name _ none => p name
  | .mk name _ (some c) => p name ∧ c.MadeOf p q

/-- Are several terms made of such variables and functions? -/
def Term.AllMadeOf (p : String → Prop) (q : FunctionSymbol → Prop) : List Term → Prop
  | [] => True
  | t :: ts => t.MadeOf p q ∧ Term.AllMadeOf p q ts

end

variable {p p' : String → Prop} {q q' : FunctionSymbol → Prop}

attribute [simp] Term.MadeOf

theorem Term.allMadeOf_iff {ts : List Term} : AllMadeOf p q ts ↔ ∀ t ∈ ts, t.MadeOf p q := by
  induction ts with
  | nil => simp [AllMadeOf]
  | cons t ts ih => simp [AllMadeOf, ih]

@[simp] theorem Variable.madeOf_plain (name : String) (s : SmtSort) :
    (Variable.plain name s).MadeOf p q ↔ p name := by
  simp [Variable.plain, Variable.MadeOf]

theorem Variable.madeOf_iff {v : Variable} :
    v.MadeOf p q ↔ p v.name ∧ ∀ c, v.constraint = some c → c.MadeOf p q := by
  match v with
  | .mk _ _ none => simp [Variable.MadeOf, Variable.constraint, Variable.name]
  | .mk _ _ (some c) => simp [Variable.MadeOf, Variable.constraint, Variable.name]

mutual

theorem Term.MadeOf.mono (hp : ∀ x, p x → p' x) (hq : ∀ f, q f → q' f) : ∀ {t : Term},
    t.MadeOf p q → t.MadeOf p' q'
  | .literal _, _ => trivial
  | .variable v, h => Variable.MadeOf.mono hp hq (v := v) h
  | .symbol f, h => hq f h
  | .emptySet _, _ => trivial
  | .fullSet _, _ => trivial
  | .unary _ t, h => Term.MadeOf.mono hp hq (t := t) h
  | .binary _ l r, h => ⟨Term.MadeOf.mono hp hq (t := l) h.1, Term.MadeOf.mono hp hq (t := r) h.2⟩
  | .ite c y n, h =>
    ⟨Term.MadeOf.mono hp hq (t := c) h.1, Term.MadeOf.mono hp hq (t := y) h.2.1,
      Term.MadeOf.mono hp hq (t := n) h.2.2⟩
  | .nary _ ts, h => Term.AllMadeOf.mono hp hq (l := ts) h
  | .quantified _ _ body, h =>
    ⟨fun v hv => hp _ (h.1 v hv), Term.MadeOf.mono hp hq (t := body) h.2⟩
  | .call f ts, h => ⟨hq f h.1, Term.AllMadeOf.mono hp hq (l := ts) h.2⟩

theorem Variable.MadeOf.mono (hp : ∀ x, p x → p' x) (hq : ∀ f, q f → q' f) : ∀ {v : Variable},
    v.MadeOf p q → v.MadeOf p' q'
  | .mk _ _ none, h => hp _ h
  | .mk _ _ (some c), h => ⟨hp _ h.1, Term.MadeOf.mono hp hq (t := c) h.2⟩

theorem Term.AllMadeOf.mono (hp : ∀ x, p x → p' x) (hq : ∀ f, q f → q' f) : ∀ {l : List Term},
    Term.AllMadeOf p q l → Term.AllMadeOf p' q' l
  | [], _ => trivial
  | t :: ts, h =>
    ⟨Term.MadeOf.mono hp hq (t := t) h.1, Term.AllMadeOf.mono hp hq (l := ts) h.2⟩

end

namespace Term

variable {t u : Term}

mutual

theorem MadeOf.of_mem_symbols {f : FunctionSymbol} : ∀ {t : Term},
    t.MadeOf p q → f ∈ t.symbols → q f
  | .symbol g, h, hf => List.mem_singleton.1 hf ▸ h
  | .unary _ t, h, hf => MadeOf.of_mem_symbols (t := t) h hf
  | .binary _ l r, h, hf => by
    rcases List.mem_append.1 hf with hf | hf
    · exact MadeOf.of_mem_symbols h.1 hf
    · exact MadeOf.of_mem_symbols h.2 hf
  | .ite c y n, h, hf => by
    simp only [symbols, List.mem_append] at hf
    rcases hf with (hf | hf) | hf
    · exact MadeOf.of_mem_symbols h.1 hf
    · exact MadeOf.of_mem_symbols h.2.1 hf
    · exact MadeOf.of_mem_symbols h.2.2 hf
  | .nary _ ts, h, hf => AllMadeOf.of_mem_symbols (l := ts) h hf
  | .quantified _ _ body, h, hf => MadeOf.of_mem_symbols (t := body) h.2 hf
  | .call g ts, h, hf => by
    rcases List.mem_cons.1 hf with rfl | hf
    · exact h.1
    · exact AllMadeOf.of_mem_symbols h.2 hf

theorem AllMadeOf.of_mem_symbols {f : FunctionSymbol} : ∀ {l : List Term},
    AllMadeOf p q l → f ∈ symbolsList l → q f
  | t :: ts, h, hf => by
    rcases List.mem_append.1 hf with hf | hf
    · exact MadeOf.of_mem_symbols h.1 hf
    · exact AllMadeOf.of_mem_symbols h.2 hf

end

mutual

/-- A free variable and its constraint are made of such variables and functions. -/
theorem MadeOf.of_mem_free {v : Variable} : ∀ {t : Term},
    t.MadeOf p q → v ∈ t.freeOccurrences → v.MadeOf p q
  | .variable w, h, hv => by
    rw [List.mem_singleton.1 hv]
    exact h
  | .unary _ t, h, hv => MadeOf.of_mem_free (t := t) h hv
  | .binary _ l r, h, hv => by
    rcases List.mem_append.1 hv with hv | hv
    · exact MadeOf.of_mem_free h.1 hv
    · exact MadeOf.of_mem_free h.2 hv
  | .ite c y n, h, hv => by
    simp only [freeOccurrences, List.mem_append] at hv
    rcases hv with (hv | hv) | hv
    · exact MadeOf.of_mem_free h.1 hv
    · exact MadeOf.of_mem_free h.2.1 hv
    · exact MadeOf.of_mem_free h.2.2 hv
  | .nary _ ts, h, hv => AllMadeOf.of_mem_free (l := ts) h hv
  | .quantified _ vs body, h, hv =>
    MadeOf.of_mem_free (t := body) h.2 (mem_freeOccurrences_quantified.1 hv).1
  | .call _ ts, h, hv => AllMadeOf.of_mem_free (l := ts) h.2 hv

theorem AllMadeOf.of_mem_free {v : Variable} : ∀ {l : List Term},
    AllMadeOf p q l → v ∈ freeOccurrencesList l → v.MadeOf p q
  | t :: ts, h, hv => by
    rcases List.mem_append.1 hv with hv | hv
    · exact MadeOf.of_mem_free h.1 hv
    · exact AllMadeOf.of_mem_free h.2 hv

end

/-! ## Building terms -/

instance : Composes (Term.MadeOf p q) where
  literal _ := trivial
  emptySet _ := trivial
  fullSet _ := trivial
  unary h := h
  binary hl hr := ⟨hl, hr⟩
  nary h := allMadeOf_iff.2 h

theorem MadeOf.apply {f : FunctionSymbol} {ts : List Term} (h : f.apply ts = .ok u) (hf : q f)
    (hts : ∀ t ∈ ts, t.MadeOf p q) : u.MadeOf p q := by
  obtain ⟨_, rfl⟩ := FunctionSymbol.apply_eq_ok.1 h
  split
  · exact hf
  · exact ⟨hf, allMadeOf_iff.2 hts⟩

/-! ## Substitution and replacement -/

mutual

theorem MadeOf.exchanged {new : Term} (hnew : new.MadeOf p q) : ∀ {t u : Term},
    Exchanged new t u → t.MadeOf p q → u.MadeOf p q
  | _, _, .self _, ht => ht
  | _, _, .variable _, _ => hnew
  | .unary _ t, .unary _ u, .unary h, ht => MadeOf.exchanged hnew (t := t) (u := u) h ht
  | _, _, .binary hl hr, ht => ⟨MadeOf.exchanged hnew hl ht.1, MadeOf.exchanged hnew hr ht.2⟩
  | _, _, .ite hc hy hn, ht => ⟨MadeOf.exchanged hnew hc ht.1, MadeOf.exchanged hnew hy ht.2.1,
      MadeOf.exchanged hnew hn ht.2.2⟩
  | _, _, .nary h, ht => AllMadeOf.exchanged hnew h ht
  | _, _, .quantified h, ht => ⟨ht.1, MadeOf.exchanged hnew h ht.2⟩
  | _, _, .call h, ht => ⟨ht.1, AllMadeOf.exchanged hnew h ht.2⟩

theorem AllMadeOf.exchanged {new : Term} (hnew : new.MadeOf p q) : ∀ {l m : List Term},
    AllExchanged new l m → AllMadeOf p q l → AllMadeOf p q m
  | _, _, .nil, _ => trivial
  | _, _, .cons h hs, ht => ⟨MadeOf.exchanged hnew h ht.1, AllMadeOf.exchanged hnew hs ht.2⟩

end

end Term

end RelSmt
