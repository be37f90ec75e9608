import RelSmt.Proofs.Term.Parts

/-!
# Names of variables

A term has variables that it binds and variables that it leaves free, and so have the constraints of
its variables, which turn up in the axioms of operations on integers. `NamesOnly p` says that all of
them have names of `p`, whatever functions the term mentions.
-/

namespace RelSmt

mutual

/-- Do the variables in the term, bound or free, and in their constraints have names of `p` only? -/
def Term.NamesOnly (p : String → Prop) : Term → Prop
  | .literal _ => True
  | .variable v => v.NamesOnly p
  | .symbol _ => True
  | .emptySet _ => True
  | .fullSet _ => True
  | .unary _ t => t.NamesOnly p
  | .binary _ l r => l.NamesOnly p ∧ r.NamesOnly p
  | .ite c y n => c.NamesOnly p ∧ y.NamesOnly p ∧ n.NamesOnly p
  | .nary _ ts => Term.AllNameOnly p ts
  | .quantified _ vs body => (∀ v ∈ vs, p v.name) ∧ body.NamesOnly p
  | .call _ ts => Term.AllNameOnly p ts

/-- Do the variable and the variables in its constraint have names of `p` only? -/
def Variable.NamesOnly (p : String → Prop) : Variable → Prop
  | .mk name _ none => p name
  | .mk name _ (some c) => p name ∧ c.NamesOnly p

/-- Do the variables in several terms have names of `p` only? -/
def Term.AllNameOnly (p : String → Prop) : List Term → Prop
  | [] => True
  | t :: ts => t.NamesOnly p ∧ Term.AllNameOnly p ts

end

variable {p q : String → Prop}

mutual

theorem Term.NamesOnly.mono (hpq : ∀ x, p x → q x) : ∀ {t : Term}, t.NamesOnly p → t.NamesOnly q
  | .literal _, _ => trivial
  | .variable v, h => Variable.NamesOnly.mono hpq (v := v) h
  | .symbol _, _ => trivial
  | .emptySet _, _ => trivial
  | .fullSet _, _ => trivial
  | .unary _ t, h => Term.NamesOnly.mono hpq (t := t) h
  | .binary _ l r, h => ⟨Term.NamesOnly.mono hpq (t := l) h.1, Term.NamesOnly.mono hpq (t := r) h.2⟩
  | .ite c y n, h =>
    ⟨Term.NamesOnly.mono hpq (t := c) h.1, Term.NamesOnly.mono hpq (t := y) h.2.1,
      Term.NamesOnly.mono hpq (t := n) h.2.2⟩
  | .nary _ ts, h => Term.AllNameOnly.mono hpq (l := ts) h
  | .quantified _ _ body, h =>
    ⟨fun v hv => hpq _ (h.1 v hv), Term.NamesOnly.mono hpq (t := body) h.2⟩
  | .call _ ts, h => Term.AllNameOnly.mono hpq (l := ts) h

theorem Variable.NamesOnly.mono (hpq : ∀ x, p x → q x) : ∀ {v : Variable},
    v.NamesOnly p → v.NamesOnly q
  | .mk _ _ none, h => hpq _ h
  | .mk _ _ (some c), h => ⟨hpq _ h.1, Term.NamesOnly.mono hpq (t := c) h.2⟩

theorem Term.AllNameOnly.mono (hpq : ∀ x, p x → q x) : ∀ {l : List Term},
    Term.AllNameOnly p l → Term.AllNameOnly q l
  | [], _ => trivial
  | t :: ts, h =>
    ⟨Term.NamesOnly.mono hpq (t := t) h.1, Term.AllNameOnly.mono hpq (l := ts) h.2⟩

end

namespace Term

mutual

/-- The names that binders bind are names of variables. -/
theorem NamesOnly.of_mem_boundNames {x : String} : ∀ {t : Term},
    t.NamesOnly p → x ∈ t.boundNames → p x
  | .unary _ t, h, hx => NamesOnly.of_mem_boundNames (t := t) h hx
  | .binary _ l r, h, hx => by
    rcases List.mem_append.1 hx with hx | hx
    · exact NamesOnly.of_mem_boundNames h.1 hx
    · exact NamesOnly.of_mem_boundNames h.2 hx
  | .ite c y n, h, hx => by
    simp only [boundNames, List.mem_append] at hx
    rcases hx with (hx | hx) | hx
    · exact NamesOnly.of_mem_boundNames h.1 hx
    · exact NamesOnly.of_mem_boundNames h.2.1 hx
    · exact NamesOnly.of_mem_boundNames h.2.2 hx
  | .nary _ ts, h, hx => AllNameOnly.of_mem_boundNames (l := ts) h hx
  | .quantified _ vs body, h, hx => by
    rcases List.mem_append.1 hx with hx | hx
    · obtain ⟨v, hv, rfl⟩ := List.mem_map.1 hx
      exact h.1 v hv
    · exact NamesOnly.of_mem_boundNames h.2 hx
  | .call _ ts, h, hx => AllNameOnly.of_mem_boundNames (l := ts) h hx

theorem AllNameOnly.of_mem_boundNames {x : String} : ∀ {l : List Term},
    AllNameOnly p l → x ∈ boundNamesList l → p x
  | t :: ts, h, hx => by
    rcases List.mem_append.1 hx with hx | hx
    · exact NamesOnly.of_mem_boundNames h.1 hx
    · exact AllNameOnly.of_mem_boundNames h.2 hx

end

mutual

/-- What a term is made of has names, whatever the functions are. -/
theorem MadeOf.namesOnly {q : FunctionSymbol → Prop} : ∀ {t : Term}, t.MadeOf p q → t.NamesOnly p
  | .literal _, _ => trivial
  | .variable (.mk _ _ none), h => h
  | .variable (.mk _ _ (some c)), h => ⟨h.1, MadeOf.namesOnly (t := c) h.2⟩
  | .symbol _, _ => trivial
  | .emptySet _, _ => trivial
  | .fullSet _, _ => trivial
  | .unary _ t, h => MadeOf.namesOnly (t := t) h
  | .binary _ l r, h => ⟨MadeOf.namesOnly (t := l) h.1, MadeOf.namesOnly (t := r) h.2⟩
  | .ite c y n, h => ⟨MadeOf.namesOnly (t := c) h.1, MadeOf.namesOnly (t := y) h.2.1,
      MadeOf.namesOnly (t := n) h.2.2⟩
  | .nary _ ts, h => AllMadeOf.namesOnly (l := ts) h
  | .quantified _ _ body, h => ⟨h.1, MadeOf.namesOnly (t := body) h.2⟩
  | .call _ ts, h => AllMadeOf.namesOnly (l := ts) h.2

theorem AllMadeOf.namesOnly {q : FunctionSymbol → Prop} : ∀ {l : List Term},
    AllMadeOf p q l → AllNameOnly p l
  | [], _ => trivial
  | t :: ts, h => ⟨MadeOf.namesOnly (t := t) h.1, AllMadeOf.namesOnly (l := ts) h.2⟩

end

end Term

end RelSmt
