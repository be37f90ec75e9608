import RelSmt.Proofs.Model.Resolved
import RelSmt.Proofs.Model.Roundtrip

/-!
# Legible terms

The names in a term stand for something in the environment in which it was read. A literal and the
sort of an empty set stand for themselves: what is written for them is read anywhere. A term is
*legible* when that is so of all those in it and its operators were checked against the sorts of
their operands. Whatever is read is legible (`legible_of_term`).
-/

namespace RelSmt

namespace Term

mutual

/-- The literals in a term, from left to right. -/
def literals : Term → List Literal
  | .literal c => [c]
  | .variable _ => []
  | .symbol _ => []
  | .emptySet _ => []
  | .fullSet _ => []
  | .unary _ t => t.literals
  | .binary _ l r => l.literals ++ r.literals
  | .ite c y n => c.literals ++ y.literals ++ n.literals
  | .nary _ ts => literalsList ts
  | .quantified _ _ body => body.literals
  | .call _ ts => literalsList ts

/-- The literals in several terms. -/
def literalsList : List Term → List Literal
  | [] => []
  | t :: ts => t.literals ++ literalsList ts

end

theorem mem_literalsList {c : Literal} {ts : List Term} :
    c ∈ literalsList ts ↔ ∃ t ∈ ts, c ∈ t.literals := by
  induction ts with
  | nil => simp [literalsList]
  | cons t ts ih => simp [literalsList, ih]

/-- Are the literals of a kind, are empty sets written with a sort that reads back, and did
operators pass the checks of their operands' sorts? -/
inductive Legible (p : Literal → Prop) : Term → Prop
  | literal {c : Literal} (hc : p c) : Legible p (.literal c)
  | var (v : Variable) : Legible p (.variable v)
  | symbol (f : FunctionSymbol) : Legible p (.symbol f)
  | emptySet {s : SmtSort} (hs : s.ReadsBack) (hset : s.isSet = true) : Legible p (.emptySet s)
  | fullSet (s : SmtSort) : Legible p (.fullSet s)
  | unary {op : UnaryOp} {t : Term} (ht : Legible p t) (hsort : ∃ s, unarySort op t.sort = .ok s) :
      Legible p (.unary op t)
  | binary {op : BinaryOp} {l r : Term} (hl : Legible p l) (hr : Legible p r)
      (hsort : ∃ s, binarySort op l.sort r.sort = .ok s) : Legible p (.binary op l r)
  | ite {c y n : Term} (hc : Legible p c) (hy : Legible p y) (hn : Legible p n) :
      Legible p (.ite c y n)
  | nary {op : NaryOp} {ts : List Term} (hts : ∀ t ∈ ts, Legible p t) (hne : ts ≠ [])
      (hfit : ∀ t ∈ ts, fitsNary op t.sort = true) : Legible p (.nary op ts)
  | quantified (q : Quantifier) (vs : List Variable) {body : Term} (hbody : Legible p body) :
      Legible p (.quantified q vs body)
  | call (f : FunctionSymbol) {ts : List Term} (hts : ∀ t ∈ ts, Legible p t) :
      Legible p (.call f ts)

section Legible

variable {p q : Literal → Prop} {t : Term}

theorem Legible.mono (h : Legible p t) (hpq : ∀ c, p c → q c) : Legible q t := by
  induction h with
  | literal hc => exact .literal (hpq _ hc)
  | var v => exact .var v
  | symbol f => exact .symbol f
  | emptySet hs hset => exact .emptySet hs hset
  | fullSet s => exact .fullSet s
  | unary _ hsort ih => exact .unary ih hsort
  | binary _ _ hsort ihl ihr => exact .binary ihl ihr hsort
  | ite _ _ _ ihc ihy ihn => exact .ite ihc ihy ihn
  | nary _ hne hfit ih => exact .nary ih hne hfit
  | quantified q vs _ ih => exact .quantified q vs ih
  | call f _ ih => exact .call f ih

theorem Legible.of_mem_literals (h : Legible p t) {c : Literal} (hc : c ∈ t.literals) : p c := by
  induction h with
  | literal hp => exact List.mem_singleton.1 hc ▸ hp
  | var _ => cases hc
  | symbol _ => cases hc
  | emptySet _ _ => cases hc
  | fullSet _ => cases hc
  | unary _ _ ih => exact ih hc
  | binary _ _ _ ihl ihr => exact (List.mem_append.1 hc).elim ihl ihr
  | ite _ _ _ ihc ihy ihn =>
    rcases List.mem_append.1 hc with hc | hc
    · exact (List.mem_append.1 hc).elim ihc ihy
    · exact ihn hc
  | nary _ _ _ ih =>
    obtain ⟨u, hu, hc⟩ := mem_literalsList.1 hc
    exact ih u hu hc
  | quantified _ _ _ ih => exact ih hc
  | call _ _ ih =>
    obtain ⟨u, hu, hc⟩ := mem_literalsList.1 hc
    exact ih u hu hc

end Legible

end Term

/-- Is the literal read back where no name is bound? -/
def Literal.ReadsBack (c : Literal) : Prop := (Term.literal c).ReadsBack {}

namespace Reply

variable {env : Environment} {t : Term}

/-- A name that stands alone is legible when names stand for legible terms. -/
theorem legible_of_atom {name : String}
    (henv : env.Resolves fun _ t => t.Legible Literal.ReadsBack) (h : atom name env = .ok t) :
    t.Legible Literal.ReadsBack := by
  rcases atom_eq_ok.1 h with ⟨_, rfl⟩ | ⟨_, rfl⟩ | ⟨hword, hget | ⟨_, s, hs, rfl⟩⟩
  · exact .literal (Term.readsBack_bool true)
  · exact .literal (Term.readsBack_bool false)
  · exact henv _ _ hget
  · exact .literal (Term.readsBack_element (Symbol.clean_sanitize name) hword rfl hs)

/-- The names that a binder brings in stand for variables. -/
theorem legible_bindVariables {vs : List Variable}
    (henv : env.Resolves fun _ t => t.Legible Literal.ReadsBack) :
    (bindVariables env vs).Resolves fun _ t => t.Legible Literal.ReadsBack := by
  refine henv.enter.putAll ?_
  rw [List.forall_mem_map]
  exact fun v _ => .var v

theorem legible_of_applies {head : String} {args : List SExpr}
    (henv : env.Resolves fun _ t => t.Legible Literal.ReadsBack)
    (ih : ∀ x ∈ args, ∀ {env : Environment} {t : Term},
      (env.Resolves fun _ t => t.Legible Literal.ReadsBack) → term x env = .ok t →
        t.Legible Literal.ReadsBack)
    (h : Applies env head args t) : t.Legible Literal.ReadsBack := by
  cases h with
  | emptySet hs hset => exact .emptySet (readsBack_of_sort _ hs) hset
  | fullSet _ _ => exact .fullSet _
  | negated hx =>
    cases ih _ (by simp) henv hx with
    | literal hn => exact .literal (readsBack_negate hn)
  | opposite hx ht hsort =>
    exact .binary (.literal (Term.readsBack_int (by decide))) (ih _ (by simp) henv hx)
      (Term.binarySort_arithmetic.2 ⟨rfl, hsort⟩)
  | unary _ hx hsort => exact .unary (ih _ (by simp) henv hx) hsort
  | binary _ hx hy hsort => exact .binary (ih _ (by simp) henv hx) (ih _ (by simp) henv hy) hsort
  | nary _ hxs hne hfit => exact .nary (forall_of_terms (fun x hx _ => ih x hx henv) hxs) hne hfit
  | quantified _ _ hy _ _ =>
    exact .quantified _ _ (ih _ (by simp) (legible_bindVariables henv) hy)
  | ite hx hy hz _ _ =>
    exact .ite (ih _ (by simp) henv hx) (ih _ (by simp) henv hy) (ih _ (by simp) henv hz)
  | call _ _ _ hxs _ => exact .call _ (forall_of_terms (fun x hx _ => ih x hx henv) hxs)

/-- **A term that is read is legible**, and its literals read back as they are. -/
theorem legible_of_term (x : SExpr) {env : Environment} {t : Term}
    (henv : env.Resolves fun _ t => t.Legible Literal.ReadsBack) (h : term x env = .ok t) :
    t.Legible Literal.ReadsBack := by
  refine term_induction (P := fun _ env t =>
    (env.Resolves fun _ t => t.Legible Literal.ReadsBack) → t.Legible Literal.ReadsBack)
    ?_ ?_ ?_ h henv
  · exact fun n env hn _ => .literal (Term.readsBack_int hn)
  · exact fun name env t h henv => legible_of_atom henv h
  · exact fun head args env t ih h henv =>
      legible_of_applies henv (fun x hx _ _ henv h => ih x hx _ _ h henv) h

/-- The names of a model stand for its symbols. -/
theorem legible_modelScope (m : Model) :
    (modelScope m).Resolves fun _ t => t.Legible Literal.ReadsBack :=
  exists_of_get?_modelScope.mono fun _ _ ⟨d, _, he, _⟩ => he ▸ .symbol d.symbol

/-- The bodies of a model's definitions are legible. -/
theorem legible_of_model {text : String} {m : Model} (h : model text = .ok m) :
    ∀ d ∈ m.functions, d.body.Legible Literal.ReadsBack := by
  intro d hd
  obtain ⟨header, hdefine⟩ := exists_define_of_model h d hd
  obtain ⟨body, hbody, _, rfl⟩ := define_eq_ok.1 hdefine
  exact legible_of_term header.body (legible_bindVariables (legible_modelScope m)) hbody

end Reply

end RelSmt
