import RelSmt.Proofs.Model.Reading
import RelSmt.Proofs.SExpr.Writing

/-!
# What is read back

Sorts, terms and definitions are written as s-expressions. Each *reads back* when its s-expression
is clean, is written as the thing itself is, and is read as that thing. Whether a term does so
depends on the environment: a name has to be bound to what it is the name of, and a solver's own
constant must not be hidden.

There is one lemma for each kind of node. A model whose definitions read back among each other is
read back from its text (`model_text`).
-/

namespace RelSmt

/-! ## Sorts -/

namespace SmtSort

mutual

/-- A sort as an s-expression. -/
def toSExpr : SmtSort → SExpr
  | .named name => .symbol name
  | .bool => .symbol "Bool"
  | .int => .symbol "Int"
  | .uint => .symbol "UInt"
  | .tuple cs => .apply "Tuple" (toSExprs cs)
  | .set e => .apply "Set" [e.toSExpr]

/-- The columns of a tuple sort as s-expressions. -/
def toSExprs : List SmtSort → List SExpr
  | [] => []
  | c :: cs => c.toSExpr :: toSExprs cs

end

theorem toSExprs_eq_map (cs : List SmtSort) : toSExprs cs = cs.map toSExpr := by
  induction cs with
  | nil => rfl
  | cons c cs ih => simp [toSExprs, ih]

/-- Is the sort read back from what is written for it? -/
structure ReadsBack (s : SmtSort) : Prop where
  read : Reply.sort s.toSExpr = .ok s
  text : s.toSExpr.text = s.text
  clean : s.toSExpr.Clean

theorem readsBack_atom : atom.ReadsBack :=
  ⟨Reply.sort_symbol_eq_ok.2 (by simp), by decide, show Symbol.Clean "Atom" by decide⟩

theorem readsBack_uint : uint.ReadsBack :=
  ⟨Reply.sort_symbol_eq_ok.2 (by simp), by decide, show Symbol.Clean "UInt" by decide⟩

theorem readsBack_bool : bool.ReadsBack :=
  ⟨Reply.sort_symbol_eq_ok.2 (by simp), by decide, show Symbol.Clean "Bool" by decide⟩

theorem readsBack_int : int.ReadsBack :=
  ⟨Reply.sort_symbol_eq_ok.2 (by simp), by decide, show Symbol.Clean "Int" by decide⟩

theorem ReadsBack.set {e : SmtSort} (he : e.ReadsBack) (htuple : e.isTuple = true) :
    (SmtSort.set e).ReadsBack where
  read := Reply.sort_list_eq_ok.2 (Or.inl ⟨e.toSExpr, e, rfl, he.read, htuple, rfl⟩)
  text := by
    rw [toSExpr, SExpr.text_apply, SmtSort.text, List.map_singleton, he.text]
    rfl
  clean := SExpr.clean_apply.2 ⟨by decide, by simpa using he.clean⟩

theorem ReadsBack.tuple {cs : List SmtSort} (hcs : ∀ c ∈ cs, c.ReadsBack) (hne : cs ≠ []) :
    (SmtSort.tuple cs).ReadsBack where
  read := by
    refine Reply.sort_list_eq_ok.2 (Or.inr ⟨toSExprs cs, cs, rfl, ?_, ?_, rfl⟩)
    · simpa [toSExprs_eq_map] using hne
    · rw [toSExprs_eq_map, List.forall₂_map_left_iff]
      exact List.forall₂_same.2 fun c hc => (hcs c hc).read
  text := by
    have htexts : (cs.map toSExpr).map SExpr.text = cs.map SmtSort.text := by
      rw [List.map_map]
      exact List.map_congr_left fun c hc => (hcs c hc).text
    rw [toSExpr, SExpr.text_apply, SmtSort.text, texts_eq_map, toSExprs_eq_map, htexts]
    rfl
  clean := by
    refine SExpr.clean_apply.2 ⟨by decide, ?_⟩
    rw [toSExprs_eq_map, List.forall_mem_map]
    exact fun c hc => (hcs c hc).clean

end SmtSort

/-! ## Terms as s-expressions -/

/-- A literal as an s-expression. -/
def Literal.toSExpr : Literal → SExpr
  | .bool b => .symbol (if b then "true" else "false")
  | .int n => if n < 0 then .apply "-" [.number n.natAbs] else .number n.natAbs
  | .element name _ => .symbol name

/-- A variable as an s-expression, where it is bound. -/
def Variable.toSExpr (v : Variable) : SExpr := .apply v.name [v.sort.toSExpr]

namespace Term

mutual

/-- A term as an s-expression. -/
def toSExpr : Term → SExpr
  | .literal c => c.toSExpr
  | .variable v => .symbol v.name
  | .symbol f => .symbol f.name
  | .emptySet s => .apply "as" [.symbol "emptyset", s.toSExpr]
  | .fullSet s => .apply "as" [.symbol "univset", s.toSExpr]
  | .unary op t => .apply op.text [t.toSExpr]
  | .binary op l r => .apply op.text [l.toSExpr, r.toSExpr]
  | .ite c y n => .apply "ite" [c.toSExpr, y.toSExpr, n.toSExpr]
  | .nary op ts => .apply op.text (toSExprs ts)
  | .quantified q vs body => .apply q.text [.list (vs.map Variable.toSExpr), body.toSExpr]
  | .call f ts => .apply f.name (toSExprs ts)

/-- Several terms as s-expressions. -/
def toSExprs : List Term → List SExpr
  | [] => []
  | t :: ts => t.toSExpr :: toSExprs ts

end

theorem toSExprs_eq_map (ts : List Term) : toSExprs ts = ts.map toSExpr := by
  induction ts with
  | nil => rfl
  | cons t ts ih => simp [toSExprs, ih]

end Term

/-- Is the variable read back where it is bound? -/
structure Variable.ReadsBack (v : Variable) : Prop where
  read : Reply.binder v.toSExpr = .ok v
  text : v.toSExpr.text = v.text
  clean : v.toSExpr.Clean

theorem Variable.readsBack_plain {name : String} {s : SmtSort} (hname : Symbol.Clean name)
    (hs : s.ReadsBack) : (Variable.plain name s).ReadsBack where
  read := Reply.binder_eq_ok.2 ⟨name, s.toSExpr, s, rfl, hs.read, by rw [hname]⟩
  text := by
    rw [toSExpr, SExpr.text_apply, List.map_singleton]
    exact congrArg (fun x => inParens [Symbol.quote name, x]) hs.text
  clean := SExpr.clean_apply.2 ⟨hname, List.forall_mem_singleton.2 hs.clean⟩

section Binders

variable {vs : List Variable}

theorem read_binders (hvs : ∀ v ∈ vs, v.ReadsBack) :
    Reply.binders (.list (vs.map Variable.toSExpr)) = .ok vs := by
  refine Reply.binders_eq_ok.2 ⟨_, rfl, ?_⟩
  rw [List.forall₂_map_left_iff]
  exact List.forall₂_same.2 fun v hv => (hvs v hv).read

theorem text_binders (hvs : ∀ v ∈ vs, v.ReadsBack) :
    (SExpr.list (vs.map Variable.toSExpr)).text = inParens (vs.map Variable.text) := by
  rw [SExpr.text_list, List.map_map]
  exact congrArg inParens (List.map_congr_left fun v hv => (hvs v hv).text)

theorem clean_binders (hvs : ∀ v ∈ vs, v.ReadsBack) :
    (SExpr.list (vs.map Variable.toSExpr)).Clean := by
  rw [SExpr.Clean, SExpr.allClean_iff, List.forall_mem_map]
  exact fun v hv => (hvs v hv).clean

end Binders

/-! ## Symbols of operators -/

namespace Reply.Operator

/-- The symbol by which an operator is written. -/
def text : Operator → String
  | .unary op => op.text
  | .binary op => op.text
  | .nary op => op.text
  | .quantifier q => q.text
  | .ite => "ite"

/-- Is the operator read from its symbol? Conjunctions and disjunctions are read as n-ary. -/
def IsRead : Operator → Prop
  | .binary (.connective .and) => False
  | .binary (.connective .or) => False
  | _ => True

theorem ofSymbol?_text {op : Operator} (h : op.IsRead) : ofSymbol? op.text = some op := by
  match op, h with
  | .unary op, _ => cases op <;> rfl
  | .binary (.connective .implies), _ => rfl
  | .binary .eq, _ => rfl
  | .binary (.comparison c), _ => cases c <;> rfl
  | .binary (.arithmetic a), _ => cases a <;> rfl
  | .binary (.set o), _ => cases o <;> rfl
  | .binary .member, _ => rfl
  | .binary .subset, _ => rfl
  | .binary .join, _ => rfl
  | .binary .product, _ => rfl
  | .nary op, _ => cases op <;> rfl
  | .quantifier q, _ => cases q <;> rfl
  | .ite, _ => rfl

/-- Whatever is read from a symbol is read from the symbol by which it is written. -/
theorem isRead_of_ofSymbol? {head : String} {op : Operator} (h : ofSymbol? head = some op) :
    op.IsRead := by
  unfold ofSymbol? at h
  split at h
  all_goals first | exact (Option.some.inj h) ▸ trivial | simp at h

theorem isSimple_text (op : Operator) : Symbol.isSimple op.text = true := by
  match op with
  | .unary op => cases op <;> decide
  | .binary (.connective c) => cases c <;> decide
  | .binary .eq => decide
  | .binary (.comparison c) => cases c <;> decide
  | .binary (.arithmetic a) => cases a <;> decide
  | .binary (.set o) => cases o <;> decide
  | .binary .member => decide
  | .binary .subset => decide
  | .binary .join => decide
  | .binary .product => decide
  | .nary op => cases op <;> decide
  | .quantifier q => cases q <;> decide
  | .ite => decide

theorem quote_text (op : Operator) : Symbol.quote op.text = op.text :=
  Symbol.quote_of_isSimple (isSimple_text op)

theorem clean_text (op : Operator) : Symbol.Clean op.text :=
  Symbol.clean_of_isSimple (isSimple_text op)

end Reply.Operator

/-! ## Terms that are read back -/

namespace Term

/-- Is the term read back in the environment from what is written for it? -/
structure ReadsBack (env : Environment) (t : Term) : Prop where
  read : Reply.term t.toSExpr env = .ok t
  text : t.toSExpr.text = t.text
  clean : t.toSExpr.Clean

variable {env : Environment} {s : SmtSort} {c l r t : Term} {ts : List Term}

/-- An application reads back when it has one of the forms that are read. -/
theorem readsBack_apply {head : String} {args : List SExpr} (he : t.toSExpr = .apply head args)
    (hread : Reply.Applies env head args t)
    (htext : inParens (Symbol.quote head :: args.map SExpr.text) = t.text)
    (hhead : Symbol.Clean head) (hargs : ∀ x ∈ args, x.Clean) : t.ReadsBack env where
  read := by
    rw [he]
    exact Reply.term_list_eq_ok.2 ⟨head, args, rfl, Reply.application_eq_ok.2 hread⟩
  text := by rw [he, SExpr.text_apply, htext]
  clean := by
    rw [he]
    exact SExpr.clean_apply.2 ⟨hhead, hargs⟩

theorem forall₂_readsBack (hts : ∀ t ∈ ts, t.ReadsBack env) :
    List.Forall₂ (fun x t => Reply.term x env = .ok t) (toSExprs ts) ts := by
  rw [toSExprs_eq_map, List.forall₂_map_left_iff]
  exact List.forall₂_same.2 fun t ht => (hts t ht).read

theorem text_toSExprs (hts : ∀ t ∈ ts, t.ReadsBack env) : (toSExprs ts).map SExpr.text = texts ts := by
  rw [toSExprs_eq_map, texts_eq_map, List.map_map]
  exact List.map_congr_left fun t ht => (hts t ht).text

theorem clean_toSExprs (hts : ∀ t ∈ ts, t.ReadsBack env) : ∀ x ∈ toSExprs ts, x.Clean := by
  rw [toSExprs_eq_map, List.forall_mem_map]
  exact fun t ht => (hts t ht).clean

/-- A name that stands alone reads back as what it is read as. -/
theorem readsBack_name {name : String} (he : t.toSExpr = .symbol name)
    (htext : t.text = Symbol.quote name) (hname : Symbol.Clean name)
    (hread : Reply.atom name env = .ok t) : t.ReadsBack env where
  read := by rw [he, Reply.term_symbol, hread]
  text := by rw [he, SExpr.text, htext]
  clean := by
    rw [he]
    exact hname

theorem readsBack_bool (b : Bool) : (Term.bool b).ReadsBack env := by
  cases b with
  | true =>
    exact readsBack_name rfl (by decide) (by decide) (Reply.atom_eq_ok.2 (Or.inl ⟨by decide, rfl⟩))
  | false =>
    exact readsBack_name rfl (by decide) (by decide)
      (Reply.atom_eq_ok.2 (Or.inr (Or.inl ⟨by decide, rfl⟩)))

/-- A name that is bound to a term written as that name reads back as the term. -/
theorem readsBack_bound {name : String} (he : t.toSExpr = .symbol name)
    (htext : t.text = Symbol.quote name) (hname : Symbol.Clean name)
    (hword : ¬ Reply.IsTruthValue name) (hget : env.get? name = some t) : t.ReadsBack env := by
  refine readsBack_name he htext hname (Reply.atom_eq_ok.2 (Or.inr (Or.inr ?_)))
  rw [show Symbol.sanitize name = name from hname]
  exact ⟨hword, Or.inl hget⟩

theorem readsBack_variable {v : Variable} (hname : Symbol.Clean v.name)
    (hword : ¬ Reply.IsTruthValue v.name) (hget : env.get? v.name = some v.term) :
    v.term.ReadsBack env :=
  readsBack_bound rfl rfl hname hword hget

/-- A solver's own constant reads back where nothing hides it. -/
theorem readsBack_element {name : String} (hname : Symbol.Clean name)
    (hword : ¬ Reply.IsTruthValue name) (hget : env.get? name = none)
    (hs : Reply.IsConstant name s) : (Term.literal (.element name s)).ReadsBack env := by
  refine readsBack_name rfl rfl hname (Reply.atom_eq_ok.2 (Or.inr (Or.inr ?_)))
  rw [show Symbol.sanitize name = name from hname]
  exact ⟨hword, Or.inr ⟨hget, s, hs, rfl⟩⟩

/-- Integers are read back within the range of literals and their negations. -/
theorem readsBack_int {n : Int} (hn : (n.natAbs : Int) ≤ Reply.maxInt) :
    (Term.int n).ReadsBack env := by
  have hrange : n.natAbs < UInt64.size := by
    rw [Reply.maxInt] at hn
    rw [UInt64.size]
    omega
  have hnumber : Reply.term (.number n.natAbs) env = .ok (.int n.natAbs) :=
    Reply.term_number_eq_ok.2 ⟨hn, rfl⟩
  by_cases hneg : n < 0
  · have hvalue : Reply.negate n.natAbs = n := by
      rw [Reply.negate_eq_neg (by simpa using hn)]
      omega
    have he : (Term.int n).toSExpr = .apply "-" [.number n.natAbs] := if_pos hneg
    have htext : (Term.int n).text = inParens ["-", toString n.natAbs] := if_pos hneg
    refine readsBack_apply he ?_ ?_ (by decide) (List.forall_mem_singleton.2 hrange)
    · have h := Reply.Applies.negated hnumber
      rwa [hvalue] at h
    · rw [htext]
      rfl
  · obtain ⟨k, rfl⟩ := Int.eq_ofNat_of_zero_le (Int.not_lt.1 hneg)
    have he : (Term.int k).toSExpr = .number k := by
      rw [Term.int, Term.toSExpr, Literal.toSExpr, if_neg hneg, Int.natAbs_natCast]
    have htext : (Term.int k).text = toString (k : Int) := by
      rw [Term.int, Term.text, Literal.text, if_neg hneg]
    refine ⟨?_, ?_, ?_⟩
    · rw [he]
      exact hnumber
    · rw [he, htext]
      rfl
    · rw [he]
      exact hrange

/-- Only integers within that range are read back. -/
theorem natAbs_le_of_readsBack {n : Int} (h : (Term.int n).ReadsBack env) :
    (n.natAbs : Int) ≤ Reply.maxInt := by
  have hread := h.read
  by_cases hneg : n < 0
  · rw [show (Term.int n).toSExpr = .apply "-" [.number n.natAbs] from if_pos hneg] at hread
    obtain ⟨head, args, hlist, happly⟩ := Reply.term_list_eq_ok.1 hread
    obtain ⟨_, rfl⟩ := List.cons.inj hlist
    cases Reply.applies_of_application happly with
    | negated hx => exact (Reply.term_number_eq_ok.1 hx).1
  · rw [show (Term.int n).toSExpr = .number n.natAbs from if_neg hneg] at hread
    exact (Reply.term_number_eq_ok.1 hread).1

attribute [local simp] Term.text

/-- A unary term reads back with its operand. -/
theorem ReadsBack.unary {op : UnaryOp} (ht : t.ReadsBack env)
    (hsort : ∃ s, unarySort op t.sort = .ok s) : (Term.unary op t).ReadsBack env := by
  have hread : Reply.Operator.IsRead (.unary op) := trivial
  have hop := Reply.Operator.ofSymbol?_text hread
  refine readsBack_apply rfl (.unary hop ht.read hsort) ?_ (Reply.Operator.clean_text (.unary op))
    (List.forall_mem_singleton.2 ht.clean)
  rw [show Symbol.quote op.text = op.text from Reply.Operator.quote_text (.unary op),
    List.map_singleton, ht.text, Term.text]

/-- A binary term reads back with its operands. -/
theorem ReadsBack.binary {op : BinaryOp} (hread : Reply.Operator.IsRead (.binary op))
    (hl : l.ReadsBack env) (hr : r.ReadsBack env)
    (hsort : ∃ s, binarySort op l.sort r.sort = .ok s) : (Term.binary op l r).ReadsBack env := by
  have hop := Reply.Operator.ofSymbol?_text hread
  refine readsBack_apply rfl (.binary hop hl.read hr.read hsort) ?_
    (Reply.Operator.clean_text (.binary op)) ?_
  · rw [show Symbol.quote op.text = op.text from Reply.Operator.quote_text (.binary op),
      Term.text, ← hl.text, ← hr.text]
    rfl
  · exact List.forall_mem_cons.2 ⟨hl.clean, List.forall_mem_singleton.2 hr.clean⟩

theorem ReadsBack.ite (hc : c.ReadsBack env) (hl : l.ReadsBack env) (hr : r.ReadsBack env)
    (hcsort : c.sort = .bool) (hsort : l.sort = r.sort) : (Term.ite c l r).ReadsBack env := by
  refine readsBack_apply rfl (.ite hc.read hl.read hr.read hcsort hsort) ?_ (by decide) ?_
  · rw [Term.text, ← hc.text, ← hl.text, ← hr.text]
    rfl
  · exact List.forall_mem_cons.2
      ⟨hc.clean, List.forall_mem_cons.2 ⟨hl.clean, List.forall_mem_singleton.2 hr.clean⟩⟩

theorem ReadsBack.nary {op : NaryOp} (hts : ∀ t ∈ ts, t.ReadsBack env) (hne : ts ≠ [])
    (hfit : ∀ t ∈ ts, fitsNary op t.sort = true) : (Term.nary op ts).ReadsBack env := by
  have hread : Reply.Operator.IsRead (.nary op) := trivial
  have hop := Reply.Operator.ofSymbol?_text hread
  refine readsBack_apply rfl (.nary hop (forall₂_readsBack hts) hne hfit) ?_
    (Reply.Operator.clean_text (.nary op)) (clean_toSExprs hts)
  rw [show Symbol.quote op.text = op.text from Reply.Operator.quote_text (.nary op),
    text_toSExprs hts, Term.text]

/-- A quantified formula reads back when its body does among the variables that it binds. -/
theorem ReadsBack.quantified {q : Quantifier} {vs : List Variable} {body : Term}
    (hvs : ∀ v ∈ vs, v.ReadsBack) (hbody : body.ReadsBack (Reply.bindVariables env vs))
    (hne : vs ≠ []) (hsort : body.sort = .bool) : (Term.quantified q vs body).ReadsBack env := by
  have hread : Reply.Operator.IsRead (.quantifier q) := trivial
  have hop := Reply.Operator.ofSymbol?_text hread
  refine readsBack_apply rfl (.quantified hop (read_binders hvs) hbody.read hne hsort) ?_
    (Reply.Operator.clean_text (.quantifier q)) ?_
  · rw [show Symbol.quote q.text = q.text from Reply.Operator.quote_text (.quantifier q),
      Term.text, ← text_binders hvs, ← hbody.text]
    rfl
  · exact List.forall_mem_cons.2 ⟨clean_binders hvs, List.forall_mem_singleton.2 hbody.clean⟩

theorem readsBack_emptySet (hs : s.ReadsBack) (hset : s.isSet = true) :
    (Term.emptySet s).ReadsBack env := by
  refine readsBack_apply rfl (.emptySet hs.read hset) ?_ (by decide) ?_
  · rw [Term.text, ← hs.text]
    rfl
  · exact List.forall_mem_cons.2
      ⟨show Symbol.Clean "emptyset" by decide, List.forall_mem_singleton.2 hs.clean⟩

theorem readsBack_fullSet (hs : s.ReadsBack) (hset : s.isSet = true) :
    (Term.fullSet s).ReadsBack env := by
  refine readsBack_apply rfl (.fullSet hs.read hset) ?_ (by decide) ?_
  · rw [Term.text, ← hs.text]
    rfl
  · exact List.forall_mem_cons.2
      ⟨show Symbol.Clean "univset" by decide, List.forall_mem_singleton.2 hs.clean⟩

/-- A call reads back where its name stands for the function and is no operator's. -/
theorem ReadsBack.call {f : FunctionSymbol} (hname : Symbol.Clean f.name) (has : f.name ≠ "as")
    (hop : Reply.Operator.ofSymbol? f.name = none) (hf : env.get? f.name = some (.symbol f))
    (hts : ∀ t ∈ ts, t.ReadsBack env) (hsort : sorts ts = f.inputs) :
    (Term.call f ts).ReadsBack env := by
  rw [← show Symbol.sanitize f.name = f.name from hname] at hf
  refine readsBack_apply rfl (.call has hop hf (forall₂_readsBack hts) hsort) ?_ hname
    (clean_toSExprs hts)
  rw [text_toSExprs hts, Term.text]

end Term

/-! ## Models -/

/-- A sort declaration as an s-expression. -/
def SortDeclaration.toSExpr (s : SortDeclaration) : SExpr :=
  .apply "declare-sort" [.symbol s.name, .number s.arity]

/-- Is the sort declaration read back from what is written for it? -/
structure SortDeclaration.ReadsBack (s : SortDeclaration) : Prop where
  name : Symbol.Clean s.name
  arity : s.arity < UInt64.size

namespace SortDeclaration

variable {s : SortDeclaration}

theorem text_toSExpr (s : SortDeclaration) : s.toSExpr.text = s.text := by
  rw [toSExpr, SExpr.text_apply, SortDeclaration.text]
  rfl

theorem ReadsBack.read (h : s.ReadsBack) : Reply.Contributes s.toSExpr (.sort s) := by
  have hread := Reply.Contributes.sort s.name s.arity
  rwa [show Symbol.sanitize s.name = s.name from h.name] at hread

theorem ReadsBack.clean (h : s.ReadsBack) : s.toSExpr.Clean :=
  SExpr.clean_apply.2 ⟨by decide, List.forall_mem_cons.2 ⟨h.name, List.forall_mem_singleton.2 h.arity⟩⟩

end SortDeclaration

namespace FunctionDefinition

variable {d : FunctionDefinition} {root : Environment}

/-- A definition as an s-expression. -/
def toSExpr (d : FunctionDefinition) : SExpr :=
  .apply "define-fun" [.symbol d.name, .list (d.inputs.map Variable.toSExpr), d.output.toSExpr,
    d.body.toSExpr]

/-- Is the definition read back among definitions of the names that `root` binds? -/
structure ReadsBack (root : Environment) (d : FunctionDefinition) : Prop where
  name : Symbol.Clean d.name
  unmarked : Position.isMarked d.name = false
  inputs : ∀ v ∈ d.inputs, v.ReadsBack
  output : d.output.ReadsBack
  body : d.body.ReadsBack (Reply.bindVariables root d.inputs)
  sort : d.body.sort = d.output

/-- What is known of a definition before its body is read. -/
def header (d : FunctionDefinition) : Reply.Header := ⟨d.symbol, d.inputs, d.body.toSExpr⟩

theorem ReadsBack.text (h : d.ReadsBack root) : d.toSExpr.text = d.text := by
  rw [toSExpr, SExpr.text_apply, FunctionDefinition.text, ← text_binders h.inputs, ← h.output.text,
    ← h.body.text]
  rfl

theorem ReadsBack.clean (h : d.ReadsBack root) : d.toSExpr.Clean := by
  refine SExpr.clean_apply.2 ⟨by decide, ?_⟩
  simp only [List.forall_mem_cons, List.not_mem_nil, false_implies, implies_true, and_true]
  exact ⟨h.name, clean_binders h.inputs, h.output.clean, h.body.clean⟩

theorem ReadsBack.read (h : d.ReadsBack root) :
    Reply.Contributes d.toSExpr (.function d.header) := by
  have hname : Symbol.sanitize d.name = d.name := h.name
  have hread := Reply.Contributes.function d.body.toSExpr (hname.symm ▸ h.unmarked)
    (read_binders h.inputs) h.output.read
  rwa [hname] at hread

theorem ReadsBack.define (h : d.ReadsBack root) : d.header.define root = .ok d :=
  Reply.define_eq_ok.2 ⟨d.body, h.body.read, h.sort, rfl⟩

end FunctionDefinition

/-- A model is written as one list, an item to a line. -/
theorem Model.text_eq {m : Model} (hds : ∀ d ∈ m.functions, d.toSExpr.text = d.text) :
    m.text = "(" ++ String.join ((.symbol "model" :: (m.sorts.map SortDeclaration.toSExpr
      ++ m.functions.map FunctionDefinition.toSExpr)).map fun x => x.text ++ "\n") ++ ")" := by
  have hsorts : m.sorts.map SortDeclaration.text
      = (m.sorts.map SortDeclaration.toSExpr).map SExpr.text := by
    rw [List.map_map]
    exact List.map_congr_left fun s _ => (SortDeclaration.text_toSExpr s).symm
  have hfunctions : m.functions.map FunctionDefinition.text
      = (m.functions.map FunctionDefinition.toSExpr).map SExpr.text := by
    rw [List.map_map]
    exact List.map_congr_left fun d hd => (hds d hd).symm
  have hopen : "(model" ++ "\n" = "(" ++ ((SExpr.symbol "model").text ++ "\n") := by decide
  rw [Model.text, unlines, hsorts, hfunctions, List.cons_append, ← List.map_append, List.map_cons,
    List.map_cons, String.join_cons, String.join_cons, hopen, List.map_map, String.append_assoc,
    String.append_assoc, String.append_assoc, String.append_assoc]
  rfl

namespace Reply

theorem filterMap_sort? (ss : List SortDeclaration) (hs : List Header) :
    (ss.map Item.sort ++ hs.map Item.function).filterMap Item.sort? = ss := by
  simp [List.filterMap_append, List.filterMap_map, Function.comp_def, Item.sort?]

theorem filterMap_header? (ss : List SortDeclaration) (hs : List Header) :
    (ss.map Item.sort ++ hs.map Item.function).filterMap Item.header? = hs := by
  simp [List.filterMap_append, List.filterMap_map, Function.comp_def, Item.header?]

/-- **A model is read back from its text**, where its definitions read back among each other. -/
theorem model_text {m : Model} (hsorts : ∀ s ∈ m.sorts, s.ReadsBack)
    (hds : ∀ d ∈ m.functions, d.ReadsBack (modelScope m)) : model m.text = .ok m := by
  have hclean : ∀ x ∈ .symbol "model" :: (m.sorts.map SortDeclaration.toSExpr
      ++ m.functions.map FunctionDefinition.toSExpr), x.Clean := by
    refine List.forall_mem_cons.2 ⟨show Symbol.Clean "model" by decide, ?_⟩
    rw [List.forall_mem_append, List.forall_mem_map, List.forall_mem_map]
    exact ⟨fun s hs => (hsorts s hs).clean, fun d hd => (hds d hd).clean⟩
  have hread := SExpr.readAll_lines hclean
  rw [← Model.text_eq fun d hd => (hds d hd).text] at hread
  refine model_eq_ok.2 ⟨_, m.sorts.map Item.sort
    ++ (m.functions.map FunctionDefinition.header).map Item.function, hread, ?_, ?_, ?_⟩
  · refine List.rel_append ?_ ?_
    · rw [List.forall₂_map_left_iff, List.forall₂_map_right_iff]
      exact List.forall₂_same.2 fun s hs => item_eq_ok.2 (hsorts s hs).read
    · rw [List.map_map, List.forall₂_map_left_iff, List.forall₂_map_right_iff]
      exact List.forall₂_same.2 fun d hd => item_eq_ok.2 (hds d hd).read
  · rw [filterMap_sort?]
  · rw [filterMap_header?, List.map_map, List.forall₂_map_left_iff]
    exact List.forall₂_same.2 fun d hd => (hds d hd).define

end Reply

end RelSmt
