import RelSmt.Model.Reader
import RelSmt.Proofs.Scoped
import RelSmt.Proofs.Term.Checked

/-!
# What is read from which s-expression

One lemma for each function of the reader says exactly when it returns what. An application has the
most forms, so those are an inductive relation, `Applies`, with a constructor for each
(`application_eq_ok`).
-/

namespace RelSmt

/-- Induction over s-expressions, where a list may use what holds of its items. -/
@[elab_as_elim]
theorem SExpr.itemsInduction {P : SExpr → Prop} (number : ∀ n, P (.number n))
    (symbol : ∀ s, P (.symbol s)) (list : ∀ xs, (∀ x ∈ xs, P x) → P (.list xs)) (x : SExpr) : P x :=
  @SExpr.rec P (fun xs => ∀ x ∈ xs, P x) number symbol list (fun _ h => by cases h)
    (fun _ _ hx hxs => List.forall_mem_cons.2 ⟨hx, hxs⟩) x

theorem SmtSort.setOf_eq_ok {e s : SmtSort} :
    setOf e = .ok s ↔ e.isTuple = true ∧ .set e = s := by
  unfold setOf
  split <;> simp_all

theorem Term.eq_int_of_int? {t : Term} {n : Int} (h : t.int? = some n) : t = .int n := by
  unfold Term.int? at h
  split at h
  · obtain rfl := Option.some.inj h
    rfl
  · simp at h

namespace Reply

variable {env : Environment} {x : SExpr} {xs : List SExpr} {s : SmtSort} {t : Term}

/-! ## Sorts -/

theorem sorts_eq_ok {ss : List SmtSort} :
    sorts xs = .ok ss ↔ List.Forall₂ (fun x s => sort x = .ok s) xs ss := by
  have hmap : ∀ xs, sorts xs = xs.mapM sort := fun xs => by
    induction xs with
    | nil => rfl
    | cons x xs ih => rw [sorts, List.mapM_cons, ih]
  rw [hmap, Checked.mapM_eq_ok]

/-- A symbol is the sort that it names. -/
theorem sort_symbol_eq_ok {name : String} : sort (.symbol name) = .ok s ↔
    (name = "Atom" ∧ s = .atom) ∨ (name = "UInt" ∧ s = .uint) ∨ (name = "Bool" ∧ s = .bool) ∨
      (name = "Int" ∧ s = .int) := by
  unfold sort
  split <;> simp_all [eq_comm]

/-- A list is a set sort over a tuple sort, or a tuple sort over some columns. -/
theorem sort_list_eq_ok : sort (.list xs) = .ok s ↔
    (∃ x e, xs = [.symbol "Set", x] ∧ sort x = .ok e ∧ e.isTuple = true ∧ s = .set e) ∨
      (∃ ys cs, xs = .symbol "Tuple" :: ys ∧ ys ≠ [] ∧
        List.Forall₂ (fun x c => sort x = .ok c) ys cs ∧ s = .tuple cs) := by
  rw [sort.eq_def (.list xs)]
  split
  -- the first cases are of atoms, and a list is none
  iterate 5 simp_all
  · rename_i element he
    obtain rfl := SExpr.list.inj he
    simp only [Checked.bind_eq_ok, SmtSort.setOf_eq_ok]
    constructor
    · rintro ⟨e, he, htuple, rfl⟩
      exact Or.inl ⟨element, e, rfl, he, htuple, rfl⟩
    · rintro (⟨x, e, hx, he, htuple, rfl⟩ | ⟨ys, cs, hys, _⟩)
      · simp only [List.cons.injEq, and_true, true_and] at hx
        exact ⟨e, hx ▸ he, htuple, rfl⟩
      · simp at hys
  · rename_i column columns he
    obtain rfl := SExpr.list.inj he
    simp only [Checked.bind_eq_ok, Checked.pure_eq_ok, sorts_eq_ok]
    constructor
    · rintro ⟨cs, hcs, rfl⟩
      exact Or.inr ⟨column :: columns, cs, rfl, by simp, hcs, rfl⟩
    · rintro (⟨x, e, hx, _⟩ | ⟨ys, cs, hys, _, hcs, rfl⟩)
      · simp at hx
      · obtain rfl := (List.cons.inj hys).2
        exact ⟨cs, hcs, rfl⟩
  · rename_i hset htuple
    simp only [reduceCtorEq, false_iff, not_or, not_exists, not_and]
    constructor
    · rintro x e rfl
      exact absurd rfl (hset x)
    · rintro (_ | ⟨y, ys⟩) cs rfl hne
      · exact absurd rfl hne
      · exact absurd rfl (htuple y ys)

/-! ## Names that stand alone -/

/-- The sorts that a solver's constants may have. -/
theorem constantSort_eq_ok {name : String} : constantSort name = .ok s ↔
    (name = "Atom" ∧ s = .atom) ∨ (name = "UInt" ∧ s = .uint) := by
  unfold constantSort
  split <;> simp_all [eq_comm]

/-- Is this a solver's own constant? Its sort is part of its name. -/
def IsConstant (name : String) (s : SmtSort) : Prop :=
  ∃ sortName, constantSortName? name = some sortName ∧ constantSort sortName = .ok s

/-- The words that stand for themselves, whatever they are bound to. -/
def IsTruthValue (name : String) : Prop := name = "true" ∨ name = "false"

instance (name : String) : Decidable (IsTruthValue name) :=
  inferInstanceAs (Decidable (name = "true" ∨ name = "false"))

/-- A name that stands alone is a truth value, what it is bound to, or a solver's own constant. -/
theorem atom_eq_ok {symbol : String} : atom symbol env = .ok t ↔
    (Symbol.sanitize symbol = "true" ∧ t = .bool true) ∨
      (Symbol.sanitize symbol = "false" ∧ t = .bool false) ∨
      (¬ IsTruthValue (Symbol.sanitize symbol) ∧
        (env.get? (Symbol.sanitize symbol) = some t ∨
          (env.get? (Symbol.sanitize symbol) = none ∧ ∃ s, IsConstant (Symbol.sanitize symbol) s ∧
            t = .literal (.element (Symbol.sanitize symbol) s)))) := by
  unfold atom
  dsimp only
  generalize Symbol.sanitize symbol = name
  by_cases htrue : name = "true"
  · subst htrue
    simp [IsTruthValue, eq_comm]
  by_cases hfalse : name = "false"
  · subst hfalse
    simp [IsTruthValue, eq_comm]
  -- neither truth value: a name in scope, else a constant of a sort
  have hword : ¬ IsTruthValue name := by simp [IsTruthValue, htrue, hfalse]
  simp only [htrue, hfalse, if_false, false_and, false_or, hword, not_false_eq_true, true_and]
  cases hget : env.get? name with
  | some u => simp
  | none =>
    simp only [reduceCtorEq, false_or, true_and, IsConstant]
    cases hsort : constantSortName? name with
    | none => simp
    | some sortName =>
      simp only [Checked.bind_eq_ok, Option.some.injEq, exists_eq_left']
      refine exists_congr fun s => and_congr_right fun hs => ?_
      rcases constantSort_eq_ok.1 hs with ⟨_, rfl⟩ | ⟨_, rfl⟩ <;>
        simp [Term.element, SmtSort.atom, eq_comm]

/-! ## Binders -/

theorem binder_eq_ok {v : Variable} : binder x = .ok v ↔
    ∃ name y s, x = .list [.symbol name, y] ∧ sort y = .ok s ∧
      v = .plain (Symbol.sanitize name) s := by
  unfold binder
  split
  · rename_i name y
    simp only [Checked.bind_eq_ok, Checked.pure_eq_ok]
    constructor
    · rintro ⟨s, hs, rfl⟩
      exact ⟨name, y, s, rfl, hs, rfl⟩
    · rintro ⟨name', y', s, hx, hs, rfl⟩
      simp only [SExpr.list.injEq, List.cons.injEq, SExpr.symbol.injEq, and_true] at hx
      obtain ⟨rfl, rfl⟩ := hx
      exact ⟨s, hs, rfl⟩
  · rename_i hne
    simp only [reduceCtorEq, false_iff, not_exists, not_and]
    rintro name y s rfl
    exact absurd rfl (hne name y)

theorem binders_eq_ok {vs : List Variable} : binders x = .ok vs ↔
    ∃ xs, x = .list xs ∧ List.Forall₂ (fun x v => binder x = .ok v) xs vs := by
  cases x with
  | list xs => simp [binders, Checked.mapM_eq_ok]
  | _ => simp [binders]

/-! ## Terms -/

theorem terms_eq_ok {ts : List Term} :
    terms xs env = .ok ts ↔ List.Forall₂ (fun x t => term x env = .ok t) xs ts := by
  have hmap : ∀ xs, terms xs env = xs.mapM (term · env) := fun xs => by
    induction xs with
    | nil =>
      rw [terms]
      rfl
    | cons x xs ih => rw [terms, List.mapM_cons, ih]
  rw [hmap, Checked.mapM_eq_ok]

/-- Negation keeps to the 64-bit integers where it is applied to a literal or to a negated one. -/
theorem negate_eq_neg {n : Int} (hn : (n.natAbs : Int) ≤ maxInt) : negate n = -n := by
  rw [maxInt] at hn
  rw [negate, UInt64.size, Int.bmod_eq_of_le] <;> omega

theorem term_number_eq_ok {n : Nat} :
    term (.number n) env = .ok t ↔ (n : Int) ≤ maxInt ∧ t = .int n := by
  rw [term]
  split
  · rename_i hn
    simp only [Except.ok.injEq, hn, true_and, eq_comm]
  · rename_i hn
    simp only [reduceCtorEq, false_iff, not_and]
    exact fun h => absurd h hn

theorem term_symbol (name : String) (env : Environment) :
    term (.symbol name) env = atom name env := by
  rw [term]

/-- A list is an application. -/
theorem term_list_eq_ok : term (.list xs) env = .ok t ↔
    ∃ head args, xs = .symbol head :: args ∧ application head args env = .ok t := by
  match xs with
  | [] => simp [term]
  | .symbol head :: args => simp [term]
  | .number n :: args => simp [term]
  | .list ys :: args => simp [term]

/-- What an application stands for: one constructor for each form. -/
inductive Applies (env : Environment) : String → List SExpr → Term → Prop
  | emptySet {x : SExpr} {s : SmtSort} (hs : sort x = .ok s) (hset : s.isSet = true) :
      Applies env "as" [.symbol "emptyset", x] (.emptySet s)
  | fullSet {x : SExpr} {s : SmtSort} (hs : sort x = .ok s) (hset : s.isSet = true) :
      Applies env "as" [.symbol "univset", x] (.fullSet s)
  | negated {x : SExpr} {n : Int} (hx : term x env = .ok (.int n)) :
      Applies env "-" [x] (.int (negate n))
  | opposite {x : SExpr} {t : Term} (hx : term x env = .ok t) (ht : t.int? = none)
      (hsort : t.sort = .int) : Applies env "-" [x] (.binary (.arithmetic .minus) (.int 0) t)
  | unary {head : String} {op : UnaryOp} {x : SExpr} {t : Term}
      (hop : Operator.ofSymbol? head = some (.unary op)) (hx : term x env = .ok t)
      (hsort : ∃ s, Term.unarySort op t.sort = .ok s) : Applies env head [x] (.unary op t)
  | binary {head : String} {op : BinaryOp} {x y : SExpr} {l r : Term}
      (hop : Operator.ofSymbol? head = some (.binary op)) (hx : term x env = .ok l)
      (hy : term y env = .ok r) (hsort : ∃ s, Term.binarySort op l.sort r.sort = .ok s) :
      Applies env head [x, y] (.binary op l r)
  | nary {head : String} {op : NaryOp} {xs : List SExpr} {ts : List Term}
      (hop : Operator.ofSymbol? head = some (.nary op))
      (hxs : List.Forall₂ (fun x t => term x env = .ok t) xs ts) (hne : ts ≠ [])
      (hfit : ∀ t ∈ ts, Term.fitsNary op t.sort = true) : Applies env head xs (.nary op ts)
  | quantified {head : String} {q : Quantifier} {x y : SExpr} {vs : List Variable} {body : Term}
      (hop : Operator.ofSymbol? head = some (.quantifier q)) (hx : binders x = .ok vs)
      (hy : term y (bindVariables env vs) = .ok body) (hne : vs ≠ []) (hsort : body.sort = .bool) :
      Applies env head [x, y] (.quantified q vs body)
  | ite {x y z : SExpr} {c t e : Term} (hx : term x env = .ok c) (hy : term y env = .ok t)
      (hz : term z env = .ok e) (hc : c.sort = .bool) (hsort : t.sort = e.sort) :
      Applies env "ite" [x, y, z] (.ite c t e)
  | call {head : String} {f : FunctionSymbol} {xs : List SExpr} {ts : List Term} (has : head ≠ "as")
      (hop : Operator.ofSymbol? head = none)
      (hf : env.get? (Symbol.sanitize head) = some (.symbol f))
      (hxs : List.Forall₂ (fun x t => term x env = .ok t) xs ts)
      (hsort : Term.sorts ts = f.inputs) : Applies env head xs (.call f ts)

/-- Only one symbol stands for a choice. -/
theorem ofSymbol?_eq_ite {head : String} (h : Operator.ofSymbol? head = some .ite) :
    head = "ite" := by
  unfold Operator.ofSymbol? at h
  split at h <;> simp_all

theorem ofSymbol?_eq_minus {head : String}
    (h : Operator.ofSymbol? head = some (.binary (.arithmetic .minus))) : head = "-" := by
  unfold Operator.ofSymbol? at h
  split at h <;> simp_all

theorem ascribed_eq_ok : ascribed x s = .ok t ↔ s.isSet = true ∧
    ((x = .symbol "emptyset" ∧ t = .emptySet s) ∨ (x = .symbol "univset" ∧ t = .fullSet s)) := by
  unfold ascribed
  split
  · rw [Term.emptyOf_eq_ok, eq_comm (b := t)]
    simp
  · rw [Term.fullOf_eq_ok, eq_comm (b := t)]
    simp
  · simp_all

theorem applies_of_application {head : String} {args : List SExpr}
    (h : application head args env = .ok t) : Applies env head args t := by
  unfold application at h
  split at h
  · rename_i has
    subst has
    split at h
    · simp only [Checked.bind_eq_ok, ascribed_eq_ok] at h
      obtain ⟨s, hs, hset, ⟨rfl, rfl⟩ | ⟨rfl, rfl⟩⟩ := h
      · exact .emptySet hs hset
      · exact .fullSet hs hset
    · simp at h
  -- the operator decides what is built, and with how many operands
  · rename_i has
    split at h
    · rename_i x hop
      -- minus with one operand negates a literal in place and subtracts anything else from zero
      obtain rfl := ofSymbol?_eq_minus hop
      obtain ⟨u, hx, h⟩ := Checked.bind_eq_ok.1 h
      split at h
      · rename_i n hn
        obtain rfl := Term.eq_int_of_int? hn
        obtain rfl := Checked.pure_eq_ok.1 h
        exact .negated hx
      · rename_i hn
        obtain ⟨hsort, rfl⟩ := Term.mkBinary_eq_ok.1 h
        exact .opposite hx hn (Term.binarySort_arithmetic.1 hsort).2
    · rename_i op x hop
      obtain ⟨u, hx, h⟩ := Checked.bind_eq_ok.1 h
      obtain ⟨hsort, rfl⟩ := Term.mkUnary_eq_ok.1 h
      exact .unary hop hx hsort
    · simp at h
    · rename_i op x y hop
      simp only [Checked.bind_eq_ok, Term.mkBinary_eq_ok] at h
      obtain ⟨l, hx, r, hy, hsort, rfl⟩ := h
      exact .binary hop hx hy hsort
    · simp at h
    · rename_i op hop
      simp only [Checked.bind_eq_ok, terms_eq_ok, Term.mkNary_eq_ok] at h
      obtain ⟨ts, hxs, hne, hfit, rfl⟩ := h
      exact .nary hop hxs hne hfit
    · rename_i q x y hop
      simp only [Checked.bind_eq_ok, Term.mkQuantified_eq_ok] at h
      obtain ⟨vs, hx, body, hy, hne, hsort, rfl⟩ := h
      exact .quantified hop hx hy hne hsort
    · simp at h
    · rename_i x y z hop
      obtain rfl := ofSymbol?_eq_ite hop
      simp only [Checked.bind_eq_ok, Term.mkIte_eq_ok] at h
      obtain ⟨c, hx, t', hy, e, hz, hc, hsort, rfl⟩ := h
      exact .ite hx hy hz hc hsort
    · simp at h
    · rename_i hop
      split at h
      · rename_i f hf
        simp only [Checked.bind_eq_ok, terms_eq_ok, Term.mkCall_eq_ok] at h
        obtain ⟨ts, hxs, hsort, rfl⟩ := h
        exact .call has hop hf hxs hsort
      · simp at h

/-- An operator's symbol starts no ascription. -/
theorem ne_as_of_ofSymbol? {head : String} {op : Operator}
    (h : Operator.ofSymbol? head = some op) : head ≠ "as" := by
  rintro rfl
  simp [Operator.ofSymbol?] at h

theorem application_of_applies {head : String} {args : List SExpr} (h : Applies env head args t) :
    application head args env = .ok t := by
  cases h with
  | emptySet hs hset => simp [application, Checked.bind_eq_ok, ascribed_eq_ok, hs, hset]
  | fullSet hs hset => simp [application, Checked.bind_eq_ok, ascribed_eq_ok, hs, hset]
  | negated hx =>
    simp [application, Operator.ofSymbol?, Checked.bind_eq_ok, Checked.pure_eq_ok, hx, Term.int,
      Term.int?]
  | opposite hx ht hsort =>
    simp [application, Operator.ofSymbol?, Checked.bind_eq_ok, hx, ht, Term.mkBinary_eq_ok,
      hsort, Term.int, Term.sort]
  | unary hop hx hsort =>
    -- no operator is written like an ascription, so the branch is the operator's own
    rw [application.eq_def, if_neg (ne_as_of_ofSymbol? hop), hop]
    simp [Checked.bind_eq_ok, Term.mkUnary_eq_ok, hx, hsort]
  | binary hop hx hy hsort =>
    rw [application.eq_def, if_neg (ne_as_of_ofSymbol? hop), hop]
    simp [Checked.bind_eq_ok, Term.mkBinary_eq_ok, hx, hy, hsort]
  | nary hop hxs hne hfit =>
    rw [application.eq_def, if_neg (ne_as_of_ofSymbol? hop), hop]
    simp only [Checked.bind_eq_ok, Term.mkNary_eq_ok, terms_eq_ok]
    exact ⟨_, hxs, hne, hfit, rfl⟩
  | quantified hop hx hy hne hsort =>
    rw [application.eq_def, if_neg (ne_as_of_ofSymbol? hop), hop]
    simp [Checked.bind_eq_ok, Term.mkQuantified_eq_ok, hx, hy, hne, hsort]
  | ite hx hy hz hc hsort =>
    simp [application, Operator.ofSymbol?, Checked.bind_eq_ok, hx, hy, hz, Term.mkIte_eq_ok, hc,
      hsort]
  | call has hop hf hxs hsort =>
    rw [application.eq_def, if_neg has, hop]
    simp only [hf, Checked.bind_eq_ok, Term.mkCall_eq_ok, terms_eq_ok]
    exact ⟨_, hxs, hsort, rfl⟩

/-- **An application is read exactly in the forms listed.** -/
theorem application_eq_ok {head : String} {args : List SExpr} :
    application head args env = .ok t ↔ Applies env head args t :=
  ⟨applies_of_application, application_of_applies⟩

theorem forall_of_terms {P : Term → Prop} {ts : List Term}
    (h : ∀ x ∈ xs, ∀ t, term x env = .ok t → P t)
    (hts : List.Forall₂ (fun x t => term x env = .ok t) xs ts) : ∀ t ∈ ts, P t := by
  intro t ht
  obtain ⟨x, hx, hxt⟩ := exists_mem_of_forall₂ hts ht
  exact h x hx t hxt

/-- **Induction over terms that are read.** What holds of numbers and atoms, and of an application
if of everything that its arguments are read as, holds of all of them. -/
theorem term_induction {P : SExpr → Environment → Term → Prop}
    (number : ∀ (n : Nat) env, (n : Int) ≤ maxInt → P (.number n) env (.int n))
    (symbol : ∀ name env t, atom name env = .ok t → P (.symbol name) env t)
    (apply : ∀ head args env t, (∀ x ∈ args, ∀ env t, term x env = .ok t → P x env t) →
      Applies env head args t → P (.list (.symbol head :: args)) env t)
    (h : term x env = .ok t) : P x env t := by
  induction x using SExpr.itemsInduction generalizing env t with
  | number n =>
    obtain ⟨hn, rfl⟩ := term_number_eq_ok.1 h
    exact number n env hn
  | symbol name => exact symbol name env t (term_symbol name env ▸ h)
  | list xs ih =>
    obtain ⟨head, args, rfl, happly⟩ := term_list_eq_ok.1 h
    exact apply head args env t (fun x hx _ _ h => ih x (List.mem_cons_of_mem _ hx) h)
      (application_eq_ok.1 happly)

/-! ## Models -/

theorem sortArity_eq_ok {n : Nat} : sortArity x = .ok n ↔ x = .number n := by
  cases x <;> simp [sortArity]

/-- What an item of a model contributes: one constructor for each form. -/
inductive Contributes : SExpr → Item → Prop
  | sort (name : String) (n : Nat) :
      Contributes (.list [.symbol "declare-sort", .symbol name, .number n])
        (.sort ⟨Symbol.sanitize name, n⟩)
  | function {name : String} {y z : SExpr} {vs : List Variable} {s : SmtSort} (body : SExpr)
      (hname : Position.isMarked (Symbol.sanitize name) = false) (hy : binders y = .ok vs)
      (hz : Reply.sort z = .ok s) :
      Contributes (.list [.symbol "define-fun", .symbol name, y, z, body])
        (.function ⟨⟨Symbol.sanitize name, vs.map Variable.sort, s⟩, vs, body⟩)
  | echo {name : String} (y z body : SExpr)
      (hname : Position.isMarked (Symbol.sanitize name) = true) :
      Contributes (.list [.symbol "define-fun", .symbol name, y, z, body]) .skipped
  | declaration (rest : List SExpr) : Contributes (.list (.symbol "declare-fun" :: rest)) .skipped

theorem item_eq_ok {i : Item} : item x = .ok i ↔ Contributes x i := by
  constructor
  · intro h
    unfold item at h
    split at h
    · split at h
      · simp only [Checked.bind_eq_ok, Checked.pure_eq_ok, sortArity_eq_ok] at h
        obtain ⟨n, rfl, rfl⟩ := h
        exact .sort _ n
      · simp at h
    · split at h
      · dsimp only at h
        split at h
        · rename_i hname
          obtain rfl := Except.ok.inj h
          exact .echo _ _ _ hname
        · rename_i hname
          simp only [Checked.bind_eq_ok, Checked.pure_eq_ok] at h
          obtain ⟨vs, hy, s, hz, rfl⟩ := h
          exact .function _ (by simpa using hname) hy hz
      · simp at h
    · obtain rfl := Except.ok.inj h
      exact .declaration _
    · simp at h
  -- each kind of item is read back by the branch that made it
  · intro h
    cases h with
    | sort name n => simp [item, sortArity]
    | function body hname hy hz =>
      simp [item, hname, hy, hz, Checked.bind_eq_ok]
    | echo y z body hname => simp [item, hname]
    | declaration rest => simp [item]

theorem item_eq_sort {d : SortDeclaration} (h : item x = .ok (.sort d)) :
    ∃ name n, x = .list [.symbol "declare-sort", .symbol name, .number n] ∧
      d = ⟨Symbol.sanitize name, n⟩ := by
  generalize hi : Item.sort d = i at h
  cases item_eq_ok.1 h with
  | sort name n => exact ⟨name, n, rfl, Item.sort.inj hi⟩
  | _ => cases hi

theorem item_eq_function {h : Header} (hx : item x = .ok (.function h)) :
    ∃ name y z body vs s, x = .list [.symbol "define-fun", .symbol name, y, z, body] ∧
      Position.isMarked (Symbol.sanitize name) = false ∧ binders y = .ok vs ∧ sort z = .ok s ∧
      h = ⟨⟨Symbol.sanitize name, vs.map Variable.sort, s⟩, vs, body⟩ := by
  generalize hi : Item.function h = i at hx
  cases item_eq_ok.1 hx with
  | function body hname hy hz =>
    exact ⟨_, _, _, body, _, _, rfl, hname, hy, hz, Item.function.inj hi⟩
  | _ => cases hi

theorem define_eq_ok {h : Header} {d : FunctionDefinition} : h.define env = .ok d ↔
    ∃ body, term h.body (bindVariables env h.inputs) = .ok body ∧ body.sort = h.symbol.output ∧
      d = ⟨h.symbol.name, h.inputs, h.symbol.output, body⟩ := by
  simp only [Header.define, Checked.bind_eq_ok, FunctionDefinition.make]
  refine exists_congr fun body => and_congr_right fun _ => ?_
  split
  · rename_i hsort
    simp only [Except.ok.injEq, hsort, true_and, eq_comm]
  · rename_i hsort
    simp [hsort]

theorem sexprs_eq_ok {text : String} : sexprs text = .ok xs ↔ SExpr.readAll text = .ok xs := by
  unfold sexprs
  split <;> simp_all

/-- A model is read item by item, and then definition by definition. -/
theorem model_eq_ok {text : String} {m : Model} : model text = .ok m ↔
    ∃ xs items, SExpr.readAll text = .ok xs ∧
      List.Forall₂ (fun x i => item x = .ok i) (modelItems xs) items ∧
      m.sorts = items.filterMap Item.sort? ∧
      List.Forall₂ (fun h d => h.define
          (symbolScope ((items.filterMap Item.header?).map Header.symbol)) = .ok d)
        (items.filterMap Item.header?) m.functions := by
  simp only [model, Checked.bind_eq_ok, Checked.pure_eq_ok, sexprs_eq_ok, Checked.mapM_eq_ok]
  constructor
  · rintro ⟨xs, hxs, items, hitems, ds, hds, rfl⟩
    exact ⟨xs, items, hxs, hitems, rfl, hds⟩
  · rintro ⟨xs, items, hxs, hitems, hsorts, hds⟩
    exact ⟨xs, hxs, items, hitems, m.functions, hds, by rw [← hsorts]⟩

end Reply

end RelSmt
