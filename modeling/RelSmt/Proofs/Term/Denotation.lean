import RelSmt.Proofs.Term.FreeVariables
import RelSmt.Proofs.Term.Value

/-!
# What terms denote

An interpretation says which elements the declared sorts have and what the function symbols stand
for. Together with an assignment of values to variables it gives every term a value. Quantifiers
range over all values of the sorts of their variables, so over all tuples or all sets of a sort, and
the full set of a sort holds all its tuples. Ill-sorted terms have some value too, about which
nothing is said.

The value of a term depends on its free variables alone (`eval_congr`).
-/

namespace RelSmt

variable {E : Type}

/-- May values of this sort be built? The columns of a tuple are neither tuples nor sets. -/
def SmtSort.IsProper : SmtSort → Prop
  | .tuple columns => ∀ c ∈ columns, c.isAtomic = true
  | _ => True

/-- What the symbols of terms stand for. Division by zero has a result that nothing is known of. -/
structure Interpretation (E : Type) where
  /-- The elements of each declared sort. -/
  carrier : SmtSort → Set E
  /-- The element that a literal names. -/
  element : String → SmtSort → E
  /-- The value of a function symbol at its arguments. -/
  function : FunctionSymbol → List (Value E) → Value E
  quotientByZero : Int → Int
  remainderByZero : Int → Int
  /-- Functions take values of their argument sorts to values of their own sort. -/
  function_sort : ∀ (f : FunctionSymbol) (vs : List (Value E)), f.output.IsProper →
    List.Forall₂ (Value.HasSort carrier) vs f.inputs → (function f vs).HasSort carrier f.output
  element_mem : ∀ (name : String) (s : SmtSort), element name s ∈ carrier s

/-- What variables stand for. A variable is known by name and sort. -/
abbrev Assignment (E : Type) := String → SmtSort → Value E

namespace Assignment

/-- What a variable stands for. -/
def get (ρ : Assignment E) (v : Variable) : Value E := ρ v.name v.sort

/-- The assignment inside a binder. A binder binds its name at every sort, although only the sort
that it gives has the value. -/
def bind (ρ : Assignment E) (v : Variable) (a : Value E) : Assignment E := fun name sort =>
  if name = v.name then (if sort = v.sort then a else default) else ρ name sort

/-- The assignment inside several binders. -/
def bindAll (ρ : Assignment E) : List Variable → List (Value E) → Assignment E
  | v :: vs, a :: as => (ρ.bind v a).bindAll vs as
  | _, _ => ρ

/-- Another value for one variable. -/
def set (ρ : Assignment E) (v : Variable) (a : Value E) : Assignment E := fun name sort =>
  if name = v.name ∧ sort = v.sort then a else ρ name sort

@[simp] theorem bindAll_nil (ρ : Assignment E) (as : List (Value E)) : ρ.bindAll [] as = ρ := rfl

@[simp] theorem bindAll_cons (ρ : Assignment E) (v : Variable) (vs : List Variable) (a : Value E)
    (as : List (Value E)) : ρ.bindAll (v :: vs) (a :: as) = (ρ.bind v a).bindAll vs as := rfl

@[simp] theorem get_bind_self (ρ : Assignment E) (v : Variable) (a : Value E) :
    (ρ.bind v a).get v = a := by
  simp [get, bind]

theorem get_bind_of_ne (ρ : Assignment E) {v w : Variable} (a : Value E) (h : w.name ≠ v.name) :
    (ρ.bind v a).get w = ρ.get w := by
  simp [get, bind, h]

theorem get_bindAll_of_not_mem {w : Variable} :
    ∀ (vs : List Variable) (as : List (Value E)) (ρ : Assignment E),
      (∀ v ∈ vs, w.name ≠ v.name) → (ρ.bindAll vs as).get w = ρ.get w
  | [], _, _, _ => rfl
  | _ :: _, [], _, _ => rfl
  | v :: vs, a :: as, ρ, h => by
    rw [bindAll_cons, get_bindAll_of_not_mem vs as _ fun u hu => h u (List.mem_cons_of_mem _ hu),
      get_bind_of_ne ρ a (h v List.mem_cons_self)]

/-- Binders leave nothing of what their names stood for. -/
theorem get_bindAll_congr {w : Variable} :
    ∀ (vs : List Variable) (as : List (Value E)) (ρ σ : Assignment E), vs.length = as.length →
      (ρ.get w = σ.get w ∨ ∃ v ∈ vs, w.name = v.name) →
      (ρ.bindAll vs as).get w = (σ.bindAll vs as).get w
  | [], _, ρ, σ, _, h => by simpa using h
  | v :: vs, a :: as, ρ, σ, hlen, h => by
    refine get_bindAll_congr vs as _ _ (by simpa using hlen) ?_
    by_cases hv : w.name = v.name
    · left
      simp [get, bind, hv]
    · rcases h with h | ⟨u, hu, he⟩
      · left
        rw [get_bind_of_ne ρ a hv, get_bind_of_ne σ a hv, h]
      · right
        rcases List.mem_cons.mp hu with rfl | hu
        · exact absurd he hv
        · exact ⟨u, hu, he⟩

theorem bindAll_append (ρ : Assignment E) :
    ∀ (vs ws : List Variable) (as bs : List (Value E)), vs.length = as.length →
      ρ.bindAll (vs ++ ws) (as ++ bs) = (ρ.bindAll vs as).bindAll ws bs
  | [], _, [], _, _ => rfl
  | v :: vs, ws, a :: as, bs, h => by
    simp only [List.cons_append, bindAll_cons]
    exact bindAll_append (ρ.bind v a) vs ws as bs (by simpa using h)

/-- Giving variables the values that they have keeps these values, where no two of them share a
name. -/
theorem get_bindAll_map_get {w : Variable} : ∀ {vs : List Variable} {ρ σ : Assignment E},
    (∀ v ∈ vs, w.name = v.name → w.sort = v.sort) → σ.get w = ρ.get w →
    (σ.bindAll vs (vs.map ρ.get)).get w = ρ.get w
  | [], _, _, _, h => h
  | v :: vs, ρ, σ, hvs, h => by
    rw [List.forall_mem_cons] at hvs
    rw [List.map_cons, bindAll_cons]
    refine get_bindAll_map_get hvs.2 ?_
    by_cases hname : w.name = v.name
    · simp [get, bind, hname, hvs.1 hname]
    · rw [get_bind_of_ne σ _ hname, h]

@[simp] theorem get_set_self (ρ : Assignment E) (v : Variable) (a : Value E) :
    (ρ.set v a).get v = a := by
  simp [get, set]

theorem get_set_of_ne (ρ : Assignment E) {v w : Variable} (a : Value E)
    (h : ¬(w.name = v.name ∧ w.sort = v.sort)) : (ρ.set v a).get w = ρ.get w := by
  simp [get, set, h]

/-- A binder of other names and another value for a variable do not meet. -/
theorem bind_set_comm (ρ : Assignment E) {v w : Variable} (a b : Value E) (h : w.name ≠ v.name) :
    (ρ.set v a).bind w b = (ρ.bind w b).set v a := by
  funext name sort
  by_cases hw : name = w.name
  · subst hw
    simp [bind, set, h]
  · simp [bind, set, hw]

theorem bindAll_set_comm (ρ : Assignment E) {v : Variable} (a : Value E) :
    ∀ (ws : List Variable) (bs : List (Value E)), (∀ w ∈ ws, w.name ≠ v.name) →
      (ρ.set v a).bindAll ws bs = (ρ.bindAll ws bs).set v a
  | [], _, _ => rfl
  | _ :: _, [], _ => rfl
  | w :: ws, b :: bs, h => by
    rw [bindAll_cons, bindAll_cons, bind_set_comm ρ a b (h w List.mem_cons_self)]
    exact bindAll_set_comm (ρ.bind w b) a ws bs fun u hu => h u (List.mem_cons_of_mem _ hu)

/-- Other values for several variables, of which the first of a name counts. -/
def setAll (ρ : Assignment E) : List Variable → List (Value E) → Assignment E
  | v :: vs, a :: as => (ρ.setAll vs as).set v a
  | _, _ => ρ

theorem get_setAll_of_not_mem {w : Variable} :
    ∀ (vs : List Variable) (as : List (Value E)) (ρ : Assignment E),
      (∀ v ∈ vs, w.name ≠ v.name) → (ρ.setAll vs as).get w = ρ.get w
  | [], _, _, _ => rfl
  | _ :: _, [], _, _ => rfl
  | v :: vs, a :: as, ρ, h => by
    rw [setAll, get_set_of_ne _ _ fun he => h v List.mem_cons_self he.1,
      get_setAll_of_not_mem vs as ρ fun u hu => h u (List.mem_cons_of_mem _ hu)]

/-- Variables of different names have the values that they are given, inside binders or not. -/
theorem get_setAll_eq_get_bindAll {w : Variable} :
    ∀ (vs : List Variable) (as : List (Value E)) (ρ σ : Assignment E), vs.length = as.length →
      (vs.map Variable.name).Nodup → w ∈ vs → (ρ.setAll vs as).get w = (σ.bindAll vs as).get w
  | v :: vs, a :: as, ρ, σ, hlen, hnames, hw => by
    rw [List.map_cons, List.nodup_cons] at hnames
    have hne : ∀ u ∈ vs, v.name ≠ u.name := fun u hu he =>
      hnames.1 (List.mem_map.2 ⟨u, hu, he.symm⟩)
    rw [setAll, bindAll_cons]
    rcases List.mem_cons.1 hw with rfl | hw
    · rw [get_set_self, get_bindAll_of_not_mem vs as _ hne, get_bind_self]
    · rw [get_set_of_ne _ _ fun he => hne w hw he.1.symm]
      exact get_setAll_eq_get_bindAll vs as ρ _ (by simpa using hlen) hnames.2 hw

/-- Inside a binder its variables have the values that it gives them. -/
theorem map_get_bindAll : ∀ (vs : List Variable) (as : List (Value E)) (ρ : Assignment E),
    vs.length = as.length → (vs.map Variable.name).Nodup →
    vs.map (ρ.bindAll vs as).get = as
  | [], [], _, _, _ => rfl
  | v :: vs, a :: as, ρ, hlen, hnames => by
    rw [List.map_cons, List.nodup_cons] at hnames
    have hne : ∀ u ∈ vs, v.name ≠ u.name := fun u hu he =>
      hnames.1 (List.mem_map.2 ⟨u, hu, he.symm⟩)
    rw [List.map_cons, bindAll_cons, get_bindAll_of_not_mem vs as _ hne, get_bind_self,
      map_get_bindAll vs as _ (by simpa using hlen) hnames.2]

/-- A variable that is given its value of another assignment has that value. -/
theorem get_setAll_get {w : Variable} {ρ σ : Assignment E} :
    ∀ {vs : List Variable}, ((∃ v ∈ vs, (w == v) = true) ∨ σ.get w = ρ.get w) →
      (σ.setAll vs (vs.map ρ.get)).get w = ρ.get w
  | [], h => by simpa [setAll] using h
  | v :: vs, h => by
    rw [List.map_cons, setAll]
    by_cases hv : (w == v) = true
    · obtain ⟨hname, hsort⟩ := Variable.beq_iff.1 hv
      simp [get, set, hname, hsort]
    · rw [get_set_of_ne _ _ fun he => hv (Variable.beq_iff.2 he)]
      refine get_setAll_get (h.imp_left ?_)
      rintro ⟨u, hu, he⟩
      rcases List.mem_cons.1 hu with rfl | hu
      · exact absurd he hv
      · exact ⟨u, hu, he⟩

/-- Giving a variable the value that it has changes nothing. -/
theorem set_get (ρ : Assignment E) {v : Variable} {a : Value E} (h : ρ.get v = a) :
    ρ.set v a = ρ := by
  funext name sort
  unfold set
  split
  · rename_i he
    rw [he.1, he.2, ← h]
    rfl
  · rfl

end Assignment

namespace Interpretation

variable (I : Interpretation E)

/-- Does each value have the sort of the variable in its place? -/
def HasSorts (vs : List Variable) (as : List (Value E)) : Prop :=
  List.Forall₂ (fun v a => a.HasSort I.carrier v.sort) vs as

theorem exists_hasSorts_single {x : Variable} {p : List (Value E) → Prop} :
    (∃ as, I.HasSorts [x] as ∧ p as) ↔ ∃ a, a.HasSort I.carrier x.sort ∧ p [a] := by
  constructor
  · rintro ⟨as, has, hp⟩
    obtain ⟨a, rest, ha, hrest, rfl⟩ := List.forall₂_cons_left_iff.1 has
    obtain rfl := List.forall₂_nil_left_iff.1 hrest
    exact ⟨a, ha, hp⟩
  · rintro ⟨a, ha, hp⟩
    exact ⟨[a], List.Forall₂.cons ha List.Forall₂.nil, hp⟩

/-- Values for two lists of variables are values for one followed by values for the other. -/
theorem hasSorts_append {ws : List Variable} :
    ∀ {vs : List Variable} {as : List (Value E)}, I.HasSorts (vs ++ ws) as ↔
      ∃ bs cs, as = bs ++ cs ∧ I.HasSorts vs bs ∧ I.HasSorts ws cs
  | [], as => by
    constructor
    · intro h
      exact ⟨[], as, rfl, List.Forall₂.nil, h⟩
    · rintro ⟨bs, cs, rfl, hbs, hcs⟩
      obtain rfl := List.forall₂_nil_left_iff.1 hbs
      exact hcs
  | v :: vs, as => by
    constructor
    · intro h
      obtain ⟨a, rest, ha, hrest, rfl⟩ := List.forall₂_cons_left_iff.1 h
      obtain ⟨bs, cs, rfl, hbs, hcs⟩ := hasSorts_append.1 hrest
      exact ⟨a :: bs, cs, rfl, List.Forall₂.cons ha hbs, hcs⟩
    · rintro ⟨bs, cs, rfl, hbs, hcs⟩
      obtain ⟨a, rest, ha, hrest, rfl⟩ := List.forall₂_cons_left_iff.1 hbs
      exact List.Forall₂.cons ha (hasSorts_append.2 ⟨rest, cs, rfl, hrest, hcs⟩)

variable {I} in
theorem HasSorts.length {vs : List Variable} {as : List (Value E)} (h : I.HasSorts vs as) :
    vs.length = as.length :=
  List.Forall₂.length_eq h

/-- Do the names of a sort stand for different elements? -/
def Distinct : Prop := ∀ (s : SmtSort) (a b : String), I.element a s = I.element b s → a = b

/-- The integer operators. -/
def arithmetic : Arithmetic → Int → Int → Int
  | .plus, a, b => a + b
  | .minus, a, b => a - b
  | .times, a, b => a * b
  | .div, a, b => if b = 0 then I.quotientByZero a else a / b
  | .mod, a, b => if b = 0 then I.remainderByZero a else a % b

end Interpretation

/-- Does the order hold between two integers? -/
def Comparison.Holds : Comparison → Int → Int → Prop
  | .gt, a, b => a > b
  | .ge, a, b => a ≥ b
  | .lt, a, b => a < b
  | .le, a, b => a ≤ b

/-- Does the connective hold of two truth values? -/
def Connective.Holds : Connective → Prop → Prop → Prop
  | .or, p, q => p ∨ q
  | .and, p, q => p ∧ q
  | .implies, p, q => p → q

/-- The set that a set operator makes of two sets. -/
def SetOp.apply {α : Type} : SetOp → Set α → Set α → Set α
  | .union, r, s => r ∪ s
  | .intersection, r, s => r ∩ s
  | .difference, r, s => r \ s

namespace Term

/-- The value of an element literal, an integer or a truth value. -/
def literalValue (I : Interpretation E) : Literal → Value E
  | .bool b => .truth (b = true)
  | .int n => .int n
  | .element name s => .element (I.element name s)

/-- The value of a unary term. -/
noncomputable def unaryValue (op : UnaryOp) (v : Value E) : Value E :=
  match op with
  | .not => .truth (¬v.Holds)
  | .singleton => .set {v.row}
  | .transpose => .set (reverseRows v.rows)
  | .closure => .set (closureRows v.rows)
  | .card => .int v.rows.ncard

/-- The value of a binary term. -/
def binaryValue (I : Interpretation E) (op : BinaryOp) (v w : Value E) : Value E :=
  match op with
  | .connective c => .truth (c.Holds v.Holds w.Holds)
  | .eq => .truth (v = w)
  | .comparison c => .truth (c.Holds v.number w.number)
  | .arithmetic a => .int (I.arithmetic a v.number w.number)
  | .set s => .set (s.apply v.rows w.rows)
  | .member => .truth (v.row ∈ w.rows)
  | .subset => .truth (v.rows ⊆ w.rows)
  | .join => .set (joinRows v.rows w.rows)
  | .product => .set (productRows v.rows w.rows)

/-- The value of an n-ary term. -/
def naryValue (op : NaryOp) (vs : List (Value E)) : Value E :=
  match op with
  | .and => .truth (∀ v ∈ vs, v.Holds)
  | .or => .truth (∃ v ∈ vs, v.Holds)
  | .mkTuple => .tuple (vs.map Value.column)

mutual

/-- The value of a term. -/
noncomputable def eval (I : Interpretation E) (t : Term) (ρ : Assignment E) : Value E :=
  match t with
  | .literal c => literalValue I c
  | .variable v => ρ.get v
  | .symbol f => I.function f []
  | .emptySet _ => .set ∅
  | .fullSet s => .set {t | (Value.set {t}).HasSort I.carrier s}
  | .unary op t => unaryValue op (t.eval I ρ)
  | .binary op l r => binaryValue I op (l.eval I ρ) (r.eval I ρ)
  | .ite c y n =>
    open Classical in if (c.eval I ρ).Holds then y.eval I ρ else n.eval I ρ
  | .nary op ts => naryValue op (evalAll I ts ρ)
  | .quantified .all vs body =>
    .truth (∀ as, I.HasSorts vs as → (body.eval I (ρ.bindAll vs as)).Holds)
  | .quantified .ex vs body =>
    .truth (∃ as, I.HasSorts vs as ∧ (body.eval I (ρ.bindAll vs as)).Holds)
  | .call f ts => I.function f (evalAll I ts ρ)

/-- The values of several terms. -/
noncomputable def evalAll (I : Interpretation E) (ts : List Term) (ρ : Assignment E) :
    List (Value E) :=
  match ts with
  | [] => []
  | t :: ts => t.eval I ρ :: evalAll I ts ρ

end

/-- Does the formula hold, whatever its free variables stand for? -/
def Valid (I : Interpretation E) (t : Term) : Prop := ∀ ρ, (t.eval I ρ).Holds

theorem evalAll_eq_map (I : Interpretation E) (ts : List Term) (ρ : Assignment E) :
    evalAll I ts ρ = ts.map fun t => t.eval I ρ := by
  induction ts with
  | nil => rfl
  | cons t ts ih => simp [evalAll, ih]

/-- Assignments that agree on what is free in the body of a binder still do so inside it. -/
theorem get_bindAll_of_agree {q : Quantifier} {vs : List Variable} {body : Term}
    {ρ σ : Assignment E} {as : List (Value E)} (hlen : vs.length = as.length)
    (h : ∀ v ∈ (Term.quantified q vs body).freeOccurrences, ρ.get v = σ.get v) :
    ∀ v ∈ body.freeOccurrences, (ρ.bindAll vs as).get v = (σ.bindAll vs as).get v := by
  intro w hw
  refine Assignment.get_bindAll_congr vs as ρ σ hlen ?_
  by_cases hbound : ∃ v ∈ vs, w.name = v.name
  · exact Or.inr hbound
  · refine Or.inl (h w (mem_freeOccurrences_quantified.2 ⟨hw, fun v hv he => ?_⟩))
    exact hbound ⟨v, hv, he⟩

mutual

/-- The value of a term depends on its free variables alone. -/
theorem eval_congr (I : Interpretation E) : ∀ (t : Term) {ρ σ : Assignment E},
    (∀ v ∈ t.freeOccurrences, ρ.get v = σ.get v) → t.eval I ρ = t.eval I σ
  | .literal _, _, _, _ => rfl
  | .variable v, _, _, h => h v (by simp [freeOccurrences])
  | .symbol _, _, _, _ => rfl
  | .emptySet _, _, _, _ => rfl
  | .fullSet _, _, _, _ => rfl
  | .unary op t, _, _, h => by
    simp only [eval]
    rw [eval_congr I t h]
  | .binary op l r, _, _, h => by
    simp only [freeOccurrences, List.mem_append] at h
    simp only [eval]
    rw [eval_congr I l fun v hv => h v (Or.inl hv), eval_congr I r fun v hv => h v (Or.inr hv)]
  | .ite c y n, _, _, h => by
    simp only [freeOccurrences, List.mem_append] at h
    simp only [eval]
    rw [eval_congr I c fun v hv => h v (Or.inl (Or.inl hv)),
      eval_congr I y fun v hv => h v (Or.inl (Or.inr hv)),
      eval_congr I n fun v hv => h v (Or.inr hv)]
  | .nary op ts, _, _, h => by
    simp only [eval]
    rw [evalAll_congr I ts h]
  | .quantified .all vs body, ρ, σ, h => by
    simp only [eval, Value.truth_inj]
    refine forall₂_congr fun as has => ?_
    rw [eval_congr I body (get_bindAll_of_agree has.length_eq h)]
  | .quantified .ex vs body, ρ, σ, h => by
    simp only [eval, Value.truth_inj]
    refine exists_congr fun as => and_congr_right fun has => ?_
    rw [eval_congr I body (get_bindAll_of_agree has.length_eq h)]
  | .call f ts, _, _, h => by
    simp only [eval]
    rw [evalAll_congr I ts h]

theorem evalAll_congr (I : Interpretation E) : ∀ (ts : List Term) {ρ σ : Assignment E},
    (∀ v ∈ freeOccurrencesList ts, ρ.get v = σ.get v) → evalAll I ts ρ = evalAll I ts σ
  | [], _, _, _ => rfl
  | t :: ts, _, _, h => by
    simp only [freeOccurrencesList, List.mem_append] at h
    simp only [evalAll]
    rw [eval_congr I t fun v hv => h v (Or.inl hv),
      evalAll_congr I ts fun v hv => h v (Or.inr hv)]

end

/-- A term means the same inside binders of names that are not free in it. -/
theorem eval_bindAll_of_fresh (I : Interpretation E) {t : Term} {vs : List Variable}
    (as : List (Value E)) (ρ : Assignment E)
    (h : ∀ w ∈ t.freeOccurrences, ∀ v ∈ vs, w.name ≠ v.name) :
    t.eval I (ρ.bindAll vs as) = t.eval I ρ :=
  eval_congr I t fun w hw => Assignment.get_bindAll_of_not_mem vs as ρ (h w hw)

theorem eval_bind_of_fresh (I : Interpretation E) {t : Term} {x : Variable} (a : Value E)
    (ρ : Assignment E) (h : ∀ w ∈ t.freeOccurrences, w.name ≠ x.name) :
    t.eval I (ρ.bind x a) = t.eval I ρ :=
  eval_congr I t fun w hw => Assignment.get_bind_of_ne ρ a (h w hw)

end Term

end RelSmt
