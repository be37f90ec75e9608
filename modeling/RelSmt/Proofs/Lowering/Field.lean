import RelSmt.Proofs.Lowering.Sorted
import RelSmt.Proofs.Lowering.Specification
import RelSmt.Proofs.Relational.Field
import RelSmt.Proofs.Relational.Substitution

/-!
# Lowering the bounds of fields

The two formulas about a field say that it fits its declaration, and that the rests of all its
tuples are in the bound for the whole signature. Whatever the bound is, its value is that of what it
has been lowered to: where `this` is an element of the signature for the one formula, where the
signature stands in its place for the other. These are the meanings of the bound, comprehensions and
operations on integers included, where no variable is hidden by another of its name and no operation
has a set for a parameter.
-/

namespace RelSmt

variable {E : Type}

namespace Lowering

variable {s s' m : Session} {I : Interpretation E} {ρ : Assignment E} {t u : Term}
  {env : Environment} {V : Set Variable} {M : Relational.Structure E}
  {δ : Relational.Valuation E} {scope : List Relational.Var}

/-! ## Inlining in a session -/

/-- Expressions are lowered with an inliner that keeps to the environment and gives values of their
sorts. -/
theorem exists_inliner (depth : Nat) (active : List String) : ∃ inline : Inliner, inline.Keeps ∧
    (∀ {E : Type} {I : Interpretation E}, I.IntInjective → inline.Sorts I) ∧
    ∀ e env, exprWithin depth active e env = exprWith inline active e env := by
  cases depth with
  | zero =>
    exact ⟨_, keeps_throw, fun _ => ⟨fun h => absurd h runs_throw⟩, fun _ _ => rfl⟩
  | succ depth =>
    exact ⟨_, ⟨covers_exprWithin depth⟩, fun hinj => ⟨sorted_exprWithin hinj depth⟩,
      fun _ _ => rfl⟩

/-! ## Quantifiers with one declaration -/

section

variable {inline : Inliner} {active : List String}

/-- How a quantifier with one declaration is lowered: the bound, the variables, the body, and the
closure over what has been bound. -/
theorem runs_quantified_single {q : Relational.Quantifier} {vs : List Relational.Var}
    {k : Relational.Multiplicity} {bound body : Relational.Expr} {disjoint : Bool}
    (hq : q ≠ .comprehension)
    (h : Runs (exprWith inline active (.quantified q [.mk vs k bound disjoint] body) env) s t s') :
    ∃ u m₁ b m₂ w m₃, Runs (exprWith inline active bound env.enter) s u m₁ ∧
      Runs (bindDecl vs k u disjoint { scope := env.enter }) m₁ b m₂ ∧
      Runs (exprWith inline active body b.scope) m₂ w m₃ ∧ Runs (quantify q b w) m₃ t s' := by
  obtain ⟨b, w, m₂, m₃, hb, hw, ⟨he, _⟩ | ⟨_, h⟩⟩ := runs_quantified h
  · exact absurd he hq
  · obtain ⟨u, m₁, b₁, _, hu, hdecl, hrest⟩ := runs_declsWith_cons hb
    rw [declsWith] at hrest
    obtain ⟨rfl, rfl⟩ := runs_pure.1 hrest
    exact ⟨u, m₁, _, _, w, m₃, hu, hdecl, hw, h⟩

/-- What is known of the steps of such a quantifier: lowering the bound to `u`, declaring the
variables, which are known from then on, and lowering the body to `w` in their scope. -/
structure SingleBinder (env : Environment) (V : Set Variable) (s m₁ m₂ m₃ : Session) (u : Term)
    (b : Bound) (w : Term) (V' : Set Variable) : Prop where
  bound : Environment.Covers env.enter V u
  lowered : Extends s m₁
  declared : Extends m₁ m₂
  enlarges : Enlarges m₁ V m₂ V'
  within : BoundWithin env V' b
  grows : Bound.Grows { scope := env.enter } V b V'
  body : b.scope.Covers V' w
  followed : Extends m₂ m₃

theorem exists_singleBinder {vs : List Relational.Var} {k : Relational.Multiplicity}
    {bound body : Relational.Expr} {disjoint : Bool} {b : Bound} {w : Term} {m₁ m₂ m₃ : Session}
    (hkeeps : inline.Keeps) (hu : Runs (exprWith inline active bound env.enter) s u m₁)
    (hdecl : Runs (bindDecl vs k u disjoint { scope := env.enter }) m₁ b m₂)
    (hw : Runs (exprWith inline active body b.scope) m₂ w m₃) (hV : Hygienic s.fresh V)
    (hin : env.Within V) : ∃ V', SingleBinder env V s m₁ m₂ m₃ u b w V' := by
  obtain ⟨hcovers, hlowered⟩ := covers_exprWith hkeeps bound hu hV (Environment.within_enter hin)
  obtain ⟨hdeclared, V', hV', hb, hgrows⟩ := boundWithin_bindDecl hdecl (hV.mono hlowered.fresh)
    (boundWithin_enter hin) hcovers
  obtain ⟨hbody, hfollowed⟩ := covers_exprWith hkeeps body hw hV'.hygienic hb.within
  exact ⟨V', hcovers, hlowered, hdeclared, hV', hb, hgrows, hbody, hfollowed⟩

/-- One declaration chooses values that it admits. -/
theorem SingleBinder.chooses {vs : List Relational.Var} {k : Relational.Multiplicity}
    {disjoint : Bool} {b : Bound} {w : Term} {m₁ m₂ m₃ : Session} {V' : Set Variable}
    {v : RelSmt.Value E} (h : SingleBinder env V s m₁ m₂ m₃ u b w V') (hV : Hygienic s.fresh V)
    (hin : env.Within V) (hdecl : Runs (bindDecl vs k u disjoint { scope := env.enter }) m₁ b m₂)
    (hsees : Sees I ρ env δ scope) (hρ : Conforms I ρ V) (hu : u.Denotes I ρ v) :
    Chooses I ρ δ scope b V' vs (List.replicate vs.length k)
      {as | Relational.Admitted k v.rows disjoint vs as} := by
  obtain ⟨element, xs, cs, hsort, hdecl⟩ := declares_bindDecl hdecl
  have hchooses := (chooses_enter hsees hρ).declare (fun _ => v) hdecl hsort
    (hV.mono h.lowered.fresh) (boundWithin_enter hin) h.bound h.within h.grows fun as has _ => by
      obtain rfl := List.forall₂_nil_left_iff.1 has
      exact hu
  simpa using hchooses

/-- What binds a single element puts a variable for it into scope, which is seen as a singleton. -/
theorem runs_bindDecl_element {v : Relational.Var} {disjoint : Bool} {b : Bound}
    (h : Runs (bindDecl [v] .one u disjoint { scope := env }) s b s') :
    ∃ x, u.sort = .set x.sort ∧ b.vars = [x] ∧
      b.scope = env.put v.name (.unary .singleton (.variable x)) := by
  obtain ⟨element, xs, cs, hsort, hdecl⟩ := declares_bindDecl h
  obtain ⟨x, rfl⟩ := List.length_eq_one_iff.1 hdecl.length.symm
  refine ⟨x, ?_, by rw [hdecl.result]; rfl, by rw [hdecl.result]; rfl⟩
  rw [hsort, (hdecl.sorts x List.mem_cons_self).1]
  rfl

/-- A signature is a relation with one column. -/
theorem sort_sig {r : Relational.SigRef} (hs : s.Proper)
    (h : Runs (exprWith inline active (.sig r) env) s t s') : ∃ c, t.sort = relationSort [c] := by
  rw [exprWith] at h
  split at h
  · obtain ⟨rfl, _⟩ := runs_integers h
    exact ⟨.int, rfl⟩
  · obtain ⟨f, hf, rfl, _⟩ := runs_signature.1 h
    obtain ⟨c, _, hout⟩ := hs.signatures r f hf
    exact ⟨c, hout⟩

/-- The elements of a signature are tuples of one column. -/
theorem sort_element {r : Relational.SigRef} {x : Variable} (hs : s.Proper)
    (h : Runs (exprWith inline active (.sig r) env) s t s') (hx : t.sort = .set x.sort) :
    ∃ c, x.sort = .tuple [columnSort c] := by
  obtain ⟨c, hc⟩ := sort_sig hs h
  exact ⟨c, SmtSort.set.inj (hx.symm.trans hc)⟩

theorem denotes_sig {r : Relational.SigRef} (hM : s.Models I M)
    (h : Runs (exprWith inline active (.sig r) env) s t s') (hI : I.Supports s'.onDemand) :
    t.Denotes I ρ (.set (M.owner r)) := by
  rw [exprWith] at h
  rw [Relational.Structure.owner, ← hM.relations]
  split at h
  · rename_i hint
    rw [if_pos hint]
    exact denotes_integers h hI
  · rename_i hint
    rw [if_neg hint]
    exact denotes_signature hM.proper h

end

/-! ## The values of a field -/

theorem valuesFormula_eq (f : Relational.Field) : valuesFormula f =
    .quantified .all [.mk [f.ref.owner.this] .one (.sig f.ref.owner) false]
      (.quantified .some
        [.mk [⟨.auxiliary 0, "s", f.bound.columns⟩] f.bound.splitMarker.1 f.bound.splitMarker.2 false]
        (.binary .eq (.binary .domainRestrict (.var f.ref.owner.this) (.field f.ref))
          (.binary .arrow (.var f.ref.owner.this) (.var ⟨.auxiliary 0, "s", f.bound.columns⟩)))) :=
  rfl

/-- A variable on its own has a value that its bound admits. -/
theorem admitted_single {k : Relational.Multiplicity} {r : Set (Tuple E)} {disjoint : Bool}
    {v : Relational.Var} {as : List (RelSmt.Value E)} :
    Relational.Admitted k r disjoint [v] as ↔ ∃ a, k.Admits r a ∧ as = [a] := by
  constructor
  · rintro ⟨hlen, hall, _⟩
    obtain ⟨a, rfl⟩ := List.length_eq_one_iff.1 hlen.symm
    exact ⟨a, hall a List.mem_cons_self, rfl⟩
  · rintro ⟨a, ha, rfl⟩
    exact ⟨rfl, by simpa using ha, fun _ => List.pairwise_singleton _ a⟩

/-- The formula that what a field relates `this` to is the value of a variable. -/
def sameRests (f : Relational.FieldRef) (this v : Relational.Var) : Relational.Expr :=
  .binary .eq (.binary .domainRestrict (.var this) (.field f)) (.binary .arrow (.var this) (.var v))

theorem holds_sameRests {call : Relational.Callee E} {f : Relational.FieldRef}
    {this v : Relational.Var} {a : Tuple E} {r : Set (Tuple E)} (hinj : I.IntInjective)
    (hM : s.relations I = M) (hthis : δ this = .set {a}) (ha : a.length = 1) (hne : this ≠ v) :
    (Relational.meaningWith M call (sameRests f this v) (δ.bind v (.set r))).Holds ↔
      Relational.rests (M.field f) a = r := by
  have hequal := Relational.Structure.equal_set (M := M) (r := {t ∈ M.field f | t.take 1 ∈ ({a} :
    Set (Tuple E))}) (q := productRows {a} r) (by subst hM; exact hinj)
  simp only [sameRests, Relational.meaningWith, Relational.Structure.binary, Value.holds_truth,
    Relational.Valuation.bind_self, Relational.Valuation.bind_of_ne δ _ hne, hthis, Value.rows_set]
  rw [hequal, Relational.starting_eq_product ha]

section

variable {inline : Inliner} {active : List String} {f : Relational.FieldRef}
  {this v : Relational.Var} {k : Relational.Multiplicity} {e : Relational.Expr} {b : Bound}
  {w : Term} {m₁ m₂ m₃ : Session} {a : Tuple E}

/-- **Under a value of `this` the inner formula says that the bound admits the rests at it.** -/
theorem denotes_admitsRests (hinj : I.IntInjective) (hkeeps : inline.Keeps)
    (hu : Runs (exprWith inline active e env.enter) s u m₁)
    (hdecl : Runs (bindDecl [v] k u false { scope := env.enter }) m₁ b m₂)
    (hw : Runs (exprWith inline active (sameRests f this v) b.scope) m₂ w m₃)
    (hquantify : Runs (quantify .some b w) m₃ t s') (hM : s.Models I M)
    (hI : Upholds I (fun _ => True) s s') (hV : Hygienic s.fresh V) (hin : env.Within V)
    (hρ : Conforms I ρ V) (hsees : Sees I ρ env δ [this]) (hname : this.name ≠ v.name)
    (hsorted : u.Sorted I ρ) (hthis : δ this = .set {a}) (ha : a.length = 1) :
    t.Denotes I ρ (.truth (k.Admits (u.eval I ρ).rows (.set (Relational.rests (M.field f) a)))) := by
  obtain ⟨V', hbinder⟩ := exists_singleBinder hkeeps hu hdecl hw hV hin
  have hV' := hbinder.enlarges.hygienic
  have hchooses := hbinder.chooses hV hin hdecl hsees hρ hsorted.denotes
  -- the body mentions the two variables and the field, so nothing may be called
  have hsite : Relational.ScopedSite (fun _ => False) ⟨[v, this], sameRests f this v⟩ := by
    constructor
    · simpa using hname.symm
    · simp [sameRests, Relational.Expr.ScopedWith]
  have hmeans : inline.Means I M (Relational.ScopedSite fun _ => False) (fun _ => True)
      fun _ _ => default :=
    ⟨hinj, hkeeps, Relational.resolving_scoped, fun h => h.expr.1.elim, fun h => h.expr.1.elim⟩
  have hfirst := hbinder.lowered.trans hbinder.declared
  have hlast := extends_quantify hquantify
  have hden := denotes_quantify (P := fun as => Relational.meaningWith M
      (M.callee fun _ _ => default) (sameRests f this v) (δ.bindAll [v] as)) hchooses
    (hV'.mono hbinder.followed.fresh) hbinder.within (hbinder.within.covers hbinder.body)
    (fun as has hguard => denotes_exprWith hmeans (sameRests f this v) hw (hM.extend hfirst)
      ((hI.last hfirst (hbinder.followed.trans hlast)).first hbinder.followed hlast) hV'
      hbinder.within.within (hchooses.conforms as has hguard) (hchooses.sees as has) hsite) hquantify
  have hne : this ≠ v := fun he => hname (congrArg Relational.Var.name he)
  have hiff : (∃ as ∈ {as | Relational.Admitted k (u.eval I ρ).rows false [v] as},
        (Relational.meaningWith M (M.callee fun _ _ => default) (sameRests f this v)
          (δ.bindAll [v] as)).Holds) ↔
      k.Admits (u.eval I ρ).rows (.set (Relational.rests (M.field f) a)) := by
    constructor
    · rintro ⟨as, has, hholds⟩
      obtain ⟨d, hd, rfl⟩ := admitted_single.1 has
      obtain ⟨r, rfl⟩ := Relational.exists_set_of_admits hd
      rw [(holds_sameRests hinj hM.relations hthis ha hne).1 hholds]
      exact hd
    · intro hadmits
      exact ⟨_, admitted_single.2 ⟨_, hadmits, rfl⟩,
        (holds_sameRests hinj hM.relations hthis ha hne).2 rfl⟩
  rw [← hiff]
  exact hden

end

/-! ## Bounds at an element -/

/-- The scope in which a name stands for the element that a variable holds. -/
def elementScope (v : Relational.Var) (x : Variable) : Environment :=
  ({} : Environment).enter.put v.name (.unary .singleton (.variable x))

section

variable {v : Relational.Var} {x : Variable} {a : Tuple E}

theorem denotes_element (hx : x.sort.isTuple = true)
    (ha : (RelSmt.Value.tuple a).HasSort I.carrier x.sort) :
    (Term.unary .singleton (.variable x)).Denotes I (ρ.bind x (.tuple a)) (.set {a}) := by
  have hvar : (Term.variable x).Denotes I (ρ.bind x (.tuple a)) (.tuple a) :=
    ⟨Assignment.get_bind_self ρ x _, ha⟩
  exact hvar.unary (o := .singleton) (Term.unarySort_singleton.2 hx)

theorem sees_elementScope (hx : x.sort.isTuple = true)
    (ha : (RelSmt.Value.tuple a).HasSort I.carrier x.sort) :
    Sees I (ρ.bind x (.tuple a)) (elementScope v x) (δ.bind v (.set {a})) [v] :=
  sees_empty.enter.put v (denotes_element hx ha)

theorem sorted_elementScope (hx : x.sort.isTuple = true)
    (ha : (RelSmt.Value.tuple a).HasSort I.carrier x.sort) :
    Environment.Sorted I (ρ.bind x (.tuple a)) (elementScope v x) := by
  refine Environment.sorted_empty.enter.put (denotes_element hx ha).sorted fun w hw => ?_
  simp only [Term.freeOccurrences, List.mem_singleton] at hw
  rw [hw, Assignment.get_bind_self]
  exact ha

end

section

variable {v : Relational.Var} {x : Variable} {b : Bound} {r : Set (Tuple E)}
  (h : Chooses I ρ δ scope b V [v] [.one] {as | Relational.Admitted .one r false [v] as})
  (hvars : b.vars = [x])

include h hvars

/-- A variable for single elements holds the elements of its bound. -/
theorem Chooses.holds_element {a : Tuple E} (ha : (RelSmt.Value.tuple a).HasSort I.carrier x.sort) :
    (∀ c ∈ b.constraints, (c.eval I (ρ.bind x (.tuple a))).Holds) ↔ a ∈ r := by
  have has : I.HasSorts b.vars [.tuple a] := by
    rw [hvars]
    exact .cons ha .nil
  have hbind : ρ.bindAll b.vars [.tuple a] = ρ.bind x (.tuple a) := by rw [hvars]; rfl
  rw [← hbind]
  constructor
  · intro hguard
    obtain ⟨_, ⟨d, hd, rfl⟩, he⟩ := admitted_single.1 ((h.mem_allowed _).2 ⟨_, has, hguard, rfl⟩)
    obtain rfl : a = d := by simpa [seen] using he
    exact hd
  · intro ha'
    obtain ⟨as, has', hguard, he⟩ := (h.mem_allowed [.set {a}]).1
      (admitted_single.2 ⟨_, ⟨a, ha', rfl⟩, rfl⟩)
    rwa [zipWith_seen_injective h.tuples has' has he] at hguard

/-- Where the variable holds an element of the bound, known variables conform to their
constraints. -/
theorem Chooses.conforms_element {a : Tuple E} (ha : (RelSmt.Value.tuple a).HasSort I.carrier x.sort)
    (hr : a ∈ r) : Conforms I (ρ.bind x (.tuple a)) V := by
  have has : I.HasSorts b.vars [.tuple a] := by
    rw [hvars]
    exact .cons ha .nil
  have hconforms := h.conforms _ has
  rw [hvars] at hconforms
  exact hconforms ((h.holds_element hvars ha).2 hr)

/-- A quantifier over the elements of a relation says something of each of them. -/
theorem denotes_allElements {w : Term} {P : Tuple E → Prop} {V' : Set Variable}
    (hx : x.sort.isTuple = true) (hV : Hygienic s.fresh V') (hb : BoundWithin env V' b)
    (hw : CoversWith env V' b.vars w)
    (hbody : ∀ a ∈ r, (RelSmt.Value.tuple a).HasSort I.carrier x.sort →
      w.Denotes I (ρ.bind x (.tuple a)) (.truth (P a)))
    (hquantify : Runs (quantify .all b w) s t s') : t.Denotes I ρ (.truth (∀ a ∈ r, P a)) := by
  -- the element is told by the value of the variable
  have hden := denotes_quantify (P := fun as => .truth (∀ a, as = [.set {a}] → P a)) h hV hb hw
    (fun as has hguard => by
      rw [hvars] at has
      obtain ⟨d, rest, hd, hrest, rfl⟩ := List.forall₂_cons_left_iff.1 has
      obtain rfl := List.forall₂_nil_left_iff.1 hrest
      obtain ⟨cs, hcs⟩ := SmtSort.isTuple_iff.1 hx
      obtain ⟨a, rfl⟩ : ∃ a, d = .tuple a := ⟨_, Value.eq_tuple_of_hasSort (hcs ▸ hd)⟩
      rw [hvars] at hguard ⊢
      have hone : (∀ a', List.zipWith seen [.one] [RelSmt.Value.tuple a] = [.set {a'}] → P a') ↔
          P a := by
        simp [seen]
      simp only [hone]
      exact hbody a ((h.holds_element hvars hd).1 hguard) hd) hquantify
  have hiff : (∀ as ∈ {as | Relational.Admitted .one r false [v] as}, ∀ a, as = [.set {a}] → P a) ↔
      ∀ a ∈ r, P a := by
    constructor
    · intro h a ha
      exact h _ (admitted_single.2 ⟨_, ⟨a, ha, rfl⟩, rfl⟩) a rfl
    · rintro h _ has a rfl
      obtain ⟨_, ⟨a', ha', rfl⟩, he⟩ := admitted_single.1 has
      obtain rfl : a = a' := by simpa using he
      exact h a ha'
  rw [← hiff]
  exact hden

end

/-- **The first formula about a field says at every element of the signature that the bound admits
the rests at it.** The value of the bound at an element is that of what it is lowered to, which is
the meaning of the bound where this is unambiguous. -/
theorem holds_valuesFormula {f : Relational.Field} (hs : s.Proper)
    (h : Runs (formula (valuesFormula f)) s t s') : ∃ x each m m', Extends s m ∧
      Runs (expr f.bound.splitMarker.2 (elementScope f.ref.owner.this x).enter) m each m' ∧
      Extends m' s' ∧ ∀ {E : Type} {I : Interpretation E}, I.IntInjective →
      Upholds I (fun _ => True) s s' → ∀ ρ : Assignment E,
        ((t.eval I ρ).Holds ↔ ∀ a ∈ (s.relations I).owner f.ref.owner,
          f.bound.splitMarker.1.Admits (each.eval I (ρ.bind x (.tuple a))).rows
            (.set (Relational.rests ((s.relations I).field f.ref) a))) ∧
        (Relational.Site.Occurrences s.functions Relational.Unshadowed ⟨[f.ref.owner.this], f.bound⟩ →
          (∀ a ∈ added s s', ¬SetAxiom a) → ∀ depth ≥ s.functions.length,
          ∀ δ : Relational.Valuation E, ∀ a ∈ (s.relations I).owner f.ref.owner,
            each.eval I (ρ.bind x (.tuple a)) = Relational.meaningWithin (s.relations I) depth
              f.bound (δ.bind f.ref.owner.this (.set {a}))) := by
  obtain ⟨hu, _⟩ := runs_formula.1 h
  obtain ⟨inline, hkeeps, hsorts, hinline⟩ := exists_inliner s.functions.length []
  rw [hinline, valuesFormula_eq] at hu
  -- `this` is bound by the outer quantifier, the rests at it by the inner one
  obtain ⟨S, m₁, b, m₂, w, m₃, hS, hdecl, hw, hquantify⟩ := runs_quantified_single (by simp) hu
  obtain ⟨each, n₁, b', n₂, w', n₃, heach, hdecl', hw', hquantify'⟩ :=
    runs_quantified_single (by simp) hw
  obtain ⟨x, hx, hvars, hscope⟩ := runs_bindDecl_element hdecl
  have hscope : b.scope = elementScope f.ref.owner.this x := hscope
  have hin : Environment.Within {} ∅ := Environment.within_empty
  obtain ⟨V, houter⟩ := exists_singleBinder hkeeps hS hdecl hw (hygienic_empty _) hin
  have hV := houter.enlarges.hygienic
  have hb := houter.within
  obtain ⟨_, hinner⟩ := exists_singleBinder hkeeps heach hdecl' hw' hV hb.within
  have hfirst : Extends s m₂ := houter.lowered.trans houter.declared
  have hafter : Extends m₂ s' := houter.followed.trans (extends_quantify hquantify)
  have hlast : Extends n₁ s' :=
    ((hinner.declared.trans hinner.followed).trans (extends_quantify hquantify')).trans
      (extends_quantify hquantify)
  rw [hscope] at heach
  have hrun : Runs (exprWithin s.functions.length [] f.bound.splitMarker.2
      (elementScope f.ref.owner.this x).enter) m₂ each n₁ := by
    rw [hinline]
    exact heach
  refine ⟨x, each, m₂, n₁, hfirst, runs_expr.2 (hfirst.functions ▸ hrun), hlast, ?_⟩
  intro E I hinj hI ρ
  have hI₂ := hI.last hfirst hafter
  have hM : s.Models I (s.relations I) := ⟨hs, rfl⟩
  have hSden : S.Denotes I ρ (.set ((s.relations I).owner f.ref.owner)) :=
    denotes_sig hM hS (hI.first houter.lowered (houter.declared.trans hafter)).supports
  have hnone : Sees I ρ {} (fun _ => default) [] := sees_empty
  have hchooses := houter.chooses (hygienic_empty _) hin hdecl hnone conforms_empty hSden
  -- an element of the signature is a value of the variable
  obtain ⟨c, hxsort⟩ := sort_element hs hS hx
  have hxtuple : x.sort.isTuple = true := by rw [hxsort]; rfl
  have hsort : ∀ a ∈ (s.relations I).owner f.ref.owner,
      (RelSmt.Value.tuple a).HasSort I.carrier x.sort := by
    have hvalue := hSden.hasSort
    rw [hx] at hvalue
    exact hvalue
  have hadmits : ∀ a ∈ (s.relations I).owner f.ref.owner,
      (RelSmt.Value.tuple a).HasSort I.carrier x.sort →
      w.Denotes I (ρ.bind x (.tuple a)) (.truth
        (f.bound.splitMarker.1.Admits (each.eval I (ρ.bind x (.tuple a))).rows
          (.set (Relational.rests ((s.relations I).field f.ref) a)))) := by
    intro a hmem ha
    have hlen : a.length = 1 := by
      rw [hxsort] at ha
      exact Tuple.length_of_hasSorts ha
    have hsorted : each.Sorted I (ρ.bind x (.tuple a)) :=
      sorted_exprWith hinj hkeeps (hsorts hinj) _ heach (proper_of_extends hs hfirst)
        (hI₂.first hinner.lowered hlast).supports hV (hscope ▸ Environment.within_enter hb.within)
        (sorted_elementScope hxtuple ha).enter
    exact denotes_admitsRests (δ := Relational.Valuation.bind (fun _ => default) f.ref.owner.this
      (.set {a})) hinj hkeeps (hscope ▸ heach) hdecl' hw' hquantify' (hM.extend hfirst)
      (hI₂.first houter.followed (extends_quantify hquantify)) hV hb.within
      (hchooses.conforms_element hvars ha hmem) (hscope ▸ sees_elementScope hxtuple ha)
      (by simp [Relational.SigRef.this]) hsorted (Relational.Valuation.bind_self _ _ _) hlen
  have hden := denotes_allElements hchooses hvars hxtuple (hV.mono houter.followed.fresh) hb
    (hb.covers houter.body) hadmits hquantify
  refine ⟨by rw [hden.eval]; rfl, fun hsite hadded depth hdepth δ a ha => ?_⟩
  have hIeach : Upholds I (fun a => ¬SetAxiom a) m₂ n₁ :=
    (Upholds.last ⟨hI.supports, hI.satisfies, hadded⟩ hfirst hafter).first hinner.lowered hlast
  rw [← Relational.meaningWithin_splitMarker]
  exact (denotes_exprWithin hinj (nesting_unshadowed (s.relations I)) (fun _ _ _ h => h)
    (Or.inl hdepth) hrun (hM.extend hfirst) hIeach hV
    (hscope ▸ Environment.within_enter hb.within) (hchooses.conforms_element hvars (hsort a ha) ha)
    (sees_elementScope hxtuple (hsort a ha)).enter hsite.splitMarker).eval

/-! ## The range of a field -/

theorem length_of_mem_sig {inline : Inliner} {active : List String} {r : Relational.SigRef}
    {S : Set (Tuple E)} (hs : s.Proper) (h : Runs (exprWith inline active (.sig r) env) s t s')
    (ht : t.Denotes I ρ (.set S)) {a : Tuple E} (ha : a ∈ S) : a.length = 1 := by
  obtain ⟨c, hc⟩ := sort_sig hs h
  have := ht.hasSort
  rw [hc] at this
  exact Tuple.length_of_hasSorts (this a ha)

/-- **The second formula about a field says that tuples start with elements of the signature and go
on in the bound for the whole signature.** -/
theorem holds_rangeFormula {f : Relational.Field} (hs : s.Proper)
    (h : Runs (formula (rangeFormula f)) s t s') : ∃ whole m m', Extends s m ∧
      Runs (expr (f.bound.splitMarker.2.substitute f.ref.owner.this (.sig f.ref.owner)) {}) m whole
        m' ∧ Extends m' s' ∧ ∀ {E : Type} {I : Interpretation E}, I.IntInjective →
      Upholds I (fun _ => True) s s' → ∀ ρ : Assignment E,
        ((t.eval I ρ).Holds ↔
          (∀ r ∈ (s.relations I).field f.ref, r.take 1 ∈ (s.relations I).owner f.ref.owner) ∧
          ∀ r ∈ (s.relations I).field f.ref, r.drop 1 ∈ (whole.eval I ρ).rows) ∧
        (Relational.Site.Occurrences s.functions Relational.Unshadowed ⟨[f.ref.owner.this], f.bound⟩ →
          (∀ a ∈ added s s', ¬SetAxiom a) → ∀ depth ≥ s.functions.length,
          ∀ δ : Relational.Valuation E, whole.eval I ρ =
            Relational.meaningWithin (s.relations I) depth f.bound
              (δ.bind f.ref.owner.this (.set ((s.relations I).owner f.ref.owner)))) := by
  obtain ⟨hu, _⟩ := runs_formula.1 h
  obtain ⟨inline, hkeeps, hsorts, hinline⟩ := exists_inliner s.functions.length []
  rw [hinline, rangeFormula] at hu
  simp only [exprWith, runs_bind] at hu
  obtain ⟨F, m₁, hF, product, m₂, ⟨S, k, hS, whole, k', hwhole, hproduct⟩, hsubset⟩ := hu
  have hin : Environment.Within {} ∅ := Environment.within_empty
  obtain ⟨_, _, _, rfl⟩ := runs_field.1 hF
  obtain ⟨hp, rfl⟩ := runs_lift.1 hproduct
  obtain ⟨hw, rfl⟩ := runs_lift.1 hsubset
  -- the owner is lowered as an expression is, which is how its meaning is known
  replace hS : Runs (exprWith inline [] (.sig f.ref.owner) {}) s S k := by
    rw [exprWith]
    exact hS
  have hextS := (covers_exprWith hkeeps _ hS (hygienic_empty _) hin).2
  have hextwhole := (covers_exprWith hkeeps _ hwhole (hygienic_empty _) hin).2
  have hrun : Runs (exprWithin s.functions.length []
      (f.bound.splitMarker.2.substitute f.ref.owner.this (.sig f.ref.owner)) {}) k whole k' := by
    rw [hinline]
    exact hwhole
  refine ⟨whole, k, k', hextS, runs_expr.2 (hextS.functions ▸ hrun), .refl _, ?_⟩
  intro E I hinj hI ρ
  have hM : s.Models I (s.relations I) := ⟨hs, rfl⟩
  have hFden := denotes_field (I := I) (ρ := ρ) hs hF
  have hSden := denotes_sig (ρ := ρ) hM hS (hI.first hextS hextwhole).supports
  -- nothing is known of what the bound means here, only that it has a value of its sort
  have hsorted : whole.Sorted I ρ := sorted_exprWith hinj hkeeps (hsorts hinj) _ hwhole
    (proper_of_extends hs hextS) hI.supports (hygienic_empty _) hin Environment.sorted_empty
  have hden := denotes_mkBinary hFden (denotes_mkBinary hSden hsorted.denotes hp) hw
  refine ⟨?_, fun hsite hadded depth hdepth δ => ?_⟩
  · rw [hden.eval]
    exact Relational.subset_productRows fun a ha => length_of_mem_sig hs hS hSden ha
  · rw [← Relational.meaningWithin_splitMarker, ← Relational.meaningWithin_substitute_sig]
    have hsees : Sees I ρ {} δ [] := sees_empty
    exact (denotes_exprWithin hinj (nesting_unshadowed (s.relations I)) (fun _ _ _ h => h)
      (Or.inl hdepth) hrun (hM.extend hextS)
      (Upholds.last ⟨hI.supports, hI.satisfies, hadded⟩ hextS hextwhole) (hygienic_empty _) hin
      conforms_empty hsees hsite.splitMarker.substitute_sig).eval

/-! ## Both formulas -/

/-- What is asserted of a formula about a field. -/
def fieldAssertion (f : Relational.Field) (what : String) (t : Term) : Assertion :=
  ⟨s!"{f.ref.label} {what}", t, none⟩

/-- What lowering the bound of a field leads to. The bound is lowered twice: to `each` where `this`
is the element that a variable holds, and to `whole` with the signature in the place of `this`. The
two formulas about the field are asserted, each after what its lowering asserts on the way. -/
structure LoweredBound (f : Relational.Field) (s s' : Session) where
  element : Variable
  each : Term
  whole : Term
  values : Term
  range : Term
  before : List Assertion
  between : List Assertion
  runs_each : ∃ m m', Progress s m ∧ Progress m' s' ∧
    Runs (expr f.bound.splitMarker.2 (elementScope f.ref.owner.this element).enter) m each m'
  runs_whole : ∃ m m', Progress s m ∧ Progress m' s' ∧
    Runs (expr (f.bound.splitMarker.2.substitute f.ref.owner.this (.sig f.ref.owner)) {}) m whole m'
  assertions : added s s' = before ++ fieldAssertion f "multiplicity" values ::
    (between ++ [fieldAssertion f "subset" range])

namespace LoweredBound

variable {f : Relational.Field} (b : LoweredBound f s s')

/-- The value of the bound where `this` is an element. -/
def valueAt (I : Interpretation E) (ρ : Assignment E) (a : Tuple E) : Set (Tuple E) :=
  (b.each.eval I (ρ.bind b.element (.tuple a))).rows

/-- The value of the bound where `this` is the signature. -/
def valueOver (I : Interpretation E) (ρ : Assignment E) : Set (Tuple E) := (b.whole.eval I ρ).rows

/-- Are both formulas about the field true? -/
def Holds (I : Interpretation E) (ρ : Assignment E) : Prop :=
  (b.values.eval I ρ).Holds ∧ (b.range.eval I ρ).Holds

/-- Does the field fit its declaration? -/
def Fits (I : Interpretation E) (ρ : Assignment E) : Prop :=
  Relational.FieldFits ((s.relations I).owner f.ref.owner) ((s.relations I).field f.ref)
    f.bound.demand (b.valueAt I ρ)

/-- Are the rests of all tuples of the field in the bound for the whole signature? -/
def InRange (I : Interpretation E) (ρ : Assignment E) : Prop :=
  ∀ r ∈ (s.relations I).field f.ref, r.drop 1 ∈ b.valueOver I ρ

/-- Are the values of the bound its meanings, where calls nest no deeper than `depth`? -/
structure Means (I : Interpretation E) (ρ : Assignment E) (depth : Nat)
    (δ : Relational.Valuation E) : Prop where
  valueAt : ∀ a ∈ (s.relations I).owner f.ref.owner, b.valueAt I ρ a =
    (Relational.meaningWithin (s.relations I) depth f.bound
      (δ.bind f.ref.owner.this (.set {a}))).rows
  valueOver : b.valueOver I ρ = (Relational.meaningWithin (s.relations I) depth f.bound
    (δ.bind f.ref.owner.this (.set ((s.relations I).owner f.ref.owner)))).rows

end LoweredBound

/-- How a formula about a field is asserted. -/
theorem runs_assertField {f : Relational.Field} {what : String} {e : Relational.Expr}
    (h : Runs (assertField f what e) s () s') : ∃ t m, Runs (formula e) s t m ∧
      m.asserting (fieldAssertion f what t) = s' := by
  obtain ⟨t, m, ht, h⟩ := runs_bind.1 h
  exact ⟨t, m, ht, (runs_assert.1 h).2⟩

/-- **The two formulas about a field hold exactly when it fits its declaration and the rests of all
its tuples are in the bound for the whole signature.** The latter says nothing new where the bound
holds for the whole signature what it holds at each element. The values of the bound are its
meanings wherever no variable in it is hidden by another one of its name, unless an operation on
integers has a set for a parameter. -/
theorem bound_iff_fits {singletonsOnly : Bool} {functions : List Relational.Function}
    (hs : Progress (.initial singletonsOnly functions) s) {f : Relational.Field}
    (h : Runs (assertBound f) s () s') : ∃ b : LoweredBound f s s',
      ∀ {E : Type} {I : Interpretation E}, I.IntInjective → I.Supports s.onDemand →
      I.Satisfies (b.before ++ b.between) → ∀ ρ : Assignment E,
        (b.Holds I ρ ↔ b.Fits I ρ ∧ b.InRange I ρ) ∧
        ((∀ a ∈ (s.relations I).owner f.ref.owner, b.valueAt I ρ a ⊆ b.valueOver I ρ) →
          (b.Holds I ρ ↔ b.Fits I ρ)) ∧
        (Relational.Site.Occurrences functions Relational.Unshadowed ⟨[f.ref.owner.this], f.bound⟩ →
          (∀ a ∈ b.before ++ b.between, ¬SetAxiom a) → ∀ depth ≥ functions.length,
          ∀ δ : Relational.Valuation E, b.Means I ρ depth δ) := by
  have hproper : s.Proper := hs.proper (proper_initial _ _)
  -- one formula about each owner, then one about all of them, the latter with what the former left
  obtain ⟨_, m, hvalues, hrange⟩ := runs_bind.1 h
  obtain ⟨values, k, hv, rfl⟩ := runs_assertField hvalues
  obtain ⟨range, k', hr, rfl⟩ := runs_assertField hrange
  obtain ⟨_, hclosed, hextk⟩ := closed_formula hv
  obtain ⟨_, hclosed', hextk'⟩ := closed_formula hr
  have hasserted := hextk.trans (extends_asserting (a := fieldAssertion f "multiplicity" values)
    (Or.inl hclosed))
  have hasserted' := hextk'.trans (extends_asserting (a := fieldAssertion f "subset" range)
    (Or.inl hclosed'))
  obtain ⟨x, each, m₁, m₁', hfirst, hrun, hlast, hholds⟩ := holds_valuesFormula hproper hv
  obtain ⟨whole, m₂, m₂', hfirst', hrun', hlast', hholds'⟩ :=
    holds_rangeFormula (proper_of_extends hproper hasserted) hr
  refine ⟨⟨x, each, whole, values, range, added s k,
    added (k.asserting (fieldAssertion f "multiplicity" values)) k',
    ⟨m₁, m₁', hfirst.progress, ?_, hrun⟩, ⟨m₂, m₂', ?_, ?_, hrun'⟩, ?_⟩, ?_⟩
  · exact (hlast.trans ((extends_asserting (Or.inl hclosed)).trans hasserted')).progress
  · exact (hasserted.trans hfirst').progress
  · exact (hlast'.trans (extends_asserting (Or.inl hclosed'))).progress
  · rw [added_trans hasserted hasserted', hextk.added_asserting, hextk'.added_asserting,
      List.append_assoc]
    rfl
  · intro E I hinj hI hsat ρ
    obtain ⟨hbefore, hbetween⟩ := List.forall_mem_append.1 hsat
    have hIk := hextk.supported I hI hbefore
    have hIk' := hextk'.supported I hIk hbetween
    obtain ⟨hadmits, hat⟩ := hholds hinj ⟨hIk, hbefore, fun _ _ => trivial⟩ ρ
    obtain ⟨hsubset, hover⟩ := hholds' hinj ⟨hIk', hbetween, fun _ _ => trivial⟩ ρ
    -- between the two formulas no relation changes
    rw [relations_of_extends hasserted, hasserted.functions] at hover
    rw [relations_of_extends hasserted] at hsubset
    rw [hs.functions] at hat hover
    have hiff : (values.eval I ρ).Holds ∧ (range.eval I ρ).Holds ↔
        Relational.FieldFits ((s.relations I).owner f.ref.owner) ((s.relations I).field f.ref)
          f.bound.demand (fun a => (each.eval I (ρ.bind x (.tuple a))).rows) ∧
        ∀ r ∈ (s.relations I).field f.ref, r.drop 1 ∈ (whole.eval I ρ).rows := by
      simp only [hadmits, hsubset, Relational.admits_set, Relational.Expr.splitMarker_fst]
      constructor
      · rintro ⟨heach, hstarts, hrests⟩
        exact ⟨⟨hstarts, fun a ha => (heach a ha).1, fun a ha => (heach a ha).2⟩, hrests⟩
      · rintro ⟨⟨hstarts, hwithin, hcounts⟩, hrests⟩
        exact ⟨fun a ha => ⟨hwithin a ha, hcounts a ha⟩, hstarts, hrests⟩
    refine ⟨hiff, fun hgrows => hiff.trans (and_iff_left_of_imp fun hfits => ?_),
      fun hsite hsets depth hdepth δ => ?_⟩
    · exact hfits.rests_subset hgrows
    · obtain ⟨hbefore, hbetween⟩ := List.forall_mem_append.1 hsets
      exact ⟨fun a ha => congrArg RelSmt.Value.rows (hat hsite hbefore depth hdepth δ a ha),
        congrArg RelSmt.Value.rows (hover hsite hbetween depth hdepth δ)⟩

/-! ## A bound that shrinks -/

/-- A signature of atoms. -/
def atomsSig : Relational.SigRef := ⟨0, "S", .atom, false⟩

/-- A field that relates each atom of a signature to any of the others: `f : set (S - this)`. -/
def othersField : Relational.Field where
  ref := ⟨0, atomsSig, "f", [.atom, .atom]⟩
  bound := .unary .setOf (.binary .minus (.sig atomsSig) (.var atomsSig.this))

/-- The session that has declared the signature and the field. -/
def othersSession : Session :=
  ((do declareSignature ⟨atomsSig, .top, false, none, {}⟩
       declareField othersField : Lower Unit).run (.initial true [])).2

/-- The signature holds both atoms, and the field relates the first to the second. -/
noncomputable def othersTable (f : FunctionSymbol) (vs : List (RelSmt.Value Bool)) :
    RelSmt.Value Bool :=
  match vs with
  | [.scalar (.element e)] => .int (if e then 1 else 0)
  | _ => if f.name = "S" then .set {t | ∃ e, t = [.element e]}
    else .set {[.element false, .element true]}

noncomputable def othersModel : Interpretation Bool := .ofTable false othersTable

theorem progress_othersSession : Progress (.initial true []) othersSession := by
  obtain ⟨m, hm, hs⟩ : ∃ m, Runs (declareSignature ⟨atomsSig, .top, false, none, {}⟩)
      (.initial true []) () m ∧ Runs (declareField othersField) m () othersSession :=
    ⟨_, rfl, rfl⟩
  exact (progress_declareSignature hm).trans (progress_declareField hs)

theorem owner_othersModel : (othersSession.relations othersModel).owner atomsSig
    = {t | ∃ e, t = [.element e]} := by
  have hfunction := Interpretation.function_ofTable false othersTable
    (.constant "S" (relationSort [.atom])) [] (by
      rintro _ ⟨e, rfl⟩
      exact .cons (Set.mem_univ e) .nil)
  exact congrArg RelSmt.Value.rows hfunction

theorem field_othersModel : (othersSession.relations othersModel).field othersField.ref
    = {[.element false, .element true]} := by
  have hfunction := Interpretation.function_ofTable false othersTable
    (.constant "S/f" (relationSort [.atom, .atom])) [] (by
      rintro _ rfl
      exact .cons (Set.mem_univ false) (.cons (Set.mem_univ true) .nil))
  exact congrArg RelSmt.Value.rows hfunction

theorem intInjective_othersModel : othersModel.IntInjective := by
  have hvalue : ∀ e, othersModel.intOf e = if e then 1 else 0 := fun e =>
    congrArg RelSmt.Value.number
      (Interpretation.function_ofTable false othersTable intValue [.element e] trivial)
  intro d _ e _ h
  rw [hvalue, hvalue] at h
  cases d <;> cases e <;> simp at h ⊢

theorem supports_othersModel : othersModel.Supports othersSession.onDemand :=
  supports_initial true []

/-- Nothing is asserted on the way to the two formulas about the field. -/
theorem runs_othersField : ∃ values range k k',
    Runs (formula (valuesFormula othersField)) othersSession values k ∧
    Runs (formula (rangeFormula othersField))
      (k.asserting (fieldAssertion othersField "multiplicity" values)) range k' ∧
    added othersSession k = [] ∧
    added (k.asserting (fieldAssertion othersField "multiplicity" values)) k' = [] ∧
    k'.onDemand = othersSession.onDemand ∧
    Runs (assertBound othersField) othersSession ()
      (k'.asserting (fieldAssertion othersField "subset" range)) ∧
    added othersSession (k'.asserting (fieldAssertion othersField "subset" range)) =
      [fieldAssertion othersField "multiplicity" values, fieldAssertion othersField "subset" range] :=
  ⟨_, _, _, _, rfl, rfl, rfl, rfl, rfl, rfl, rfl⟩

theorem auxiliary_othersField {s' : Session} (h : Runs (assertBound othersField) othersSession () s')
    (b : LoweredBound othersField othersSession s') : b.before ++ b.between = [] := by
  obtain ⟨values, range, k, k', _, _, _, _, _, hrun, hadded⟩ := runs_othersField
  obtain rfl : s' = _ := (Prod.mk.inj (h.symm.trans hrun)).2
  have hlength := congrArg List.length (b.assertions.symm.trans hadded)
  simp only [List.length_append, List.length_cons, List.length_nil] at hlength
  exact List.eq_nil_of_length_eq_zero (by rw [List.length_append]; omega)

/-- The bound holds the atoms that `this` does not hold. -/
theorem meaning_others (δ : Relational.Valuation Bool) (r : Set (Tuple Bool)) :
    (Relational.meaningWithin (othersSession.relations othersModel) 0 othersField.bound
      (δ.bind atomsSig.this (.set r))).rows = {t | ∃ e, t = [.element e]} \ r := by
  change (Relational.meaningWith _ _
    (.unary .setOf (.binary .minus (.sig atomsSig) (.var atomsSig.this))) _).rows = _
  rw [Relational.meaningWith, Relational.meaningWith, Relational.meaningWith_sig,
    Relational.meaningWith, Relational.Valuation.bind_self, owner_othersModel]
  rfl

theorem unshadowed_others :
    Relational.Site.Occurrences [] Relational.Unshadowed
      ⟨[othersField.ref.owner.this], othersField.bound⟩ := by
  have hresolving : Relational.Resolving (Relational.ScopedSite fun _ => False) :=
    Relational.resolving_scoped
  refine hresolving.occurrences ⟨List.nodup_singleton _, ?_⟩
  simp [othersField, atomsSig, Relational.Expr.ScopedWith]

/-- **A field may fit its declaration without being in the range of its bound.** Each atom is
related to others only, but none is other than all atoms of the signature, so the second formula is
false. -/
theorem fits_out_of_range : ∃ values range s',
    Runs (assertBound othersField) othersSession () s' ∧
    added othersSession s' = [fieldAssertion othersField "multiplicity" values,
      fieldAssertion othersField "subset" range] ∧
    ∃ I : Interpretation Bool, I.IntInjective ∧ I.Supports othersSession.onDemand ∧
      ∀ (ρ : Assignment Bool) (δ : Relational.Valuation Bool),
        Relational.FieldFits ((othersSession.relations I).owner othersField.ref.owner)
        ((othersSession.relations I).field othersField.ref) othersField.bound.demand
        (fun a => (Relational.meaningWithin (othersSession.relations I) 0
          othersField.bound (δ.bind othersField.ref.owner.this (.set {a}))).rows) ∧
      ¬((values.eval I ρ).Holds ∧ (range.eval I ρ).Holds) := by
  have hproper := progress_othersSession.proper (proper_initial _ _)
  obtain ⟨values, range, k, k', hv, hr, _, hnone, hdemand, hrun, hadded⟩ := runs_othersField
  refine ⟨values, range, _, hrun, hadded, othersModel, intInjective_othersModel, supports_othersModel,
    fun ρ δ => ⟨?_, fun hboth => ?_⟩⟩
  · change Relational.FieldFits ((othersSession.relations othersModel).owner atomsSig) _ .set
      fun a => (Relational.meaningWithin _ 0 _ (δ.bind atomsSig.this (.set {a}))).rows
    simp only [meaning_others]
    rw [owner_othersModel, field_othersModel]
    refine ⟨?_, ?_, fun _ _ => trivial⟩
    · rintro _ rfl
      exact ⟨false, rfl⟩
    · rintro _ ⟨e, rfl⟩ r hr
      obtain ⟨rfl, rfl⟩ : e = false ∧ r = [.element true] := by
        simpa [Relational.rests] using hr
      exact ⟨⟨true, rfl⟩, by simp⟩
  · obtain ⟨_, hclosed, hext⟩ := closed_formula hv
    have hasserted := hext.trans (extends_asserting (a := fieldAssertion othersField "multiplicity"
      values) (Or.inl hclosed))
    obtain ⟨whole, _, _, _, _, _, hholds⟩ :=
      holds_rangeFormula (proper_of_extends hproper hasserted) hr
    obtain ⟨hrange, hover⟩ := hholds intInjective_othersModel
      ⟨hdemand ▸ supports_othersModel, by simp [hnone, Interpretation.Satisfies], by simp⟩ ρ
    rw [relations_of_extends hasserted] at hrange
    rw [relations_of_extends hasserted, hasserted.functions] at hover
    -- what the field relates the first atom to would have to be other than all atoms
    have hrest := (hrange.1 hboth.2).2 [.element false, .element true] (by rw [field_othersModel]; rfl)
    rw [hover unshadowed_others (by simp [hnone]) 0 (Nat.zero_le _) δ] at hrest
    change _ ∈ (Relational.meaningWithin _ 0 _ (δ.bind atomsSig.this (.set
      ((othersSession.relations othersModel).owner atomsSig)))).rows at hrest
    rw [meaning_others, owner_othersModel] at hrest
    exact hrest.2 hrest.1

/-- In this model the two formulas hold exactly when the field fits and is in the range of the
bound. -/
theorem bound_iff_fits_others : ∃ s', Runs (assertBound othersField) othersSession () s' ∧
    ∃ b : LoweredBound othersField othersSession s', ∀ ρ, (b.Holds othersModel ρ ↔
      b.Fits othersModel ρ ∧ b.InRange othersModel ρ) ∧
      ∀ δ, b.Means othersModel ρ 0 δ := by
  obtain ⟨_, _, _, _, _, _, _, _, _, hrun, _⟩ := runs_othersField
  obtain ⟨b, hb⟩ := bound_iff_fits progress_othersSession hrun
  refine ⟨_, hrun, b, fun ρ => ?_⟩
  have hnone := auxiliary_othersField hrun b
  obtain ⟨hiff, _, hmeans⟩ := hb intInjective_othersModel supports_othersModel
    (by simp [hnone, Interpretation.Satisfies]) ρ
  exact ⟨hiff, hmeans unshadowed_others (by simp [hnone]) 0 (Nat.zero_le _)⟩

end Lowering

end RelSmt
