import RelSmt.Proofs.Lowering.Arithmetic
import RelSmt.Proofs.Lowering.Operator

/-!
# Variables of lowered expressions

Whatever an expression is lowered to, its variables are mentioned by the environment it was lowered
in, and lowering it only adds to the session. Both are shown together, by induction on expressions:
the axioms of an operation on integers are accounted for because its operands have no other
variables.
-/

namespace RelSmt

namespace Environment

variable {env : Environment} {V : Set Variable} {t u : Term}

theorem Covers.of_subset (h : env.Covers V t)
    (hsub : ∀ x ∈ u.freeOccurrences, x ∈ t.freeOccurrences) : env.Covers V u :=
  fun v hv => h v (hsub v hv)

theorem Covers.of_either {w : Term} (ht : env.Covers V t) (hu : env.Covers V u)
    (hsub : ∀ x ∈ w.freeOccurrences, x ∈ t.freeOccurrences ∨ x ∈ u.freeOccurrences) :
    env.Covers V w :=
  fun v hv => (hsub v hv).elim (ht v) (hu v)

theorem covers_of_closed (h : t.freeOccurrences = []) : env.Covers V t := by
  intro v hv
  simp [h] at hv

/-- The term that a name stands for has variables of the environment. -/
theorem covers_of_get? {name : String} (hin : env.Within V) (h : env.get? name = some t) :
    env.Covers V t := by
  have hmem : ∃ frame ∈ env.here :: env.around, frame.lookup name = some t :=
    List.exists_of_findSome?_eq_some h
  obtain ⟨frame, hframe, hlookup⟩ := hmem
  have hb : (name, t) ∈ frame := by
    obtain ⟨before, after, rfl, _⟩ := List.lookup_eq_some_iff.1 hlookup
    exact List.mem_append_right _ List.mem_cons_self
  intro v hv
  have hhas : env.Has v := ⟨frame, hframe, _, hb, hv⟩
  exact ⟨hin v hhas, mentions_iff.2 ⟨v, hhas, BEq.rfl⟩⟩

theorem within_put {name : String} (hin : env.Within V) (ht : env.Covers V t) :
    Environment.Within (env.put name t) V :=
  fun v hv => (has_put hv).elim (hin v) fun hv => (ht v hv).1

theorem mentions_enter {v : Variable} :
    Environment.mentions env.enter v = true ↔ env.mentions v = true := by
  simp only [mentions_iff, has_enter]

/-- A name for a known term adds no variable. -/
theorem Covers.of_put {name : String} (ht : env.Covers V t)
    (hu : Environment.Covers (env.enter.put name t) V u) : env.Covers V u := by
  intro v hv
  obtain ⟨hV, hm⟩ := hu v hv
  refine ⟨hV, ?_⟩
  rcases mentions_put hm with hm | ⟨w, hw, he⟩
  · exact mentions_enter.1 hm
  · obtain ⟨x, hx, he'⟩ := mentions_iff.1 (ht w hw).2
    exact mentions_iff.2 ⟨x, hx, BEq.trans he' he⟩

theorem within_empty : Environment.Within {} V :=
  fun _ hv => absurd hv has_empty

theorem within_enter (hin : env.Within V) : Environment.Within env.enter V :=
  fun v hv => hin v (has_enter.1 hv)

theorem Covers.enter (ht : env.Covers V t) : Environment.Covers env.enter V t :=
  fun v hv => (ht v hv).imp_right mentions_enter.2

/-- What is in scope stays among the known variables when a known term gets a name of its own. -/
theorem within_enter_put {name : String} (hin : env.Within V) (ht : env.Covers V t) :
    Environment.Within (env.enter.put name t) V :=
  within_put (within_enter hin) ht.enter

/-- A term that the environment covers speaks of no name that is still to be drawn. -/
theorem Covers.settledAt {m n : Nat} (ht : env.Covers V t) (hV : Lowering.Hygienic m V)
    (hmn : m ≤ n) : t.SettledAt n :=
  fun v hv => (hV.settled v (ht v hv).1).mono hmn

end Environment

namespace Lowering

/-- Does inlining keep to the variables of the environment? -/
structure Inliner.Keeps (inline : Inliner) : Prop where
  covers : ∀ {name : String} {body : Relational.Expr} {env : Environment} {V : Set Variable}
    {s s' : Session} {t : Term}, Runs (inline name body env) s t s' → Hygienic s.fresh V →
    env.Within V → env.Covers V t ∧ Extends s s'

variable {inline : Inliner} {active : List String}

/-- The arguments of a call are all that the body of the function can mention. -/
theorem covers_of_call {names : List String} {ts : List Term} {env : Environment}
    {V : Set Variable} {t : Term} (hts : ∀ u ∈ ts, env.Covers V u)
    (ht : Environment.Covers (({} : Environment).putAll (names.zip ts)) V t) : env.Covers V t := by
  intro v hv
  obtain ⟨hV, hm⟩ := ht v hv
  refine ⟨hV, ?_⟩
  obtain ⟨w, hw, he⟩ := Environment.mentions_iff.1 hm
  rcases Environment.has_putAll hw with hw | ⟨b, hb, hw⟩
  · exact absurd hw Environment.has_empty
  · obtain ⟨x, hx, he'⟩ := Environment.mentions_iff.1 (hts b.2 (List.of_mem_zip hb).2 w hw).2
    exact Environment.mentions_iff.2 ⟨x, hx, BEq.trans he' he⟩

theorem within_call (names : List String) {ts : List Term} {env : Environment} {V : Set Variable}
    (hts : ∀ u ∈ ts, env.Covers V u) :
    Environment.Within (({} : Environment).putAll (names.zip ts)) V := by
  intro v hv
  rcases Environment.has_putAll hv with hv | ⟨b, hb, hv⟩
  · exact absurd hv Environment.has_empty
  · exact (hts b.2 (List.of_mem_zip hb).2 v hv).1

/-- What a call is lowered to: an operation on integers, or the body of a function over its
arguments alone. -/
theorem runs_call {name : String} {args : List Relational.Expr} {c : List Relational.Column}
    {env : Environment} {s s' : Session} {t : Term}
    (h : Runs (exprWith inline active (.call name args c) env) s t s') :
    (∃ op x y m, s.functions.reverse.find? (fun f => f.name == name) = none ∧
      integerOperator? name = some op ∧ Runs (exprsWith inline active args env) s [x, y] m ∧
      Runs (arithmetic op x y env) m t s') ∨
    ∃ f body ts m, s.functions.reverse.find? (fun f => f.name == name) = some f ∧
      f.body = some body ∧ active.contains name = false ∧ f.params.length = args.length ∧
      Runs (exprsWith inline active args env) s ts m ∧
      Runs (inline name body
        (({} : Environment).putAll ((f.params.map Relational.Var.name).zip ts))) m t s' := by
  simp only [exprWith, function?, runs_bind, runs_get, runs_pure] at h
  obtain ⟨found, _, ⟨_, _, ⟨rfl, rfl⟩, rfl, rfl⟩, h⟩ := h
  split at h
  -- without a function of the name only an operator on integers is left
  · rename_i hnone
    split at h
    · exact absurd h runs_throw
    · rename_i op hop
      split at h
      · exact absurd h runs_throw_bind
      · obtain ⟨ts, m, hts, h⟩ := runs_bind.1 h
        split at h
        · exact Or.inl ⟨op, _, _, m, hnone, hop, hts, h⟩
        · exact absurd h runs_throw
  -- with one, it has a body, is not being inlined already, and gets an argument per parameter
  · rename_i f hf
    split at h
    · exact absurd h runs_throw
    · rename_i body hbody
      split at h
      · exact absurd h runs_throw_bind
      · rename_i hactive
        split at h
        · exact absurd h runs_throw_bind
        · rename_i hlen
          obtain ⟨ts, m, hts, h⟩ := runs_bind.1 h
          exact Or.inr ⟨f, body, ts, m, hf, hbody, by simpa using hactive, by simpa using hlen, hts, h⟩

/-- What a binder is lowered to: its declarations and its body first, then what closes over both. -/
theorem runs_quantified {q : Relational.Quantifier} {ds : List Relational.Decl}
    {body : Relational.Expr} {env : Environment} {s s' : Session} {t : Term}
    (h : Runs (exprWith inline active (.quantified q ds body) env) s t s') :
    ∃ b u m m', Runs (declsWith inline active ds (decide (q = .comprehension))
        { scope := env.enter }) s b m ∧
      Runs (exprWith inline active body b.scope) m u m' ∧
      (q = .comprehension ∧
        Runs (comprehend (ds.flatMap fun d => d.vars.flatMap Relational.Var.columns) b u) m' t s' ∨
      q ≠ .comprehension ∧ Runs (quantify q b u) m' t s') := by
  cases q <;> simp only [exprWith, runs_bind] at h <;> obtain ⟨b, m, hb, u, m', hu, h⟩ := h
  case comprehension => exact ⟨b, u, m, m', hb, hu, Or.inl ⟨rfl, h⟩⟩
  all_goals exact ⟨b, u, m, m', hb, hu, Or.inr ⟨by simp, h⟩⟩

/-- Do all members of a list have to hold, or any? -/
def joinsAll : Relational.ListOp → Bool
  | .and => true
  | .or => false

/-- The members of a list are lowered one after another, and joined. -/
theorem runs_list {op : Relational.ListOp} {es : List Relational.Expr} {env : Environment}
    {s s' : Session} {t : Term} (h : Runs (exprWith inline active (.list op es) env) s t s') :
    ∃ ts, Runs (exprsWith inline active es env) s ts s' ∧ Term.Joined (joinsAll op) ts t := by
  simp only [exprWith, runs_bind] at h
  obtain ⟨ts, m, hts, h⟩ := h
  cases op with
  | and =>
    obtain ⟨hall, rfl⟩ := runs_lift.1 h
    exact ⟨ts, hts, Term.joined_allOf hall⟩
  | or =>
    obtain ⟨hany, rfl⟩ := runs_lift.1 h
    exact ⟨ts, hts, Term.joined_anyOf hany⟩

/-- A declaration is lowered in the scope that those before it have led to. -/
theorem runs_declsWith_cons {vs : List Relational.Var} {mult : Relational.Multiplicity}
    {bound : Relational.Expr} {disjoint : Bool} {ds : List Relational.Decl} {c : Bool}
    {s s' : Session} {b b' : Bound}
    (h : Runs (declsWith inline active (.mk vs mult bound disjoint :: ds) c b) s b' s') :
    ∃ u m₁ b₁ m₂, Runs (exprWith inline active bound b.scope) s u m₁ ∧
      Runs (bindDecl vs mult u disjoint b) m₁ b₁ m₂ ∧
      Runs (declsWith inline active ds c b₁) m₂ b' s' := by
  rw [declsWith] at h
  split at h
  · exact absurd h runs_throw_bind
  · simp only [runs_bind] at h
    obtain ⟨u, m₁, hu, b₁, m₂, hdecl, hrest⟩ := h
    exact ⟨u, m₁, b₁, m₂, hu, hdecl, hrest⟩

mutual

/-- **A lowered expression has variables of its environment, and lowering it adds to the session.**
-/
theorem covers_exprWith (hinline : inline.Keeps) : ∀ (e : Relational.Expr) {env : Environment}
    {V : Set Variable} {s s' : Session} {t : Term}, Runs (exprWith inline active e env) s t s' →
    Hygienic s.fresh V → env.Within V → env.Covers V t ∧ Extends s s'
  | .constant c, env, V, s, s', t, h, _, _ => by
    rw [exprWith] at h
    exact ⟨Environment.covers_of_closed (free_constant h), extends_constant h⟩
  | .number n, env, V, s, s', t, h, _, _ => by
    rw [exprWith] at h
    obtain ⟨rfl, _, hext⟩ := runs_intRelation h
    exact ⟨Environment.covers_of_closed (by simp [Term.freeOccurrences, Term.freeOccurrencesList]),
      hext⟩
  | .sig r, env, V, s, s', t, h, _, _ => by
    rw [exprWith] at h
    split at h
    · obtain ⟨rfl, _, hext⟩ := runs_integers h
      exact ⟨Environment.covers_of_closed (by simp [Term.freeOccurrences]), hext⟩
    · obtain ⟨f, _, rfl, rfl⟩ := runs_signature.1 h
      exact ⟨Environment.covers_of_closed (by simp [Term.freeOccurrences]), .refl _⟩
  | .field f, env, V, s, s', t, h, _, _ => by
    rw [exprWith] at h
    obtain ⟨f, _, rfl, rfl⟩ := runs_field.1 h
    exact ⟨Environment.covers_of_closed (by simp [Term.freeOccurrences]), .refl _⟩
  | .var v, env, V, s, s', t, h, _, hin => by
    rw [exprWith] at h
    split at h
    · rename_i u hu
      obtain ⟨rfl, rfl⟩ := runs_pure.1 h
      exact ⟨Environment.covers_of_get? hin hu, .refl _⟩
    · exact absurd h runs_throw
  | .unary op e, env, V, s, s', t, h, hV, hin => by
    rw [exprWith, runs_bind] at h
    obtain ⟨u, m, hu, h⟩ := h
    have ih := covers_exprWith hinline e hu hV hin
    exact ⟨ih.1.of_subset fun x hx => mem_free_unaryOp h hx, ih.2.trans (extends_unary h)⟩
  | .binary op l r, env, V, s, s', t, h, hV, hin => by
    simp only [exprWith, runs_bind] at h
    obtain ⟨a, m, ha, b, m', hb, h⟩ := h
    have iha := covers_exprWith hinline l ha hV hin
    -- names drawn on the left are not settled for the right, so the known names are taken along
    have ihb := covers_exprWith hinline r hb (hV.mono iha.2.fresh) hin
    exact ⟨iha.1.of_either ihb.1 fun x hx => mem_free_binaryOp h hx,
      (iha.2.trans ihb.2).trans (extends_binary h)⟩
  | .list op es, env, V, s, s', t, h, hV, hin => by
    obtain ⟨ts, hts, hjoined⟩ := runs_list h
    have ih := covers_exprsWith hinline es hts hV hin
    refine ⟨fun x hx => ?_, ih.2⟩
    obtain ⟨u, hu, hx⟩ := hjoined.mem_freeOccurrences.1 hx
    exact ih.1 u hu x hx
  | .ite c y n, env, V, s, s', t, h, hV, hin => by
    simp only [exprWith, runs_bind, runs_lift, Term.mkIte_eq_ok] at h
    obtain ⟨tc, m₁, hc, ty, m₂, hy, tn, _, hn, ⟨_, _, rfl⟩, rfl⟩ := h
    have ihc := covers_exprWith hinline c hc hV hin
    have ihy := covers_exprWith hinline y hy (hV.mono ihc.2.fresh) hin
    have ihn := covers_exprWith hinline n hn (hV.mono (ihc.2.trans ihy.2).fresh) hin
    refine ⟨fun x hx => ?_, (ihc.2.trans ihy.2).trans ihn.2⟩
    simp only [Term.freeOccurrences, List.mem_append] at hx
    rcases hx with (hx | hx) | hx
    · exact ihc.1 x hx
    · exact ihy.1 x hx
    · exact ihn.1 x hx
  | .letIn v value body, env, V, s, s', t, h, hV, hin => by
    simp only [exprWith, runs_bind] at h
    obtain ⟨u, m, hu, h⟩ := h
    have ihu := covers_exprWith hinline value hu hV hin
    have ih := covers_exprWith hinline body h (hV.mono ihu.2.fresh)
      (Environment.within_enter_put hin ihu.1)
    exact ⟨ihu.1.of_put ih.1, ihu.2.trans ih.2⟩
  | .quantified q ds body, env, V, s, s', t, h, hV, hin => by
    obtain ⟨b, u, m, m', hb, hu, h⟩ := runs_quantified h
    obtain ⟨hext, V', hV', hb'⟩ := boundWithin_declsWith hinline ds hb hV (boundWithin_enter hin)
    have ih := covers_exprWith hinline body hu hV'.hygienic hb'.within
    -- the binder has known variables of its own; what leaves it speaks of the outer ones only
    have hgrows := hext.trans ih.2
    rcases h with ⟨_, h⟩ | ⟨_, h⟩
    · exact ⟨hV'.covers hV hin (covers_comprehend hV'.hygienic hb' (hb'.covers ih.1) h),
        hgrows.trans (extends_comprehend h)⟩
    · exact ⟨hV'.covers hV hin (covers_quantify hb' (hb'.covers ih.1) h),
        hgrows.trans (extends_quantify h)⟩
  | .call name args c, env, V, s, s', t, h, hV, hin => by
    rcases runs_call h with ⟨op, x, y, m, _, _, hts, h⟩ | ⟨f, body, ts, m, _, _, _, _, hts, h⟩
    · have ih := covers_exprsWith hinline args hts hV hin
      -- the axioms of an operation quantify over the variables of its two operands
      have hx := ih.1 x (by simp)
      have hy := ih.1 y (by simp)
      have hVm := hV.mono ih.2.fresh
      exact ⟨covers_arithmetic h hVm hx hy, ih.2.trans (extends_arithmetic h hVm hx hy hin)⟩
    · have ih := covers_exprsWith hinline args hts hV hin
      have hbody := hinline.covers h (hV.mono ih.2.fresh) (within_call _ ih.1)
      exact ⟨covers_of_call ih.1 hbody.1, ih.2.trans hbody.2⟩

theorem covers_exprsWith (hinline : inline.Keeps) : ∀ (es : List Relational.Expr)
    {env : Environment} {V : Set Variable} {s s' : Session} {ts : List Term},
    Runs (exprsWith inline active es env) s ts s' → Hygienic s.fresh V → env.Within V →
    (∀ t ∈ ts, env.Covers V t) ∧ Extends s s'
  | [], env, V, s, s', ts, h, _, _ => by
    rw [exprsWith] at h
    obtain ⟨rfl, rfl⟩ := runs_pure.1 h
    exact ⟨by simp, .refl _⟩
  | e :: es, env, V, s, s', ts, h, hV, hin => by
    simp only [exprsWith, runs_bind, runs_pure] at h
    obtain ⟨t, m, ht, ts, _, hts, rfl, rfl⟩ := h
    have ih := covers_exprWith hinline e ht hV hin
    have ihs := covers_exprsWith hinline es hts (hV.mono ih.2.fresh) hin
    exact ⟨List.forall_mem_cons.2 ⟨ih.1, ihs.1⟩, ih.2.trans ihs.2⟩

theorem boundWithin_declsWith (hinline : inline.Keeps) : ∀ (ds : List Relational.Decl)
    {comprehension : Bool} {env : Environment} {V : Set Variable} {s s' : Session} {b b' : Bound},
    Runs (declsWith inline active ds comprehension b) s b' s' → Hygienic s.fresh V →
    BoundWithin env V b →
    Extends s s' ∧ ∃ V', Enlarges s V s' V' ∧ BoundWithin env V' b'
  | [], c, env, V, s, s', b, b', h, hV, hb => by
    rw [declsWith] at h
    obtain ⟨rfl, rfl⟩ := runs_pure.1 h
    exact ⟨.refl _, V, .refl hV, hb⟩
  | .mk vs m bound disjoint :: ds, c, env, V, s, s', b, b', h, hV, hb => by
    obtain ⟨u, m₁, b₁, m₂, hu, hdecl, hrest⟩ := runs_declsWith_cons h
    have ih := covers_exprWith hinline bound hu hV hb.within
    obtain ⟨hext, V₁, hV₁, hb₁, _⟩ := boundWithin_bindDecl hdecl (hV.mono ih.2.fresh) hb ih.1
    obtain ⟨hexts, V', hV', hb'⟩ := boundWithin_declsWith hinline ds hrest hV₁.hygienic hb₁
    have hfirst : Enlarges s V m₁ V := (Enlarges.refl hV).fresher ih.2.fresh
    exact ⟨(ih.2.trans hext).trans hexts, V', (hfirst.trans hV₁).trans hV', hb'⟩

end

/-! ## Expressions of a session -/

theorem keeps_throw {fault : String → Fault} : Inliner.Keeps fun name _ _ => throw (fault name) :=
  ⟨fun h _ _ => absurd h runs_throw⟩

theorem covers_exprWithin : ∀ (depth : Nat) {active : List String} {e : Relational.Expr}
    {env : Environment} {V : Set Variable} {s s' : Session} {t : Term},
    Runs (exprWithin depth active e env) s t s' → Hygienic s.fresh V → env.Within V →
    env.Covers V t ∧ Extends s s'
  | 0, _, e, _, _, _, _, _, h, hV, hin => covers_exprWith keeps_throw e h hV hin
  | depth + 1, _, e, _, _, _, _, _, h, hV, hin =>
    covers_exprWith ⟨covers_exprWithin depth⟩ e h hV hin

theorem runs_expr {e : Relational.Expr} {env : Environment} {s s' : Session} {t : Term} :
    Runs (expr e env) s t s' ↔ Runs (exprWithin s.functions.length [] e env) s t s' := by
  simp only [expr, runs_bind, runs_get]
  constructor
  · rintro ⟨_, _, ⟨rfl, rfl⟩, h⟩
    exact h
  · intro h
    exact ⟨s, s, ⟨rfl, rfl⟩, h⟩

/-- A formula is an expression outside all declarations that is lowered to a truth value. -/
theorem runs_formula {e : Relational.Expr} {s s' : Session} {t : Term} :
    Runs (formula e) s t s' ↔
      Runs (exprWithin s.functions.length [] e {}) s t s' ∧ t.sort = .bool := by
  rw [← runs_expr, formula, runs_bind]
  constructor
  · rintro ⟨u, m, hu, h⟩
    split at h
    · rename_i hsort
      obtain ⟨rfl, rfl⟩ := runs_pure.1 h
      exact ⟨hu, hsort⟩
    · exact absurd h runs_throw
  · rintro ⟨ht, hsort⟩
    exact ⟨t, s', ht, by rw [if_pos hsort]; exact runs_pure.2 ⟨rfl, rfl⟩⟩

/-- **A lowered formula is closed.** -/
theorem closed_formula {e : Relational.Expr} {s s' : Session} {t : Term}
    (h : Runs (formula e) s t s') : t.sort = .bool ∧ t.freeOccurrences = [] ∧ Extends s s' := by
  obtain ⟨ht, hsort⟩ := runs_formula.1 h
  have hin : Environment.Within {} ∅ := Environment.within_empty
  obtain ⟨hcovers, hext⟩ := covers_exprWithin _ ht (hygienic_empty _) hin
  exact ⟨hsort, List.eq_nil_iff_forall_not_mem.2 fun v hv => (hcovers v hv).1, hext⟩

end Lowering

end RelSmt
