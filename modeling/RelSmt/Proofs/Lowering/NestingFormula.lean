import RelSmt.Proofs.Lowering.Expr
import RelSmt.Proofs.Lowering.Keeping
import RelSmt.Proofs.Lowering.NestingBinding

/-!
# Lowered formulas bind no name again

An expression is lowered to a clear term, provided that what its environment holds is clear. The
formulas of a specification are lowered in an empty environment, so nothing is to be provided there.
-/

namespace RelSmt.Lowering

variable {V : Set Variable} {n : Nat} {env : Environment} {s s' : Session} {t u : Term}

/-! ## Environments -/

theorem AllClear.put {name : String} (h : AllClear V n env) (hcovers : env.Covers V t)
    (ht : Clear V n t) : AllClear V n (env.put name t) :=
  ⟨h.hygienic, h.limits, Environment.within_put h.within hcovers, h.resolves.put ht⟩

/-- The environment that a function is inlined in has its arguments alone. -/
theorem AllClear.arguments (h : AllClear V n env) (names : List String) {ts : List Term}
    (hcovers : ∀ t ∈ ts, env.Covers V t) (hts : ∀ t ∈ ts, Clear V n t) :
    AllClear V n (({} : Environment).putAll (names.zip ts)) :=
  ⟨h.hygienic, h.limits, within_call names hcovers,
    Scoped.resolves_empty.putAll fun b hb => hts b.2 (List.of_mem_zip hb).2⟩

/-- Before any declaration nothing is bound. -/
theorem AllClear.start (h : AllClear V n env) : Bound.AllClear env n V n { scope := env.enter } :=
  ⟨h.enter, boundWithin_enter h.within, by simp, by simp⟩

/-! ## Expressions -/

/-- Does inlining bind no name again, and does it keep to the variables of the environment? -/
structure Inliner.Nests (inline : Inliner) : Prop where
  keeps : inline.Keeps
  clear : ∀ {name : String} {body : Relational.Expr} {env : Environment} {V : Set Variable}
    {s s' : Session} {t : Term}, Runs (inline name body env) s t s' → AllClear V s.fresh env →
    Lowering.Nests s s' ∧ Clear V s'.fresh t

variable {inline : Inliner} {active : List String}

mutual

/-- **A lowered expression binds no name again, and none that is in use.** -/
theorem clear_exprWith (hinline : inline.Nests) : ∀ (e : Relational.Expr) {env : Environment}
    {V : Set Variable} {s s' : Session} {t : Term}, Runs (exprWith inline active e env) s t s' →
    AllClear V s.fresh env → Nests s s' ∧ Clear V s'.fresh t
  | .constant c, env, V, s, s', t, h, henv => by
    rw [exprWith] at h
    exact kept_constant (K := nesting V) henv.hygienic.settled h
  | .number n, env, V, s, s', t, h, _ => by
    rw [exprWith] at h
    exact clear_intRelation h
  | .sig r, env, V, s, s', t, h, henv => by
    rw [exprWith] at h
    split at h
    · exact (nesting V).integers henv.hygienic.settled h
    · obtain ⟨f, _, rfl, rfl⟩ := runs_signature.1 h
      exact ⟨.refl _, Term.unshadowed_symbol f⟩
  | .field r, env, V, s, s', t, h, _ => by
    rw [exprWith] at h
    obtain ⟨f, _, rfl, rfl⟩ := runs_field.1 h
    exact ⟨.refl _, Term.unshadowed_symbol f⟩
  | .var v, env, V, s, s', t, h, henv => by
    rw [exprWith] at h
    split at h
    · rename_i u hu
      obtain ⟨rfl, rfl⟩ := runs_pure.1 h
      exact ⟨.refl _, henv.resolves _ _ hu⟩
    · exact absurd h runs_throw
  | .unary op e, env, V, s, s', t, h, henv => by
    rw [exprWith, runs_bind] at h
    obtain ⟨u, m, hu, h⟩ := h
    obtain ⟨hm, hu⟩ := clear_exprWith hinline e hu henv
    obtain ⟨hlast, ht⟩ :=
      kept_unary (K := nesting V) (henv.mono hm.fresh).hygienic.settled hu h
    exact ⟨hm.trans hlast, ht⟩
  | .binary op l r, env, V, s, s', t, h, henv => by
    simp only [exprWith, runs_bind] at h
    obtain ⟨a, m, ha, b, m', hb, h⟩ := h
    obtain ⟨hm, ha⟩ := clear_exprWith hinline l ha henv
    obtain ⟨hm', hb⟩ := clear_exprWith hinline r hb (henv.mono hm.fresh)
    -- the left operand was clear of the names drawn so far; it is clear of the later ones too
    obtain ⟨hlast, ht⟩ := kept_binary (K := nesting V)
      (henv.mono (hm.trans hm').fresh).hygienic.settled (ha.later hm'.fresh) hb h
    exact ⟨(hm.trans hm').trans hlast, ht⟩
  | .list op es, env, V, s, s', t, h, henv => by
    obtain ⟨ts, hts, hjoined⟩ := runs_list h
    exact (clear_exprsWith hinline es hts henv).imp_right (Composes.joined hjoined)
  | .ite c y n, env, V, s, s', t, h, henv => by
    simp only [exprWith, runs_bind, runs_lift, Term.mkIte_eq_ok] at h
    obtain ⟨tc, m₁, hc, ty, m₂, hy, tn, _, hn, ⟨_, _, rfl⟩, rfl⟩ := h
    obtain ⟨h₁, hc⟩ := clear_exprWith hinline c hc henv
    obtain ⟨h₂, hy⟩ := clear_exprWith hinline y hy (henv.mono h₁.fresh)
    obtain ⟨h₃, hn⟩ := clear_exprWith hinline n hn (henv.mono (h₁.trans h₂).fresh)
    exact ⟨(h₁.trans h₂).trans h₃, Term.unshadowed_ite (hc.later (h₂.trans h₃).fresh)
      (hy.later h₃.fresh) hn⟩
  | .letIn v value body, env, V, s, s', t, h, henv => by
    simp only [exprWith, runs_bind] at h
    obtain ⟨u, m, hu, h⟩ := h
    have hcovers := (covers_exprWith hinline.keeps value hu henv.hygienic henv.within).1
    obtain ⟨hm, hu⟩ := clear_exprWith hinline value hu henv
    obtain ⟨hlast, ht⟩ :=
      clear_exprWith hinline body h ((henv.mono hm.fresh).enter.put hcovers.enter hu)
    exact ⟨hm.trans hlast, ht⟩
  | .quantified q ds body, env, V, s, s', t, h, henv => by
    obtain ⟨b, u, m, m', hb, hu, h⟩ := runs_quantified h
    obtain ⟨hm, V', hV', hb⟩ := allClear_declsWith hinline ds hb (Nat.le_refl _) henv.start
    have hcovers := (covers_exprWith hinline.keeps body hu hb.scope.hygienic hb.scope.within).1
    obtain ⟨hm', hu⟩ := clear_exprWith hinline body hu hb.scope
    -- the binder is clear of what is around it and of the names drawn in its body
    have hgrows := hm.trans hm'
    have hb := hb.mono hm'.fresh
    rcases h with ⟨_, h⟩ | ⟨_, h⟩
    · obtain ⟨hlast, ht⟩ := clear_comprehend hb (hb.bound.covers hcovers) hu h
      exact ⟨hgrows.trans hlast, ht⟩
    · obtain ⟨hlast, ht⟩ :=
        clear_quantify henv.hygienic.settled hV'.subset hgrows.fresh hb hu h
      exact ⟨hgrows.trans hlast, ht⟩
  | .call name args c, env, V, s, s', t, h, henv => by
    rcases runs_call h with ⟨op, x, y, m, _, _, hts, h⟩ | ⟨f, body, ts, m, _, _, _, _, hts, h⟩
    · have hcovers := (covers_exprsWith hinline.keeps args hts henv.hygienic henv.within).1
      obtain ⟨hm, hts⟩ := clear_exprsWith hinline args hts henv
      obtain ⟨hlast, ht⟩ := clear_arithmetic (henv.mono hm.fresh) (hcovers x (by simp))
        (hcovers y (by simp)) (hts x (by simp)) (hts y (by simp)) h
      exact ⟨hm.trans hlast, ht⟩
    · -- the body of the function sees its arguments alone, and they may be copied into it
      have hcovers := (covers_exprsWith hinline.keeps args hts henv.hygienic henv.within).1
      obtain ⟨hm, hts⟩ := clear_exprsWith hinline args hts henv
      obtain ⟨hlast, ht⟩ := hinline.clear h ((henv.mono hm.fresh).arguments _ hcovers hts)
      exact ⟨hm.trans hlast, ht⟩

theorem clear_exprsWith (hinline : inline.Nests) : ∀ (es : List Relational.Expr)
    {env : Environment} {V : Set Variable} {s s' : Session} {ts : List Term},
    Runs (exprsWith inline active es env) s ts s' → AllClear V s.fresh env →
    Nests s s' ∧ ∀ t ∈ ts, Clear V s'.fresh t
  | [], env, V, s, s', ts, h, _ => by
    rw [exprsWith] at h
    obtain ⟨rfl, rfl⟩ := runs_pure.1 h
    exact ⟨.refl _, by simp⟩
  | e :: es, env, V, s, s', ts, h, henv => by
    simp only [exprsWith, runs_bind, runs_pure] at h
    obtain ⟨t, m, ht, ts, _, hts, rfl, rfl⟩ := h
    obtain ⟨hm, ht⟩ := clear_exprWith hinline e ht henv
    obtain ⟨hlast, hts⟩ := clear_exprsWith hinline es hts (henv.mono hm.fresh)
    exact ⟨hm.trans hlast, List.forall_mem_cons.2 ⟨ht.later hlast.fresh, hts⟩⟩

theorem allClear_declsWith (hinline : inline.Nests) : ∀ (ds : List Relational.Decl)
    {comprehension : Bool} {env : Environment} {k : Nat} {V : Set Variable} {s s' : Session}
    {b b' : Bound}, Runs (declsWith inline active ds comprehension b) s b' s' → k ≤ s.fresh →
    b.AllClear env k V s.fresh →
    Nests s s' ∧ ∃ V', Enlarges s V s' V' ∧ b'.AllClear env k V' s'.fresh
  | [], c, env, k, V, s, s', b, b', h, _, hb => by
    rw [declsWith] at h
    obtain ⟨rfl, rfl⟩ := runs_pure.1 h
    exact ⟨.refl _, V, .refl hb.scope.hygienic, hb⟩
  | .mk vs mult bound disjoint :: ds, c, env, k, V, s, s', b, b', h, hk, hb => by
    obtain ⟨u, m₁, b₁, m₂, hu, hdecl, hrest⟩ := runs_declsWith_cons h
    have hcovers := (covers_exprWith hinline.keeps bound hu hb.scope.hygienic hb.scope.within).1
    obtain ⟨h₁, hu⟩ := clear_exprWith hinline bound hu hb.scope
    obtain ⟨h₂, V₁, hV₁, hb₁⟩ :=
      allClear_bindDecl hdecl (Nat.le_trans hk h₁.fresh) (hb.mono h₁.fresh) hcovers hu
    obtain ⟨h₃, V', hV', hb'⟩ :=
      allClear_declsWith hinline ds hrest (Nat.le_trans hk (h₁.trans h₂).fresh) hb₁
    have hfirst : Enlarges s V m₁ V := (Enlarges.refl hb.scope.hygienic).fresher h₁.fresh
    exact ⟨(h₁.trans h₂).trans h₃, V', (hfirst.trans hV₁).trans hV', hb'⟩

end

theorem clear_exprWithin : ∀ (depth : Nat) {active : List String} {e : Relational.Expr}
    {env : Environment} {V : Set Variable} {s s' : Session} {t : Term},
    Runs (exprWithin depth active e env) s t s' → AllClear V s.fresh env →
    Nests s s' ∧ Clear V s'.fresh t
  | 0, _, e, _, _, _, _, _, h, henv =>
    clear_exprWith ⟨keeps_throw, fun h _ => absurd h runs_throw⟩ e h henv
  | depth + 1, _, e, _, _, _, _, _, h, henv =>
    clear_exprWith ⟨⟨covers_exprWithin depth⟩, clear_exprWithin depth⟩ e h henv

theorem clear_formula {e : Relational.Expr} (h : Runs (formula e) s t s') :
    Nests s s' ∧ Clear ∅ s'.fresh t := by
  -- outside all declarations no variable is known and no name stands for a term
  have hempty : AllClear ∅ s.fresh {} := ⟨hygienic_empty _, fun v hv => hv.elim,
    Environment.within_empty, Scoped.resolves_empty⟩
  exact clear_exprWithin _ (runs_formula.1 h).1 hempty

/-! ## Specifications -/

/-- **What is asserted about a specification binds no name again.** -/
def nestingFormulas : Keeping where
  toOperating := nesting ∅
  Hinted _ := True
  asserting _ h := nests_asserting h.once
  own _ := trivial
  signature _ _ := Term.unshadowed_symbol _
  field _ _ := Term.unshadowed_symbol _
  formula _ _ h := clear_formula h

instance : nestingFormulas.AllowsLabels where
  labelled _ h := (nests_asserting h.once).trans (nests_of_eq (Nat.le_refl _) rfl)

end RelSmt.Lowering
