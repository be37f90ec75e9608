import RelSmt.Proofs.Lowering.DisciplineBinding
import RelSmt.Proofs.Lowering.Keeping

/-!
# Expressions under a discipline

Expressions keep to a discipline, and so do formulas. What becomes of a specification under it
follows from what its formulas keep to (`Discipline.keeping`).
-/

namespace RelSmt.Lowering

variable {D : Discipline} {s m s' : Session} {t : Term}

/-! ## Expressions -/

/-- Does inlining keep to the discipline? -/
structure Inliner.KeepsTo (D : Discipline) (inline : Inliner) : Prop where
  kept : ∀ {name : String} {body : Relational.Expr} {env : Environment} {s s' : Session}
    {t : Term}, Runs (inline name body env) s t s' → D.Fine s →
    (∀ v ∈ body.declared, D.Hinted v.name) → D.FitsScope s env → D.Leads s s' ∧ D.Fits s' t

variable {inline : Inliner} {active : List String}

mutual

/-- **A lowered expression fits the session that it leaves, and lowering it keeps to the
discipline.** -/
theorem kept_exprWith (hinline : inline.KeepsTo D) : ∀ (e : Relational.Expr)
    {env : Environment} {s s' : Session} {t : Term}, Runs (exprWith inline active e env) s t s' →
    D.Fine s → (∀ v ∈ e.declared, D.Hinted v.name) → D.FitsScope s env →
    D.Leads s s' ∧ D.Fits s' t
  | .constant c, env, s, s', t, h, hs, _, _ => by
    rw [exprWith] at h
    exact kept_constant (K := D.operating) hs h
  | .number n, env, s, s', t, h, hs, _, _ => by
    rw [exprWith] at h
    exact kept_intRelation hs h
  | .sig r, env, s, s', t, h, hs, _, _ => by
    rw [exprWith] at h
    split at h
    · exact kept_integers hs h
    · obtain ⟨f, hf, rfl, rfl⟩ := runs_signature.1 h
      exact ⟨D.refl _, D.signature hs hf⟩
  | .field r, env, s, s', t, h, hs, _, _ => by
    rw [exprWith] at h
    obtain ⟨f, hf, rfl, rfl⟩ := runs_field.1 h
    exact ⟨D.refl _, D.field hs hf⟩
  | .var v, env, s, s', t, h, _, _, henv => by
    rw [exprWith] at h
    split at h
    · rename_i u hu
      obtain ⟨rfl, rfl⟩ := runs_pure.1 h
      exact ⟨D.refl _, henv _ _ hu⟩
    · exact absurd h runs_throw
  | .unary op e, env, s, s', t, h, hs, hV, henv => by
    rw [exprWith, runs_bind] at h
    obtain ⟨u, m, hu, h⟩ := h
    obtain ⟨hm, hu⟩ := kept_exprWith hinline e hu hs hV henv
    obtain ⟨hlast, ht⟩ := kept_unary (K := D.operating) (D.fine hm hs) hu h
    exact ⟨D.trans hm hlast, ht⟩
  | .binary op l r, env, s, s', t, h, hs, hV, henv => by
    simp only [exprWith, runs_bind] at h
    obtain ⟨a, m, ha, b, m', hb, h⟩ := h
    obtain ⟨hVl, hVr⟩ := List.forall_mem_append.1 hV
    obtain ⟨hm, ha⟩ := kept_exprWith hinline l ha hs hVl henv
    obtain ⟨hm', hb⟩ := kept_exprWith hinline r hb (D.fine hm hs) hVr
      (henv.mono fun _ _ => D.fits hm)
    obtain ⟨hlast, ht⟩ :=
      kept_binary (K := D.operating) (D.fine (D.trans hm hm') hs) (D.fits hm' ha) hb h
    exact ⟨D.trans (D.trans hm hm') hlast, ht⟩
  | .list op es, env, s, s', t, h, hs, hV, henv => by
    obtain ⟨ts, hts, hjoined⟩ := runs_list h
    exact (kept_exprsWith hinline es hts hs hV henv).imp_right (Composes.joined hjoined)
  | .ite c y n, env, s, s', t, h, hs, hV, henv => by
    simp only [exprWith, runs_bind, runs_lift, Term.mkIte_eq_ok] at h
    obtain ⟨tc, m₁, hc, ty, m₂, hy, tn, _, hn, ⟨_, _, rfl⟩, rfl⟩ := h
    obtain ⟨hV, hVn⟩ := List.forall_mem_append.1 hV
    obtain ⟨hVc, hVy⟩ := List.forall_mem_append.1 hV
    obtain ⟨h₁, hc⟩ := kept_exprWith hinline c hc hs hVc henv
    obtain ⟨h₂, hy⟩ := kept_exprWith hinline y hy (D.fine h₁ hs) hVy
      (henv.mono fun _ _ => D.fits h₁)
    obtain ⟨h₃, hn⟩ := kept_exprWith hinline n hn (D.fine (D.trans h₁ h₂) hs) hVn
      (henv.mono fun _ _ => D.fits (D.trans h₁ h₂))
    exact ⟨D.trans (D.trans h₁ h₂) h₃, D.fits (D.trans h₂ h₃) hc, D.fits h₃ hy, hn⟩
  | .letIn v value body, env, s, s', t, h, hs, hV, henv => by
    simp only [exprWith, runs_bind] at h
    obtain ⟨u, m, hu, h⟩ := h
    obtain ⟨hVvalue, hVbody⟩ := List.forall_mem_append.1 hV
    obtain ⟨hm, hu⟩ := kept_exprWith hinline value hu hs hVvalue henv
    obtain ⟨hlast, ht⟩ := kept_exprWith hinline body h (D.fine hm hs) hVbody
      ((henv.mono fun _ _ => D.fits hm).enter.put hu)
    exact ⟨D.trans hm hlast, ht⟩
  | .quantified q ds body, env, s, s', t, h, hs, hV, henv => by
    -- comprehensions and quantifiers differ in what they make of the body
    obtain ⟨b, u, m, m', hb, hu, h⟩ := runs_quantified h
    obtain ⟨hVds, hVbody⟩ := List.forall_mem_append.1 hV
    obtain ⟨hm, hb⟩ := kept_declsWith hinline ds hb hs hVds ⟨henv.enter, by simp, by simp⟩
    obtain ⟨hm', hu⟩ := kept_exprWith hinline body hu (D.fine hm hs) hVbody hb.scope
    have hleads := D.trans hm hm'
    have hb := hb.mono hm'
    rcases h with ⟨_, h⟩ | ⟨_, h⟩
    · obtain ⟨hlast, ht⟩ := kept_comprehend hb hu h
      exact ⟨D.trans hleads hlast, ht⟩
    · obtain ⟨hlast, ht⟩ := kept_quantify (D.fine hleads hs) hb hu h
      exact ⟨D.trans hleads hlast, ht⟩
  | .call name args c, env, s, s', t, h, hs, hV, henv => by
    rcases runs_call h with ⟨op, x, y, m, _, _, hts, h⟩ | ⟨f, body, ts, m, hf, hbody, _, _, hts, h⟩
    · obtain ⟨hm, hts⟩ := kept_exprsWith hinline args hts hs hV henv
      obtain ⟨hlast, ht⟩ := kept_arithmetic (D.fine hm hs) (hts x (by simp))
        (hts y (by simp)) h
      exact ⟨D.trans hm hlast, ht⟩
    · obtain ⟨hm, hts⟩ := kept_exprsWith hinline args hts hs hV henv
      -- nothing around the call is seen from the body, only the parameters are
      have hf : f ∈ s.functions := List.mem_reverse.1 (List.mem_of_find?_eq_some hf)
      obtain ⟨hlast, ht⟩ := hinline.kept h (D.fine hm hs) (D.inlined hs hf hbody)
        (Scoped.resolves_empty.putAll fun b hb => hts _ (List.of_mem_zip hb).2)
      exact ⟨D.trans hm hlast, ht⟩

theorem kept_exprsWith (hinline : inline.KeepsTo D) : ∀ (es : List Relational.Expr)
    {env : Environment} {s s' : Session} {ts : List Term},
    Runs (exprsWith inline active es env) s ts s' → D.Fine s →
    (∀ v ∈ Relational.Expr.declaredList es, D.Hinted v.name) → D.FitsScope s env →
    D.Leads s s' ∧ ∀ t ∈ ts, D.Fits s' t
  | [], env, s, s', ts, h, _, _, _ => by
    rw [exprsWith] at h
    obtain ⟨rfl, rfl⟩ := runs_pure.1 h
    exact ⟨D.refl _, by simp⟩
  | e :: es, env, s, s', ts, h, hs, hV, henv => by
    simp only [exprsWith, runs_bind, runs_pure] at h
    obtain ⟨t, m, ht, ts, _, hts, rfl, rfl⟩ := h
    obtain ⟨hVe, hVes⟩ := List.forall_mem_append.1 hV
    obtain ⟨hm, ht⟩ := kept_exprWith hinline e ht hs hVe henv
    obtain ⟨hlast, hts⟩ := kept_exprsWith hinline es hts (D.fine hm hs) hVes
      (henv.mono fun _ _ => D.fits hm)
    exact ⟨D.trans hm hlast, List.forall_mem_cons.2 ⟨D.fits hlast ht, hts⟩⟩

theorem kept_declsWith (hinline : inline.KeepsTo D) : ∀ (ds : List Relational.Decl)
    {comprehension : Bool} {s s' : Session} {b b' : Bound},
    Runs (declsWith inline active ds comprehension b) s b' s' → D.Fine s →
    (∀ v ∈ Relational.Expr.declaredDecls ds, D.Hinted v.name) → b.Fits D s →
    D.Leads s s' ∧ b'.Fits D s'
  | [], c, s, s', b, b', h, _, _, hb => by
    rw [declsWith] at h
    obtain ⟨rfl, rfl⟩ := runs_pure.1 h
    exact ⟨D.refl _, hb⟩
  | .mk vs mult bound disjoint :: ds, c, s, s', b, b', h, hs, hV, hb => by
    obtain ⟨u, m₁, b₁, m₂, hu, hdecl, hrest⟩ := runs_declsWith_cons h
    obtain ⟨hV, hVds⟩ := List.forall_mem_append.1 hV
    obtain ⟨hVvs, hVbound⟩ := List.forall_mem_append.1 hV
    obtain ⟨h₁, hu⟩ := kept_exprWith hinline bound hu hs hVbound hb.scope
    obtain ⟨h₂, hb₁⟩ := kept_bindDecl (D.fine h₁ hs) hVvs (hb.mono h₁) hu hdecl
    obtain ⟨h₃, hb'⟩ := kept_declsWith hinline ds hrest (D.fine (D.trans h₁ h₂) hs) hVds hb₁
    exact ⟨D.trans (D.trans h₁ h₂) h₃, hb'⟩

end

theorem keepsTo_throw {fault : String → Fault} :
    Inliner.KeepsTo D fun name _ _ => throw (fault name) :=
  ⟨fun h _ _ _ => absurd h runs_throw⟩

theorem kept_exprWithin : ∀ (depth : Nat) {active : List String} {e : Relational.Expr}
    {env : Environment} {s s' : Session} {t : Term},
    Runs (exprWithin depth active e env) s t s' → D.Fine s → (∀ v ∈ e.declared, D.Hinted v.name) →
    D.FitsScope s env → D.Leads s s' ∧ D.Fits s' t
  | 0, _, e, _, _, _, _, h, hs, hV, henv => kept_exprWith keepsTo_throw e h hs hV henv
  | depth + 1, _, e, _, _, _, _, h, hs, hV, henv =>
    kept_exprWith ⟨kept_exprWithin depth⟩ e h hs hV henv

theorem kept_formula {e : Relational.Expr} (h : Runs (formula e) s t s') (hs : D.Fine s)
    (hV : ∀ v ∈ e.declared, D.Hinted v.name) : D.Leads s s' ∧ D.Fits s' t := by
  exact kept_exprWithin _ (runs_formula.1 h).1 hs hV Scoped.resolves_empty

/-- What the formulas of a discipline keep to. -/
def Discipline.keeping (D : Discipline) : Keeping where
  toOperating := D.operating
  Hinted := D.Hinted
  asserting := D.asserting
  own := D.own
  signature := D.signature
  field := D.field
  formula hs hV h := kept_formula h hs hV

end RelSmt.Lowering
