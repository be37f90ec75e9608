import RelSmt.Lowering.Binding
import RelSmt.Proofs.Lowering.Relation
import RelSmt.Proofs.Term.Substitution

/-!
# Variables of binders

The variables that declarations bring in are fresh and different, their constraints mention nothing
but them and what was known before, and the terms that the body sees them as have no other
variables. So what a quantifier leaves free was free in the environment around it.
-/

namespace RelSmt.Lowering

variable {E : Type} {s s' : Session} {env : Environment} {V : Set Variable} {t u : Term}

/-! ## Running a declaration -/

theorem runs_boundConstraint {m : Relational.Multiplicity} {bound : Term}
    (h : Runs (boundConstraint m t bound) s u s') : Extends s s' ∧
      ∀ x ∈ u.freeOccurrences, x ∈ t.freeOccurrences ∨ x ∈ bound.freeOccurrences := by
  cases m with
  | one =>
    obtain ⟨hin, rfl⟩ := runs_lift.1 h
    exact ⟨.refl _, fun x hx => mem_free_binary hin hx⟩
  | some =>
    simp only [boundConstraint, runs_bind, runs_lift] at h
    obtain ⟨_, _, ⟨hw, rfl⟩, _, _, ⟨hn, rfl⟩, hconj, rfl⟩ := h
    refine ⟨.refl _, fun x hx => ?_⟩
    rcases mem_free_binary hconj hx with hx | hx
    · exact mem_free_binary hw hx
    · exact Or.inl (mem_free_nonEmpty hn ▸ hx)
  | lone =>
    simp only [boundConstraint, runs_bind, runs_lift] at h
    obtain ⟨_, _, ⟨hw, rfl⟩, _, _, hlone, hconj, rfl⟩ := h
    refine ⟨extends_atMostOne hlone, fun x hx => ?_⟩
    rcases mem_free_binary hconj hx with hx | hx
    · exact mem_free_binary hw hx
    · exact Or.inl (mem_free_atMostOne hlone hx)
  | no =>
    obtain ⟨hin, rfl⟩ := runs_lift.1 h
    exact ⟨.refl _, fun x hx => mem_free_binary hin hx⟩
  | set =>
    obtain ⟨hin, rfl⟩ := runs_lift.1 h
    exact ⟨.refl _, fun x hx => mem_free_binary hin hx⟩

/-- How a body sees a variable: by its singleton where it takes single elements. -/
def imageOf (m : Relational.Multiplicity) (x : Variable) : Term :=
  if m = .one then .unary .singleton (.variable x) else .variable x

theorem free_imageOf (m : Relational.Multiplicity) (x : Variable) :
    (imageOf m x).freeOccurrences = [x] := by
  unfold imageOf
  split <;> simp [Term.freeOccurrences]

/-- What binding one variable does: the variable has a fresh name and carries its constraint. -/
theorem runs_bindVar {m : Relational.Multiplicity} {bound : Term} {element : SmtSort} {b b' : Bound}
    {v : Relational.Var} {image : Term} (h : Runs (bindVar m bound element b v) s (b', image) s') :
    ∃ c x, x = Variable.mk (numbered v.name (s.fresh + 1)) (boundSort m bound.sort element) (some c) ∧
      Runs (boundConstraint m (.variable (.plain x.name x.sort)) bound) s.next c s' ∧
      c.sort = .bool ∧ m ≠ .no ∧ (m = .one → element.isTuple = true) ∧ image = imageOf m x ∧
      b' = ⟨b.scope.put v.name image, b.vars ++ [x], b.constraints ++ [c]⟩ := by
  simp only [bindVar, runs_bind, runs_freshName] at h
  obtain ⟨_, _, ⟨rfl, rfl⟩, h⟩ := h
  split at h
  · exact absurd h runs_throw_bind
  · rename_i hno
    simp only [runs_bind, runs_lift, Variable.limited_eq_ok] at h
    obtain ⟨c, _, hc, x, _, ⟨⟨hsort, rfl⟩, rfl⟩, h⟩ := h
    refine ⟨c, _, rfl, ?_⟩
    split at h
    · rename_i hone
      simp only [runs_bind, runs_lift, runs_pure, Term.single_eq_ok, Prod.mk.injEq] at h
      obtain ⟨_, _, ⟨⟨htuple, rfl⟩, rfl⟩, ⟨rfl, rfl⟩, rfl⟩ := h
      refine ⟨hc, hsort c rfl, hno, fun _ => ?_, by simp [imageOf, hone, Variable.term], rfl⟩
      simpa [Variable.term, Term.sort, Variable.sort, boundSort, hone] using htuple
    · rename_i hone
      simp only [runs_bind, runs_pure, Prod.mk.injEq] at h
      obtain ⟨_, _, ⟨rfl, rfl⟩, ⟨rfl, rfl⟩, rfl⟩ := h
      exact ⟨hc, hsort c rfl, hno, fun h => absurd h hone, by simp [imageOf, hone, Variable.term],
        rfl⟩

/-! ## Variables of a binder -/

/-- Are the variables of the term in `V`, and is each mentioned by the environment or bound here? -/
def CoversWith (env : Environment) (V : Set Variable) (xs : List Variable) (t : Term) : Prop :=
  ∀ v ∈ t.freeOccurrences, v ∈ V ∧ (env.mentions v = true ∨ ∃ x ∈ xs, v.name = x.name)

theorem CoversWith.mono {V' : Set Variable} {xs ys : List Variable} (h : CoversWith env V xs t)
    (hV : V ⊆ V') (hxs : ∀ x ∈ xs, x ∈ ys) : CoversWith env V' ys t := by
  intro v hv
  obtain ⟨hv, hor⟩ := h v hv
  exact ⟨hV hv, hor.imp_right fun ⟨x, hx, he⟩ => ⟨x, hxs x hx, he⟩⟩

/-- What a binder does not bind is mentioned by the environment around it. -/
theorem CoversWith.quantified {xs : List Variable} {q : Quantifier} (h : CoversWith env V xs t) :
    env.Covers V (.quantified q xs t) := by
  intro v hv
  obtain ⟨hv, hne⟩ := Term.mem_freeOccurrences_quantified.1 hv
  obtain ⟨hV, hor⟩ := h v hv
  exact ⟨hV, hor.resolve_right fun ⟨x, hx, he⟩ => hne x hx he⟩

/-- What the declarations of a binder around `env` have led to has variables in `V` only. Those of
the scope and of the constraints are variables of the binder or are mentioned by `env`. -/
structure BoundWithin (env : Environment) (V : Set Variable) (b : Bound) : Prop where
  within : b.scope.Within V
  binders : ∀ x ∈ b.vars, x ∈ V
  distinct : (b.vars.map Variable.name).Nodup
  scope : ∀ v, b.scope.mentions v = true →
    env.mentions v = true ∨ ∃ x ∈ b.vars, v.name = x.name
  constraints : ∀ c ∈ b.constraints, CoversWith env V b.vars c

/-- Before any declaration the scope is that of the environment. -/
theorem boundWithin_enter (h : env.Within V) : BoundWithin env V { scope := env.enter } where
  within v hv := h v (Environment.has_enter.1 hv)
  binders := by simp
  distinct := by simp
  scope v hv := by
    obtain ⟨w, hw, he⟩ := Environment.mentions_iff.1 hv
    exact Or.inl (Environment.mentions_iff.2 ⟨w, Environment.has_enter.1 hw, he⟩)
  constraints := by simp

/-- A term over the scope of a binder has variables of the binder and of the environment. -/
theorem BoundWithin.covers {b : Bound} (hb : BoundWithin env V b) (ht : b.scope.Covers V t) :
    CoversWith env V b.vars t :=
  fun v hv => ⟨(ht v hv).1, hb.scope v (ht v hv).2⟩

/-- What the constraints guard is covered where they are. -/
theorem BoundWithin.coversWith_guarded {b : Bound} {guard body : Term} (hb : BoundWithin env V b)
    (c : Connective) (hguard : Term.allOf b.constraints = .ok guard)
    (hbody : CoversWith env V b.vars body) :
    CoversWith env V b.vars (.binary (.connective c) guard body) := by
  intro v hv
  rw [Term.freeOccurrences, List.mem_append] at hv
  rcases hv with hv | hv
  · obtain ⟨d, hd, hv⟩ := (Term.mem_free_allOf hguard).1 hv
    exact hb.constraints d hd v hv
  · exact hbody v hv

/-- A larger hygienic set of variables, of which the new ones have names taken in between. -/
structure Enlarges (s : Session) (V : Set Variable) (s' : Session) (V' : Set Variable) : Prop where
  fresh : s.fresh ≤ s'.fresh
  subset : V ⊆ V'
  hygienic : Hygienic s'.fresh V'
  new : ∀ v ∈ V', v ∈ V ∨ ∃ hint k, s.fresh < k ∧ v.name = numbered hint k

theorem Enlarges.refl (hV : Hygienic s.fresh V) : Enlarges s V s V where
  fresh := Nat.le_refl _
  subset := subset_rfl
  hygienic := hV
  new _ hv := Or.inl hv

theorem Enlarges.trans {m : Session} {V₁ V' : Set Variable} (h : Enlarges s V m V₁)
    (h' : Enlarges m V₁ s' V') : Enlarges s V s' V' where
  fresh := Nat.le_trans h.fresh h'.fresh
  subset := h.subset.trans h'.subset
  hygienic := h'.hygienic
  new v hv := by
    rcases h'.new v hv with hv | ⟨hint, k, hk, hname⟩
    · exact h.new v hv
    · exact Or.inr ⟨hint, k, Nat.lt_of_le_of_lt h.fresh hk, hname⟩

/-- Names may be taken that no variable gets. -/
theorem Enlarges.fresher {m : Session} {V' : Set Variable} (h : Enlarges s V m V')
    (hfresh : m.fresh ≤ s'.fresh) : Enlarges s V s' V' where
  fresh := Nat.le_trans h.fresh hfresh
  subset := h.subset
  hygienic := h.hygienic.mono hfresh
  new := h.new

/-- Nothing new is mentioned by the environment from before. -/
theorem Enlarges.covers {V' : Set Variable} (h : Enlarges s V s' V') (hV : Hygienic s.fresh V)
    (hin : env.Within V) (ht : env.Covers V' t) : env.Covers V t := by
  intro v hv
  obtain ⟨hv', hm⟩ := ht v hv
  refine ⟨(h.new v hv').resolve_right fun hnew => ?_, hm⟩
  obtain ⟨w, hw, he⟩ := Environment.mentions_iff.1 hm
  exact hV.ne_drawn (hin w hw) hnew (Variable.beq_iff.1 he).1

/-- Do known variables have values of their sorts that satisfy their constraints? -/
structure Conforms (I : Interpretation E) (ρ : Assignment E) (V : Set Variable) : Prop where
  sorts : ∀ x ∈ V, (ρ.get x).HasSort I.carrier x.sort
  constraints : ∀ x ∈ V, ∀ c, x.constraint = some c → (c.eval I ρ).Holds

theorem conforms_empty {I : Interpretation E} {ρ : Assignment E} : Conforms I ρ ∅ :=
  ⟨fun _ hx => hx.elim, fun _ hx => hx.elim⟩

/-- Is the variable one of the binder, with a constraint of the binder or with none? -/
def Bound.Limits (b : Bound) (w : Variable) : Prop :=
  ∃ x ∈ b.vars, w.name = x.name ∧ w.sort = x.sort ∧ ∀ c, w.constraint = some c → c ∈ b.constraints

/-- A binder with more variables and constraints, which limit what is known besides from now on. -/
structure Bound.Grows (b : Bound) (V : Set Variable) (b' : Bound) (V' : Set Variable) : Prop where
  vars : ∀ x ∈ b.vars, x ∈ b'.vars
  constraints : ∀ c ∈ b.constraints, c ∈ b'.constraints
  known : ∀ w ∈ V', w ∈ V ∨ b'.Limits w

theorem Bound.Grows.refl (b : Bound) (V : Set Variable) : b.Grows V b V :=
  ⟨fun _ h => h, fun _ h => h, fun _ h => Or.inl h⟩

theorem Bound.Grows.trans {b b₁ b' : Bound} {V₁ V' : Set Variable} (h : b.Grows V b₁ V₁)
    (h' : b₁.Grows V₁ b' V') : b.Grows V b' V' where
  vars x hx := h'.vars x (h.vars x hx)
  constraints c hc := h'.constraints c (h.constraints c hc)
  known w hw := by
    rcases h'.known w hw with hw | hw
    · refine (h.known w hw).imp_right ?_
      rintro ⟨x, hx, hname, hsort, hc⟩
      exact ⟨x, h'.vars x hx, hname, hsort, fun c hwc => h'.constraints c (hc c hwc)⟩
    · exact Or.inr hw

/-- Binding a variable keeps to a hygienic set of variables, which grows by the new one and by its
unlimited form. -/
theorem boundWithin_bindVar {m : Relational.Multiplicity} {bound : Term} {element : SmtSort}
    {b b' : Bound} {v : Relational.Var} {image : Term}
    (h : Runs (bindVar m bound element b v) s (b', image) s') (hV : Hygienic s.fresh V)
    (hb : BoundWithin env V b) (hbound : CoversWith env V b.vars bound) :
    Extends s.next s' ∧ ∃ V', Enlarges s V s.next V' ∧ BoundWithin env V' b' ∧
      b.Grows V b' V' ∧ ∀ w ∈ image.freeOccurrences, w ∈ b'.vars := by
  obtain ⟨c, x, hx, hc, _, _, _, rfl, rfl⟩ := runs_bindVar h
  obtain ⟨hext, hfree⟩ := runs_boundConstraint hc
  have hplain : ∀ w ∈ c.freeOccurrences, w = .plain x.name x.sort ∨ w ∈ bound.freeOccurrences := by
    intro w hw
    simpa [Term.freeOccurrences] using hfree w hw
  have hname : x.name = numbered v.name (s.fresh + 1) := by rw [hx]; rfl
  -- the variable is known twice: with its constraint, and plain as the constraint mentions it
  have hV' : Hygienic (s.fresh + 1) (insert x (insert (.plain x.name x.sort) V)) := by
    rw [hx]
    refine hV.insert_fresh (Nat.lt_succ_self _) fun w hw => ?_
    rw [hx] at hplain
    exact (hplain w hw).imp_right fun hw => (hbound w hw).1
  have hsub : V ⊆ insert x (insert (.plain x.name x.sort) V) :=
    fun w hw => Or.inr (Or.inr hw)
  have hx' : x ∈ b.vars ++ [x] := List.mem_append_right _ List.mem_cons_self
  have hold : ∀ y ∈ b.vars, y ∈ b.vars ++ [x] := fun y hy => List.mem_append_left _ hy
  have hnew : ∀ w ∈ insert x (insert (.plain x.name x.sort) V),
      w ∈ V ∨ ∃ hint k, s.fresh < k ∧ w.name = numbered hint k := by
    rintro w (rfl | rfl | hw)
    · exact Or.inr ⟨v.name, s.fresh + 1, Nat.lt_succ_self _, hname⟩
    · exact Or.inr ⟨v.name, s.fresh + 1, Nat.lt_succ_self _, hname⟩
    · exact Or.inl hw
  refine ⟨hext, _, ⟨Nat.le_succ _, hsub, hV', hnew⟩, ?_,
    ⟨hold, fun d hd => List.mem_append_left _ hd, ?_⟩, ?_⟩
  -- scope, binders, distinct names, mentions and constraints, in this order
  · refine ⟨fun w hw => ?_, fun y hy => ?_, ?_, fun w hw => ?_, fun d hd w hw => ?_⟩
    · rcases Environment.has_put hw with hw | hw
      · exact hsub (hb.within w hw)
      · rw [free_imageOf, List.mem_singleton] at hw
        exact Or.inl hw
    · rcases List.mem_append.1 hy with hy | hy
      · exact hsub (hb.binders y hy)
      · exact Or.inl (List.mem_singleton.1 hy)
    · rw [List.map_append, List.nodup_append]
      refine ⟨hb.distinct, by simp, fun a ha d hd => ?_⟩
      obtain ⟨y, hy, rfl⟩ := List.mem_map.1 ha
      obtain rfl : d = x.name := by simpa using hd
      exact hV.ne_drawn (hb.binders y hy) ⟨_, _, Nat.lt_succ_self _, hname⟩
    · rcases Environment.mentions_put hw with hw | ⟨y, hy, he⟩
      · exact (hb.scope w hw).imp_right fun ⟨y, hy, he⟩ => ⟨y, hold y hy, he⟩
      · rw [free_imageOf, List.mem_singleton] at hy
        subst hy
        exact Or.inr ⟨y, hx', (Variable.beq_iff.1 he).1.symm⟩
    · rcases List.mem_append.1 hd with hd | hd
      · exact (hb.constraints d hd).mono hsub hold w hw
      · obtain rfl := List.mem_singleton.1 hd
        rcases hplain w hw with rfl | hw
        · exact ⟨Or.inr (Or.inl rfl), Or.inr ⟨x, hx', rfl⟩⟩
        · exact hbound.mono hsub hold w hw
  · rintro w (rfl | rfl | hw)
    · refine Or.inr ⟨w, hx', rfl, rfl, fun d hd => ?_⟩
      rw [hx] at hd
      obtain rfl : c = d := Option.some.inj hd
      exact List.mem_append_right _ List.mem_cons_self
    · exact Or.inr ⟨x, hx', rfl, rfl, nofun⟩
    · exact Or.inl hw
  · intro w hw
    rw [free_imageOf, List.mem_singleton] at hw
    rw [hw]
    exact hx'

theorem runs_bindVars_cons {m : Relational.Multiplicity} {bound : Term} {element : SmtSort}
    {b b' : Bound} {v : Relational.Var} {vs : List Relational.Var} {images : List Term}
    (h : Runs (bindVars m bound element b (v :: vs)) s (b', images) s') :
    ∃ b₁ s₁ image rest, Runs (bindVar m bound element b v) s (b₁, image) s₁ ∧
      Runs (bindVars m bound element b₁ vs) s₁ (b', rest) s' ∧ images = image :: rest := by
  simp only [bindVars, runs_bind, runs_pure, Prod.mk.injEq] at h
  obtain ⟨⟨b₁, image⟩, s₁, h₁, ⟨b₂, rest⟩, _, h₂, ⟨rfl, rfl⟩, rfl⟩ := h
  exact ⟨b₁, s₁, image, rest, h₁, h₂, rfl⟩

theorem boundWithin_bindVars {m : Relational.Multiplicity} {bound : Term} {element : SmtSort} :
    ∀ {vs : List Relational.Var} {b b' : Bound} {images : List Term} {s s' : Session}
      {V : Set Variable}, Runs (bindVars m bound element b vs) s (b', images) s' →
      Hygienic s.fresh V → BoundWithin env V b → CoversWith env V b.vars bound →
      Extends s s' ∧ ∃ V', Enlarges s V s' V' ∧ BoundWithin env V' b' ∧ b.Grows V b' V' ∧
        ∀ image ∈ images, ∀ w ∈ image.freeOccurrences, w ∈ b'.vars
  | [], b, b', images, s, s', V, h, hV, hb, _ => by
    simp only [bindVars, runs_pure, Prod.mk.injEq] at h
    obtain ⟨⟨rfl, rfl⟩, rfl⟩ := h
    exact ⟨.refl _, V, .refl hV, hb, .refl _ _, by simp⟩
  | v :: vs, b, b', images, s, s', V, h, hV, hb, hbound => by
    obtain ⟨b₁, s₁, image, rest, h₁, h₂, rfl⟩ := runs_bindVars_cons h
    obtain ⟨hext₁, V₁, hV₁, hb₁, hgrows₁, himage⟩ := boundWithin_bindVar h₁ hV hb hbound
    have hV₁ := hV₁.fresher hext₁.fresh
    obtain ⟨hext₂, V₂, hV₂, hb₂, hgrows₂, himages⟩ :=
      boundWithin_bindVars h₂ hV₁.hygienic hb₁ (hbound.mono hV₁.subset hgrows₁.vars)
    refine ⟨((extends_next s).trans hext₁).trans hext₂, V₂, hV₁.trans hV₂, hb₂,
      hgrows₁.trans hgrows₂, ?_⟩
    intro i hi w hw
    rcases List.mem_cons.1 hi with rfl | hi
    · exact hgrows₂.vars w (himage w hw)
    · exact himages i hi w hw

/-- What binding a declaration does: its variables first, then that their images are disjoint. -/
theorem runs_bindDecl {vs : List Relational.Var} {m : Relational.Multiplicity} {bound : Term}
    {disjoint : Bool} {b b' : Bound} (h : Runs (bindDecl vs m bound disjoint b) s b' s') :
    ∃ element b₁ images apart, bound.sort = .set element ∧
      Runs (bindVars m bound element b vs) s (b₁, images) s' ∧
      (if disjoint then
        List.Forall₂ (fun p t => disjointSets p.1 p.2 = .ok t) (pairs images) apart
      else apart = []) ∧
      b' = ⟨b₁.scope, b₁.vars, b₁.constraints ++ apart⟩ := by
  unfold bindDecl at h
  split at h
  · exact absurd h runs_throw
  · rename_i element hset
    simp only [runs_bind] at h
    obtain ⟨⟨b₁, images⟩, m₁, h₁, h⟩ := h
    refine ⟨element, b₁, images, ?_⟩
    split at h
    · rename_i hdisjoint
      simp only [runs_bind, runs_mapM_lift, runs_pure] at h
      obtain ⟨apart, _, ⟨hapart, rfl⟩, rfl, rfl⟩ := h
      exact ⟨apart, SmtSort.element?_eq_some.1 hset, h₁, by rw [if_pos hdisjoint]; exact hapart, rfl⟩
    · rename_i hdisjoint
      obtain ⟨rfl, rfl⟩ := runs_pure.1 h
      exact ⟨[], SmtSort.element?_eq_some.1 hset, h₁, by rw [if_neg hdisjoint], by simp⟩

theorem mem_of_mem_pairs {α : Type} {p : α × α} : ∀ {as : List α}, p ∈ pairs as →
    p.1 ∈ as ∧ p.2 ∈ as
  | a :: as, h => by
    simp only [pairs, List.mem_append, List.mem_map] at h
    rcases h with ⟨b, hb, rfl⟩ | h
    · exact ⟨List.mem_cons_self, List.mem_cons_of_mem _ hb⟩
    · have := mem_of_mem_pairs h
      exact ⟨List.mem_cons_of_mem _ this.1, List.mem_cons_of_mem _ this.2⟩

/-- That images are disjoint mentions the variables that they are images of. -/
theorem BoundWithin.apart {b : Bound} {images ts : List Term} (hb : BoundWithin env V b)
    (himages : ∀ image ∈ images, ∀ w ∈ image.freeOccurrences, w ∈ b.vars)
    (hts : List.Forall₂ (fun p t => disjointSets p.1 p.2 = .ok t) (pairs images) ts) :
    BoundWithin env V ⟨b.scope, b.vars, b.constraints ++ ts⟩ := by
  refine ⟨hb.within, hb.binders, hb.distinct, hb.scope, fun c hc w hw => ?_⟩
  rcases List.mem_append.1 hc with hc | hc
  · exact hb.constraints c hc w hw
  · obtain ⟨p, hp, hdisjoint⟩ := exists_mem_of_forall₂ hts hc
    have hpair := mem_of_mem_pairs hp
    have hw' : w ∈ b.vars := by
      rcases mem_free_disjointSets hdisjoint hw with hw | hw
      · exact himages _ hpair.1 w hw
      · exact himages _ hpair.2 w hw
    exact ⟨hb.binders w hw', Or.inr ⟨w, hw', rfl⟩⟩

theorem boundWithin_bindDecl {vs : List Relational.Var} {m : Relational.Multiplicity} {bound : Term}
    {disjoint : Bool} {b b' : Bound} (h : Runs (bindDecl vs m bound disjoint b) s b' s')
    (hV : Hygienic s.fresh V) (hb : BoundWithin env V b) (hbound : b.scope.Covers V bound) :
    Extends s s' ∧ ∃ V', Enlarges s V s' V' ∧ BoundWithin env V' b' ∧ b.Grows V b' V' := by
  obtain ⟨element, b₁, images, apart, _, h₁, hapart, rfl⟩ := runs_bindDecl h
  obtain ⟨hext, V', hV', hb₁, hgrows, himages⟩ :=
    boundWithin_bindVars h₁ hV hb (hb.covers hbound)
  refine ⟨hext, V', hV', ?_, hgrows.trans ?_⟩
  swap
  -- that images are disjoint is a further constraint, of no variable in particular
  · refine ⟨fun x hx => hx, fun c hc => List.mem_append_left _ hc, fun w hw => Or.inl hw⟩
  split at hapart
  · exact hb₁.apart himages hapart
  · rw [hapart, List.append_nil]
    exact hb₁

/-! ## Copies of a formula -/

theorem runs_freshCopy_cons {v : Variable} {vs copies : List Variable} {copy : Term}
    (h : Runs (freshCopy t (v :: vs)) s (copies, copy) s') :
    ∃ c t' rest, c = Variable.plain (numbered v.name (s.fresh + 1)) v.sort ∧
      t.substitute v (.variable c) = .ok t' ∧ Runs (freshCopy t' vs) s.next (rest, copy) s' ∧
      copies = c :: rest := by
  simp only [freshCopy, runs_bind, runs_freshVariable, runs_lift, runs_pure, Prod.mk.injEq] at h
  obtain ⟨_, _, ⟨rfl, rfl⟩, t', _, ⟨ht', rfl⟩, ⟨rest, copy⟩, _, hrest, ⟨rfl, rfl⟩, rfl⟩ := h
  exact ⟨_, t', rest, rfl, ht', hrest, rfl⟩

/-- The copies are new variables of the same sorts, and the copied formula has no other new ones. -/
structure FreshCopies (s : Session) (t : Term) (vs copies : List Variable) (copy : Term)
    (s' : Session) : Prop where
  grows : Extends s s'
  sorts : copies.map Variable.sort = vs.map Variable.sort
  distinct : (copies.map Variable.name).Nodup
  fresh : ∀ c ∈ copies, ∃ hint k, s.fresh < k ∧ k ≤ s'.fresh ∧ c.name = numbered hint k
  free : ∀ x ∈ copy.freeOccurrences, x ∈ t.freeOccurrences ∨ x ∈ copies

theorem FreshCopies.drawn {t copy : Term} {vs copies : List Variable}
    (h : FreshCopies s t vs copies copy s') :
    ∀ c ∈ copies, ∃ hint k, s.fresh < k ∧ c.name = numbered hint k := by
  intro c hc
  obtain ⟨hint, k, hk, _, hname⟩ := h.fresh c hc
  exact ⟨hint, k, hk, hname⟩

theorem freshCopies_freshCopy : ∀ {vs copies : List Variable} {t copy : Term} {s s' : Session},
    Runs (freshCopy t vs) s (copies, copy) s' → FreshCopies s t vs copies copy s'
  | [], copies, t, copy, s, s', h => by
    simp only [freshCopy, runs_pure, Prod.mk.injEq] at h
    obtain ⟨⟨rfl, rfl⟩, rfl⟩ := h
    exact ⟨.refl _, rfl, by simp, by simp, fun x hx => Or.inl hx⟩
  | v :: vs, copies, t, copy, s, s', h => by
    obtain ⟨c, t', rest, hc, ht', hrest, rfl⟩ := runs_freshCopy_cons h
    have ih := freshCopies_freshCopy hrest
    have hname : c.name = numbered v.name (s.fresh + 1) := by rw [hc]; rfl
    refine ⟨(extends_next s).trans ih.grows, by simp [ih.sorts, hc, Variable.plain, Variable.sort],
      ?_, ?_, ?_⟩
    · rw [List.map_cons, List.nodup_cons]
      refine ⟨fun hmem => ?_, ih.distinct⟩
      obtain ⟨d, hd, he⟩ := List.mem_map.1 hmem
      obtain ⟨hint, k, hk, _, hdk⟩ := ih.fresh d hd
      rw [hname, hdk] at he
      -- later copies draw larger numbers
      have := numbered_injective he
      rw [Session.next_fresh] at hk
      omega
    · intro d hd
      rcases List.mem_cons.1 hd with rfl | hd
      · exact ⟨v.name, s.fresh + 1, Nat.lt_succ_self _, ih.grows.fresh, hname⟩
      · obtain ⟨hint, k, hk, hk', he⟩ := ih.fresh d hd
        exact ⟨hint, k, Nat.lt_of_succ_lt hk, hk', he⟩
    · intro x hx
      rcases ih.free x hx with hx | hx
      -- a free variable of the rest was free before, or came in with the first copy
      · rcases (Term.mem_freeOccurrences_substitute ht').1 hx with ⟨hx, _⟩ | ⟨_, hx⟩
        · exact Or.inl hx
        · simp only [Term.freeOccurrences, List.mem_singleton] at hx
          exact Or.inr (hx ▸ List.mem_cons_self)
      · exact Or.inr (List.mem_cons_of_mem _ hx)

/-- Equality of two lists of values mentions the variables that hold them. -/
theorem mem_free_sameValues {vs ws : List Variable} (h : sameValues vs ws = .ok t) {x : Variable}
    (hx : x ∈ t.freeOccurrences) : x ∈ vs ∨ x ∈ ws := by
  simp only [sameValues, Checked.bind_eq_ok, Checked.mapM_eq_ok] at h
  obtain ⟨ts, hts, h⟩ := h
  obtain ⟨u, hu, hx⟩ := (Term.mem_free_allOf h).1 hx
  obtain ⟨p, hp, heq⟩ := exists_mem_of_forall₂ hts hu
  have hmem := List.of_mem_zip hp
  rcases mem_free_binary heq hx with hx | hx <;>
    simp only [Variable.term, Term.freeOccurrences, List.mem_singleton] at hx
  · exact Or.inl (hx ▸ hmem.1)
  · exact Or.inr (hx ▸ hmem.2)

/-! ## Quantifiers -/

/-- How a quantifier is closed over what its declarations have bound. `one` and `lone` speak of a
copy of the formula, too. -/
inductive Quantifies (vs : List Variable) (witness guard body : Term) (s : Session) :
    Relational.Quantifier → Term → Session → Prop where
  | all : Quantifies vs witness guard body s .all
      (.quantified .all vs (.binary (.connective .implies) guard body)) s
  | some : Quantifies vs witness guard body s .some (.quantified .ex vs witness) s
  | no : Quantifies vs witness guard body s .no (.unary .not (.quantified .ex vs witness)) s
  | one {copies : List Variable} {copy same : Term} {s' : Session}
      (hcopy : Runs (freshCopy witness vs) s (copies, copy) s')
      (hsame : sameValues vs copies = .ok same) : Quantifies vs witness guard body s .one
      (.quantified .ex vs (.binary (.connective .and) witness
        (.quantified .all copies (.binary (.connective .implies) copy same)))) s'
  | lone {copies : List Variable} {copy same : Term} {s' : Session}
      (hcopy : Runs (freshCopy witness vs) s (copies, copy) s')
      (hsame : sameValues vs copies = .ok same) : Quantifies vs witness guard body s .lone
      (.quantified .all (vs ++ copies) (.binary (.connective .implies)
        (.binary (.connective .and) witness copy) same)) s'

theorem runs_quantify {q : Relational.Quantifier} {b : Bound} {body : Term}
    (h : Runs (quantify q b body) s t s') :
    ∃ guard, Term.allOf b.constraints = .ok guard ∧ guard.sort = .bool ∧ body.sort = .bool ∧
      Quantifies b.vars (.binary (.connective .and) guard body) guard body s q t s' := by
  simp only [quantify, runs_bind, runs_lift] at h
  obtain ⟨guard, _, ⟨hguard, rfl⟩, h⟩ := h
  refine ⟨guard, hguard, ?_⟩
  cases q with
  | all =>
    simp only [runs_bind, runs_lift, Term.imp, Term.all, Term.connective_eq_ok,
      Term.mkQuantified_eq_ok] at h
    obtain ⟨_, _, ⟨⟨⟨hg, hb⟩, rfl⟩, rfl⟩, ⟨_, _, rfl⟩, rfl⟩ := h
    exact ⟨hg, hb, .all⟩
  | some =>
    simp only [runs_bind, runs_lift, Term.conj, Term.ex, Term.connective_eq_ok,
      Term.mkQuantified_eq_ok] at h
    obtain ⟨_, _, ⟨⟨⟨hg, hb⟩, rfl⟩, rfl⟩, ⟨_, _, rfl⟩, rfl⟩ := h
    exact ⟨hg, hb, .some⟩
  | no =>
    simp only [runs_bind, runs_lift, Term.conj, Term.ex, Term.connective_eq_ok,
      Term.mkQuantified_eq_ok, Term.neg_eq_ok] at h
    obtain ⟨_, _, ⟨⟨⟨hg, hb⟩, rfl⟩, rfl⟩, _, _, ⟨⟨_, _, rfl⟩, rfl⟩, ⟨_, rfl⟩, rfl⟩ := h
    exact ⟨hg, hb, .no⟩
  | one =>
    simp only [runs_bind, runs_lift, Term.conj, Term.imp, Term.all, Term.ex, Term.connective_eq_ok,
      Term.mkQuantified_eq_ok] at h
    obtain ⟨_, _, ⟨⟨⟨hg, hb⟩, rfl⟩, rfl⟩, ⟨copies, copy⟩, _, hcopy, same, _, ⟨hsame, rfl⟩, _, _,
      ⟨⟨_, rfl⟩, rfl⟩, _, _, ⟨⟨_, _, rfl⟩, rfl⟩, _, _, ⟨⟨_, rfl⟩, rfl⟩, ⟨_, _, rfl⟩, rfl⟩ := h
    exact ⟨hg, hb, .one hcopy hsame⟩
  | lone =>
    simp only [runs_bind, runs_lift, Term.conj, Term.imp, Term.all, Term.connective_eq_ok,
      Term.mkQuantified_eq_ok] at h
    obtain ⟨_, _, ⟨⟨⟨hg, hb⟩, rfl⟩, rfl⟩, ⟨copies, copy⟩, _, hcopy, same, _, ⟨hsame, rfl⟩, _, _,
      ⟨⟨_, rfl⟩, rfl⟩, _, _, ⟨⟨_, rfl⟩, rfl⟩, ⟨_, _, rfl⟩, rfl⟩ := h
    exact ⟨hg, hb, .lone hcopy hsame⟩
  | comprehension => exact (runs_throw h).elim

theorem extends_quantify {q : Relational.Quantifier} {b : Bound} {body : Term}
    (h : Runs (quantify q b body) s t s') : Extends s s' := by
  obtain ⟨_, _, _, _, h⟩ := runs_quantify h
  cases h with
  | all => exact .refl _
  | some => exact .refl _
  | no => exact .refl _
  | one hcopy _ => exact (freshCopies_freshCopy hcopy).grows
  | lone hcopy _ => exact (freshCopies_freshCopy hcopy).grows

/-- **A quantified formula has the variables of the environment around it.** -/
theorem covers_quantify {q : Relational.Quantifier} {b : Bound} {body : Term}
    (hb : BoundWithin env V b) (hbody : CoversWith env V b.vars body)
    (h : Runs (quantify q b body) s t s') : env.Covers V t := by
  obtain ⟨guard, hguard, _, _, h⟩ := runs_quantify h
  have hwitness := hb.coversWith_guarded .and hguard hbody
  have himp := hb.coversWith_guarded .implies hguard hbody
  generalize Term.binary (.connective .and) guard body = witness at h hwitness
  -- of what the copy brings in, the copies are bound and the rest was there before
  have hcopied : ∀ {copies : List Variable} {copy same : Term},
      Runs (freshCopy witness b.vars) s (copies, copy) s' →
      sameValues b.vars copies = .ok same →
      ∀ v, v ∈ copy.freeOccurrences ∨ v ∈ same.freeOccurrences →
        (v ∈ V ∧ (env.mentions v = true ∨ ∃ x ∈ b.vars, v.name = x.name)) ∨ v ∈ copies := by
    intro copies copy same hcopy hsame v hv
    rcases hv with hv | hv
    · exact ((freshCopies_freshCopy hcopy).free v hv).imp_left (hwitness v)
    · rcases mem_free_sameValues hsame hv with hv | hv
      · exact Or.inl ⟨hb.binders v hv, Or.inr ⟨v, hv, rfl⟩⟩
      · exact Or.inr hv
  cases h with
  | all => exact himp.quantified
  | some => exact hwitness.quantified
  | no => exact hwitness.quantified (q := .ex)
  | one hcopy hsame =>
    refine CoversWith.quantified fun v hv => ?_
    rw [Term.freeOccurrences, List.mem_append] at hv
    rcases hv with hv | hv
    · exact hwitness v hv
    · obtain ⟨hv, hne⟩ := Term.mem_freeOccurrences_quantified.1 hv
      rw [Term.freeOccurrences, List.mem_append] at hv
      exact (hcopied hcopy hsame v hv).resolve_right fun hmem => hne v hmem rfl
  | lone hcopy hsame =>
    intro v hv
    obtain ⟨hv, hne⟩ := Term.mem_freeOccurrences_quantified.1 hv
    simp only [Term.freeOccurrences, List.mem_append, or_assoc] at hv
    have hcovered : v ∈ V ∧ (env.mentions v = true ∨ ∃ x ∈ b.vars, v.name = x.name) := by
      rcases hv with hv | hv
      · exact hwitness v hv
      · exact (hcopied hcopy hsame v hv).resolve_right fun hmem =>
          hne v (List.mem_append_right _ hmem) rfl
    refine ⟨hcovered.1, hcovered.2.resolve_right ?_⟩
    rintro ⟨x, hx, he⟩
    exact hne x (List.mem_append_left _ hx) he

/-! ## Comprehensions -/

/-- The free variables of a definition that its own binder does not have. -/
def outerVariables (b : Bound) (definition : Term) : List Variable :=
  definition.freeVariables.filter fun v => !b.vars.contains v

/-- What stands for a comprehension: a fresh function of the outer variables, and the formula that
defines it. -/
theorem runs_comprehend {columns : List Relational.Column} {b : Bound} {body : Term}
    (h : Runs (comprehend columns b body) s t s') :
    ∃ guard definition f tuple comment, Term.allOf b.constraints = .ok guard ∧
      definition = .binary (.connective .and) guard body ∧
      f = ⟨numbered "comprehension" (s.fresh + 1),
        (outerVariables b definition).map Variable.sort, .relation (columns.map columnSort)⟩ ∧
      f.apply ((outerVariables b definition).map Variable.term) = .ok t ∧
      tupleOf b.vars = .ok tuple ∧ (tuple.sort.isSet = true ∧ tuple.sort = t.sort) ∧
      definition.sort = .bool ∧
      s' = (s.next.declaring f).asserting
        ⟨comment, .quantified .all (outerVariables b definition ++ b.vars)
          (.binary .eq (.binary .subset tuple t) definition), none⟩ := by
  simp only [comprehend, runs_bind, runs_lift, runs_freshName, runs_declare, runs_assert, runs_pure,
    Term.conj, Term.connective_eq_ok, SmtSort.relationOf_eq_ok, Term.within_eq_ok, Term.eqTo_eq_ok,
    Term.all, Term.mkQuantified_eq_ok] at h
  obtain ⟨guard, _, ⟨hguard, rfl⟩, definition, _, ⟨⟨_, hd⟩, rfl⟩, name, _, ⟨hname, rfl⟩, sort, _,
    ⟨⟨_, hsort⟩, rfl⟩, _, _, rfl, h⟩ := h
  obtain ⟨application, _, ⟨happly, rfl⟩, tuple, _, ⟨htuple, rfl⟩, _, _, ⟨⟨hfit, rfl⟩, rfl⟩, h⟩ := h
  obtain ⟨_, _, ⟨⟨hbool, rfl⟩, rfl⟩, _, _, ⟨⟨_, _, rfl⟩, rfl⟩, _, _, ⟨_, rfl⟩, rfl, rfl⟩ := h
  rw [← hname, ← hsort] at happly
  exact ⟨guard, definition, _, tuple, _, hguard, hd.symm, rfl, happly, htuple, hfit, hbool.symm,
    by rw [← hname, ← hsort]; rfl⟩

/-- The tuple of some variables is put together by products, one variable after the other. -/
theorem tupleOf_induction {P : List Variable → Term → Prop}
    (hone : ∀ v, v.sort.isTuple = true → P [v] (.unary .singleton (.variable v)))
    (hmore : ∀ vs w t, P vs t → w.sort.isTuple = true →
      P (vs ++ [w]) (.binary .product t (.unary .singleton (.variable w)))) :
    ∀ {vs : List Variable} {t : Term}, tupleOf vs = .ok t → P vs t := by
  have hfold : ∀ (ws vs : List Variable) (u t : Term), P vs u →
      ws.foldlM (fun t w => do t.product (← w.term.single)) u = .ok t → P (vs ++ ws) t := by
    intro ws
    induction ws with
    | nil =>
      intro vs u t hu h
      simp only [List.foldlM_nil, Checked.pure_eq_ok] at h
      rw [List.append_nil, ← h]
      exact hu
    | cons w ws ih =>
      intro vs u t hu h
      simp only [List.foldlM_cons, Checked.bind_eq_ok, Term.single_eq_ok, Term.product_eq_ok] at h
      obtain ⟨_, ⟨_, ⟨hw, rfl⟩, _, rfl⟩, h⟩ := h
      simpa using ih (vs ++ [w]) _ t (hmore vs w u hu hw) h
  intro vs t h
  cases vs with
  | nil => simp [tupleOf] at h
  | cons v vs =>
    simp only [tupleOf, Checked.bind_eq_ok, Term.single_eq_ok] at h
    obtain ⟨_, ⟨hv, rfl⟩, h⟩ := h
    exact hfold vs [v] _ t (hone v hv) h

/-- The tuple of some variables mentions these variables. -/
theorem mem_free_tupleOf {vs : List Variable} (h : tupleOf vs = .ok t) {x : Variable}
    (hx : x ∈ t.freeOccurrences) : x ∈ vs := by
  revert hx
  refine tupleOf_induction (P := fun vs t => x ∈ t.freeOccurrences → x ∈ vs) (fun v _ hx => ?_)
    (fun vs w t ih _ hx => ?_) h
  · simpa [Term.freeOccurrences] using hx
  · simp only [Term.freeOccurrences, List.mem_append, List.mem_singleton] at hx ⊢
    exact hx.imp_left ih

/-- An application to variables mentions these variables. -/
theorem mem_free_apply {f : FunctionSymbol} {vs : List Variable}
    (h : f.apply (vs.map Variable.term) = .ok t) {x : Variable} :
    x ∈ t.freeOccurrences ↔ x ∈ vs := by
  obtain ⟨_, rfl⟩ := FunctionSymbol.apply_eq_ok.1 h
  cases vs with
  | nil => simp [Term.freeOccurrences]
  | cons v vs =>
    rw [if_neg (by simp), Term.freeOccurrences, Term.freeOccurrencesList_eq_flatMap]
    simp [List.mem_flatMap, Variable.term, Term.freeOccurrences]

theorem mem_outerVariables {b : Bound} {x : Variable} (hx : x ∈ outerVariables b t) :
    x ∈ t.freeOccurrences ∧ ∀ y ∈ b.vars, (x == y) = false := by
  obtain ⟨hx, hne⟩ := List.mem_filter.1 hx
  refine ⟨Term.mem_freeOccurrences_of_mem_freeVariables hx, fun y hy => ?_⟩
  rw [Bool.eq_false_iff]
  intro he
  simp only [Bool.not_eq_true', List.contains_eq_any_beq, List.any_eq_false] at hne
  exact hne y hy he

/-- What says which tuples are in a comprehension is closed over the outer variables and those of
the binder. -/
theorem closed_definition {b : Bound} {definition tuple : Term} {f : FunctionSymbol}
    (happly : f.apply ((outerVariables b definition).map Variable.term) = .ok t)
    (htuple : tupleOf b.vars = .ok tuple) :
    (Term.quantified .all (outerVariables b definition ++ b.vars)
      (.binary .eq (.binary .subset tuple t) definition)).freeOccurrences = [] := by
  refine List.eq_nil_iff_forall_not_mem.2 fun x hx => ?_
  obtain ⟨hx, hne⟩ := Term.mem_freeOccurrences_quantified.1 hx
  have hbound : ¬∃ y ∈ outerVariables b definition ++ b.vars, x.name = y.name :=
    fun ⟨y, hy, he⟩ => hne y hy he
  refine hbound ?_
  simp only [Term.freeOccurrences, List.mem_append] at hx
  rcases hx with (hx | hx) | hx
  · exact ⟨x, List.mem_append_right _ (mem_free_tupleOf htuple hx), rfl⟩
  · exact ⟨x, List.mem_append_left _ ((mem_free_apply happly).1 hx), rfl⟩
  · obtain ⟨y, hy, he⟩ := Term.exists_mem_freeVariables hx
    by_cases hmem : b.vars.contains y = true
    · rw [List.contains_eq_any_beq, List.any_eq_true] at hmem
      obtain ⟨z, hz, hyz⟩ := hmem
      exact ⟨z, List.mem_append_right _ hz,
        (Variable.beq_iff.1 he).1.trans (Variable.beq_iff.1 hyz).1⟩
    · exact ⟨y, List.mem_append_left _ (List.mem_filter.2 ⟨hy, by simpa using hmem⟩),
        (Variable.beq_iff.1 he).1⟩

theorem extends_comprehend {columns : List Relational.Column} {b : Bound} {body : Term}
    (h : Runs (comprehend columns b body) s t s') : Extends s s' := by
  obtain ⟨guard, definition, f, tuple, comment, _, _, _, happly, htuple, _, _, rfl⟩ :=
    runs_comprehend h
  exact ((extends_next s).trans (extends_declaring _ f)).trans
    (extends_asserting (Or.inl (closed_definition happly htuple)))

/-- An outer variable is known, and has no name of the binder: names tell variables apart, so a
variable of such a name would be the binder's own. -/
theorem known_of_mem_outerVariables {b : Bound} {definition : Term} {n : Nat} {x : Variable}
    (hV : Hygienic n V) (hb : BoundWithin env V b) (hd : CoversWith env V b.vars definition)
    (hx : x ∈ outerVariables b definition) : x ∈ V ∧ ∀ y ∈ b.vars, x.name ≠ y.name := by
  obtain ⟨hfree, hne⟩ := mem_outerVariables hx
  have hxV := (hd x hfree).1
  refine ⟨hxV, fun y hy he => ?_⟩
  have hsort := hV.consistent x hxV y (hb.binders y hy) he
  have hsame : (x == y) = true := Variable.beq_iff.2 ⟨he, hsort⟩
  rw [hne y hy] at hsame
  exact absurd hsame (by simp)

/-- **A comprehension has the variables of the environment around it.** -/
theorem covers_comprehend {columns : List Relational.Column} {b : Bound} {body : Term}
    {n : Nat} (hV : Hygienic n V) (hb : BoundWithin env V b)
    (hbody : CoversWith env V b.vars body) (h : Runs (comprehend columns b body) s t s') :
    env.Covers V t := by
  obtain ⟨guard, definition, f, tuple, comment, hguard, rfl, _, happly, _⟩ := runs_comprehend h
  have hd := hb.coversWith_guarded .and hguard hbody
  intro x hx
  have hx := (mem_free_apply happly).1 hx
  obtain ⟨hxV, hne⟩ := known_of_mem_outerVariables hV hb hd hx
  exact ⟨hxV, (hd x (mem_outerVariables hx).1).2.resolve_right fun ⟨y, hy, he⟩ => hne y hy he⟩

end RelSmt.Lowering
