import RelSmt.Lowering.Expr
import RelSmt.Proofs.Lowering.Runs
import RelSmt.Proofs.Term.Renaming

/-!
# Sessions that differ in the names they make

Two sessions may know the same signatures, fields and functions, have the same symbols on demand,
and yet be at different counts, so that they give different names to what they make from then on.
Here both go on from there, the first with another program as well. Any step that the first
takes, the second takes as well, and what the two return and add to their programs is renamed: the
pairs of names that they have made are a one-to-one renaming, which grows step by step.

`Forked` is the relation between the two sessions and `Follows` that between two steps. There is one
lemma for each step of lowering, up to whole formulas.
-/

namespace RelSmt

/-! ## Environments -/

section

variable {G : FunctionSymbol → Prop} {r r' : String → String → Prop}

/-- The bindings have one name, and their terms are renamed. -/
def Environment.Binding (G : FunctionSymbol → Prop) (r : String → String → Prop)
    (b c : String × Term) : Prop :=
  b.1 = c.1 ∧ b.2.Renamed G r c.2

/-- The environments bind the same names in the same scopes, to terms that are renamed. -/
structure Environment.Renamed (G : FunctionSymbol → Prop) (r : String → String → Prop)
    (env env' : Environment) : Prop where
  here : List.Forall₂ (Environment.Binding G r) env.here env'.here
  around : List.Forall₂ (List.Forall₂ (Environment.Binding G r)) env.around env'.around

namespace Environment.Renamed

variable {env env' : Environment} {t t' : Term} {name : String}

theorem empty : Environment.Renamed G r {} {} := ⟨.nil, .nil⟩

theorem mono (hr : ∀ x y, r x y → r' x y) (h : env.Renamed G r env') : env.Renamed G r' env' where
  here := h.here.imp fun _ _ hb => ⟨hb.1, hb.2.mono hr⟩
  around := h.around.imp fun _ _ hf => hf.imp fun _ _ hb => ⟨hb.1, hb.2.mono hr⟩

theorem enter (h : env.Renamed G r env') : Environment.Renamed G r env.enter env'.enter :=
  ⟨.nil, .cons h.here h.around⟩

theorem put (h : env.Renamed G r env') (ht : t.Renamed G r t') :
    Environment.Renamed G r (env.put name t) (env'.put name t') where
  here := .cons ⟨rfl, ht⟩ (forall₂_filter (fun b c hb => by rw [hb.1]) h.here)
  around := h.around

theorem putAll : ∀ {names : List String} {ts us : List Term} {env env' : Environment},
    env.Renamed G r env' → List.Forall₂ (Term.Renamed G r) ts us →
    Environment.Renamed G r (env.putAll (names.zip ts)) (env'.putAll (names.zip us))
  | [], _, _, _, _, h, _ => by simpa [Scoped.putAll] using h
  | _ :: _, _, _, _, _, h, .nil => by simpa [Scoped.putAll] using h
  | _ :: _, _, _, _, _, h, .cons ht hts => (h.put ht).putAll hts

theorem lookup_congr (name : String) {bs cs : List (String × Term)}
    (h : List.Forall₂ (Environment.Binding G r) bs cs) :
    Option.Rel (Term.Renamed G r) (bs.lookup name) (cs.lookup name) := by
  induction h with
  | nil => exact .none
  | @cons b c bs cs hb _ ih =>
    obtain ⟨key, t⟩ := b
    obtain ⟨key', u⟩ := c
    obtain ⟨rfl, ht⟩ : key = key' ∧ t.Renamed G r u := hb
    rw [List.lookup_cons, List.lookup_cons]
    split
    · exact .some ht
    · exact ih

theorem findSome?_congr {fs gs : List (List (String × Term))}
    (h : List.Forall₂ (List.Forall₂ (Environment.Binding G r)) fs gs) :
    Option.Rel (Term.Renamed G r) (fs.findSome? fun f => f.lookup name)
      (gs.findSome? fun f => f.lookup name) := by
  induction h with
  | nil => exact .none
  | @cons f g fs gs hf _ ih =>
    rw [List.findSome?_cons, List.findSome?_cons]
    have hlookup := lookup_congr name hf
    cases hf : f.lookup name <;> cases hg : g.lookup name <;> rw [hf, hg] at hlookup
    · exact ih
    · cases hlookup
    · cases hlookup
    · exact hlookup

/-- A name stands for renamed terms, or for none on both sides. -/
theorem get? (h : env.Renamed G r env') (name : String) :
    Option.Rel (Term.Renamed G r) (env.get? name) (env'.get? name) :=
  findSome?_congr (.cons h.here h.around)

/-- Variables are mentioned on both sides or on neither. -/
theorem mentions_congr (hone : Relator.BiUnique r) (h : env.Renamed G r env') {v w : Variable}
    (hv : v.Renamed G r w) : env.mentions v = env'.mentions w :=
  any_congr (fun _ _ hf => any_congr (fun _ _ hb => hb.2.occursFree_congr hone hv) hf)
    (.cons h.here h.around)

end Environment.Renamed

end

/-! ## Programs -/

section

variable (G : FunctionSymbol → Prop) (C : String → Prop) (r : String → String → Prop)

/-- The declared functions are renamed. -/
inductive FunctionItem.Renamed : FunctionItem → FunctionItem → Prop where
  | declared {f g} (h : f.Renamed G r g) : FunctionItem.Renamed (.declared f) (.declared g)

/-- A given comment is kept. Any other begins with paired names. -/
inductive CommentRenamed : String → String → Prop where
  | given {c} (h : C c) : CommentRenamed c c
  | named {x y} (h : r x y) (rest : String) : CommentRenamed (x ++ rest) (y ++ rest)

/-- The formulas are renamed, and the labels are the same. -/
structure Assertion.Renamed (a b : Assertion) : Prop where
  comment : CommentRenamed C r a.comment b.comment
  formula : a.formula.Renamed G r b.formula
  label : a.label = b.label

/-- The programs are renamed item by item. -/
structure Program.Renamed (p q : Program) : Prop where
  sorts : p.sorts = q.sorts
  functions : List.Forall₂ (FunctionItem.Renamed G r) p.functions q.functions
  assertions : List.Forall₂ (Assertion.Renamed G C r) p.assertions q.assertions

end

section

variable {G : FunctionSymbol → Prop} {C D : String → Prop} {r r' : String → String → Prop}
  {p p' q q' : Program}

theorem Program.append_declare (p q : Program) (f : FunctionSymbol) :
    p ++ q.declare f = (p ++ q).declare f := by
  show Program.append p _ = Program.declare (Program.append p q) f
  simp [Program.append, Program.declare]

theorem Program.append_assert (p q : Program) (a : Assertion) :
    p ++ q.assert a = (p ++ q).assert a := by
  show Program.append p _ = Program.assert (Program.append p q) a
  simp [Program.append, Program.assert]

@[simp] theorem Program.append_empty (p : Program) : p ++ ({} : Program) = p := by
  show Program.append p {} = p
  simp [Program.append]

theorem Program.renamed_empty : Program.Renamed G C r {} {} := ⟨rfl, .nil, .nil⟩

theorem Program.Renamed.declare {f g : FunctionSymbol} (h : p.Renamed G C r q)
    (hf : f.Renamed G r g) : (p.declare f).Renamed G C r (q.declare g) where
  sorts := h.sorts
  functions := List.rel_append h.functions (.cons (.declared hf) .nil)
  assertions := h.assertions

theorem Program.Renamed.assert {a b : Assertion} (h : p.Renamed G C r q) (ha : a.Renamed G C r b) :
    (p.assert a).Renamed G C r (q.assert b) where
  sorts := h.sorts
  functions := h.functions
  assertions := List.rel_append h.assertions (.cons ha .nil)

theorem CommentRenamed.mono (hC : ∀ c, C c → D c) (hr : ∀ x y, r x y → r' x y) {c d : String}
    (h : CommentRenamed C r c d) : CommentRenamed D r' c d := by
  cases h with
  | given h => exact .given (hC _ h)
  | named h rest => exact .named (hr _ _ h) rest

theorem CommentRenamed.eq_of_diagonal (hr : ∀ x y, r x y → x = y) {c d : String}
    (h : CommentRenamed C r c d) : c = d := by
  cases h with
  | given => rfl
  | named h rest => rw [hr _ _ h]

theorem Program.Renamed.mono (hC : ∀ c, C c → D c) (hr : ∀ x y, r x y → r' x y)
    (h : p.Renamed G C r q) : p.Renamed G D r' q where
  sorts := h.sorts
  functions := h.functions.imp fun _ _ hf => by
    cases hf with
    | declared hf => exact .declared (hf.mono hr)
  assertions := h.assertions.imp fun _ _ ha =>
    ⟨ha.comment.mono hC hr, ha.formula.mono hr, ha.label⟩

theorem Program.Renamed.append (h : p.Renamed G C r q) (h' : p'.Renamed G C r q') :
    (p ++ p').Renamed G C r (q ++ q') where
  sorts := congrArg₂ (· ++ ·) h.sorts h'.sorts
  functions := List.rel_append h.functions h'.functions
  assertions := List.rel_append h.assertions h'.assertions

/-- Where names are only paired with themselves, renamed programs are equal. -/
theorem Program.Renamed.eq_of_diagonal (hr : ∀ x y, r x y → x = y) (h : p.Renamed G C r q) :
    p = q := by
  have hfunctions : p.functions = q.functions := by
    rw [← List.forall₂_eq_eq_eq]
    refine h.functions.imp fun f g hf => ?_
    cases hf with
    | declared hf => rw [hf.eq_of_diagonal hr]
  have hassertions : p.assertions = q.assertions := by
    rw [← List.forall₂_eq_eq_eq]
    refine h.assertions.imp ?_
    rintro ⟨_, _, _⟩ ⟨_, _, _⟩ ⟨hcomment, hformula, hlabel⟩
    obtain rfl := hcomment.eq_of_diagonal hr
    obtain rfl := hformula.eq_of_diagonal hr
    obtain rfl := hlabel
    rfl
  obtain ⟨_, _, _⟩ := p
  obtain ⟨_, _, _⟩ := q
  obtain rfl := h.sorts
  obtain rfl := hfunctions
  obtain rfl := hassertions
  rfl

end

namespace Lowering

/-! ## Pairs of made names -/

/-- Pairs of names, each the name that one session and the name that another has made. -/
abbrev Renaming := List (String × String)

namespace Renaming

/-- Are the two names a pair? -/
def Pairs (ρ : Renaming) (x y : String) : Prop := (x, y) ∈ ρ

/-- Is every pair of the one a pair of the other? -/
def Within (ρ ρ' : Renaming) : Prop := ∀ x y, ρ.Pairs x y → ρ'.Pairs x y

theorem Within.refl (ρ : Renaming) : ρ.Within ρ := fun _ _ h => h

theorem Within.trans {ρ ρ' ρ'' : Renaming} (h : ρ.Within ρ') (h' : ρ'.Within ρ'') : ρ.Within ρ'' :=
  fun x y hxy => h' x y (h x y hxy)

/-- The pairs of names that two sessions make from counts `k` and `n` on. A hint is the same on both
sides or is a name made before. -/
inductive Made (k n : Nat) : Renaming → Prop where
  | nil : Made k n []
  | next {ρ hint hint'} (h : Made k n ρ) (hhint : hint = hint' ∨ ρ.Pairs hint hint') :
      Made k n (ρ ++ [(numbered hint (k + ρ.length + 1), numbered hint' (n + ρ.length + 1))])

variable {k n : Nat} {ρ : Renaming}

/-- The place of a pair can be read off either name. -/
theorem Made.getElem? (h : Made k n ρ) {p : String × String} (hp : p ∈ ρ) :
    ∃ i hint hint', ρ[i]? = some p ∧
      p = (numbered hint (k + i + 1), numbered hint' (n + i + 1)) := by
  induction h with
  | nil => simp at hp
  | @next ρ hint hint' _ _ ih =>
    rcases List.mem_append.1 hp with hp | hp
    · obtain ⟨i, hint, hint', hi, he⟩ := ih hp
      have hlt : i < ρ.length := (List.getElem?_eq_some_iff.1 hi).1
      exact ⟨i, hint, hint', by rwa [List.getElem?_append_left hlt], he⟩
    · -- the pair just made stands behind all others
      obtain rfl := List.mem_singleton.1 hp
      exact ⟨ρ.length, hint, hint', by simp, rfl⟩

/-- **Made names are paired one to one.** -/
theorem Made.biUnique (h : Made k n ρ) : Relator.BiUnique ρ.Pairs := by
  -- a shared name has one number, so the two pairs stand at one place
  constructor
  · intro x x' y hx hx'
    obtain ⟨i, _, _, hi, he⟩ := h.getElem? hx
    obtain ⟨j, _, _, hj, he'⟩ := h.getElem? hx'
    have hnumber := numbered_injective ((congrArg Prod.snd he).symm.trans (congrArg Prod.snd he'))
    obtain rfl : i = j := by omega
    exact congrArg Prod.fst (Option.some.inj (hi.symm.trans hj))
  · intro x y y' hy hy'
    obtain ⟨i, _, _, hi, he⟩ := h.getElem? hy
    obtain ⟨j, _, _, hj, he'⟩ := h.getElem? hy'
    have hnumber := numbered_injective ((congrArg Prod.fst he).symm.trans (congrArg Prod.fst he'))
    obtain rfl : i = j := by omega
    exact congrArg Prod.snd (Option.some.inj (hi.symm.trans hj))

/-- Sessions at one count make the same names. -/
theorem Made.diagonal (h : Made n n ρ) : ∀ x y, ρ.Pairs x y → x = y := by
  induction h with
  | nil => simp [Pairs]
  | @next ρ hint hint' _ hhint ih =>
    intro x y hxy
    rcases List.mem_append.1 hxy with hxy | hxy
    · exact ih x y hxy
    · -- a hint that is a made name has been paired with itself
      have hsame : hint = hint' := hhint.elim id (ih hint hint')
      obtain ⟨rfl, rfl⟩ := Prod.mk.inj (List.mem_singleton.1 hxy)
      rw [hsame]

end Renaming

/-! ## Two sessions from one start -/

/-- The comments of the symbols declared on first use. -/
inductive OnDemandComment : String → Prop where
  | int (n : Int) : OnDemandComment s!"u_{n} = {n}"
  | iden : OnDemandComment "atomIden axiom"
  | integers : OnDemandComment "integers axiom"

/-- Are the functions and comments that do not depend on the names that the session makes among the
given ones? -/
structure Session.Gives (b : Session) (G : FunctionSymbol → Prop) (C : String → Prop) : Prop where
  value : G intValue
  int : ∀ n, G (intSymbol n)
  iden : G idenSymbol
  integers : G integersSymbol
  signature : ∀ {s f}, b.signatures.lookup s = some f → G f
  field : ∀ {a f}, b.fields.lookup a = some f → G f
  comment : ∀ {c}, OnDemandComment c → C c

/-- Two sessions have gone on from `b`, the first with the program and the count of `k` in the place
of its own, and have made the names of `ρ`. -/
structure Forked (G : FunctionSymbol → Prop) (C : String → Prop) (k b : Session) (ρ : Renaming)
    (s m : Session) : Prop where
  gives : b.Gives G C
  made : ρ.Made k.fresh b.fresh
  states : ∃ p q o, p.Renamed G C ρ.Pairs q ∧
    s = { b with program := k.program ++ p, onDemand := o, fresh := k.fresh + ρ.length } ∧
    m = { b with program := b.program ++ q, onDemand := o, fresh := b.fresh + ρ.length }

/-- Whenever the first step returns from one of two such sessions, the second returns from the
other, with a related result, and the two sessions are such again. -/
def Follows {α β : Type} (G : FunctionSymbol → Prop) (C : String → Prop) (k b : Session)
    (ρ : Renaming)
    (R : Renaming → α → β → Prop) (x : Lower α) (y : Lower β) : Prop :=
  ∀ s m a s', Forked G C k b ρ s m → Runs x s a s' → ∃ ρ' c m', ρ.Within ρ' ∧ Runs y m c m' ∧
    Forked G C k b ρ' s' m' ∧ R ρ' a c

section

variable {α β γ δ : Type} {G : FunctionSymbol → Prop} {C : String → Prop} {k b : Session}
  {ρ : Renaming} {R : Renaming → α → β → Prop} {S : Renaming → γ → δ → Prop}

theorem follows_pure {a : α} {c : β} (h : R ρ a c) : Follows G C k b ρ R (pure a) (pure c) := by
  intro s m a' s' hs hrun
  obtain ⟨rfl, rfl⟩ := runs_pure.1 hrun
  exact ⟨ρ, c, m, .refl ρ, runs_pure.2 ⟨rfl, rfl⟩, hs, h⟩

theorem follows_throw {e : Fault} {y : Lower β} : Follows G C k b ρ R (throw e) y :=
  fun _ _ _ _ _ hrun => absurd hrun runs_throw

/-- A check that both steps begin with. -/
theorem Follows.guarded {p : Prop} [Decidable p] {e e' : Fault} {x : Lower α} {y : Lower β}
    {f : PUnit → Lower α} {g : PUnit → Lower β} (h : ¬p → Follows G C k b ρ R x y) :
    Follows G C k b ρ R (if p then throw e >>= f else x) (if p then throw e' >>= g else y) := by
  by_cases hp : p
  · rw [if_pos hp, if_pos hp]
    exact fun _ _ _ _ _ hrun => absurd hrun runs_throw_bind
  · rw [if_neg hp, if_neg hp]
    exact h hp

theorem follows_lift {x : Checked α} {y : Checked β} (h : Checked.Follows (R ρ) x y) :
    Follows G C k b ρ R (liftM x) (liftM y) := by
  intro s m a s' hs hrun
  obtain ⟨hx, rfl⟩ := runs_lift.1 hrun
  obtain ⟨c, hy, hac⟩ := h a hx
  exact ⟨ρ, c, m, .refl ρ, runs_lift.2 ⟨hy, rfl⟩, hs, hac⟩

theorem Follows.bind {x : Lower α} {y : Lower β} {f : α → Lower γ} {g : β → Lower δ}
    (h : Follows G C k b ρ R x y)
    (hf : ∀ ρ' a c, ρ.Within ρ' → R ρ' a c → Follows G C k b ρ' S (f a) (g c)) :
    Follows G C k b ρ S (x >>= f) (y >>= g) := by
  intro s m a s' hs hrun
  obtain ⟨a₁, s₁, hx, hf₁⟩ := runs_bind.1 hrun
  obtain ⟨ρ₁, c₁, m₁, hρ₁, hy, hs₁, hac⟩ := h s m a₁ s₁ hs hx
  obtain ⟨ρ₂, c, m₂, hρ₂, hg, hs₂, hS⟩ := hf ρ₁ a₁ c₁ hρ₁ hac s₁ m₁ a s' hs₁ hf₁
  exact ⟨ρ₂, c, m₂, hρ₁.trans hρ₂, runs_bind.2 ⟨c₁, m₁, hy, hg⟩, hs₂, hS⟩

/-- A step that only checks makes no names. -/
theorem follows_lift_bind {x : Checked α} {y : Checked β} {Q : α → β → Prop} {f : α → Lower γ}
    {g : β → Lower δ} (h : Checked.Follows Q x y)
    (hf : ∀ a c, Q a c → Follows G C k b ρ S (f a) (g c)) :
    Follows G C k b ρ S (liftM x >>= f) (liftM y >>= g) := by
  intro s m a s' hs hrun
  obtain ⟨a₁, _, hx, hf₁⟩ := runs_bind.1 hrun
  obtain ⟨hok, rfl⟩ := runs_lift.1 hx
  obtain ⟨c₁, hy, hac⟩ := h a₁ hok
  obtain ⟨ρ₂, c, m₂, hρ₂, hg, hs₂, hS⟩ := hf a₁ c₁ hac s m a s' hs hf₁
  exact ⟨ρ₂, c, m₂, hρ₂, runs_bind.2 ⟨c₁, m, runs_lift.2 ⟨hy, rfl⟩, hg⟩, hs₂, hS⟩

/-- Steps that only check, one for each element of a list. -/
theorem follows_mapM_lift {Q : α → β → Prop} {P : γ → δ → Prop} {f : α → Checked γ}
    {g : β → Checked δ} (hf : ∀ a c, Q a c → Checked.Follows P (f a) (g c)) :
    ∀ {as : List α} {cs : List β}, List.Forall₂ Q as cs → Follows G C k b ρ
      (fun _ => List.Forall₂ P) (as.mapM fun a => (liftM (f a) : Lower γ))
      (cs.mapM fun c => (liftM (g c) : Lower δ))
  | [], _, .nil => follows_pure .nil
  | a :: as, _, .cons h hs => by
    rw [List.mapM_cons, List.mapM_cons]
    refine follows_lift_bind (hf _ _ h) fun t u htu => ?_
    exact (follows_mapM_lift hf hs).bind fun _ _ _ _ h' => follows_pure (.cons htu h')

/-- Steps over a list, each from what the one before has returned. -/
theorem Follows.foldlM {f : α → γ → Lower α} {g : β → δ → Lower β}
    (hS : ∀ {ρ ρ' c d}, ρ.Within ρ' → S ρ c d → S ρ' c d)
    (hf : ∀ {ρ a e c d}, R ρ a e → S ρ c d → Follows G C k b ρ R (f a c) (g e d)) :
    ∀ {cs : List γ} {ds : List δ} {ρ : Renaming} {a : α} {e : β}, List.Forall₂ (S ρ) cs ds →
      R ρ a e → Follows G C k b ρ R (cs.foldlM f a) (ds.foldlM g e)
  | [], _, _, _, _, .nil, h => follows_pure h
  | c :: cs, _, ρ, a, e, .cons hcd hcds, h => by
    rw [List.foldlM_cons, List.foldlM_cons]
    exact (hf h hcd).bind fun ρ₁ _ _ h₁ h' =>
      Follows.foldlM hS hf (hcds.imp fun _ _ h => hS h₁ h) h'

theorem follows_get_bind {f : Session → Lower γ} {g : Session → Lower δ}
    (hf : ∀ s m, Forked G C k b ρ s m → Follows G C k b ρ S (f s) (g m)) :
    Follows G C k b ρ S (get >>= f) (get >>= g) := by
  intro s m a s' hs hrun
  obtain ⟨_, _, hget, hf₁⟩ := runs_bind.1 hrun
  obtain ⟨rfl, rfl⟩ := runs_get.1 hget
  obtain ⟨ρ', c, m', hρ', hg, hs', hS⟩ := hf s m hs s m a s' hs hf₁
  exact ⟨ρ', c, m', hρ', runs_bind.2 ⟨m, m, runs_get.2 ⟨rfl, rfl⟩, hg⟩, hs', hS⟩

/-- What is to be shown of two steps may make use of the pairs being one to one. -/
theorem follows_of_biUnique {x : Lower α} {y : Lower β}
    (h : Relator.BiUnique ρ.Pairs → Follows G C k b ρ R x y) : Follows G C k b ρ R x y :=
  fun s m a s' hs => h hs.made.biUnique s m a s' hs

end

/-! ## What two such sessions have in common -/

section

variable {G : FunctionSymbol → Prop} {C : String → Prop} {k b : Session} {ρ : Renaming}
  {s m : Session}

theorem Forked.onDemand_eq (h : Forked G C k b ρ s m) : s.onDemand = m.onDemand := by
  obtain ⟨_, _, _, _, rfl, rfl⟩ := h.states
  rfl

theorem Forked.singletonsOnly_eq (h : Forked G C k b ρ s m) :
    s.singletonsOnly = m.singletonsOnly := by
  obtain ⟨_, _, _, _, rfl, rfl⟩ := h.states
  rfl

theorem Forked.functions_eq (h : Forked G C k b ρ s m) : s.functions = m.functions := by
  obtain ⟨_, _, _, _, rfl, rfl⟩ := h.states
  rfl

theorem Forked.signatures_eq (h : Forked G C k b ρ s m) :
    s.signatures = b.signatures ∧ m.signatures = b.signatures := by
  obtain ⟨_, _, _, _, rfl, rfl⟩ := h.states
  exact ⟨rfl, rfl⟩

theorem Forked.fields_eq (h : Forked G C k b ρ s m) :
    s.fields = b.fields ∧ m.fields = b.fields := by
  obtain ⟨_, _, _, _, rfl, rfl⟩ := h.states
  exact ⟨rfl, rfl⟩

/-- Both sessions may have the same symbols on demand besides. -/
theorem Forked.with_onDemand (h : Forked G C k b ρ s m) (o : OnDemand) :
    Forked G C k b ρ { s with onDemand := o } { m with onDemand := o } := by
  obtain ⟨p, q, _, hpq, rfl, rfl⟩ := h.states
  exact ⟨h.gives, h.made, p, q, o, hpq, rfl, rfl⟩

end

/-! ## Elementary steps -/

section

variable {G : FunctionSymbol → Prop} {C : String → Prop} {k b : Session} {ρ : Renaming}

/-- What relates the terms that two sessions make. -/
abbrev Terms (G : FunctionSymbol → Prop) (ρ : Renaming) : Term → Term → Prop :=
  Term.Renamed G ρ.Pairs

/-- What relates the variables that two sessions make. -/
abbrev Variables (G : FunctionSymbol → Prop) (ρ : Renaming) : Variable → Variable → Prop :=
  Variable.Renamed G ρ.Pairs

/-- Nothing is said of what two steps return. -/
def anyResult {α β : Type} (_ : Renaming) (_ : α) (_ : β) : Prop := True

theorem follows_freshName {hint hint' : String} (hhint : hint = hint' ∨ ρ.Pairs hint hint') :
    Follows G C k b ρ Renaming.Pairs (freshName hint) (freshName hint') := by
  intro s m x s' hs hrun
  obtain ⟨p, q, o, hpq, rfl, rfl⟩ := hs.states
  obtain ⟨rfl, rfl⟩ := runs_freshName.1 hrun
  have hwithin : ρ.Within (ρ ++ [(numbered hint (k.fresh + ρ.length + 1),
      numbered hint' (b.fresh + ρ.length + 1))]) := fun _ _ h => List.mem_append_left _ h
  refine ⟨_, _, _, hwithin, runs_freshName.2 ⟨rfl, rfl⟩, ⟨hs.gives, hs.made.next hhint, p, q, o,
    hpq.mono (fun _ h => h) hwithin, ?_, ?_⟩, List.mem_append_right _ List.mem_cons_self⟩
  · simp [Session.next, Nat.add_assoc]
  · simp [Session.next, Nat.add_assoc]

theorem follows_freshVariable {hint hint' : String} (hhint : hint = hint' ∨ ρ.Pairs hint hint')
    (sort : SmtSort) :
    Follows G C k b ρ (Variables G) (freshVariable hint sort) (freshVariable hint' sort) :=
  (follows_freshName hhint).bind fun _ _ _ _ hname => follows_pure (.plain hname)

theorem follows_declare {f g : FunctionSymbol} (hf : f.Renamed G ρ.Pairs g) :
    Follows G C k b ρ anyResult (declare f) (declare g) := by
  intro s m _ s' hs hrun
  obtain ⟨p, q, o, hpq, rfl, rfl⟩ := hs.states
  obtain rfl := runs_declare.1 hrun
  refine ⟨ρ, (), _, .refl ρ, runs_declare.2 rfl, ⟨hs.gives, hs.made, p.declare f, q.declare g, o,
    hpq.declare hf, ?_, ?_⟩, trivial⟩
  · rw [Program.append_declare]; rfl
  · rw [Program.append_declare]; rfl

theorem follows_assert {comment comment' : String} {t u : Term}
    (hcomment : CommentRenamed C ρ.Pairs comment comment') (ht : Terms G ρ t u) :
    Follows G C k b ρ anyResult (assert comment t) (assert comment' u) := by
  intro s m _ s' hs hrun
  obtain ⟨p, q, o, hpq, rfl, rfl⟩ := hs.states
  obtain ⟨hsort, rfl⟩ := runs_assert.1 hrun
  rw [ht.sort_eq] at hsort
  refine ⟨ρ, (), _, .refl ρ, runs_assert.2 ⟨hsort, rfl⟩, ⟨hs.gives, hs.made,
    p.assert ⟨comment, t, none⟩, q.assert ⟨comment', u, none⟩, o,
    hpq.assert ⟨hcomment, ht, rfl⟩, ?_, ?_⟩, trivial⟩
  · rw [Program.append_assert]; rfl
  · rw [Program.append_assert]; rfl

end

end Lowering

end RelSmt
