import RelSmt.Proofs.Lowering.Runs
import RelSmt.Proofs.Term.Sorting

/-!
# How lowering extends a session

Lowering an expression only adds to a session: names are taken, functions are declared, assertions
are appended, and symbols that have been declared on first use stay declared. What it adds is
accounted for. Each new assertion is closed or is an axiom of an operation on integers, and an
interpretation in which the new assertions hold gives the symbols declared on the way their meaning.

An environment is described by the variables that its terms have. A set of variables is *hygienic*
when later fresh names avoid it, names tell its variables apart, and constraints do not lead out of
it.
-/

namespace RelSmt

variable {E : Type}

/-! ## Symbols declared on first use -/

namespace Interpretation

variable (I : Interpretation E)

/-- The integer that an element stands for. -/
def intOf (e : E) : Int := (I.function Lowering.intValue [.element e]).number

/-- Do different elements stand for different integers? -/
def IntInjective : Prop :=
  ∀ d ∈ I.carrier .uint, ∀ e ∈ I.carrier .uint, I.intOf d = I.intOf e → d = e

/-- All tuples of a single element of a sort. -/
def singles (s : SmtSort) : Set (Tuple E) := {t | ∃ e ∈ I.carrier s, t = [.element e]}

/-- All pairs of an atom with itself. -/
def diagonal : Set (Tuple E) := {t | ∃ e ∈ I.carrier .atom, t = [.element e, .element e]}

/-- Do the symbols declared on first use mean what they are declared for? -/
structure Supports (o : Lowering.OnDemand) : Prop where
  ints : ∀ n ∈ o.ints, I.function Lowering.intValue [I.function (Lowering.intSymbol n) []] = .int n
  iden : o.iden = true → I.function Lowering.idenSymbol [] = .set I.diagonal
  integers : o.integers = true → I.function Lowering.integersSymbol [] = .set (I.singles .uint)

/-- Do all these assertions hold? -/
def Satisfies (as : List Assertion) : Prop := ∀ a ∈ as, a.formula.Valid I

end Interpretation

/-! ## Variables of an environment -/

namespace Environment

/-- Does some term that a name stands for have this variable? -/
def Has (env : Environment) (v : Variable) : Prop :=
  ∃ frame ∈ env.here :: env.around, ∃ b ∈ frame, v ∈ b.2.freeOccurrences

theorem mentions_iff {env : Environment} {v : Variable} :
    env.mentions v = true ↔ ∃ w, env.Has w ∧ (w == v) = true := by
  simp only [mentions, Scoped.anyBound, List.any_eq_true, Term.occursFree_iff, Has]
  constructor
  · rintro ⟨frame, hframe, b, hb, w, hw, he⟩
    exact ⟨w, ⟨frame, hframe, b, hb, hw⟩, he⟩
  · rintro ⟨w, ⟨frame, hframe, b, hb, hw⟩, he⟩
    exact ⟨frame, hframe, b, hb, w, hw, he⟩

theorem has_empty {v : Variable} : ¬Environment.Has ({} : Environment) v := by
  rintro ⟨frame, hframe, b, hb, _⟩
  simp only [List.mem_cons, List.not_mem_nil, or_false] at hframe
  subst hframe
  simp at hb

@[simp] theorem has_enter {env : Environment} {v : Variable} :
    Environment.Has env.enter v ↔ env.Has v := by
  simp [Has, Scoped.enter]

/-- A binding brings in the variables of its term and may hide others. -/
theorem has_put {env : Environment} {name : String} {t : Term} {v : Variable}
    (h : Environment.Has (env.put name t) v) : env.Has v ∨ v ∈ t.freeOccurrences := by
  obtain ⟨frame, hframe, b, hb, hv⟩ := h
  simp only [Scoped.put, List.mem_cons] at hframe
  rcases hframe with rfl | hframe
  · rcases List.mem_cons.1 hb with rfl | hb
    · exact Or.inr hv
    · exact Or.inl ⟨env.here, List.mem_cons_self, b, List.mem_of_mem_filter hb, hv⟩
  · exact Or.inl ⟨frame, List.mem_cons_of_mem _ hframe, b, hb, hv⟩

theorem mentions_put {env : Environment} {name : String} {t : Term} {v : Variable}
    (h : Environment.mentions (env.put name t) v = true) :
    env.mentions v = true ∨ ∃ w ∈ t.freeOccurrences, (w == v) = true := by
  obtain ⟨w, hw, he⟩ := mentions_iff.1 h
  rcases has_put hw with hw | hw
  · exact Or.inl (mentions_iff.2 ⟨w, hw, he⟩)
  · exact Or.inr ⟨w, hw, he⟩

theorem has_putAll : ∀ {bs : List (String × Term)} {env : Environment} {v : Variable},
    Environment.Has (env.putAll bs) v → env.Has v ∨ ∃ b ∈ bs, v ∈ b.2.freeOccurrences
  | [], _, _, h => Or.inl h
  | b :: bs, env, v, h => by
    have h : Environment.Has (Scoped.putAll (env.put b.1 b.2) bs) v := h
    rcases has_putAll h with h | ⟨c, hc, hv⟩
    · exact (has_put h).imp_right fun hv => ⟨b, List.mem_cons_self, hv⟩
    · exact Or.inr ⟨c, List.mem_cons_of_mem _ hc, hv⟩

/-- Are all variables of the environment among these? -/
def Within (env : Environment) (V : Set Variable) : Prop := ∀ v, env.Has v → v ∈ V

/-- Are the variables of the term among these, and does the environment mention each of them? -/
def Covers (env : Environment) (V : Set Variable) (t : Term) : Prop :=
  ∀ v ∈ t.freeOccurrences, v ∈ V ∧ env.mentions v = true

end Environment

namespace Lowering

/-- Later fresh names avoid these variables, names tell them apart, and constraints do not lead out
of them. -/
structure Hygienic (n : Nat) (V : Set Variable) : Prop where
  settled : ∀ v ∈ V, Settled n v.name
  consistent : ∀ v ∈ V, ∀ w ∈ V, v.name = w.name → v.sort = w.sort
  closed : ∀ u ∈ V, ∀ v ∈ constraintVariables u, v ∈ V

theorem hygienic_empty (n : Nat) : Hygienic n ∅ where
  settled _ hv := hv.elim
  consistent _ hv := hv.elim
  closed _ hu := hu.elim

theorem Hygienic.mono {m n : Nat} {V : Set Variable} (h : Hygienic m V) (hmn : m ≤ n) :
    Hygienic n V :=
  ⟨fun v hv => (h.settled v hv).mono hmn, h.consistent, h.closed⟩

/-- A known variable has another name than one that is drawn later. -/
theorem Hygienic.ne_drawn {n : Nat} {V : Set Variable} (h : Hygienic n V) {w x : Variable}
    (hw : w ∈ V) (hx : ∃ hint k, n < k ∧ x.name = numbered hint k) : w.name ≠ x.name := by
  obtain ⟨hint, k, hk, hname⟩ := hx
  rw [hname]
  exact (h.settled w hw).ne_numbered hk

/-- A variable of a fresh name may join, with its own unlimited form, when its constraint mentions
known variables besides. -/
theorem Hygienic.insert_fresh {n k : Nat} {V : Set Variable} {hint : String} {sort : SmtSort}
    {c : Term} (h : Hygienic n V) (hk : n < k)
    (hc : ∀ v ∈ c.freeOccurrences, v = .plain (numbered hint k) sort ∨ v ∈ V) :
    Hygienic k (insert (.mk (numbered hint k) sort (some c))
      (insert (.plain (numbered hint k) sort) V)) := by
  -- both new variables have the fresh name and one sort, with or without the constraint
  have key : ∀ v ∈ insert (.mk (numbered hint k) sort (some c))
      (insert (.plain (numbered hint k) sort) V),
      (v.name = numbered hint k ∧ v.sort = sort) ∨ v ∈ V := by
    rintro v (rfl | rfl | hv)
    · exact Or.inl ⟨rfl, rfl⟩
    · exact Or.inl ⟨rfl, rfl⟩
    · exact Or.inr hv
  refine ⟨fun v hv => ?_, fun v hv w hw he => ?_, fun u hu v hv => ?_⟩
  · rcases key v hv with ⟨hname, _⟩ | hv
    · rw [hname]
      exact settled_numbered (Nat.le_refl k)
    · exact (h.settled v hv).mono (Nat.le_of_lt hk)
  · rcases key v hv with ⟨hname, hsort⟩ | hv <;> rcases key w hw with ⟨hname', hsort'⟩ | hw
    · rw [hsort, hsort']
    · exact absurd (he.symm.trans hname) ((h.settled w hw).ne_numbered hk)
    · exact absurd (he.trans hname') ((h.settled v hv).ne_numbered hk)
    · exact h.consistent v hv w hw he
  · rcases hu with rfl | rfl | hu
    · rcases hc v hv with rfl | hv
      · exact Or.inr (Or.inl rfl)
      · exact Or.inr (Or.inr hv)
    · simp [constraintVariables, Variable.plain, Variable.constraint] at hv
    · exact Or.inr (Or.inr (h.closed u hu v hv))

/-! ## Growth of sessions -/

/-- The assertions that one session has more than another. -/
def added (s s' : Session) : List Assertion :=
  s'.program.assertions.drop s.program.assertions.length

/-- The axioms of an operation on integers whose operands have variables of the environment only. -/
def IntegerAxiom (a : Assertion) : Prop :=
  ∃ (V : Set Variable) (op : Arithmetic) (x y : Term) (env : Environment) (s : Session) (t : Term)
    (s' : Session), Hygienic s.fresh V ∧ env.Within V ∧ env.Covers V x ∧ env.Covers V y ∧
      Runs (arithmetic op x y env) s t s' ∧ a ∈ added s s'

/-- Is every symbol of one list on demand in the other, too? -/
structure OnDemand.Within (o o' : OnDemand) : Prop where
  ints : ∀ n ∈ o.ints, n ∈ o'.ints
  iden : o.iden = true → o'.iden = true
  integers : o.integers = true → o'.integers = true

/-- Nothing of the first session is lost in the second, and what is new is accounted for. -/
structure Extends (s s' : Session) : Prop where
  fresh : s.fresh ≤ s'.fresh
  singletonsOnly : s'.singletonsOnly = s.singletonsOnly
  signatures : s'.signatures = s.signatures
  fields : s'.fields = s.fields
  functions : s'.functions = s.functions
  onDemand : s.onDemand.Within s'.onDemand
  assertions : s'.program.assertions = s.program.assertions ++ added s s'
  accounted : ∀ a ∈ added s s', a.formula.freeOccurrences = [] ∨ IntegerAxiom a
  supported : ∀ {E : Type} (I : Interpretation E), I.Supports s.onDemand →
    I.Satisfies (added s s') → I.Supports s'.onDemand

theorem OnDemand.Within.refl (o : OnDemand) : o.Within o := ⟨fun _ h => h, id, id⟩

theorem OnDemand.Within.trans {o p q : OnDemand} (h : o.Within p) (h' : p.Within q) : o.Within q :=
  ⟨fun n hn => h'.ints n (h.ints n hn), h'.iden ∘ h.iden, h'.integers ∘ h.integers⟩

/-- With more symbols declared an interpretation has more to fit. -/
theorem supports_of_within {I : Interpretation E} {o o' : OnDemand}
    (h : I.Supports o') (hw : o.Within o') : I.Supports o :=
  ⟨fun n hn => h.ints n (hw.ints n hn), fun hi => h.iden (hw.iden hi),
    fun hi => h.integers (hw.integers hi)⟩

section

variable {s m s' : Session}

theorem added_eq {as : List Assertion}
    (h : s'.program.assertions = s.program.assertions ++ as) : added s s' = as := by
  simp [added, h]

theorem Extends.refl (s : Session) : Extends s s where
  fresh := Nat.le_refl _
  singletonsOnly := rfl
  signatures := rfl
  fields := rfl
  functions := rfl
  onDemand := .refl _
  assertions := by simp [added]
  accounted := by simp [added]
  supported _ h _ := h

theorem added_trans (h : Extends s m) (h' : Extends m s') :
    added s s' = added s m ++ added m s' :=
  added_eq (by rw [h'.assertions, h.assertions, List.append_assoc])

theorem Extends.trans (h : Extends s m) (h' : Extends m s') : Extends s s' where
  fresh := Nat.le_trans h.fresh h'.fresh
  singletonsOnly := h'.singletonsOnly.trans h.singletonsOnly
  signatures := h'.signatures.trans h.signatures
  fields := h'.fields.trans h.fields
  functions := h'.functions.trans h.functions
  onDemand := h.onDemand.trans h'.onDemand
  assertions := by rw [added_trans h h', h'.assertions, h.assertions, List.append_assoc]
  accounted a ha := by
    rw [added_trans h h', List.mem_append] at ha
    exact ha.elim (h.accounted a) (h'.accounted a)
  supported I hs ha := by
    rw [added_trans h h'] at ha
    have hm := h.supported I hs fun a h => ha a (List.mem_append_left _ h)
    exact h'.supported I hm fun a h => ha a (List.mem_append_right _ h)

/-- A session that takes names and declares functions adds no assertion. -/
theorem extends_next (s : Session) : Extends s s.next where
  fresh := Nat.le_succ _
  singletonsOnly := rfl
  signatures := rfl
  fields := rfl
  functions := rfl
  onDemand := .refl _
  assertions := by simp [added]
  accounted := by simp [added]
  supported _ h _ := h

theorem extends_declaring (s : Session) (f : FunctionSymbol) : Extends s (s.declaring f) where
  fresh := Nat.le_refl _
  singletonsOnly := rfl
  signatures := rfl
  fields := rfl
  functions := rfl
  onDemand := .refl _
  assertions := by simp [added]
  accounted := by simp [added]
  supported _ h _ := h

theorem extends_asserting {a : Assertion}
    (h : a.formula.freeOccurrences = [] ∨ IntegerAxiom a) : Extends s (s.asserting a) where
  fresh := Nat.le_refl _
  singletonsOnly := rfl
  signatures := rfl
  fields := rfl
  functions := rfl
  onDemand := .refl _
  assertions := by simp [added]
  accounted := by simpa [added] using h
  supported _ h _ := h

/-- Symbols may be put on demand once what has been asserted gives them their meaning. -/
theorem Extends.with_onDemand (h : Extends s m) (o : OnDemand) (hw : m.onDemand.Within o)
    (hs : ∀ {E : Type} (I : Interpretation E), I.Supports m.onDemand →
      I.Satisfies (added s m) → I.Supports o) : Extends s { m with onDemand := o } where
  fresh := h.fresh
  singletonsOnly := h.singletonsOnly
  signatures := h.signatures
  fields := h.fields
  functions := h.functions
  onDemand := h.onDemand.trans hw
  assertions := h.assertions
  accounted := h.accounted
  supported I hI ha := hs I (h.supported I hI ha) ha

theorem Extends.added_asserting {a : Assertion} (h : Extends s m) :
    added s (m.asserting a) = added s m ++ [a] :=
  added_eq (by rw [Session.asserting_assertions, h.assertions, List.append_assoc])

/-- What has been asserted last holds. -/
theorem valid_of_asserting {I : Interpretation E} {a : Assertion} (h : Extends s m)
    (ha : I.Satisfies (added s (m.asserting a))) : a.formula.Valid I := by
  refine ha a ?_
  rw [h.added_asserting]
  exact List.mem_append_right _ List.mem_cons_self

end

end Lowering

end RelSmt
