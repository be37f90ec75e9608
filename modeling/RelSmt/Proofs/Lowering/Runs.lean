import Std.Data.String.ToNat
import RelSmt.Lowering.Expr
import RelSmt.Proofs.Term.Checked

/-!
# Runs of lowering steps

`Runs x s a s'` says that the step `x`, begun in session `s`, returns `a` and leaves session `s'`.
A run of a composed step is a chain of runs of its parts, so a proof about a step takes a run of it
apart and never looks at the monad.

Fresh names carry the number of the call that made them. A name is *settled* at a count when no
later call returns it.
-/

namespace RelSmt.Lowering

variable {α β : Type}

/-- The step returns a result and leaves a session. -/
def Runs (x : Lower α) (s : Session) (a : α) (s' : Session) : Prop :=
  (x.run.run s).run = (.ok a, s')

section

variable {s s' : Session}

@[simp] theorem runs_pure {a b : α} : Runs (pure a) s b s' ↔ a = b ∧ s = s' := by
  change (Except.ok a, s) = (Except.ok b, s') ↔ _
  simp

@[simp] theorem runs_throw {e : Fault} {a : α} : ¬Runs (throw e) s a s' := by
  change ¬(Except.error e, s) = (Except.ok a, s')
  simp

@[simp] theorem runs_bind {x : Lower α} {f : α → Lower β} {b : β} :
    Runs (x >>= f) s b s' ↔ ∃ a m, Runs x s a m ∧ Runs (f a) m b s' := by
  have hbind : ((x >>= f).run.run s).run
      = ExceptT.bindCont f (x.run.run s).run.1 (x.run.run s).run.2 := rfl
  unfold Runs
  rw [hbind]
  rcases (x.run.run s).run with ⟨_ | a, m⟩
  · change (Except.error _, m) = (Except.ok b, s') ↔ _
    simp
  · constructor
    · intro h
      exact ⟨a, m, rfl, h⟩
    · rintro ⟨_, _, h, h'⟩
      cases h
      exact h'

@[simp] theorem runs_throw_bind {e : Fault} {f : α → Lower β} {b : β} :
    ¬Runs (throw e >>= f) s b s' := by
  simp

@[simp] theorem runs_lift {c : Checked α} {a : α} :
    Runs (liftM c : Lower α) s a s' ↔ c = .ok a ∧ s = s' := by
  change (c, s) = (Except.ok a, s') ↔ _
  simp

@[simp] theorem runs_get {a : Session} : Runs get s a s' ↔ s = a ∧ s = s' := by
  change (Except.ok s, s) = (Except.ok a, s') ↔ _
  simp

@[simp] theorem runs_modify {f : Session → Session} {u : Unit} :
    Runs (modify f) s u s' ↔ f s = s' := by
  change (Except.ok (), f s) = (Except.ok u, s') ↔ _
  simp

/-- A step has one run from a session. -/
theorem Runs.unique {x : Lower α} {a b : α} {m m' : Session} (h : Runs x s a m)
    (h' : Runs x s b m') : a = b ∧ m = m' := by
  simpa using h.symm.trans h'

/-- Steps that only check leave the session as it is. -/
theorem runs_mapM_lift {f : α → Checked β} : ∀ {xs : List α} {ys : List β} {s s' : Session},
    Runs (xs.mapM fun a => (liftM (f a) : Lower β)) s ys s' ↔
      List.Forall₂ (fun a b => f a = .ok b) xs ys ∧ s = s'
  | [], ys, s, s' => by
    rw [List.mapM_nil, runs_pure, List.forall₂_nil_left_iff, eq_comm]
  | x :: xs, ys, s, s' => by
    simp only [List.mapM_cons, runs_bind, runs_lift, runs_pure, List.forall₂_cons_left_iff]
    constructor
    · rintro ⟨y, _, ⟨hy, rfl⟩, ys', m, hys, rfl, rfl⟩
      have hrest := runs_mapM_lift.1 hys
      exact ⟨⟨y, ys', hy, hrest.1, rfl⟩, hrest.2⟩
    · rintro ⟨⟨y, ys', hy, hys, rfl⟩, rfl⟩
      exact ⟨y, s, ⟨hy, rfl⟩, ys', s, runs_mapM_lift.2 ⟨hys, rfl⟩, rfl, rfl⟩

theorem runs_forM_cons {f : α → Lower Unit} {a : α} {as : List α} :
    Runs ((a :: as).forM f) s () s' ↔ ∃ m, Runs (f a) s () m ∧ Runs (as.forM f) m () s' := by
  have hcons : (a :: as).forM f = (do f a; as.forM f) := rfl
  rw [hcons, runs_bind]
  exact ⟨fun ⟨_, m, ha, has⟩ => ⟨m, ha, has⟩, fun ⟨m, ha, has⟩ => ⟨(), m, ha, has⟩⟩

/-- What each of some steps does to the session, all of them together do, if it goes on from one to
the next. -/
theorem Runs.forM {P : Session → Session → Prop} {f : α → Lower Unit} (hrefl : ∀ s, P s s)
    (htrans : ∀ {s m s'}, P s m → P m s' → P s s') : ∀ {as : List α} {s s' : Session},
    Runs (as.forM f) s () s' → (∀ a ∈ as, ∀ {s s'}, Runs (f a) s () s' → P s s') → P s s'
  | [], s, s', h, _ => by
    obtain ⟨_, rfl⟩ := runs_pure.1 h
    exact hrefl s
  | a :: as, s, s', h, hf => by
    obtain ⟨m, ha, has⟩ := runs_forM_cons.1 h
    have hrest : P m s' := Runs.forM hrefl htrans has fun a h => hf a (List.mem_cons_of_mem _ h)
    exact htrans (hf a List.mem_cons_self ha) hrest

end

/-! ## What the elementary steps change -/

namespace Session

/-- The session after a fresh name has been taken. -/
def next (s : Session) : Session := { s with fresh := s.fresh + 1 }

/-- The session after a function has been declared. -/
def declaring (s : Session) (f : FunctionSymbol) : Session :=
  { s with program := s.program.declare f }

/-- The session after an assertion has been added. -/
def asserting (s : Session) (a : Assertion) : Session :=
  { s with program := s.program.assert a }

@[simp] theorem next_fresh (s : Session) : s.next.fresh = s.fresh + 1 := rfl

@[simp] theorem next_program (s : Session) : s.next.program = s.program := rfl

@[simp] theorem next_onDemand (s : Session) : s.next.onDemand = s.onDemand := rfl

@[simp] theorem next_functions (s : Session) : s.next.functions = s.functions := rfl

@[simp] theorem next_singletonsOnly (s : Session) : s.next.singletonsOnly = s.singletonsOnly := rfl

@[simp] theorem declaring_fresh (s : Session) (f : FunctionSymbol) :
    (s.declaring f).fresh = s.fresh := rfl

@[simp] theorem declaring_assertions (s : Session) (f : FunctionSymbol) :
    (s.declaring f).program.assertions = s.program.assertions := rfl

@[simp] theorem declaring_singletonsOnly (s : Session) (f : FunctionSymbol) :
    (s.declaring f).singletonsOnly = s.singletonsOnly := rfl

@[simp] theorem asserting_fresh (s : Session) (a : Assertion) :
    (s.asserting a).fresh = s.fresh := rfl

@[simp] theorem asserting_assertions (s : Session) (a : Assertion) :
    (s.asserting a).program.assertions = s.program.assertions ++ [a] := rfl

end Session

section

variable {s s' : Session}

@[simp] theorem runs_freshName {hint name : String} :
    Runs (freshName hint) s name s' ↔ numbered hint (s.fresh + 1) = name ∧ s.next = s' := by
  simp only [freshName, runs_bind, runs_modify, runs_get, runs_pure]
  constructor
  · rintro ⟨_, _, rfl, _, _, ⟨rfl, rfl⟩, rfl, rfl⟩
    exact ⟨rfl, rfl⟩
  · rintro ⟨rfl, rfl⟩
    exact ⟨(), s.next, rfl, s.next, s.next, ⟨rfl, rfl⟩, rfl, rfl⟩

@[simp] theorem runs_freshVariable {hint : String} {sort : SmtSort} {v : Variable} :
    Runs (freshVariable hint sort) s v s' ↔
      .plain (numbered hint (s.fresh + 1)) sort = v ∧ s.next = s' := by
  simp only [freshVariable, runs_bind, runs_freshName, runs_pure]
  constructor
  · rintro ⟨_, _, ⟨rfl, rfl⟩, rfl, rfl⟩
    exact ⟨rfl, rfl⟩
  · rintro ⟨rfl, rfl⟩
    exact ⟨_, _, ⟨rfl, rfl⟩, rfl, rfl⟩

@[simp] theorem runs_declare {f : FunctionSymbol} {u : Unit} :
    Runs (declare f) s u s' ↔ s.declaring f = s' :=
  runs_modify

@[simp] theorem runs_assert {comment : String} {formula : Term} {u : Unit} :
    Runs (assert comment formula) s u s' ↔
      formula.sort = .bool ∧ s.asserting ⟨comment, formula, none⟩ = s' := by
  simp only [assert, Assertion.make, runs_bind, runs_lift, runs_modify]
  constructor
  · rintro ⟨a, _, ⟨ha, rfl⟩, rfl⟩
    split at ha
    · rename_i hsort
      rw [← Except.ok.inj ha]
      exact ⟨hsort, rfl⟩
    · simp at ha
  · rintro ⟨hsort, rfl⟩
    exact ⟨_, s, ⟨by rw [if_pos hsort], rfl⟩, rfl⟩

end

/-! ## Fresh names -/

theorem digits_ne_underscore (n : Nat) : ∀ c ∈ (toString n).toList, c ≠ '_' := by
  intro c hc he
  rw [Nat.toString_eq_ofList_toDigits, String.toList_ofList] at hc
  have := Nat.isDigit_of_mem_toDigits (by decide) (by decide) hc
  simp [he, Char.isDigit] at this

/-- What stands after the last underscore can be read off, and so can what stands before it. -/
theorem append_underscore_inj {xs ys ds es : List Char} (hds : ∀ c ∈ ds, c ≠ '_')
    (hes : ∀ c ∈ es, c ≠ '_') (h : xs ++ '_' :: ds = ys ++ '_' :: es) : xs = ys ∧ ds = es := by
  -- it is what is read before the first underscore from behind
  have htake : ∀ (zs bs : List Char), (∀ c ∈ bs, c ≠ '_') →
      ((zs ++ '_' :: bs).reverse.takeWhile (· ≠ '_')).reverse = bs := by
    intro zs bs hbs
    rw [List.reverse_append, List.reverse_cons, List.append_assoc,
      List.takeWhile_append_of_pos (by simpa using hbs)]
    simp
  have hafter := congrArg (fun l => (l.reverse.takeWhile (· ≠ '_')).reverse) h
  simp only [htake _ _ hds, htake _ _ hes] at hafter
  subst hafter
  exact ⟨List.append_cancel_right h, rfl⟩

theorem numbered_inj {hint hint' : String} {m n : Nat}
    (h : numbered hint m = numbered hint' n) : hint = hint' ∧ m = n := by
  have hlist := congrArg String.toList h
  simp only [numbered, String.toList_append, List.append_assoc] at hlist
  obtain ⟨hx, hd⟩ := append_underscore_inj (digits_ne_underscore m) (digits_ne_underscore n) hlist
  exact ⟨String.toList_inj.1 hx, Nat.repr_injective (String.toList_inj.1 hd)⟩

/-- The number of a fresh name can be read off the name, whatever the hint. -/
theorem numbered_injective {hint hint' : String} {m n : Nat}
    (h : numbered hint m = numbered hint' n) : m = n :=
  (numbered_inj h).2

/-- A name that is not returned as a fresh one once `n` have been taken. -/
def Settled (n : Nat) (name : String) : Prop := ∀ hint k, n < k → name ≠ numbered hint k

theorem Settled.mono {m n : Nat} {name : String} (h : Settled m name) (hmn : m ≤ n) :
    Settled n name :=
  fun hint k hk => h hint k (Nat.lt_of_le_of_lt hmn hk)

theorem settled_numbered {hint : String} {m n : Nat} (h : m ≤ n) : Settled n (numbered hint m) := by
  intro hint' k hk he
  have := numbered_injective he
  omega

/-- Fresh names have an underscore, so a name without one is never returned. -/
theorem settled_of_no_underscore {name : String} (h : '_' ∉ name.toList) (n : Nat) :
    Settled n name := by
  rintro hint k _ rfl
  exact h (by simp [numbered])

theorem Settled.ne_numbered {hint name : String} {m n : Nat} (h : Settled m name) (hmn : m < n) :
    name ≠ numbered hint n :=
  h hint n hmn

end RelSmt.Lowering
