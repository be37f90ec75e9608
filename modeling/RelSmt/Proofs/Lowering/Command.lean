import RelSmt.Proofs.Lowering.BaseNames

/-!
# Commands as facts

A command is lowered where facts and earlier commands have left the session, with an empty program.
A fact at the end of the specification is lowered where the other facts have left it. The two
sessions are forked, so the command adds to the base program what the fact adds, up to the names
that the sessions make. There are no other traces of earlier commands than the count of their fresh
names, so the first command adds the very same.
-/

namespace RelSmt

/-- The fact that asserts what a command asserts. -/
def Relational.Command.asFact (c : Relational.Command) : Relational.Fact :=
  ⟨c.label, if c.check then .unary .not c.formula else c.formula, c.position⟩

/-- The specification without its commands. -/
def Relational.Specification.withoutCommands (spec : Relational.Specification) :
    Relational.Specification :=
  { spec with commands := [] }

/-- The specification with one command alone, as the last of its facts. -/
def Relational.Specification.withFact (spec : Relational.Specification) (c : Relational.Command) :
    Relational.Specification :=
  { spec with facts := spec.facts ++ [c.asFact], commands := [] }

namespace Lowering

variable {s s' m : Session}

/-! ## Formulas of commands -/

theorem runs_exprWithin_unary {depth : Nat} {active : List String} {op : Relational.UnaryOp}
    {e : Relational.Expr} {env : Environment} {u : Term} :
    Runs (exprWithin depth active (.unary op e) env) s u s' ↔
      ∃ t m, Runs (exprWithin depth active e env) s t m ∧ Runs (unary op t) m u s' := by
  cases depth <;> exact runs_bind

/-- The negation of a formula is lowered to the negation of what the formula is lowered to. -/
theorem runs_formula_not {e : Relational.Expr} {u : Term} :
    Runs (formula (.unary .not e)) s u s' ↔ ∃ t, Runs (formula e) s t s' ∧ t.neg = .ok u := by
  simp only [runs_formula, runs_exprWithin_unary]
  constructor
  · rintro ⟨⟨t, m, ht, hu⟩, _⟩
    obtain ⟨hneg, rfl⟩ := runs_lift.1 hu
    exact ⟨t, ⟨ht, (Term.neg_eq_ok.1 hneg).1⟩, hneg⟩
  · rintro ⟨t, ⟨ht, _⟩, hneg⟩
    obtain ⟨_, rfl⟩ := Term.neg_eq_ok.1 hneg
    exact ⟨⟨t, s', ht, runs_lift.2 ⟨hneg, rfl⟩⟩, rfl⟩

/-- A command asserts what its fact asserts. -/
theorem runs_commandFormula {c : Relational.Command} {u : Term} :
    Runs (commandFormula c) s u s' ↔ Runs (formula c.asFact.formula) s u s' := by
  obtain ⟨label, e, check, position⟩ := c
  cases check with
  | false =>
    show Runs (formula e >>= pure) s u s' ↔ Runs (formula e) s u s'
    rw [bind_pure]
  | true =>
    show Runs (formula e >>= fun t => (liftM t.neg : Lower Term)) s u s' ↔
      Runs (formula (.unary .not e)) s u s'
    rw [runs_formula_not, runs_bind]
    constructor
    · rintro ⟨t, m, ht, hu⟩
      obtain ⟨hneg, rfl⟩ := runs_lift.1 hu
      exact ⟨t, ht, hneg⟩
    · rintro ⟨t, ht, hneg⟩
      exact ⟨t, s', ht, runs_lift.2 ⟨hneg, rfl⟩⟩

/-- What a command adds is what its fact adds to an empty program. -/
theorem runs_command_asFact {c : Relational.Command} {delta : Program}
    (h : Runs (command c) s delta s') :
    ∃ t m, Runs (formula c.asFact.formula) { s with program := {} } t m ∧
      delta = m.program.assert
        ⟨c.label, t, c.position.label?.filter fun l => !s.labels.contains l⟩ ∧
      s' = { m with program := s.program, onDemand := s.onDemand } := by
  simp only [command, Assertion.make, runs_bind, runs_lift, runs_get, runs_modify, runs_pure,
    runs_commandFormula] at h
  obtain ⟨_, _, ⟨rfl, rfl⟩, _, _, rfl, t, m, ht, a, _, ⟨ha, rfl⟩, _, _, ⟨rfl, rfl⟩, _, _, rfl, rfl,
    rfl⟩ := h
  rw [if_pos (closed_formula ht).1, Except.ok.injEq] at ha
  subst ha
  exact ⟨t, m, ht, rfl, rfl⟩

/-! ## Commands one after another -/

theorem gives_all (s : Session) : s.Gives (fun _ => True) fun _ => True :=
  ⟨trivial, fun _ => trivial, trivial, trivial, fun _ => trivial, fun _ => trivial,
    fun _ => trivial⟩

/-- Lowering a formula changes the program, the symbols on demand and the count, and nothing
else. -/
theorem runs_formula_keeps {e : Relational.Expr} {t : Term} (h : Runs (formula e) s t s') :
    ∃ p o n, s.fresh ≤ n ∧ s' = { s with program := p, onDemand := o, fresh := n } := by
  obtain ⟨ρ, _, _, _, _, hforked, _⟩ := follows_formula e s s t s' (forked_self (gives_all s)) h
  obtain ⟨_, _, _, _, rfl, _⟩ := hforked.states
  exact ⟨_, _, _, Nat.le_add_right _ _, rfl⟩

/-- Commands leave nothing but a count. -/
theorem runs_commands_keeps : ∀ {cs : List Relational.Command} {s s' : Session}
    {lowered : List (Relational.Command × Program)},
    Runs (cs.mapM fun c => do return (c, ← command c)) s lowered s' →
    lowered.map Prod.fst = cs ∧ ∃ n, s.fresh ≤ n ∧ s' = { s with fresh := n }
  | [], s, s', lowered, h => by
    obtain ⟨rfl, rfl⟩ := runs_pure.1 h
    exact ⟨rfl, s.fresh, Nat.le_refl _, rfl⟩
  | c :: cs, s, s', lowered, h => by
    simp only [List.mapM_cons, runs_bind, runs_pure] at h
    obtain ⟨_, _, ⟨delta, m, hdelta, rfl, rfl⟩, rest, _, hrest, rfl, rfl⟩ := h
    obtain ⟨t, m', ht, _, rfl⟩ := runs_command_asFact hdelta
    obtain ⟨p, o, n, hn, rfl⟩ := runs_formula_keeps ht
    obtain ⟨hkeys, n', hn', rfl⟩ := runs_commands_keeps hrest
    exact ⟨by rw [List.map_cons, hkeys], n', Nat.le_trans hn hn', rfl⟩

/-- A specification whose parts are lowered is lowered. -/
theorem lower_of_runs (spec : Relational.Specification) {singletonsOnly : Bool}
    {m₁ m₂ m₃ m₄ : Session} {cs : List (Relational.Command × Program)}
    (hsignatures : Runs (signatures spec.signatures) (.initial singletonsOnly spec.functions) () m₁)
    (hfields : Runs (fields spec.fieldGroups) m₁ () m₂)
    (hfacts : Runs (spec.facts.forM fact) m₂ () m₃)
    (hcommands : Runs (spec.commands.mapM fun c => do return (c, ← command c)) m₃ cs m₄) :
    ∃ enc, spec.lower singletonsOnly = .ok enc ∧ enc.base = m₄.program := by
  have h : Runs (specification spec) (.start singletonsOnly)
      ⟨m₄.program, m₄.signatures.filter fun p => !p.1.isInt, m₄.fields, cs⟩ m₄ := by
    simp only [specification, injectivity_eq, runs_bind, runs_lift, runs_modify, runs_get,
      runs_pure, Except.ok.injEq]
    exact ⟨_, _, ⟨rfl, rfl⟩, (), _, rfl, (), m₁, hsignatures, (), m₂, hfields, (), m₃, hfacts, cs,
      m₄, hcommands, _, _, ⟨rfl, rfl⟩, rfl, rfl⟩
  exact ⟨_, congrArg Prod.fst h, rfl⟩

theorem runs_mapM_append {α β : Type} {f : α → Lower β} {as bs : List α} {ys : List β} :
    Runs ((as ++ bs).mapM f) s ys s' ↔ ∃ xs m zs, Runs (as.mapM f) s xs m ∧
      Runs (bs.mapM f) m zs s' ∧ xs ++ zs = ys := by
  simp only [List.mapM_append, runs_bind, runs_pure]
  constructor
  · rintro ⟨xs, m, has, zs, _, hbs, rfl, rfl⟩
    exact ⟨xs, m, zs, has, hbs, rfl⟩
  · rintro ⟨xs, m, zs, has, hbs, rfl⟩
    exact ⟨xs, m, has, zs, s', hbs, rfl, rfl⟩

theorem runs_forM_append {α : Type} {f : α → Lower Unit} {as bs : List α} :
    Runs ((as ++ bs).forM f) s () s' ↔ ∃ m, Runs (as.forM f) s () m ∧ Runs (bs.forM f) m () s' := by
  have happend : (as ++ bs).forM f = (do as.forM f; bs.forM f) := List.forM_append
  rw [happend, runs_bind]
  exact ⟨fun ⟨_, m, h, h'⟩ => ⟨m, h, h'⟩, fun ⟨m, h, h'⟩ => ⟨(), m, h, h'⟩⟩

/-! ## The command and its fact -/

/-- The comments that what a command adds has besides those that name functions. -/
inductive CommandComment (c : Relational.Command) : String → Prop where
  | label : CommandComment c c.label
  | onDemand {x} (h : OnDemandComment x) : CommandComment c x

/-- Settled names stand for themselves, and made names are paired. -/
def Renaming.Over (ρ : Renaming) (n : Nat) (x y : String) : Prop := Kept n x y ∨ ρ.Pairs x y

section

variable {ρ : Renaming} {k n : Nat} {x y : String}

theorem Renaming.Made.numbered (h : ρ.Made k n) (hxy : ρ.Pairs x y) :
    ∃ hint i hint' j, k < i ∧ n < j ∧ x = numbered hint i ∧ y = numbered hint' j := by
  obtain ⟨i, hint, hint', _, he⟩ := h.getElem? hxy
  obtain ⟨rfl, rfl⟩ := Prod.mk.inj he
  exact ⟨hint, _, hint', _, by omega, by omega, rfl, rfl⟩

/-- Names that are made from now on are not settled, so the renaming is one to one on all names. -/
theorem Renaming.Made.biUnique_over (h : ρ.Made k n) (hnk : n ≤ k) :
    Relator.BiUnique (ρ.Over n) := by
  have hone := h.biUnique
  -- pairs of one kind are one to one; no name is both settled and made from now on
  constructor
  · rintro x x' y (⟨rfl, hx⟩ | hx) (⟨rfl, hx'⟩ | hx')
    · rfl
    · obtain ⟨_, _, hint, j, _, hj, _, hy⟩ := h.numbered hx'
      exact absurd hy (hx hint j hj)
    · obtain ⟨_, _, hint, j, _, hj, _, hy⟩ := h.numbered hx
      exact absurd hy (hx' hint j hj)
    · exact hone.1 hx hx'
  · rintro x y y' (⟨rfl, hy⟩ | hy) (⟨rfl, hy'⟩ | hy')
    · rfl
    · obtain ⟨hint, i, _, _, hi, _, hx, _⟩ := h.numbered hy'
      exact absurd hx (hy hint i (by omega))
    · obtain ⟨hint, i, _, _, hi, _, hx, _⟩ := h.numbered hy
      exact absurd hx (hy' hint i (by omega))
    · exact hone.2 hy hy'

end

/-- A command adds what its fact adds, up to names, when both are lowered from the same session but
for the count. -/
theorem command_follows_fact {G : FunctionSymbol → Prop} {c : Relational.Command} {n : Nat}
    {delta : Program} (hm : m.Gives G OnDemandComment)
    (h : Runs (command c) { m with fresh := n } delta s') :
    ∃ (ρ : Renaming) (m' : Session) (q : Program), ρ.Made n m.fresh ∧
      Runs (fact c.asFact) m () m' ∧ m'.program = m.program ++ q ∧
      delta.Renamed G (CommandComment c) ρ.Pairs q := by
  obtain ⟨t, k, ht, rfl, _⟩ := runs_command_asFact h
  -- the sessions fork here: the command begins with an empty program, the fact with the base
  have hstart : Forked G OnDemandComment { m with program := {}, fresh := n } m []
      { m with program := {}, fresh := n } m :=
    ⟨hm, .nil, {}, {}, m.onDemand, Program.renamed_empty, by simp, by simp⟩
  obtain ⟨ρ, u, m', _, hu, hforked, htu⟩ := follows_formula _ _ _ _ _ hstart ht
  obtain ⟨p, q, o, hpq, rfl, rfl⟩ := hforked.states
  refine ⟨ρ, _, q.assert _, hforked.made, runs_fact.2 ⟨u, _, hu, rfl⟩,
    (Program.append_assert _ _ _).symm, ?_⟩
  have hpq : Program.Renamed G (CommandComment c) ρ.Pairs p q :=
    hpq.mono (fun _ => .onDemand) fun _ _ h => h
  have hempty : ({} : Program) ++ p = p := rfl
  rw [hempty]
  exact hpq.assert ⟨.given .label, htu, rfl⟩

/-- The renaming takes what a command adds to what its fact adds. It is one to one, it leaves all
names as they are but those with the number of a call, and it leaves the base program as it is. -/
structure TakesToFact (spec : Relational.Specification) (c : Relational.Command)
    (r : String → String → Prop) (base p q : Program) : Prop where
  oneToOne : Relator.BiUnique r
  counted : ∀ x y, r x y → x ≠ y → ∃ hint i hint' j, x = numbered hint i ∧ y = numbered hint' j
  base : base.Renamed (Given spec) (fun _ => True) r base
  added : p.Renamed (Given spec) (CommandComment c) r q

/-- The first command of a label is found behind those of other labels. -/
theorem commandProgram?_eq {enc : Encoding} {c : Relational.Command} {delta : Program}
    {xs zs : List (Relational.Command × Program)} (h : enc.commands = xs ++ (c, delta) :: zs)
    (hfirst : ∀ d ∈ xs.map Prod.fst, d.label ≠ c.label) :
    enc.commandProgram? c.label = some (enc.base ++ delta) := by
  have hnone : xs.find? (fun p => p.1.label == c.label) = none := by
    rw [List.find?_eq_none]
    intro p hp
    simpa using hfirst p.1 (List.mem_map_of_mem hp)
  rw [Encoding.commandProgram?, h, List.find?_append, hnone]
  simp

/-- **A command is a trailing fact, independent of other commands.** The base program is the same
whatever commands there are. The first command of a label adds to it what the specification would
have as its base program with the command as its last fact instead of all commands, up to a
one-to-one renaming of the names that sessions make, and the very same when it is the first
command. -/
theorem command_as_fact {spec : Relational.Specification} {singletonsOnly : Bool} {enc : Encoding}
    (h : spec.lower singletonsOnly = .ok enc) :
    (∃ bare, spec.withoutCommands.lower singletonsOnly = .ok bare ∧ bare.base = enc.base) ∧
    (∀ cs other, Relational.Specification.lower { spec with commands := cs } singletonsOnly
      = .ok other → other.base = enc.base) ∧
    ∀ before c after, spec.commands = before ++ c :: after → (∀ d ∈ before, d.label ≠ c.label) →
      ∃ other p q r, (spec.withFact c).lower singletonsOnly = .ok other ∧
        enc.commandProgram? c.label = some (enc.base ++ p) ∧ other.base = enc.base ++ q ∧
        TakesToFact spec c r enc.base p q ∧ (before = [] → p = q) := by
  obtain ⟨m₁, m₂, m₃, m₄, hsignatures, hfields, hfacts, hcommands, hbase, _⟩ := runs_lower h
  obtain ⟨_, _, _, rfl⟩ := runs_commands_keeps hcommands
  have hbase : enc.base = m₃.program := hbase
  refine ⟨?_, fun cs other hother => ?_, fun before c after hsplit hfirst => ?_⟩
  · obtain ⟨bare, hbare, hb⟩ := lower_of_runs spec.withoutCommands hsignatures hfields
      hfacts (runs_pure.2 ⟨rfl, rfl⟩)
    exact ⟨bare, hbare, hb.trans hbase.symm⟩
  · obtain ⟨k₁, k₂, k₃, k₄, hsignatures', hfields', hfacts', hcommands', hbase', _⟩ :=
      runs_lower hother
    obtain ⟨_, _, _, rfl⟩ := runs_commands_keeps hcommands'
    -- the runs up to the commands are the same
    obtain ⟨_, rfl⟩ := hsignatures.unique hsignatures'
    obtain ⟨_, rfl⟩ := hfields.unique hfields'
    obtain ⟨_, rfl⟩ := hfacts.unique hfacts'
    exact hbase'.trans hbase.symm
  · have hstable : m₃.Stable (Given spec) := stable_facts hsignatures hfields hfacts
    rw [hsplit] at hcommands
    obtain ⟨xs, k, zs, hbefore, hrest, hall⟩ := runs_mapM_append.1 hcommands
    simp only [List.mapM_cons, runs_bind, runs_pure] at hrest
    obtain ⟨_, k', ⟨p, _, hp, rfl, rfl⟩, rest, _, _, rfl, rfl⟩ := hrest
    -- the commands before have left a count `n`, and that is all
    obtain ⟨hkeys, n, hn, rfl⟩ := runs_commands_keeps hbefore
    have hgives : m₃.Gives (Given spec) OnDemandComment := { hstable.gives with comment := id }
    obtain ⟨ρ, m', q, hmade, hfact, hprogram, hpq⟩ := command_follows_fact hgives hp
    obtain ⟨other, hother, hb⟩ := lower_of_runs (spec.withFact c) hsignatures hfields
      (runs_forM_append.2 ⟨m₃, hfacts, runs_bind.2 ⟨(), m', hfact, runs_pure.2 ⟨rfl, rfl⟩⟩⟩)
      (runs_pure.2 ⟨rfl, rfl⟩)
    refine ⟨other, p, q, ρ.Over m₃.fresh, hother, commandProgram?_eq hall.symm (hkeys ▸ hfirst),
      by rw [hb, hprogram, hbase], ⟨hmade.biUnique_over hn, ?_, ?_, ?_⟩, ?_⟩
    · rintro x y (⟨rfl, _⟩ | hxy) hne
      · exact absurd rfl hne
      · obtain ⟨hint, i, hint', j, _, _, hx, hy⟩ := hmade.numbered hxy
        exact ⟨hint, i, hint', j, hx, hy⟩
    · rw [hbase]
      exact hstable.program.mono (fun _ h => h) fun _ _ => .inl
    · exact hpq.mono (fun _ h => h) fun _ _ => .inr
    · rintro rfl
      -- nothing has been counted since the facts
      obtain ⟨rfl, hsame⟩ := runs_pure.1 hbefore
      have hcount : m₃.fresh = n := congrArg Session.fresh hsame
      rw [← hcount] at hmade
      exact hpq.eq_of_diagonal hmade.diagonal

/-- The formula that one and one are two. -/
def oneAndOne : Relational.Expr :=
  .binary .eq (.call "plus" [.number 1, .number 1] [.int]) (.number 2)

/-- The command to check the formula. -/
def checkSum : Relational.Command := ⟨"check", oneAndOne, true, { file := "sum.als", line := 2 }⟩

/-- A specification with a command to run the formula, and then the command to check it. -/
def sumTwice : Relational.Specification where
  commands := [⟨"run", oneAndOne, false, { file := "sum.als", line := 1 }⟩, checkSum]

/-- The second command, which has symbols on demand and an operation in common with the first, adds
what its fact adds. -/
theorem command_as_fact_sumTwice : ∃ enc other p q r, sumTwice.lower true = .ok enc ∧
    (sumTwice.withFact checkSum).lower true = .ok other ∧
    enc.commandProgram? "check" = some (enc.base ++ p) ∧ other.base = enc.base ++ q ∧
    TakesToFact sumTwice checkSum r enc.base p q := by
  have hlowered : (sumTwice.lower true).isOk = true := by decide +kernel
  cases h : sumTwice.lower true with
  | error e => simp [h, Except.isOk, Except.toBool] at hlowered
  | ok enc =>
    have hfirst : ∀ d ∈ [(⟨"run", oneAndOne, false, { file := "sum.als", line := 1 }⟩ :
        Relational.Command)], d.label ≠ checkSum.label := by
      intro d hd
      obtain rfl := List.mem_singleton.1 hd
      decide
    obtain ⟨other, p, q, r, hother, hprogram, hbase, htakes, _⟩ :=
      (command_as_fact h).2.2 [_] checkSum [] rfl hfirst
    exact ⟨enc, other, p, q, r, rfl, hother, hprogram, hbase, htakes⟩

/-- The names of the two are not the same: the first command has counted. -/
example : (match sumTwice.lower true, (sumTwice.withFact checkSum).lower true with
    | .ok enc, .ok other => (enc.commandProgram? "check").map (fun p => p.functions.map
        FunctionItem.name) == some (other.base.functions.map FunctionItem.name)
    | _, _ => true) = false := by decide +kernel

end Lowering

end RelSmt
