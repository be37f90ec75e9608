import RelSmt.Proofs.Lowering.NestingFormula
import RelSmt.Proofs.Lowering.Uncaptured

/-!
# Fresh names never clash

The counter numbers the names that it makes, and the number can be read off a name whatever it was
made from. So names drawn from a session are different, no matter what they are made from and what
happens in between. From this it follows that lowering never finds a variable captured and never
puts a quantifier below one that binds the same name, which the two walks through lowering have
shown.
-/

namespace RelSmt.Lowering

variable {s m s' : Session}

/-! ## Drawing names -/

/-- Names drawn from a session one after another. What happens in between may do anything to the
session but turn the counter back. -/
inductive Draws : Session → List String → Session → Prop where
  | done (s : Session) : Draws s [] s
  | name {s m s' : Session} {hint x : String} {xs : List String}
      (hdraw : Runs (freshName hint) s x m) (hrest : Draws m xs s') : Draws s (x :: xs) s'
  | between {s m s' : Session} {xs : List String} (hfresh : s.fresh ≤ m.fresh)
      (hrest : Draws m xs s') : Draws s xs s'

/-- What is drawn has a number that was not taken before. -/
theorem Draws.numbered {xs : List String} (h : Draws s xs s') :
    ∀ x ∈ xs, ∃ hint k, s.fresh < k ∧ x = Lowering.numbered hint k := by
  induction h with
  | done => simp
  | @name s m _ hint x xs hdraw _ ih =>
    obtain ⟨rfl, rfl⟩ := runs_freshName.1 hdraw
    refine List.forall_mem_cons.2 ⟨⟨hint, _, Nat.lt_succ_self _, rfl⟩, fun y hy => ?_⟩
    obtain ⟨hint', k, hk, rfl⟩ := ih y hy
    exact ⟨hint', k, Nat.lt_of_succ_lt hk, rfl⟩
  | between hfresh _ ih =>
    intro x hx
    obtain ⟨hint, k, hk, rfl⟩ := ih x hx
    exact ⟨hint, k, Nat.lt_of_le_of_lt hfresh hk, rfl⟩

theorem Draws.nodup {xs : List String} (h : Draws s xs s') : xs.Nodup := by
  induction h with
  | done => exact List.nodup_nil
  | name hdraw hrest ih =>
    obtain ⟨rfl, rfl⟩ := runs_freshName.1 hdraw
    -- were the name drawn again, its number would be one of a later call
    refine List.nodup_cons.2 ⟨fun hmem => ?_, ih⟩
    obtain ⟨hint, k, hk, he⟩ := hrest.numbered _ hmem
    have := numbered_injective he
    rw [Session.next_fresh] at hk
    omega
  | between _ _ ih => exact ih

/-- Any hints can be made names of, with nothing in between. -/
theorem draws_mapM : ∀ (hints : List String) (s : Session), ∃ xs s',
    Runs (hints.mapM freshName) s xs s' ∧ xs.length = hints.length ∧ Draws s xs s'
  | [], s => ⟨[], s, by simp, rfl, .done s⟩
  | hint :: hints, s => by
    obtain ⟨xs, s', hruns, hlength, hdraws⟩ := draws_mapM hints s.next
    have hdraw : Runs (freshName hint) s (Lowering.numbered hint (s.fresh + 1)) s.next :=
      runs_freshName.2 ⟨rfl, rfl⟩
    refine ⟨_ :: xs, s', ?_, by simp [hlength], .name hdraw hdraws⟩
    simp only [List.mapM_cons, runs_bind, runs_pure]
    exact ⟨_, _, hdraw, xs, s', hruns, rfl, rfl⟩

/-! ## Specifications -/

theorem nests_declareSignature {r : Relational.Signature} (h : Runs (declareSignature r) s () s') :
    Nests s s' := by
  rcases declareSignature_cases h with ⟨_, _, m, hints, rfl⟩ | ⟨_, rfl⟩
  · exact (nests_integers hints).trans (nests_of_eq (Nat.le_refl _) rfl)
  · exact (nests_declaring s _).trans (nests_of_eq (Nat.le_refl _) rfl)

theorem nests_declareField {f : Relational.Field} (h : Runs (declareField f) s () s') :
    Nests s s' := by
  obtain rfl := declareField_eq h
  exact (nests_declaring s _).trans (nests_of_eq (Nat.le_refl _) rfl)

/-- **No assertion binds a name again**, neither in the base program nor in what a command adds. -/
theorem once_lower {spec : Relational.Specification} {singletonsOnly : Bool} {enc : Encoding}
    (h : spec.lower singletonsOnly = .ok enc) :
    (∀ a ∈ enc.base.assertions, a.formula.rebinds [] = false) ∧
      ∀ c delta, (c, delta) ∈ enc.commands →
        ∀ a ∈ delta.assertions, a.formula.rebinds [] = false := by
  obtain ⟨m₁, m₂, m₃, m₄, hsignatures, hfields, hfacts, hcommands, hbase, _⟩ := runs_lower h
  obtain ⟨hprogram, hcs⟩ := runs_commands hcommands
  -- a walk that starts with no known variable is fine in any session, so nothing is carried along
  have hfine : ∀ {s : Session}, nestingFormulas.Fine s := fun v hv => hv.elim
  obtain ⟨k, hdeclare, hk⟩ := kept_signatures (K := nestingFormulas) hsignatures
  have h₁ : Nests _ m₁ := (hdeclare.forM (P := Nests) .refl .trans fun _ _ _ _ h =>
    nests_declareSignature h).trans (hk hfine)
  obtain ⟨k, hdeclare, hk⟩ :=
    kept_fields (K := nestingFormulas) (fun _ _ _ _ _ _ => trivial) hfields
  have h₂ : Nests m₁ m₂ := (hdeclare.forM (P := Nests) .refl .trans fun _ _ _ _ h =>
    h.forM (P := Nests) .refl .trans fun _ _ _ _ h => nests_declareField h).trans (hk hfine)
  have h₃ : Nests m₂ m₃ := kept_forM (K := nestingFormulas)
    (fun f _ {_ _} hs h => kept_fact (fun _ _ => trivial) hs h) hfine hfacts
  constructor
  · intro a ha
    rw [hbase, hprogram] at ha
    rcases ((h₁.trans h₂).trans h₃).assertions a ha with hstart | hnew
    · obtain rfl := List.mem_singleton.1 hstart
      rfl
    · exact hnew
  · intro c delta hc a ha
    -- a command is lowered over an empty program: all that it asserts is new
    obtain ⟨_, k, k', _, _, _, hrun⟩ := hcs c delta hc
    obtain ⟨m, hm, rfl⟩ :=
      kept_command (K := nestingFormulas) (fun _ _ => trivial) hfine hrun
    exact (hm.assertions a ha).resolve_left (by simp)

/-- **Fresh names never repeat, and lowering never captures.** Names that are drawn from a session
are different, whatever they are made from: any hints make names, and names drawn with other steps
in between are as different as those drawn at once. No specification is refused because a variable
would be captured, and no assertion has a quantifier below one that binds the same name. -/
theorem fresh_names_never_clash :
    (∀ (s : Session) (hints : List String), ∃ xs s', Runs (hints.mapM freshName) s xs s' ∧
      xs.length = hints.length ∧ xs.Nodup) ∧
    (∀ (s : Session) (xs : List String) (s' : Session), Draws s xs s' → xs.Nodup) ∧
    ∀ (spec : Relational.Specification) (singletonsOnly : Bool),
      (∀ v t, spec.lower singletonsOnly ≠ .error (.capture v t)) ∧
      ∀ enc, spec.lower singletonsOnly = .ok enc →
        (∀ a ∈ enc.base.assertions, a.formula.rebinds [] = false) ∧
        ∀ c delta, (c, delta) ∈ enc.commands →
          ∀ a ∈ delta.assertions, a.formula.rebinds [] = false := by
  refine ⟨fun s hints => ?_, fun s xs s' h => h.nodup, fun spec singletonsOnly =>
    ⟨fun v t h => ?_, fun enc h => once_lower h⟩⟩
  · -- the hints play no part here: it is the counter that tells the names apart
    obtain ⟨xs, s', hruns, hlength, hdraws⟩ := draws_mapM hints s
    exact ⟨xs, s', hruns, hlength, hdraws.nodup⟩
  · exact (avoids_lower spec singletonsOnly).not_of_error h trivial

/-- There is one atom for which there is one atom that is it. The inner variable is declared with a
name that a copy could get, and the body of the outer quantifier, with a copy in it, is copied once
more. -/
def uniqueTwice : Relational.Specification :=
  let sig : Relational.SigRef := ⟨0, "this/A", .atom, false⟩
  let outer : Relational.Var := ⟨.declared 0, "x", [.atom]⟩
  let inner : Relational.Var := ⟨.declared 1, "x_1", [.atom]⟩
  { signatures := [⟨sig, .top, false, none, {}⟩]
    facts := [⟨"F", .quantified .one [.mk [outer] .one (.sig sig) false]
      (.quantified .one [.mk [inner] .one (.sig sig) false]
        (.binary .eq (.var inner) (.var outer))), {}⟩] }

/-- The fact of the specification binds six names. Two of them it binds twice, but in separate
places and never below one another. -/
theorem fresh_names_uniqueTwice : ∃ enc, uniqueTwice.lower true = .ok enc ∧
    (∃ a ∈ enc.base.assertions,
      a.formula.boundNames = ["x_1", "x_1_2", "x_1_2_3", "x_1_4", "x_1_2", "x_1_2_3"] ∧
      a.formula.rebinds [] = false) ∧
    Draws (.start true) ["x_1", "x_1_2"] (Session.start true).next.next ∧
    ["x_1", "x_1_2"].Nodup := by
  have hbound : (match uniqueTwice.lower true with
      | .ok enc => enc.base.assertions.any fun a => a.formula.boundNames ==
          ["x_1", "x_1_2", "x_1_2_3", "x_1_4", "x_1_2", "x_1_2_3"]
      | .error _ => false) = true := by decide +kernel
  have hfirst : Runs (freshName "x") (.start true) "x_1" (Session.start true).next :=
    runs_freshName.2 ⟨rfl, rfl⟩
  have hsecond : Runs (freshName "x_1") (Session.start true).next "x_1_2"
      (Session.start true).next.next := runs_freshName.2 ⟨rfl, rfl⟩
  have hdraws : Draws (.start true) ["x_1", "x_1_2"] (Session.start true).next.next :=
    .name hfirst (.name hsecond (.done _))
  split at hbound
  · rename_i enc h
    obtain ⟨a, ha, hbound⟩ := List.any_eq_true.1 hbound
    have honce := ((fresh_names_never_clash.2.2 uniqueTwice true).2 enc h).1
    exact ⟨enc, h, ⟨a, ha, eq_of_beq hbound, honce a ha⟩, hdraws,
      fresh_names_never_clash.2.1 _ _ _ hdraws⟩
  · simp at hbound

end RelSmt.Lowering
