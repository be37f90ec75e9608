import RelSmt.Proofs.Lowering.Command
import RelSmt.Proofs.Lowering.DisciplineFormula

/-!
# Labels of a lowered specification

Facts and commands are labelled by their positions, and nothing else is labelled. All other steps of
lowering assert without a label and give none out (`Unlabelled`), wherever they add an axiom between
two facts. So the labels in a base program are those of facts. A fact goes without one only where an
earlier fact has it, and a command where any fact has it, so that no script has a label twice
(`labels_unique`).
-/

namespace RelSmt

/-- The labels in a program, in the order of the assertions. -/
def Program.labels (p : Program) : List String := p.assertions.filterMap Assertion.label

theorem Program.labels_append (p q : Program) : (p ++ q).labels = p.labels ++ q.labels :=
  List.filterMap_append

/-- A place has a label when its file is known. -/
theorem Position.label?_eq_some {p : Position} {l : String} :
    p.label? = some l ↔ p.file ≠ "" ∧ l = p.label := by
  unfold Position.label?
  split
  · rename_i hfile
    have hempty : p.file = "" := by simpa using hfile
    simp [hempty]
  · rename_i hfile
    have hknown : p.file ≠ "" := by simpa using hfile
    rw [Option.some.injEq, and_iff_right hknown, eq_comm]

namespace Lowering

variable {s m s' : Session}

/-! ## Steps without labels -/

/-- Have only assertions without a label been added, and no labels been given out? -/
structure Unlabelled (s s' : Session) : Prop where
  labels : s'.labels = s.labels
  added : ∃ as, s'.program.assertions = s.program.assertions ++ as ∧ ∀ a ∈ as, a.label = none

theorem unlabelled_of_eq (hlabels : s'.labels = s.labels)
    (hassertions : s'.program.assertions = s.program.assertions) : Unlabelled s s' :=
  ⟨hlabels, [], by simpa using hassertions, List.forall_mem_nil _⟩

theorem unlabelled_of_append {a : Assertion} (hlabels : s'.labels = s.labels)
    (hassertions : s'.program.assertions = s.program.assertions ++ [a]) (ha : a.label = none) :
    Unlabelled s s' :=
  ⟨hlabels, [a], hassertions, List.forall_mem_singleton.2 ha⟩

theorem Unlabelled.refl (s : Session) : Unlabelled s s := unlabelled_of_eq rfl rfl

theorem Unlabelled.trans (h : Unlabelled s m) (h' : Unlabelled m s') : Unlabelled s s' := by
  obtain ⟨as, has, hnone⟩ := h.added
  obtain ⟨bs, hbs, hnone'⟩ := h'.added
  exact ⟨h'.labels.trans h.labels, as ++ bs, by rw [hbs, has, List.append_assoc],
    List.forall_mem_append.2 ⟨hnone, hnone'⟩⟩

theorem unlabelled_integers {t : Term} (h : Runs integers s t s') : Unlabelled s s' := by
  obtain ⟨_, ⟨_, rfl⟩ | ⟨_, _, rfl⟩⟩ := integers_cases h
  · exact .refl _
  · exact unlabelled_of_append rfl rfl rfl

/-- **What facts are put together from is asserted without a label.** -/
def unlabelling : Discipline where
  Fine _ := True
  Leads := Unlabelled
  Named _ _ := True
  Known _ _ := True
  Hinted _ := True
  refl := .refl
  trans := .trans
  fine _ _ := trivial
  named _ _ := trivial
  known _ _ := trivial
  next _ := unlabelled_of_eq rfl rfl
  asserting hlabel _ := unlabelled_of_append rfl rfl hlabel
  counted _ _ := ⟨unlabelled_of_eq rfl rfl, trivial⟩
  fresh _ _ := trivial
  own _ := trivial
  copy _ := trivial
  inlined _ _ _ _ _ := trivial
  value _ := trivial
  signature _ _ := trivial
  field _ _ := trivial
  int _ h := by
    obtain ⟨_, ⟨_, rfl⟩ | ⟨_, _, rfl⟩⟩ := intConstant_cases h
    · exact ⟨.refl _, trivial⟩
    · exact ⟨unlabelled_of_append rfl rfl rfl, trivial⟩
  iden _ h := by
    obtain ⟨_, ⟨_, rfl⟩ | ⟨_, _, rfl⟩⟩ := atomIden_cases h
    · exact ⟨.refl _, trivial⟩
    · exact ⟨unlabelled_of_append rfl rfl rfl, trivial⟩
  integers _ h := ⟨unlabelled_integers h, trivial⟩

theorem unlabelled_formula {e : Relational.Expr} {t : Term} (h : Runs (formula e) s t s') :
    Unlabelled s s' :=
  (kept_formula (D := unlabelling) h trivial fun _ _ => trivial).1

theorem unlabelled_declareSignature {r : Relational.Signature}
    (h : Runs (declareSignature r) s () s') : Unlabelled s s' := by
  rcases declareSignature_cases h with ⟨_, _, m, hints, rfl⟩ | ⟨_, rfl⟩
  · exact (unlabelled_integers hints).trans (unlabelled_of_eq rfl rfl)
  · exact unlabelled_of_eq rfl rfl

theorem unlabelled_signatures {all : List Relational.Signature}
    (h : Runs (signatures all) s () s') : Unlabelled s s' := by
  obtain ⟨m, hdeclare, hrest⟩ := kept_signatures (K := unlabelling.keeping) h
  have hm := hdeclare.forM (P := Unlabelled) .refl .trans fun _ _ _ _ h =>
    unlabelled_declareSignature h
  exact hm.trans (hrest trivial)

theorem unlabelled_fields {groups : List Relational.FieldGroup} (h : Runs (fields groups) s () s') :
    Unlabelled s s' := by
  obtain ⟨m, hdeclare, hrest⟩ :=
    kept_fields (K := unlabelling.keeping) (fun _ _ _ _ _ _ => trivial) h
  have hm := hdeclare.forM (P := Unlabelled) .refl .trans fun _ _ _ _ h =>
    h.forM (P := Unlabelled) .refl .trans fun _ _ _ _ h => by
      obtain rfl := declareField_eq h
      exact unlabelled_of_eq rfl rfl
  exact hm.trans (hrest trivial)

/-! ## Facts -/

/-- Is this the assertion of the fact, where the labels `used` have been given out? -/
structure AssertsFact (used : List String) (f : Relational.Fact) (a : Assertion) : Prop where
  comment : a.comment = f.label
  formula : ∃ s s', Runs (formula f.formula) s a.formula s'
  labelled : ∀ l, a.label = some l → f.position.file ≠ "" ∧ l = f.position.label ∧ l ∉ used
  unlabelled : f.position.file ≠ "" → a.label = none → f.position.label ∈ used

/-- Are these the assertions of the facts, one fact after the other, each behind what its formula is
in need of? What has been given out when a fact's turn comes are the labels of facts before it. -/
inductive AssertsFacts : List String → List Relational.Fact → List Assertion → Prop
  | nil (used : List String) : AssertsFacts used [] []
  | cons {used : List String} {f : Relational.Fact} {fs : List Relational.Fact}
      {needed as : List Assertion} {own : Assertion} (hneeded : ∀ a ∈ needed, a.label = none)
      (hown : AssertsFact used f own) (hrest : AssertsFacts (own.label.toList ++ used) fs as) :
      AssertsFacts used (f :: fs) (needed ++ own :: as)

/-- A position gives a label unless that has been given out. -/
theorem assertsFact_of_runs {used : List String} {f : Relational.Fact} {t : Term}
    (h : Runs (formula f.formula) s t s') :
    AssertsFact used f ⟨f.label, t, f.position.label?.filter fun l => !used.contains l⟩ where
  comment := rfl
  formula := ⟨s, s', h⟩
  labelled l hl := by
    obtain ⟨hlabel, hunused⟩ := Option.filter_eq_some_iff.1 hl
    obtain ⟨hfile, hl⟩ := Position.label?_eq_some.1 hlabel
    exact ⟨hfile, hl, by simpa using hunused⟩
  unlabelled hfile hnone := by
    have hlabel := Position.label?_eq_some.2 ⟨hfile, rfl⟩
    simpa using Option.filter_eq_none_iff.1 hnone _ hlabel

theorem filterMap_label_eq_nil {as : List Assertion} (h : ∀ a ∈ as, a.label = none) :
    as.filterMap Assertion.label = [] :=
  List.filterMap_eq_nil_iff.2 h

theorem filterMap_label_own {needed : List Assertion} (h : ∀ a ∈ needed, a.label = none)
    (own : Assertion) (as : List Assertion) :
    (needed ++ own :: as).filterMap Assertion.label
      = own.label.toList ++ as.filterMap Assertion.label := by
  rw [List.filterMap_append, filterMap_label_eq_nil h, List.nil_append, List.filterMap_cons]
  cases own.label <;> rfl

/-- Facts are given different labels, and none that was given out before. -/
theorem AssertsFacts.nodup {used : List String} {fs : List Relational.Fact} {as : List Assertion}
    (h : AssertsFacts used fs as) :
    (as.filterMap Assertion.label).Nodup ∧ ∀ l ∈ as.filterMap Assertion.label, l ∉ used := by
  induction h with
  | nil used => simp
  | @cons used f fs needed as own hneeded hown _ ih =>
    obtain ⟨hnodup, hunused⟩ := ih
    rw [filterMap_label_own hneeded]
    cases hlabel : own.label with
    | none => exact ⟨hnodup, fun l hl hl' => hunused l hl (List.mem_append_right _ hl')⟩
    | some l =>
      rw [hlabel] at hunused
      refine ⟨List.nodup_cons.2 ⟨fun hl => hunused l hl List.mem_cons_self, hnodup⟩, ?_⟩
      refine List.forall_mem_cons.2 ⟨(hown.labelled l hlabel).2.2, fun k hk hk' => ?_⟩
      exact hunused k hk (List.mem_cons_of_mem _ hk')

/-- **Lowering facts asserts them one after the other**, and the session remembers their labels. -/
theorem assertsFacts_of_runs : ∀ {fs : List Relational.Fact} {s s' : Session},
    Runs (fs.forM fact) s () s' → ∃ as, s'.program.assertions = s.program.assertions ++ as ∧
      AssertsFacts s.labels fs as ∧
      ∀ l, l ∈ s'.labels ↔ l ∈ as.filterMap Assertion.label ∨ l ∈ s.labels
  | [], s, s', h => by
    obtain ⟨_, rfl⟩ := runs_pure.1 h
    exact ⟨[], by simp, .nil _, by simp⟩
  | f :: fs, s, s', h => by
    obtain ⟨k, hf, hfs⟩ := runs_forM_cons.1 h
    obtain ⟨t, m, ht, rfl⟩ := runs_fact.1 hf
    obtain ⟨hlabels, needed, hneeded, hnone⟩ := unlabelled_formula ht
    obtain ⟨as, has, hrest, hgiven⟩ := assertsFacts_of_runs hfs
    rw [hlabels] at has hrest hgiven
    refine ⟨_, ?_, .cons hnone (assertsFact_of_runs ht) hrest, fun l => ?_⟩
    · rw [has, Session.asserting, Program.assert, hneeded, List.append_assoc, List.append_assoc,
        List.singleton_append]
    · rw [hgiven, filterMap_label_own hnone, List.mem_append, List.mem_append]
      exact or_left_comm.trans or_assoc.symm

/-! ## Commands -/

/-- What a command adds is what its formula is in need of and its own assertion, and no labels are
given out for it. -/
theorem asserts_command {c : Relational.Command} {delta : Program}
    (h : Runs (command c) s delta s') : s'.program = s.program ∧ s'.labels = s.labels ∧
      ∃ needed own, delta.assertions = needed ++ [own] ∧ (∀ a ∈ needed, a.label = none) ∧
        AssertsFact s.labels c.asFact own := by
  obtain ⟨t, m, ht, rfl, rfl⟩ := runs_command_asFact h
  obtain ⟨hlabels, needed, hneeded, hnone⟩ := unlabelled_formula ht
  refine ⟨rfl, hlabels, needed, _, ?_, hnone, assertsFact_of_runs ht⟩
  rw [Program.assert, hneeded]
  rfl

/-- Commands find the labels of facts, and nothing that another command has left. -/
theorem asserts_commands : ∀ {cs : List Relational.Command} {s s' : Session}
    {lowered : List (Relational.Command × Program)},
    Runs (cs.mapM fun c => do return (c, ← command c)) s lowered s' →
    s'.program = s.program ∧ ∀ p ∈ lowered, p.1 ∈ cs ∧ ∃ needed own,
      p.2.assertions = needed ++ [own] ∧ (∀ a ∈ needed, a.label = none) ∧
        AssertsFact s.labels p.1.asFact own
  | [], s, s', lowered, h => by
    obtain ⟨rfl, rfl⟩ := runs_pure.1 h
    exact ⟨rfl, List.forall_mem_nil _⟩
  | c :: cs, s, s', lowered, h => by
    simp only [List.mapM_cons, runs_bind, runs_pure] at h
    obtain ⟨_, _, ⟨delta, m, hdelta, rfl, rfl⟩, rest, _, hrest, rfl, rfl⟩ := h
    obtain ⟨hprogram, hlabels, hasserts⟩ := asserts_command hdelta
    obtain ⟨hlast, hothers⟩ := asserts_commands hrest
    rw [hlabels] at hothers
    exact ⟨hlast.trans hprogram, List.forall_mem_cons.2 ⟨⟨List.mem_cons_self, hasserts⟩,
      fun p hp => (hothers p hp).imp_left (List.mem_cons_of_mem _)⟩⟩

/-- What has been given out counts only by the labels in it. -/
theorem AssertsFact.congr {used used' : List String} {f : Relational.Fact} {a : Assertion}
    (h : AssertsFact used f a) (hused : ∀ l, l ∈ used ↔ l ∈ used') : AssertsFact used' f a where
  comment := h.comment
  formula := h.formula
  labelled l hl := (h.labelled l hl).imp_right fun h => h.imp_right (mt (hused l).2)
  unlabelled hfile hnone := (hused _).1 (h.unlabelled hfile hnone)

/-- The label of one more fact is none of those given out before. -/
theorem AssertsFact.nodup {used : List String} {f : Relational.Fact} {a : Assertion}
    (h : AssertsFact used f a) (hused : used.Nodup) : (used ++ a.label.toList).Nodup := by
  refine List.nodup_append.2 ⟨hused, by cases a.label <;> simp, fun l hl k hk he => ?_⟩
  exact (h.labelled k (Option.mem_toList.1 hk)).2.2 (he ▸ hl)

/-! ## Specifications -/

/-- **Labels are unique, and they are those of positions.** In the base program of a specification
the facts are asserted one after the other, each under the label of its position unless an earlier
fact has it, and nothing else has a label. What a command adds is its own assertion, under the label
of its position unless a fact has it, behind assertions without labels. No label stands twice in the
base program or in the program of a command. -/
theorem labels_unique {spec : Relational.Specification} {singletonsOnly : Bool} {enc : Encoding}
    (h : spec.lower singletonsOnly = .ok enc) :
    enc.base.labels.Nodup ∧
    (∃ start as, enc.base.assertions = start ++ as ∧ (∀ a ∈ start, a.label = none) ∧
      AssertsFacts [] spec.facts as) ∧
    ∀ name p, enc.commandProgram? name = some p → p.labels.Nodup ∧
      ∃ c ∈ spec.commands, c.label = name ∧ ∃ needed own,
        p.assertions = enc.base.assertions ++ (needed ++ [own]) ∧
        (∀ a ∈ needed, a.label = none) ∧ AssertsFact enc.base.labels c.asFact own := by
  obtain ⟨m₁, m₂, m₃, m₄, hsignatures, hfields, hfacts, hcommands, hbase, _⟩ := runs_lower h
  obtain ⟨hnone, start, hstart, hunlabelled⟩ :=
    (unlabelled_signatures hsignatures).trans (unlabelled_fields hfields)
  obtain ⟨as, has, hasserts, hgiven⟩ := assertsFacts_of_runs hfacts
  obtain ⟨hprogram, hcs⟩ := asserts_commands hcommands
  rw [hnone] at hasserts hgiven
  -- nothing has been given out before the first fact
  have hassertions : enc.base.assertions
      = ((Session.initial singletonsOnly spec.functions).program.assertions ++ start) ++ as := by
    rw [hbase, hprogram, has, hstart]
  have hfirst : ∀ a ∈ (Session.initial singletonsOnly spec.functions).program.assertions ++ start,
      a.label = none :=
    List.forall_mem_append.2 ⟨List.forall_mem_singleton.2 rfl, hunlabelled⟩
  have hlabels : enc.base.labels = as.filterMap Assertion.label := by
    rw [Program.labels, hassertions, List.filterMap_append, filterMap_label_eq_nil hfirst,
      List.nil_append]
  have hused : ∀ l, l ∈ m₃.labels ↔ l ∈ enc.base.labels := fun l => by
    rw [hgiven, hlabels]
    exact or_iff_left (List.not_mem_nil)
  have hnodup : enc.base.labels.Nodup := hlabels ▸ hasserts.nodup.1
  refine ⟨hnodup, ⟨_, as, hassertions, hfirst, hasserts⟩, fun name p hp => ?_⟩
  obtain ⟨⟨c, delta⟩, hfind, rfl⟩ := Option.map_eq_some_iff.1 hp
  obtain ⟨hc, needed, own, hdelta, hneeded, hown⟩ := hcs _ (List.mem_of_find?_eq_some hfind)
  have hown := hown.congr hused
  have hdeltaLabels : delta.labels = own.label.toList := by
    rw [Program.labels, hdelta, filterMap_label_own hneeded, List.filterMap_nil, List.append_nil]
  refine ⟨?_, c, hc, by simpa using List.find?_some hfind, needed, own, ?_, hneeded, hown⟩
  · rw [Program.labels_append, hdeltaLabels]
    exact hown.nodup hnodup
  · rw [← hdelta]
    rfl

/-- Two facts and a command at the same place, a fact nowhere and a command at a place of its own.
-/
def sharedPlaces : Relational.Specification where
  signatures := [⟨⟨0, "this/A", .atom, false⟩, .top, false, none, {}⟩]
  facts := [⟨"F", .binary .eq (.number 1) (.number 1), ⟨"a.als", 3, 1⟩⟩,
    ⟨"G", .binary .eq (.number 1) (.number 2), ⟨"a.als", 3, 1⟩⟩,
    ⟨"H", .binary .eq (.number 2) (.number 2), {}⟩]
  commands := [⟨"C", .binary .eq (.number 3) (.number 3), false, ⟨"a.als", 3, 1⟩⟩,
    ⟨"D", .binary .eq (.number 1) (.number 4), true, ⟨"a.als", 9, 1⟩⟩]

/-- The first fact and the second command are labelled. -/
theorem labels_unique_sharedPlaces : ∃ enc p q, sharedPlaces.lower true = .ok enc ∧
    enc.commandProgram? "C" = some p ∧ enc.commandProgram? "D" = some q ∧
    enc.base.labels = [Position.label ⟨"a.als", 3, 1⟩] ∧
    p.labels = [Position.label ⟨"a.als", 3, 1⟩] ∧
    q.labels = [Position.label ⟨"a.als", 3, 1⟩, Position.label ⟨"a.als", 9, 1⟩] ∧
    enc.base.labels.Nodup ∧ p.labels.Nodup ∧ q.labels.Nodup := by
  have hlabels : (match sharedPlaces.lower true with
      | .ok enc => decide (enc.base.labels = [Position.label ⟨"a.als", 3, 1⟩] ∧
          (enc.commandProgram? "C").map Program.labels = some [Position.label ⟨"a.als", 3, 1⟩] ∧
          (enc.commandProgram? "D").map Program.labels
            = some [Position.label ⟨"a.als", 3, 1⟩, Position.label ⟨"a.als", 9, 1⟩])
      | .error _ => false) = true := by decide +kernel
  split at hlabels
  · rename_i enc h
    obtain ⟨hbase, hC, hD⟩ := of_decide_eq_true hlabels
    obtain ⟨p, hp, hpLabels⟩ := Option.map_eq_some_iff.1 hC
    obtain ⟨q, hq, hqLabels⟩ := Option.map_eq_some_iff.1 hD
    obtain ⟨hnodup, _, hcommands⟩ := labels_unique h
    exact ⟨enc, p, q, h, hp, hq, hbase, hpLabels, hqLabels, hnodup, (hcommands _ _ hp).1,
      (hcommands _ _ hq).1⟩
  · simp at hlabels

end Lowering

end RelSmt
