import RelSmt.Proofs.Model.Reading
import RelSmt.Proofs.SExpr.Writing

/-!
# Labels of an unsat core

A solver answers with the labels of assertions as a script writes them after `:named`, each between
bars. Cores hold sanitized names, so a label can only come back when it has no bar in it and no
blank at its ends. The label of a position starts and ends with a brace, and whether there is a bar
in it depends on the name of the file alone: backslashes and double quotes are replaced there, and
bars are not.
-/

namespace RelSmt

namespace Position

/-- No replacement puts a bar in or takes one out. -/
theorem labelChar_eq_bar {c : Char} : labelChar c = '|' ↔ c = '|' := by
  unfold labelChar
  split
  · rename_i hc
    simp [hc]
  · split
    · rename_i hc
      simp [hc]
    · exact Iff.rfl

/-- The only bars in a label are those of the file's name. -/
theorem bar_mem_label (p : Position) : '|' ∈ p.label.toList ↔ '|' ∈ p.file.toList := by
  have hdigits (n : Nat) : '|' ∉ Nat.toDigits 10 n := fun h =>
    absurd (Nat.isDigit_of_mem_toDigits (by decide) (by decide) h) (by decide)
  have hfile : (∃ c ∈ p.file.toList, labelChar c = '|') ↔ '|' ∈ p.file.toList := by
    simp [labelChar_eq_bar]
  simp [label, labelMarker, hdigits, hfile]

theorem clean_label (p : Position) : Symbol.Clean p.label ↔ '|' ∉ p.file.toList := by
  rw [Symbol.clean_iff_ends, bar_mem_label]
  refine and_iff_left_of_imp fun _ => ⟨fun c hc => ?_, fun c hc => ?_⟩
  · have hopen : p.label.toList.head? = some '\x7b' := by simp [label]
    obtain rfl := Option.some.inj (hopen.symm.trans hc)
    decide
  · have hclose : p.label.toList.getLast? = some '\x7d' := by
      rw [label, String.toList_append]
      exact List.getLast?_concat
    obtain rfl := Option.some.inj (hclose.symm.trans hc)
    decide

end Position

namespace Reply

variable {text : String} {core : UnsatCore}

theorem label_eq_ok {x : SExpr} {l : String} :
    label x = .ok l ↔ ∃ name, x = .symbol name ∧ l = Symbol.sanitize name := by
  cases x <;> simp [label, eq_comm]

/-- A core is one list of symbols. -/
theorem unsatCore_eq_ok : unsatCore text = .ok core ↔
    ∃ xs, SExpr.readAll text = .ok [.list xs] ∧
      List.Forall₂ (fun x l => ∃ name, x = .symbol name ∧ l = Symbol.sanitize name) xs
        core.labels := by
  simp only [unsatCore, Checked.bind_eq_ok, sexprs_eq_ok, ← label_eq_ok]
  constructor
  · rintro ⟨xs, hxs, h⟩
    split at h
    · simp only [Checked.bind_eq_ok, Checked.pure_eq_ok] at h
      obtain ⟨labels, hlabels, rfl⟩ := h
      exact ⟨_, hxs, Checked.mapM_eq_ok.1 hlabels⟩
    · cases h
  · rintro ⟨xs, hxs, h⟩
    refine ⟨_, hxs, ?_⟩
    simp only [Checked.bind_eq_ok, Checked.pure_eq_ok]
    exact ⟨core.labels, Checked.mapM_eq_ok.2 h, rfl⟩

/-- Cores hold clean names only. -/
theorem clean_of_unsatCore (h : unsatCore text = .ok core) {l : String} (hl : l ∈ core.labels) :
    Symbol.Clean l := by
  obtain ⟨xs, _, hxs⟩ := unsatCore_eq_ok.1 h
  obtain ⟨x, _, name, rfl, rfl⟩ := exists_mem_of_forall₂ hxs hl
  exact Symbol.clean_sanitize name

/-- The reply that names the assertions at the given places, each label between bars as a script
has it. -/
def coreReply (ps : List Position) : String := inParens (ps.map fun p => "|" ++ p.label ++ "|")

theorem readAll_coreReply {ps : List Position} (h : ∀ p ∈ ps, '|' ∉ p.file.toList) :
    SExpr.readAll (coreReply ps) = .ok [.list (ps.map fun p => .symbol p.label)] := by
  refine (SExpr.reads_inParens ?_).readAll
  rw [List.forall₂_map_left_iff, List.forall₂_map_right_iff, List.forall₂_same]
  exact fun p hp => SExpr.reads_barred (p.clean_label.2 (h p hp))

/-- **A core names exactly the places it was sent for, unless there is a bar in the name of a
file.** A label with a bar in it comes back from no reply at all. -/
theorem unsatCore_coreReply (ps : List Position) :
    ((unsatCore (coreReply ps) = .ok ⟨ps.map Position.label⟩ ∧
        ∀ p ∈ ps, (UnsatCore.mk (ps.map Position.label)).contains p.label = true) ↔
      ∀ p ∈ ps, '|' ∉ p.file.toList) ∧
    ∀ p : Position, '|' ∈ p.file.toList →
      ∀ text core, unsatCore text = .ok core → core.contains p.label = false := by
  have hclean {text : String} {core : UnsatCore} (hcore : unsatCore text = .ok core)
      {p : Position} (hp : p.label ∈ core.labels) : '|' ∉ p.file.toList :=
    p.clean_label.1 (clean_of_unsatCore hcore hp)
  refine ⟨⟨fun ⟨hcore, _⟩ p hp => hclean hcore (List.mem_map_of_mem hp), fun h => ⟨?_, ?_⟩⟩, ?_⟩
  · refine unsatCore_eq_ok.2 ⟨_, readAll_coreReply h, ?_⟩
    rw [List.forall₂_map_left_iff, List.forall₂_map_right_iff, List.forall₂_same]
    exact fun p hp => ⟨p.label, rfl, (p.clean_label.2 (h p hp)).symm⟩
  · intro p hp
    exact List.contains_iff_mem.2 (List.mem_map_of_mem hp)
  · intro p hp text core hcore
    rw [← Bool.not_eq_true]
    exact fun hcontains => hclean hcore (List.contains_iff_mem.1 hcontains) hp

/-- Places in files whose names have blanks, backslashes, quotes and line feeds in them. -/
def oddPlaces : List Position :=
  [⟨" C:\\dir\\a \"b\".als ", 3, 14⟩, ⟨"", 0, 18446744073709551615⟩, ⟨"; (x\n)", 1, 1⟩]

theorem unsatCore_coreReply_oddPlaces :
    (unsatCore (coreReply oddPlaces) = .ok ⟨oddPlaces.map Position.label⟩ ∧
      ∀ p ∈ oddPlaces, (UnsatCore.mk (oddPlaces.map Position.label)).contains p.label = true) ∧
    unsatCore (coreReply [⟨"a|b", 1, 2⟩]) ≠ .ok ⟨[Position.label ⟨"a|b", 1, 2⟩]⟩ := by
  have hbar : '|' ∈ (Position.mk "a|b" 1 2).file.toList := by decide
  refine ⟨(unsatCore_coreReply oddPlaces).1.2 (by decide), fun hcore => ?_⟩
  have hnot := (unsatCore_coreReply oddPlaces).2 _ hbar _ _ hcore
  simp [UnsatCore.contains] at hnot

end Reply

end RelSmt
