import RelSmt.Proofs.Evaluation.Lasting

/-!
# Results of evaluation are fixed

An operator whose operands are not all known is rebuilt over what they come to. Evaluation leaves
nothing to fold behind: in its result every operator node is what folding makes of the operands
under it (`Term.Folded`). This lasts through evaluation (`Term.foldedResults`), since folding gives
a literal, one of its operands, a set in normal form or the node itself. A folded term has no names
in it, and evaluating it once more gives it back (`Folded.evaluateWith`).
-/

namespace RelSmt.Term

/-! ## Terms without names -/

mutual

/-- Is there no variable, constant, call or quantifier anywhere in the term? -/
def IsGround : Term → Prop
  | .literal _ => True
  | .emptySet _ => True
  | .fullSet _ => True
  | .variable _ => False
  | .symbol _ => False
  | .unary _ t => t.IsGround
  | .binary _ l r => l.IsGround ∧ r.IsGround
  | .ite c y n => c.IsGround ∧ y.IsGround ∧ n.IsGround
  | .nary _ ts => AreGround ts
  | .quantified _ _ _ => False
  | .call _ _ => False

/-- Is there none in any of the terms? -/
def AreGround : List Term → Prop
  | [] => True
  | t :: ts => t.IsGround ∧ AreGround ts

end

theorem areGround_iff {ts : List Term} : AreGround ts ↔ ∀ t ∈ ts, t.IsGround := by
  induction ts with
  | nil => simp [AreGround]
  | cons t ts ih => simp [AreGround, ih]

/-! ## Folded terms -/

/-- Is every operator in the term what folding makes of its operands? -/
inductive Folded : Term → Prop
  | literal (c : Literal) : Folded (.literal c)
  | emptySet (s : SmtSort) : Folded (.emptySet s)
  | fullSet (s : SmtSort) : Folded (.fullSet s)
  | unary {op : UnaryOp} {t : Term} (ht : Folded t) (hfold : foldUnary op t = .ok (.unary op t)) :
      Folded (.unary op t)
  | binary {op : BinaryOp} {l r : Term} (hl : Folded l) (hr : Folded r)
      (hfold : foldBinary op l r = .ok (.binary op l r)) : Folded (.binary op l r)
  | ite {c y n : Term} (hc : Folded c) (hy : Folded y) (hn : Folded n) (hopen : c.bool? = none)
      (hmk : mkIte c y n = .ok (.ite c y n)) : Folded (.ite c y n)
  | nary {op : NaryOp} {ts : List Term} (hts : ∀ t ∈ ts, Folded t)
      (hfold : foldNary op ts = .ok (.nary op ts)) : Folded (.nary op ts)

theorem Folded.isGround {t : Term} (h : Folded t) : t.IsGround := by
  induction h with
  | literal c => trivial
  | emptySet s => trivial
  | fullSet s => trivial
  | unary _ _ ih => exact ih
  | binary _ _ _ ihl ihr => exact ⟨ihl, ihr⟩
  | ite _ _ _ _ _ ihc ihy ihn => exact ⟨ihc, ihy, ihn⟩
  | nary _ _ ih => exact areGround_iff.2 ih

theorem evaluateAll_of_forall {call : Caller} {scope : Scope} : ∀ {ts : List Term},
    (∀ t ∈ ts, evaluateWith call scope t = .ok t) → evaluateAll call scope ts = .ok ts
  | [], _ => by rw [evaluateAll]
  | t :: ts, h => by
    obtain ⟨ht, hts⟩ := List.forall_mem_cons.1 h
    rw [evaluateAll, ht, evaluateAll_of_forall hts]
    rfl

/-- **A folded term evaluates to itself**, in whatever scope and however calls are carried out. -/
theorem Folded.evaluateWith {t : Term} (h : Folded t) (call : Caller) (scope : Scope) :
    evaluateWith call scope t = .ok t := by
  induction h with
  | literal c => rw [Term.evaluateWith]
  | emptySet s => rw [Term.evaluateWith]
  | fullSet s => rw [Term.evaluateWith]
  | unary _ hfold ih =>
    rw [Term.evaluateWith, ih]
    exact hfold
  | binary _ _ hfold ihl ihr =>
    rw [Term.evaluateWith, ihl, ihr]
    exact hfold
  | @ite c y n _ _ _ hopen hmk ihc ihy ihn =>
    rw [Term.evaluateWith, ihc, ihy, ihn]
    simp only [bind, Except.bind, hopen]
    exact hmk
  | nary _ hfold ih =>
    rw [Term.evaluateWith, evaluateAll_of_forall ih]
    exact hfold

/-! ## Evaluation -/

/-- **Results are folded.** A node is left over its operands only where folding rebuilds it, and
folding rebuilds it once more. -/
def foldedResults : Lasting where
  Source _ := True
  Result := Folded
  operands _ _ _ := trivial
  literal _ := .literal _
  emptySet _ := .emptySet _
  fullSet _ := .fullSet _
  bool _ := .literal _
  int _ := .literal _
  unary ht _ hfold := .unary ht hfold
  binary hl hr _ hfold := .binary hl hr hfold
  ite hc hy hn hopen hmk := .ite hc hy hn hopen hmk
  nary hts _ _ hfold := .nary hts hfold
  united h := by
    cases h with
    | binary hl hr _ => exact ⟨hl, hr⟩
  emptied _ _ _ := .emptySet _

/-- Do calls of folded arguments give folded results? -/
def KeepsFolded (call : Caller) : Prop :=
  ∀ d args v, (∀ a ∈ args, Folded a) → call d args = .ok v → Folded v

/-- Is every value that a name stands for folded? -/
def ScopeFolded (scope : Scope) : Prop :=
  scope.Resolves fun _ b => ∀ t, b = .value t → t.Folded

theorem ScopeFolded.holds {scope : Scope} (h : ScopeFolded scope) :
    scope.Resolves fun _ b => foldedResults.Holds b :=
  h.mono fun _ b hb => by
    cases b with
    | definition d => trivial
    | value t => exact hb t rfl

/-- **What a term evaluates to is folded**, if values in sight are and calls keep it so. -/
theorem folded_evaluateWith {call : Caller} {scope : Scope} (hcall : KeepsFolded call)
    (hscope : ScopeFolded scope) {t v : Term} (h : evaluateWith call scope t = .ok v) : Folded v :=
  lasts_evaluateWith (L := foldedResults) (fun d args v _ => hcall d args v) hscope.holds trivial h

/-- Calls keep terms folded, however many may be in progress. -/
theorem keepsFolded_callerWithin (depth : Nat) {scope : Scope} (hroot : ScopeFolded scope.root) :
    KeepsFolded (callerWithin depth scope) := fun d args v hargs h =>
  keeps_callerWithin (L := foldedResults) depth hroot.holds d args v trivial hargs h

end RelSmt.Term

namespace RelSmt

namespace Scope

/-- Are there definitions in the scope and nothing else? -/
def OnlyDefines (s : Scope) : Prop :=
  ∀ frame ∈ s.here :: s.around, ∀ b ∈ frame, ∃ d, b.2 = .definition d

theorem OnlyDefines.root {s : Scope} (h : s.OnlyDefines) : OnlyDefines s.root := by
  intro frame hframe
  rw [List.mem_singleton.1 hframe]
  exact h _ List.getLastD_mem_cons

theorem onlyDefines_empty : OnlyDefines {} :=
  List.forall_mem_singleton.2 fun _ h => absurd h List.not_mem_nil

theorem OnlyDefines.define {s : Scope} (h : s.OnlyDefines) (d : FunctionDefinition) :
    (s.define d).OnlyDefines := by
  obtain ⟨hhere, haround⟩ := List.forall_mem_cons.1 h
  exact List.forall_mem_cons.2 ⟨List.forall_mem_cons.2 ⟨⟨d, rfl⟩, fun b hb =>
    hhere b (List.mem_filter.1 hb).1⟩, haround⟩

theorem OnlyDefines.scopeFolded {s : Scope} (h : s.OnlyDefines) : Term.ScopeFolded s := by
  rintro name b hb t rfl
  obtain ⟨frame, hframe, hlookup⟩ := List.exists_of_findSome?_eq_some hb
  obtain ⟨front, back, rfl, _⟩ := List.lookup_eq_some_iff.1 hlookup
  obtain ⟨d, hd⟩ := h _ hframe (name, .value t) (by simp)
  cases hd

end Scope

namespace Term

/-- **Results of evaluation are closed fixed points.** What a term evaluates to over definitions has
no variable, constant, call or quantifier in it, and evaluates to itself in every scope. -/
theorem isGround_and_fixed_of_evaluate {scope : Scope} (hscope : scope.OnlyDefines) {t v : Term}
    (h : evaluate scope t = .ok v) : v.IsGround ∧ ∀ other : Scope, evaluate other v = .ok v := by
  rw [evaluate, evaluateWithin_eq] at h
  have hfolded : Folded v := folded_evaluateWith
    (keepsFolded_callerWithin _ hscope.root.scopeFolded) hscope.scopeFolded h
  exact ⟨hfolded.isGround, fun other =>
    evaluateWithin_of_forall (fun call => hfolded.evaluateWith call other) _⟩

/-- A relation over integers with one pair in it, and a function that turns relations over. -/
def turningScope : Scope :=
  (Scope.define {} ⟨"next", [], .relation [.int, .int],
      .unary .singleton (.nary .mkTuple [.int 1, .int 2])⟩).define
    ⟨"turn", [.plain "r" (.relation [.int, .int])], .relation [.int, .int],
      .unary .transpose (.variable (.plain "r" (.relation [.int, .int])))⟩

/-- The formula that steps back and forth lead everywhere, as a conjunction of one. -/
def backAndForth : Term :=
  .nary .and [.bool true, .binary .eq
    (.binary .join (.symbol ⟨"next", [], .relation [.int, .int]⟩)
      (.call ⟨"turn", [.relation [.int, .int]], .relation [.int, .int]⟩
        [.symbol ⟨"next", [], .relation [.int, .int]⟩]))
    (.fullSet (.relation [.int, .int]))]

/-- What evaluation leaves of it: a join of values and a set of everything, compared. -/
def backAndForthLeft : Term :=
  .binary .eq
    (.binary .join (.unary .singleton (.nary .mkTuple [.int 1, .int 2]))
      (.unary .transpose (.unary .singleton (.nary .mkTuple [.int 1, .int 2]))))
    (.fullSet (.relation [.int, .int]))

/-- The conjunction collapses to a comparison that stays as it is. -/
theorem fixed_backAndForth : turningScope.OnlyDefines ∧
    evaluate turningScope backAndForth = .ok backAndForthLeft ∧ backAndForthLeft.IsGround ∧
      ∀ other : Scope, evaluate other backAndForthLeft = .ok backAndForthLeft := by
  have hscope : turningScope.OnlyDefines := (Scope.onlyDefines_empty.define _).define _
  have heval : evaluate turningScope backAndForth = .ok backAndForthLeft := rfl
  exact ⟨hscope, heval, isGround_and_fixed_of_evaluate hscope heval⟩

end Term

end RelSmt
