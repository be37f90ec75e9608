import RelSmt.Proofs.Model.ReadsBack
import RelSmt.Program.Printer

/-!
# Scripts are read back

A program stands for a list of commands: its sorts, functions and assertions between the options and
the request for an answer (`Program.commands`). The script of a program whose names survive quoting
is read as exactly these (`Program.readAll_script`), whatever its comments say.

A name survives quoting when it has no bar in it and no blank around it. The names of sorts are
written bare inside terms, so there they have to be simple. Nothing is asked of how terms are built:
an ill-sorted term is read back as well.
-/

namespace RelSmt

open SExpr (Reads reads_apply reads_inParens reads_quote reads_number reads_simple reads_barred)

/-- What is read from each of several texts. -/
theorem SExpr.forall₂_reads {α : Type} {xs : List α} {text : α → String} {toSExpr : α → SExpr}
    (h : ∀ x ∈ xs, Reads (text x) (toSExpr x)) :
    List.Forall₂ Reads (xs.map text) (xs.map toSExpr) := by
  rw [List.forall₂_map_left_iff, List.forall₂_map_right_iff]
  exact List.forall₂_same.2 h

/-! ## Sorts -/

namespace SmtSort

mutual

/-- Are the names in the sort simple? -/
def Writable : SmtSort → Prop
  | .named name => Symbol.isSimple name = true
  | .tuple cs => AllWritable cs
  | .set e => e.Writable
  | _ => True

/-- Are the names in several sorts simple? -/
def AllWritable : List SmtSort → Prop
  | [] => True
  | c :: cs => c.Writable ∧ AllWritable cs

end

mutual

theorem Writable.reads : ∀ {s : SmtSort}, s.Writable → Reads s.text s.toSExpr
  | .named _, h => reads_simple h
  | .bool, _ => reads_simple (by decide)
  | .int, _ => reads_simple (by decide)
  | .uint, _ => reads_simple (by decide)
  | .tuple cs, h => by
    have htext : (SmtSort.tuple cs).text = inParens ("Tuple" :: texts cs) := rfl
    rw [htext]
    exact reads_apply (reads_simple (by decide)) (AllWritable.reads h)
  | .set e, h => by
    have htext : (SmtSort.set e).text = inParens ["Set", e.text] := rfl
    rw [htext]
    exact reads_apply (reads_simple (by decide)) (.cons (Writable.reads (s := e) h) .nil)

theorem AllWritable.reads : ∀ {cs : List SmtSort}, AllWritable cs →
    List.Forall₂ Reads (texts cs) (toSExprs cs)
  | [], _ => .nil
  | _ :: _, h => .cons (Writable.reads h.1) (AllWritable.reads h.2)

end

end SmtSort

/-! ## Terms -/

/-- Does the name of the literal survive quoting, and does its number fit 64 bits? -/
def Literal.Writable : Literal → Prop
  | .bool _ => True
  | .int n => n.natAbs < UInt64.size
  | .element name _ => Symbol.Clean name

theorem Literal.Writable.reads : ∀ {c : Literal}, c.Writable → Reads c.text c.toSExpr
  | .bool true, _ => reads_simple (by decide)
  | .bool false, _ => reads_simple (by decide)
  | .element _ _, h => reads_quote h
  | .int n, h => by
    rw [Literal.text, Literal.toSExpr]
    split
    · exact reads_apply (reads_simple (by decide)) (.cons (reads_number h) .nil)
    · -- a number that is not negative is written as the natural number that it is
      obtain ⟨k, rfl⟩ := Int.eq_ofNat_of_zero_le (Int.not_lt.1 ‹_›)
      exact reads_number h

/-- Do the names of a variable survive where it is bound? -/
structure Variable.Writable (v : Variable) : Prop where
  name : Symbol.Clean v.name
  sort : v.sort.Writable

theorem Variable.Writable.reads {v : Variable} (h : v.Writable) : Reads v.text v.toSExpr :=
  reads_apply (reads_quote h.name) (.cons h.sort.reads .nil)

theorem reads_binders {vs : List Variable} (h : ∀ v ∈ vs, v.Writable) :
    Reads (inParens (vs.map Variable.text)) (.list (vs.map Variable.toSExpr)) :=
  reads_inParens (SExpr.forall₂_reads fun v hv => (h v hv).reads)

namespace Term

mutual

/-- Do all names that the term is written with survive? Variables have their sort written where they
are bound only. -/
def Writable : Term → Prop
  | .literal c => c.Writable
  | .variable v => Symbol.Clean v.name
  | .symbol f => Symbol.Clean f.name
  | .emptySet s => s.Writable
  | .fullSet s => s.Writable
  | .unary _ t => t.Writable
  | .binary _ l r => l.Writable ∧ r.Writable
  | .ite c y n => c.Writable ∧ y.Writable ∧ n.Writable
  | .nary _ ts => AllWritable ts
  | .quantified _ vs body => (∀ v ∈ vs, v.Writable) ∧ body.Writable
  | .call f ts => Symbol.Clean f.name ∧ AllWritable ts

/-- Do all names that several terms are written with survive? -/
def AllWritable : List Term → Prop
  | [] => True
  | t :: ts => t.Writable ∧ AllWritable ts

end

/-- The symbol of an operator is read as itself. -/
theorem reads_operator (op : Reply.Operator) : Reads op.text (.symbol op.text) :=
  reads_simple op.isSimple_text

mutual

/-- **A term is read as its s-expression.** -/
theorem Writable.reads : ∀ {t : Term}, t.Writable → Reads t.text t.toSExpr
  | .literal _, h => Literal.Writable.reads h
  | .variable _, h => reads_quote h
  | .symbol _, h => reads_quote h
  | .emptySet s, h =>
    reads_apply (reads_simple (by decide))
      (.cons (reads_simple (by decide)) (.cons (SmtSort.Writable.reads (s := s) h) .nil))
  | .fullSet s, h =>
    reads_apply (reads_simple (by decide))
      (.cons (reads_simple (by decide)) (.cons (SmtSort.Writable.reads (s := s) h) .nil))
  | .unary op t, h => reads_apply (reads_operator (.unary op)) (.cons (Writable.reads (t := t) h) .nil)
  | .binary op _ _, h =>
    reads_apply (reads_operator (.binary op))
      (.cons (Writable.reads h.1) (.cons (Writable.reads h.2) .nil))
  | .ite _ _ _, h =>
    reads_apply (reads_operator .ite)
      (.cons (Writable.reads h.1) (.cons (Writable.reads h.2.1) (.cons (Writable.reads h.2.2) .nil)))
  | .nary op _, h => reads_apply (reads_operator (.nary op)) (AllWritable.reads h)
  | .quantified q _ _, h =>
    reads_apply (reads_operator (.quantifier q))
      (.cons (reads_binders h.1) (.cons (Writable.reads h.2) .nil))
  | .call _ _, h => reads_apply (reads_quote h.1) (AllWritable.reads h.2)

/-- The items of a term are read one by one. -/
theorem AllWritable.reads : ∀ {ts : List Term}, AllWritable ts →
    List.Forall₂ Reads (texts ts) (toSExprs ts)
  | [], _ => .nil
  | _ :: _, h => .cons (Writable.reads h.1) (AllWritable.reads h.2)

end

end Term

/-! ## Declarations and definitions -/

theorem SortDeclaration.ReadsBack.reads {s : SortDeclaration} (h : s.ReadsBack) :
    Reads s.text s.toSExpr :=
  reads_apply (reads_simple (by decide)) (.cons (reads_quote h.name) (.cons (reads_number h.arity) .nil))

/-- Do the names of the declaration survive? -/
structure FunctionSymbol.Writable (f : FunctionSymbol) : Prop where
  name : Symbol.Clean f.name
  inputs : ∀ s ∈ f.inputs, s.Writable
  output : f.output.Writable

/-- A declaration as an s-expression. -/
def FunctionSymbol.toSExpr (f : FunctionSymbol) : SExpr :=
  .apply "declare-fun" [.symbol f.name, .list (f.inputs.map SmtSort.toSExpr), f.output.toSExpr]

theorem FunctionSymbol.Writable.reads {f : FunctionSymbol} (h : f.Writable) :
    Reads f.text f.toSExpr := by
  have hinputs := reads_inParens (SExpr.forall₂_reads fun s hs => (h.inputs s hs).reads)
  exact reads_apply (reads_simple (by decide))
    (.cons (reads_quote h.name) (.cons hinputs (.cons h.output.reads .nil)))

/-- Do the names of the definition survive? -/
structure FunctionDefinition.Writable (d : FunctionDefinition) : Prop where
  name : Symbol.Clean d.name
  inputs : ∀ v ∈ d.inputs, v.Writable
  output : d.output.Writable
  body : d.body.Writable

theorem FunctionDefinition.Writable.reads {d : FunctionDefinition} (h : d.Writable) :
    Reads d.text d.toSExpr :=
  reads_apply (reads_simple (by decide)) (.cons (reads_quote h.name)
    (.cons (reads_binders h.inputs) (.cons h.output.reads (.cons h.body.reads .nil))))

namespace FunctionItem

/-- Do the names of the item survive? -/
def Writable : FunctionItem → Prop
  | .declared f => f.Writable
  | .defined d => d.Writable

/-- A declaration or definition as an s-expression. -/
def toSExpr : FunctionItem → SExpr
  | .declared f => f.toSExpr
  | .defined d => d.toSExpr

theorem Writable.reads : ∀ {i : FunctionItem}, i.Writable → Reads i.text i.toSExpr
  | .declared _, h => FunctionSymbol.Writable.reads h
  | .defined _, h => FunctionDefinition.Writable.reads h

end FunctionItem

/-! ## Assertions -/

namespace Assertion

/-- Do the names of the formula and the label survive? -/
structure Writable (a : Assertion) : Prop where
  formula : a.formula.Writable
  label : ∀ label ∈ a.label, Symbol.Clean label

/-- An assertion as an s-expression. The comment is no part of it. -/
def toSExpr (a : Assertion) : SExpr :=
  .apply "assert" [
    match a.label with
    | some label => .apply "!" [a.formula.toSExpr, .symbol ":named", .symbol label]
    | none => a.formula.toSExpr]

theorem Writable.reads {a : Assertion} (h : a.Writable) : Reads a.text a.toSExpr := by
  refine Reads.commented (reads_apply (reads_simple (by decide)) (.cons ?_ .nil)) a.comment
  cases hlabel : a.label with
  | none => exact h.formula.reads
  | some label =>
    have hnamed : Reads ":named" (.symbol ":named") :=
      SExpr.reads_bare (by decide)
    exact reads_apply (reads_simple (by decide))
      (.cons h.formula.reads (.cons hnamed (.cons (reads_barred (h.label label hlabel)) .nil)))

end Assertion

/-! ## Programs -/

namespace Program

/-- Do all names of the program survive? -/
structure Writable (p : Program) : Prop where
  sorts : ∀ s ∈ p.sorts, s.ReadsBack
  functions : ∀ f ∈ p.functions, f.Writable
  assertions : ∀ a ∈ p.assertions, a.Writable

/-- Turning an option of the solver on. -/
def setOption (keyword : String) : SExpr :=
  .apply "set-option" [.symbol keyword, .symbol "true"]

/-- The commands by which a script asks for what a program asserts. -/
def commands (p : Program) (cores : Bool) : List SExpr :=
  [.apply "set-logic" [.symbol "ALL"], setOption ":produce-models", setOption ":finite-model-find"]
    ++ (if cores then [setOption ":produce-unsat-cores"] else [])
    ++ p.sorts.map SortDeclaration.toSExpr ++ p.functions.map FunctionItem.toSExpr
    ++ p.assertions.map Assertion.toSExpr ++ [.apply "check-sat" []]

variable {p : Program}

theorem reads_setOption {keyword : String} (h : SExpr.isBare keyword = true) :
    Reads (inParens ["set-option", keyword, "true"]) (setOption keyword) :=
  reads_apply (reads_simple (by decide))
    (.cons (SExpr.reads_bare h) (.cons (reads_simple (by decide)) .nil))

/-- The logic and the options that a script starts with. -/
theorem reads_preamble (cores : Bool) : List.Forall₂ Reads
    (["(set-logic ALL)", "(set-option :produce-models true)", "(set-option :finite-model-find true)"]
      ++ if cores then ["(set-option :produce-unsat-cores true)"] else [])
    ([.apply "set-logic" [.symbol "ALL"], setOption ":produce-models",
        setOption ":finite-model-find"]
      ++ if cores then [setOption ":produce-unsat-cores"] else []) := by
  have hlogic : Reads (inParens ["set-logic", "ALL"]) (.apply "set-logic" [.symbol "ALL"]) :=
    reads_apply (reads_simple (by decide)) (.cons (reads_simple (by decide)) .nil)
  have hmodels : Reads (inParens ["set-option", ":produce-models", "true"])
      (setOption ":produce-models") := reads_setOption (by decide)
  have hfinite : Reads (inParens ["set-option", ":finite-model-find", "true"])
      (setOption ":finite-model-find") := reads_setOption (by decide)
  have hcores : Reads (inParens ["set-option", ":produce-unsat-cores", "true"])
      (setOption ":produce-unsat-cores") := reads_setOption (by decide)
  rw [show inParens ["set-logic", "ALL"] = "(set-logic ALL)" by decide] at hlogic
  rw [show inParens ["set-option", ":produce-models", "true"]
    = "(set-option :produce-models true)" by decide] at hmodels
  rw [show inParens ["set-option", ":finite-model-find", "true"]
    = "(set-option :finite-model-find true)" by decide] at hfinite
  rw [show inParens ["set-option", ":produce-unsat-cores", "true"]
    = "(set-option :produce-unsat-cores true)" by decide] at hcores
  refine List.rel_append (.cons hlogic (.cons hmodels (.cons hfinite .nil))) ?_
  cases cores with
  | true => exact .cons hcores .nil
  | false => exact .nil

theorem Writable.reads_lines (h : p.Writable) :
    List.Forall₂ Reads p.lines (p.sorts.map SortDeclaration.toSExpr
      ++ p.functions.map FunctionItem.toSExpr ++ p.assertions.map Assertion.toSExpr) := by
  refine List.rel_append (List.rel_append ?_ ?_) ?_
  · exact SExpr.forall₂_reads fun s hs => (h.sorts s hs).reads
  · exact SExpr.forall₂_reads fun f hf => (h.functions f hf).reads
  · exact SExpr.forall₂_reads fun a ha => (h.assertions a ha).reads

theorem unlines_append (ls ls' : List String) : unlines (ls ++ ls') = unlines ls ++ unlines ls' := by
  simp [unlines]

/-- **A script reads back as the commands of its program**, and what it asserts is what each formula
alone is read as. -/
theorem readAll_script {p : Program} (hp : p.Writable) (cores : Bool) :
    SExpr.readAll (p.script cores) = .ok (p.commands cores)
      ∧ ∀ a ∈ p.assertions, SExpr.readAll a.formula.text = .ok [a.formula.toSExpr] := by
  refine ⟨?_, fun a ha => (hp.assertions a ha).formula.reads.readAll⟩
  have hend : Reads "(check-sat)" (.apply "check-sat" []) :=
    reads_apply (reads_simple (by decide) : Reads "check-sat" (.symbol "check-sat")) .nil
  have hall := List.rel_append (List.rel_append (reads_preamble cores) hp.reads_lines)
    (.cons hend .nil)
  have hread := SExpr.readAll_unlines hall
  rw [unlines_append, unlines_append] at hread
  rw [script, text, hread]
  simp [commands]

/-- A program with a name and a label that need bars, and a comment that looks like a command. -/
def quotedNames : Program where
  sorts := [{ name := "Atom" }]
  functions := [.declared (.constant "this/A b" .atoms),
    .defined (.constant "1x" (.int (-3)))]
  assertions := [
    { comment := "two\n(assert false) ; \"lines"
      formula := .quantified .all [.plain "x y" (.tuple [.atom])]
        (.binary .member (Variable.plain "x y" (.tuple [.atom])).term
          (FunctionSymbol.constant "this/A b" .atoms).term)
      label := some "fact (1); \"a" }]

theorem readAll_script_quotedNames :
    quotedNames.Writable ∧ SExpr.readAll (quotedNames.script true) = .ok (quotedNames.commands true)
      ∧ ∀ a ∈ quotedNames.assertions, SExpr.readAll a.formula.text = .ok [a.formula.toSExpr] := by
  have hatom : SmtSort.atom.Writable := show Symbol.isSimple "Atom" = true by decide
  have hatoms : SmtSort.atoms.Writable := ⟨hatom, trivial⟩
  have hrelation : Symbol.Clean "this/A b" := by decide
  have hvariable : Symbol.Clean "x y" := by decide
  have hthree : (Term.int (-3)).Writable := show 3 < UInt64.size by decide
  have hwritable : quotedNames.Writable := by
    refine ⟨List.forall_mem_singleton.2 ⟨by decide, by decide⟩,
      List.forall_mem_cons.2 ⟨?_, List.forall_mem_singleton.2 ?_⟩,
      List.forall_mem_singleton.2 ⟨?_, ?_⟩⟩
    · exact ⟨hrelation, by simp [FunctionSymbol.constant], hatoms⟩
    · exact ⟨by decide, by simp [FunctionDefinition.constant], trivial, hthree⟩
    · exact ⟨List.forall_mem_singleton.2 ⟨hvariable, hatom, trivial⟩, hvariable, hrelation⟩
    · rintro label ⟨rfl⟩
      decide
  exact ⟨hwritable, readAll_script hwritable true⟩

end Program

end RelSmt
