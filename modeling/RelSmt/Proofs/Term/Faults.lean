import RelSmt.Program.Basic
import RelSmt.Proofs.Term.FreeVariables
import RelSmt.Term.Substitution

/-!
# Faults that checks avoid

The checked constructors fail for sorts, for numbers of operands and for misuse. Other faults are
found elsewhere: recursive calls where calls are inlined, captures where a variable makes way for a
term, and too many calls in progress where definitions are evaluated. A check that is put together
from checked constructors avoids these (`Avoids`). There is one instance for each check, so that
what is put together from checks is known to avoid such faults by instance resolution.
-/

namespace RelSmt

/-! ## Faults -/

/-- Is a call found to be recursive? -/
def Fault.IsRecursion : Fault → Prop
  | .recursiveCall _ => True
  | _ => False

/-- Is a variable found to be captured? -/
def Fault.IsCapture : Fault → Prop
  | .capture _ _ => True
  | _ => False

/-- Are there found to be too many calls in progress? -/
def Fault.IsCallDepth : Fault → Prop
  | .evaluation (.callDepth _) => True
  | _ => False

/-- Faults that no checked constructor has. -/
class Foreign (B : Fault → Prop) : Prop where
  sorts : ∀ cause, ¬B (.sortMismatch cause)
  arity : ∀ name expected actual, ¬B (.arityMismatch name expected actual)
  missing : ∀ name, ¬B (.unresolved name)
  unsupported : ∀ cause, ¬B (.unsupportedOperator cause)
  misuse : ∀ cause, ¬B (.violation cause)

/-- Faults that are not captures. -/
class Uncaptured (B : Fault → Prop) : Prop where
  capture : ∀ v t, ¬B (.capture v t)

instance : Foreign Fault.IsRecursion :=
  ⟨fun _ => id, fun _ _ _ => id, fun _ => id, fun _ => id, fun _ => id⟩

instance : Foreign Fault.IsCapture :=
  ⟨fun _ => id, fun _ _ _ => id, fun _ => id, fun _ => id, fun _ => id⟩

instance : Foreign Fault.IsCallDepth :=
  ⟨fun _ => id, fun _ _ _ => id, fun _ => id, fun _ => id, fun _ => id⟩

instance : Uncaptured Fault.IsRecursion := ⟨fun _ _ => id⟩

variable {B : Fault → Prop}

section

variable {α β : Type}

/-- Does the check never fail with one of these faults? -/
class Avoids (B : Fault → Prop) (c : Checked α) : Prop where
  ne : ∀ e, B e → c ≠ .error e

theorem avoids_error {e : Fault} (h : ¬B e) : Avoids B (.error e : Checked α) :=
  ⟨fun _ hB he => h (Except.error.inj he ▸ hB)⟩

theorem Avoids.not_of_error {e : Fault} {c : Checked α} (h : Avoids B c) (hc : c = .error e) : ¬B e :=
  fun hB => h.ne e hB hc

instance (a : α) : Avoids B (.ok a : Checked α) := ⟨fun _ _ h => nomatch h⟩

instance (a : α) : Avoids B (pure a : Checked α) := ⟨fun _ _ h => nomatch h⟩

theorem Avoids.bind {c : Checked α} {f : α → Checked β} (hc : Avoids B c) (hf : ∀ a, Avoids B (f a)) :
    Avoids B (c >>= f) := by
  cases c with
  | error e => exact avoids_error (hc.not_of_error rfl)
  | ok a => exact hf a

instance {c : Checked α} {f : α → Checked β} [hc : Avoids B c] [hf : ∀ a, Avoids B (f a)] :
    Avoids B (c >>= f) :=
  hc.bind hf

instance {p : Prop} [Decidable p] {c d : Checked α} [Avoids B c] [Avoids B d] :
    Avoids B (if p then c else d) := by
  split <;> infer_instance

instance {f : α → Checked β} [∀ a, Avoids B (f a)] {as : List α} : Avoids B (as.mapM f) := by
  induction as with
  | nil =>
    rw [List.mapM_nil]
    infer_instance
  | cons a as ih =>
    rw [List.mapM_cons]
    infer_instance

instance {f : β → α → Checked β} [∀ b a, Avoids B (f b a)] {as : List α} {b : β} :
    Avoids B (as.foldlM f b) := by
  induction as generalizing b with
  | nil =>
    rw [List.foldlM_nil]
    infer_instance
  | cons a as ih =>
    rw [List.foldlM_cons]
    infer_instance

variable [Foreign B]

instance (cause : SortFault) : Avoids B (.error (.sortMismatch cause) : Checked α) :=
  avoids_error (Foreign.sorts cause)

instance (name : String) (expected actual : Nat) :
    Avoids B (.error (.arityMismatch name expected actual) : Checked α) :=
  avoids_error (Foreign.arity name expected actual)

instance (name : Missing) : Avoids B (.error (.unresolved name) : Checked α) :=
  avoids_error (Foreign.missing name)

instance (cause : Unsupported) : Avoids B (.error (.unsupportedOperator cause) : Checked α) :=
  avoids_error (Foreign.unsupported cause)

instance (cause : Violation) : Avoids B (.error (.violation cause) : Checked α) :=
  avoids_error (Foreign.misuse cause)

instance [Uncaptured B] (v : Variable) (t : Term) : Avoids B (.error (.capture v t) : Checked α) :=
  avoids_error (Uncaptured.capture v t)

end

/-! ## Checked constructors -/

section

variable [Foreign B] {f : FunctionSymbol} {vs ws : List Variable} {ts : List Term} {s t u : Term}

instance {columns : List SmtSort} : Avoids B (SmtSort.relationOf columns) := by
  unfold SmtSort.relationOf
  infer_instance

instance {op : BinaryOp} {l r : SmtSort} : Avoids B (Term.relationColumns op l r) := by
  unfold Term.relationColumns
  infer_instance

instance {op : BinaryOp} {l r : SmtSort} : Avoids B (Term.binarySort op l r) := by
  cases op <;> unfold Term.binarySort <;> infer_instance

instance {op : UnaryOp} {sort : SmtSort} : Avoids B (Term.unarySort op sort) := by
  cases op <;> unfold Term.unarySort <;> dsimp only
  case closure =>
    split
    · split <;> infer_instance
    · infer_instance
  all_goals infer_instance

instance {sort : SmtSort} : Avoids B (Term.emptyOf sort) := by
  unfold Term.emptyOf
  infer_instance

instance {sort : SmtSort} : Avoids B (Term.fullOf sort) := by
  unfold Term.fullOf
  infer_instance

instance {op : UnaryOp} : Avoids B (Term.mkUnary op t) := by
  unfold Term.mkUnary
  infer_instance

instance {op : BinaryOp} : Avoids B (Term.mkBinary op t u) := by
  unfold Term.mkBinary
  infer_instance

instance : Avoids B (Term.mkIte s t u) := by
  unfold Term.mkIte
  infer_instance

instance {op : NaryOp} : Avoids B (Term.mkNary op ts) := by
  unfold Term.mkNary
  split
  · infer_instance
  · split <;> infer_instance

instance {q : Quantifier} : Avoids B (Term.mkQuantified q vs t) := by
  unfold Term.mkQuantified
  infer_instance

instance : Avoids B (Term.mkCall f ts) := by
  unfold Term.mkCall
  split
  · infer_instance
  · split <;> infer_instance

instance : Avoids B (f.apply ts) := by
  unfold FunctionSymbol.apply
  infer_instance

instance {name : String} {sort : SmtSort} {constraint : Option Term} :
    Avoids B (Variable.limited name sort constraint) := by
  cases constraint <;> unfold Variable.limited <;> infer_instance

instance {comment : String} {label : Option String} : Avoids B (Assertion.make comment t label) := by
  unfold Assertion.make
  infer_instance

/-! ## Shorthands -/

instance : Avoids B (Term.allOf ts) := by
  unfold Term.allOf
  split <;> infer_instance

instance : Avoids B (Term.anyOf ts) := by
  unfold Term.anyOf
  split <;> infer_instance

instance : Avoids B (Term.tuple ts) := inferInstanceAs (Avoids B (Term.mkNary _ ts))

instance : Avoids B (Term.all vs t) := inferInstanceAs (Avoids B (Term.mkQuantified _ vs t))

instance : Avoids B (Term.ex vs t) := inferInstanceAs (Avoids B (Term.mkQuantified _ vs t))

instance : Avoids B t.neg := inferInstanceAs (Avoids B (Term.mkUnary _ t))

instance : Avoids B t.single := inferInstanceAs (Avoids B (Term.mkUnary _ t))

instance : Avoids B (t.conj u) := inferInstanceAs (Avoids B (Term.mkBinary _ t u))

instance : Avoids B (t.disj u) := inferInstanceAs (Avoids B (Term.mkBinary _ t u))

instance : Avoids B (t.imp u) := inferInstanceAs (Avoids B (Term.mkBinary _ t u))

instance : Avoids B (t.eqTo u) := inferInstanceAs (Avoids B (Term.mkBinary _ t u))

instance : Avoids B (t.isIn u) := inferInstanceAs (Avoids B (Term.mkBinary _ t u))

instance : Avoids B (t.within u) := inferInstanceAs (Avoids B (Term.mkBinary _ t u))

instance : Avoids B (t.union u) := inferInstanceAs (Avoids B (Term.mkBinary _ t u))

instance : Avoids B (t.inter u) := inferInstanceAs (Avoids B (Term.mkBinary _ t u))

instance : Avoids B (t.diff u) := inferInstanceAs (Avoids B (Term.mkBinary _ t u))

instance : Avoids B (t.join u) := inferInstanceAs (Avoids B (Term.mkBinary _ t u))

instance : Avoids B (t.product u) := inferInstanceAs (Avoids B (Term.mkBinary _ t u))

instance : Avoids B t.isEmpty := by
  unfold Term.isEmpty
  infer_instance

end

/-! ## Substitution and replacement -/

section

variable {old : Variable} {new : Term} {taken : List String}

mutual

/-- Substitution finds a capture only where a binder has a name that is taken. -/
theorem avoids_substituteIn [Foreign B] : ∀ t : Term,
    (∀ x ∈ t.boundNames, x ∈ taken → Uncaptured B) → Avoids B (t.substituteIn old new taken)
  | .literal c, _ => inferInstanceAs (Avoids B (.ok _))
  | .variable v, _ => inferInstanceAs (Avoids B (.ok _))
  | .symbol f, _ => inferInstanceAs (Avoids B (.ok _))
  | .emptySet s, _ => inferInstanceAs (Avoids B (.ok _))
  | .fullSet s, _ => inferInstanceAs (Avoids B (.ok _))
  | .unary op t, h => by
    have := avoids_substituteIn t h
    rw [Term.substituteIn]
    infer_instance
  | .binary op l r, h => by
    obtain ⟨hl, hr⟩ := List.forall_mem_append.1 h
    have := avoids_substituteIn l hl
    have := avoids_substituteIn r hr
    rw [Term.substituteIn]
    infer_instance
  | .ite c y n, h => by
    obtain ⟨h, hn⟩ := List.forall_mem_append.1 h
    obtain ⟨hc, hy⟩ := List.forall_mem_append.1 h
    have := avoids_substituteIn c hc
    have := avoids_substituteIn y hy
    have := avoids_substituteIn n hn
    rw [Term.substituteIn]
    infer_instance
  | .nary op ts, h => by
    have := avoids_substituteInList ts h
    rw [Term.substituteIn]
    infer_instance
  | .quantified q vs body, h => by
    obtain ⟨hvs, hbody⟩ := List.forall_mem_append.1 h
    have := avoids_substituteIn body hbody
    rw [Term.substituteIn]
    split
    · infer_instance
    · split
      -- the one place where a capture is found, at a binder of a name that is taken
      · rename_i v hv
        have := hvs v.name (List.mem_map_of_mem (List.mem_of_find?_eq_some hv))
          (by simpa using List.find?_some hv)
        infer_instance
      · infer_instance
  | .call f ts, h => by
    have := avoids_substituteInList ts h
    rw [Term.substituteIn]
    infer_instance

theorem avoids_substituteInList [Foreign B] : ∀ ts : List Term,
    (∀ x ∈ Term.boundNamesList ts, x ∈ taken → Uncaptured B) →
    Avoids B (Term.substituteInList ts old new taken)
  | [], _ => inferInstanceAs (Avoids B (.ok _))
  | t :: ts, h => by
    obtain ⟨ht, hts⟩ := List.forall_mem_append.1 h
    have := avoids_substituteIn t ht
    have := avoids_substituteInList ts hts
    rw [Term.substituteInList]
    infer_instance

end

theorem avoids_substitute [Foreign B] {t : Term}
    (h : ∀ x ∈ t.boundNames, x ∈ new.freeVariables.map Variable.name → Uncaptured B) :
    Avoids B (t.substitute old new) := by
  have : Avoids B (t.substituteIn old new (new.freeVariables.map Variable.name)) :=
    avoids_substituteIn t h
  unfold Term.substitute
  infer_instance

instance [Foreign B] [h : Uncaptured B] {t u : Term} {v : Variable} : Avoids B (t.substitute v u) :=
  avoids_substitute fun _ _ _ => h

end

section

variable {old new : Term}

mutual

theorem avoids_replace [Foreign B] : ∀ t : Term, Avoids B (t.replace old new)
  | .literal c => by
    rw [Term.replace]
    infer_instance
  | .variable v => by
    rw [Term.replace]
    infer_instance
  | .symbol f => by
    rw [Term.replace]
    infer_instance
  | .emptySet s => by
    rw [Term.replace]
    infer_instance
  | .fullSet s => by
    rw [Term.replace]
    infer_instance
  | .unary op t => by
    have := avoids_replace t
    rw [Term.replace]
    infer_instance
  | .binary op l r => by
    have := avoids_replace l
    have := avoids_replace r
    rw [Term.replace]
    infer_instance
  | .ite c y n => by
    have := avoids_replace c
    have := avoids_replace y
    have := avoids_replace n
    rw [Term.replace]
    infer_instance
  | .nary op ts => by
    have := avoids_replaceList ts
    rw [Term.replace]
    infer_instance
  | .quantified q vs body => by
    have := avoids_replace body
    rw [Term.replace]
    infer_instance
  | .call f ts => by
    have := avoids_replaceList ts
    rw [Term.replace]
    infer_instance

theorem avoids_replaceList [Foreign B] : ∀ ts : List Term, Avoids B (Term.replaceList ts old new)
  | [] => inferInstanceAs (Avoids B (.ok _))
  | t :: ts => by
    have := avoids_replace t
    have := avoids_replaceList ts
    rw [Term.replaceList]
    infer_instance

end

instance [Foreign B] {t : Term} : Avoids B (t.replace old new) := avoids_replace t

end

end RelSmt
