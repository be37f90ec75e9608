import RelSmt.Evaluation.Fold
import RelSmt.Proofs.Term.Checked

/-!
# What folding can come to

An operator on evaluated operands gives a literal, one of its operands, a set of elements of one of
them, the node over its operands, or a fault of evaluation. This says for each operator which of
these it may be (`FoldsUnary`, `FoldsBinary`, `FoldsNary`), so that what holds of all of them holds
of what is folded.
-/

namespace RelSmt

/-! ## Steps and their faults -/

/-- Does the step return something of one kind, or fail with a fault of another? -/
inductive Meets {α : Type} (F : Fault → Prop) (P : α → Prop) : Checked α → Prop
  | value {a : α} (ha : P a) : Meets F P (.ok a)
  | fault {e : Fault} (he : F e) : Meets F P (.error e)

namespace Meets

variable {α β : Type} {F : Fault → Prop} {P : α → Prop} {Q : β → Prop} {x : Checked α}

theorem of_ok {a : α} (h : Meets F P (.ok a)) : P a := by
  cases h with
  | value ha => exact ha

theorem of_error {e : Fault} (h : Meets F P (.error e)) : F e := by
  cases h with
  | fault he => exact he

theorem ok_or_error (h : Meets F P x) : (∃ a, x = .ok a) ∨ ∃ e, x = .error e ∧ F e := by
  cases h with
  | value _ => exact .inl ⟨_, rfl⟩
  | fault he => exact .inr ⟨_, rfl, he⟩

theorem mono {G : Fault → Prop} (h : Meets F P x) (hFG : ∀ e, F e → G e) : Meets G P x := by
  cases h with
  | value ha => exact .value ha
  | fault he => exact .fault (hFG _ he)

theorem imp {R : α → Prop} (h : Meets F P x) (hPR : ∀ a, P a → R a) : Meets F R x := by
  cases h with
  | value ha => exact .value (hPR _ ha)
  | fault he => exact .fault he

/-- What a step returns if it returns may be known from elsewhere. -/
theorem of_forall_ok {R : α → Prop} (h : Meets F P x) (hR : ∀ a, x = .ok a → R a) : Meets F R x := by
  cases h with
  | value _ => exact .value (hR _ rfl)
  | fault he => exact .fault he

theorem bind {f : α → Checked β} (hx : Meets F P x) (hf : ∀ a, P a → Meets F Q (f a)) :
    Meets F Q (x >>= f) := by
  cases hx with
  | value ha => exact hf _ ha
  | fault he => exact .fault he

theorem foldlM {f : α → β → Checked α} : ∀ {bs : List β} {a : α},
    (∀ b ∈ bs, ∀ a, P a → Meets F P (f a b)) → P a → Meets F P (bs.foldlM f a)
  | [], _, _, ha => .value ha
  | b :: bs, a, hf, ha => by
    obtain ⟨hb, hbs⟩ := List.forall_mem_cons.1 hf
    rw [List.foldlM_cons]
    exact (hb a ha).bind fun _ ha' => foldlM hbs ha'

theorem mapM {f : α → Checked β} : ∀ {as : List α}, (∀ a ∈ as, Meets F Q (f a)) →
    Meets F (fun bs => ∀ b ∈ bs, Q b) (as.mapM f)
  | [], _ => .value (List.forall_mem_nil _)
  | a :: as, h => by
    obtain ⟨ha, has⟩ := List.forall_mem_cons.1 h
    rw [List.mapM_cons]
    exact ha.bind fun b hb => (mapM has).bind fun bs hbs => .value (List.forall_mem_cons.2 ⟨hb, hbs⟩)

end Meets

/-- Does the step return something of this kind, or fail with a fault of evaluation? -/
abbrev Yields {α : Type} (P : α → Prop) : Checked α → Prop := Meets (fun e => e.kind = .evaluation) P

/-- Does the operator make formulas? -/
def BinaryOp.IsTest (op : BinaryOp) : Prop := ∀ l r : Term, (Term.binary op l r).sort = .bool

namespace Term

variable {t l r : Term}

/-! ## Taking sets apart -/

theorem yields_listed (t : Term) : Yields (fun _ => True) t.listed := by
  fun_induction Term.listed t with
  | case1 s => exact .value trivial
  | case2 t => exact .value trivial
  | case3 l r ihl ihr => exact ihl.bind fun _ _ => ihr.bind fun _ _ => .value trivial
  | case4 t => exact .fault rfl

theorem yields_elements (t : Term) : Yields (fun _ => True) t.elements :=
  (yields_listed t).bind fun _ _ => .value trivial

theorem yields_sameValue (s t : Term) : Yields (fun _ => True) (sameValue s t) := by
  rw [sameValue]
  split
  · exact (yields_elements s).bind fun _ _ => (yields_elements t).bind fun _ _ => .value trivial
  · exact .value trivial

/-! ## Unary operators -/

/-- What a unary operator on an evaluated operand can come to. -/
inductive FoldsUnary (t : Term) : UnaryOp → Checked Term → Prop
  | truth (b : Bool) : FoldsUnary t .not (.ok (.bool b))
  | number (n : Int) : FoldsUnary t .card (.ok (.int n))
  | rebuilt (op : UnaryOp) : FoldsUnary t op (mkUnary op t)
  | fault {op : UnaryOp} {e : Fault} (he : e.kind = .evaluation) : FoldsUnary t op (.error e)

theorem foldsUnary (op : UnaryOp) (t : Term) : FoldsUnary t op (foldUnary op t) := by
  cases op with
  | not =>
    rw [foldUnary]
    split
    · exact .truth _
    · exact .rebuilt .not
  | card =>
    rw [foldUnary]
    split
    · obtain ⟨us, hus⟩ | ⟨e, he, hkind⟩ := (yields_elements t).ok_or_error
      · rw [hus]
        exact .number _
      · rw [he]
        exact .fault hkind
    · exact .rebuilt .card
  | singleton => exact .rebuilt .singleton
  | transpose => exact .rebuilt .transpose
  | closure => exact .rebuilt .closure

/-! ## Binary operators -/

/-- What a binary operator on evaluated operands can come to. -/
inductive FoldsBinary (l r : Term) : BinaryOp → Checked Term → Prop
  | truth {op : BinaryOp} (hop : op.IsTest) (b : Bool) : FoldsBinary l r op (.ok (.bool b))
  | number (o : Arithmetic) (n : Int) : FoldsBinary l r (.arithmetic o) (.ok (.int n))
  | left (c : Connective) : FoldsBinary l r (.connective c) (.ok l)
  | right (c : Connective) : FoldsBinary l r (.connective c) (.ok r)
  | filter (o : SetOp) (keep : Bool) : FoldsBinary l r (.set o) (foldFilter l r keep)
  | rebuilt (op : BinaryOp) : FoldsBinary l r op (mkBinary op l r)
  | fault {op : BinaryOp} {e : Fault} (he : e.kind = .evaluation) : FoldsBinary l r op (.error e)

theorem foldsConnective (c : Connective) (l r : Term) :
    FoldsBinary l r (.connective c) (foldConnective c l r) := by
  have htest : (BinaryOp.connective c).IsTest := fun _ _ => rfl
  cases c <;> rcases hl : l.bool? with _ | _ | _ <;> rcases hr : r.bool? with _ | _ | _ <;>
    simp only [foldConnective, hl, hr] <;>
    first | exact .truth htest _ | exact .left _ | exact .right _ | exact .rebuilt _

theorem foldsArithmetic (o : Arithmetic) (a b : Int) :
    FoldsBinary l r (.arithmetic o) (foldArithmetic o a b) := by
  rw [foldArithmetic]
  split
  · exact .fault rfl
  split
  · exact .number o _
  · exact .fault rfl

/-- A test of something that is read off the operands. -/
theorem foldsTest {op : BinaryOp} (hop : op.IsTest) {α : Type} {x : Checked α}
    (hx : Yields (fun _ => True) x) (f : α → Bool) :
    FoldsBinary l r op (do return .bool (f (← x))) := by
  cases hx with
  | value _ => exact .truth hop _
  | fault he => exact .fault he

/-- A union is never taken apart. -/
theorem foldBinary_union (l r : Term) :
    foldBinary (.set .union) l r = mkBinary (.set .union) l r := by
  simp [foldBinary]

/-- **A binary operator gives a literal, an operand, a set of elements or the node over its
operands**, if evaluation has a value for it. -/
theorem foldsBinary (op : BinaryOp) (l r : Term) : FoldsBinary l r op (foldBinary op l r) := by
  cases op with
  | connective c => exact foldsConnective c l r
  | comparison c =>
    rw [foldBinary]
    split
    · exact .truth (fun _ _ => rfl) _
    · exact .rebuilt _
  | arithmetic o =>
    rw [foldBinary]
    split
    · exact foldsArithmetic o _ _
    · exact .rebuilt _
  | join => simpa [foldBinary] using FoldsBinary.rebuilt .join
  | product => simpa [foldBinary] using FoldsBinary.rebuilt .product
  | eq =>
    by_cases hvalues : (l.isValue && r.isValue) = true
    · rw [foldBinary, if_pos hvalues]
      exact foldsTest (fun _ _ => rfl) (yields_sameValue l r) id
    · rw [foldBinary, if_neg hvalues]
      exact .rebuilt _
  | member =>
    by_cases hvalues : (l.isValue && r.isValue) = true
    · rw [foldBinary, if_pos hvalues]
      exact foldsTest (fun _ _ => rfl) (yields_elements r) _
    · rw [foldBinary, if_neg hvalues]
      exact .rebuilt _
  | subset =>
    by_cases hvalues : (l.isValue && r.isValue) = true
    · rw [foldBinary, if_pos hvalues]
      -- the elements on the right are listed before those on the left, and may not be listed at all
      obtain ⟨us, hus⟩ | ⟨e, he, hkind⟩ := (yields_elements r).ok_or_error
      · rw [hus]
        exact foldsTest (fun _ _ => rfl) (yields_elements l) _
      · rw [he]
        exact .fault hkind
    · rw [foldBinary, if_neg hvalues]
      exact .rebuilt _
  | set o =>
    by_cases hvalues : (l.isValue && r.isValue) = true
    · cases o with
      | union => exact foldBinary_union l r ▸ .rebuilt _
      | intersection =>
        rw [foldBinary, if_pos hvalues]
        exact .filter _ true
      | difference =>
        rw [foldBinary, if_pos hvalues]
        exact .filter _ false
    · simpa [foldBinary, hvalues] using FoldsBinary.rebuilt (.set o)

/-! ## Operators on several operands -/

/-- What an n-ary operator on evaluated operands can come to. A connective is rebuilt over those of
its operands that are open, and folding these again changes nothing. -/
inductive FoldsNary (ts : List Term) : NaryOp → Checked Term → Prop
  | truth {op : NaryOp} (hop : op ≠ .mkTuple) (b : Bool) : FoldsNary ts op (.ok (.bool b))
  | operand {op : NaryOp} (hop : op ≠ .mkTuple) {t : Term} (ht : t ∈ ts) : FoldsNary ts op (.ok t)
  | rebuilt {op : NaryOp} {us : List Term} (hus : ∀ u ∈ us, u ∈ ts)
      (hsort : (Term.nary op us).sort = (Term.nary op ts).sort) (hne : ts ≠ [] → us ≠ [])
      (hagain : foldNary op us = mkNary op us) : FoldsNary ts op (mkNary op us)

/-- What is left open is left open again. -/
theorem foldMany_filter (deciding : Bool) (close : List Term → Checked Term) (ts : List Term) :
    foldMany deciding close (ts.filter fun t => t.bool?.isNone)
      = close (ts.filter fun t => t.bool?.isNone) := by
  have hany : (ts.filter fun t => t.bool?.isNone).any (fun t => t.bool? == some deciding) = false := by
    rw [List.any_eq_false]
    intro t ht
    rw [Option.isNone_iff_eq_none.1 (List.mem_filter.1 ht).2]
    exact Bool.false_ne_true
  rw [foldMany, hany, if_neg Bool.false_ne_true, List.filter_filter]
  simp only [Bool.and_self]

/-- A connective that is true or false of none, the formula itself of one, and a node over more. -/
theorem foldsMany (op : NaryOp) (hop : op ≠ .mkTuple) {deciding : Bool}
    {close : List Term → Checked Term} (hfold : ∀ us, foldNary op us = foldMany deciding close us)
    (hnil : ∃ b, close [] = .ok (.bool b)) (hone : ∀ t, close [t] = .ok t)
    (hmore : ∀ t u us, close (t :: u :: us) = mkNary op (t :: u :: us)) (ts : List Term) :
    FoldsNary ts op (foldMany deciding close ts) := by
  have hsort : ∀ us, (Term.nary op us).sort = .bool := fun us => by
    cases op with
    | mkTuple => exact absurd rfl hop
    | _ => rfl
  have hagain := foldMany_filter deciding close ts
  rw [foldMany]
  split
  · exact .truth hop deciding
  generalize hopen : ts.filter (fun t => t.bool?.isNone) = us at hagain
  have hus : ∀ u ∈ us, u ∈ ts := fun u hu => (List.mem_filter.1 (hopen ▸ hu)).1
  match us, hagain, hus with
  | [], _, _ =>
    obtain ⟨b, hb⟩ := hnil
    rw [hb]
    exact .truth hop b
  | [t], _, hus =>
    rw [hone]
    exact .operand hop (hus t (List.mem_singleton_self t))
  | t :: u :: us, hagain, hus =>
    rw [hmore] at hagain ⊢
    exact .rebuilt hus ((hsort _).trans (hsort _).symm) (fun _ => List.cons_ne_nil _ _)
      ((hfold _).trans hagain)

theorem foldsNary (op : NaryOp) (ts : List Term) : FoldsNary ts op (foldNary op ts) := by
  cases op with
  | and => exact foldsMany .and (by simp) (fun _ => rfl) ⟨true, rfl⟩ (fun _ => rfl) (fun _ _ _ => rfl) ts
  | or => exact foldsMany .or (by simp) (fun _ => rfl) ⟨false, rfl⟩ (fun _ => rfl) (fun _ _ _ => rfl) ts
  | mkTuple => exact .rebuilt (fun _ hu => hu) rfl id rfl

end Term

end RelSmt
