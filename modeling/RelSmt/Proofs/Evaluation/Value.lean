import RelSmt.Evaluation.Basic
import RelSmt.Proofs.Evaluation.Cases
import RelSmt.Proofs.Term.Sorting

/-!
# Values in normal form

Tuples in normal form are lists of literals. A set in normal form *lists* such tuples: it is empty,
a singleton, or a union of two sets of its sort that each list some of them (`Term.Lists`). Taking a
set apart gives what it lists, by first occurrence (`Lists.elements`), and evaluation leaves tuples
and sets in normal form as they are (`evaluateWith_tupleOf`, `Lists.evaluateWith`).
-/

namespace RelSmt

/-! ## Lists without repeats -/

section Repeats

variable {α β : Type}

theorem eraseDups_of_nodup [BEq α] [LawfulBEq α] : ∀ {xs : List α}, xs.Nodup → xs.eraseDups = xs
  | [], _ => List.eraseDups_nil
  | x :: xs, h => by
    obtain ⟨hx, hxs⟩ := List.nodup_cons.1 h
    have hfilter : xs.filter (fun y => !y == x) = xs :=
      List.filter_eq_self.2 fun y hy => by simpa using fun he : y = x => hx (he ▸ hy)
    rw [List.eraseDups_cons, hfilter, eraseDups_of_nodup hxs]

/-- Nothing is added, whatever is taken for a repeat. -/
theorem mem_of_mem_eraseDups [BEq α] {a : α} : ∀ {xs : List α}, a ∈ xs.eraseDups → a ∈ xs
  | [], h => by simp at h
  | x :: xs, h => by
    rw [List.eraseDups_cons, List.mem_cons] at h
    exact List.mem_cons.2 (h.imp_right fun h => (List.mem_filter.1 (mem_of_mem_eraseDups h)).1)
  termination_by xs => xs.length
  decreasing_by exact Nat.lt_succ_of_le (List.length_filter_le _ _)

/-- What is left is told apart. -/
theorem pairwise_eraseDups [BEq α] : ∀ xs : List α, xs.eraseDups.Pairwise fun a b => (b == a) = false
  | [] => by simp
  | x :: xs => by
    rw [List.eraseDups_cons, List.pairwise_cons]
    refine ⟨fun y hy => ?_, pairwise_eraseDups _⟩
    simpa using (List.mem_filter.1 (mem_of_mem_eraseDups hy)).2
  termination_by xs => xs.length
  decreasing_by exact Nat.lt_succ_of_le (List.length_filter_le _ _)

theorem nodup_eraseDups [BEq α] [LawfulBEq α] (xs : List α) : xs.eraseDups.Nodup :=
  (pairwise_eraseDups xs).imp fun h => (beq_eq_false_iff_ne.1 h).symm

/-- Repeats are told apart behind a map that tells elements apart. -/
theorem eraseDups_map [BEq α] [BEq β] {f : α → β} (hf : ∀ a b, (f a == f b) = (a == b)) :
    ∀ xs : List α, (xs.map f).eraseDups = xs.eraseDups.map f
  | [] => by simp
  | x :: xs => by
    have hfilter : (xs.map f).filter (fun y => !y == f x) = (xs.filter fun y => !y == x).map f := by
      rw [List.filter_map]
      exact congrArg _ (List.filter_congr fun y _ => by simp [hf])
    rw [List.map_cons, List.eraseDups_cons, hfilter, eraseDups_map hf, List.eraseDups_cons,
      List.map_cons]
  termination_by xs => xs.length
  decreasing_by exact Nat.lt_succ_of_le (List.length_filter_le _ _)

end Repeats

namespace Term

/-! ## Tuples -/

/-- A tuple of literals. -/
def tupleOf (cs : List Literal) : Term := .nary .mkTuple (cs.map .literal)

@[simp] theorem literal_beq (a b : Literal) : (Term.literal a == Term.literal b) = (a == b) := rfl

theorem beqList_literals : ∀ as bs : List Literal,
    beqList (as.map .literal) (bs.map .literal) = (as == bs)
  | [], [] => rfl
  | [], _ :: _ => rfl
  | _ :: _, [] => rfl
  | a :: as, b :: bs => by
    rw [List.map_cons, List.map_cons, beqList, beqList_literals as bs]
    rfl

/-- Tuples are told apart by their literals. -/
@[simp] theorem tupleOf_beq (as bs : List Literal) : (tupleOf as == tupleOf bs) = (as == bs) := by
  change ((NaryOp.mkTuple == NaryOp.mkTuple) && beqList _ _) = _
  rw [beqList_literals]
  rfl

theorem isValue_tupleOf (cs : List Literal) : (tupleOf cs).isValue = true := by
  simp [tupleOf, isValue, isLiteral]

theorem sort_tupleOf (cs : List Literal) :
    (tupleOf cs).sort = .tuple (cs.map fun c => (Term.literal c).sort) := by
  rw [tupleOf, sort, sorts_eq_map, List.map_map]
  rfl

theorem isTuple_tupleOf (cs : List Literal) : (tupleOf cs).sort.isTuple = true := by
  rw [sort_tupleOf]
  rfl

theorem exists_map_literal : ∀ {ts : List Term}, ts.all isElement = true →
    ∃ cs : List Literal, ts = cs.map .literal
  | [], _ => ⟨[], rfl⟩
  | t :: ts, h => by
    rw [List.all_cons, Bool.and_eq_true] at h
    obtain ⟨cs, rfl⟩ := exists_map_literal h.2
    cases t with
    | literal c => exact ⟨c :: cs, rfl⟩
    | _ => simp [isElement] at h

/-- Tuples of atoms are taken apart, and nothing else is. -/
theorem atoms_eq_ok {t : Term} {ts : List Term} : t.atoms = .ok ts ↔ ∃ cs : List Literal,
    t = tupleOf cs ∧ ts = cs.map .literal ∧ ∀ c ∈ cs, (Term.literal c).isElement = true := by
  constructor
  · intro h
    unfold atoms at h
    split at h
    · rename_i us
      split at h
      · rename_i hall
        obtain rfl := Except.ok.inj h
        obtain ⟨cs, rfl⟩ := exists_map_literal hall
        exact ⟨cs, rfl, rfl, List.forall_mem_map.1 (List.all_eq_true.1 hall)⟩
      · cases h
    · cases h
  · rintro ⟨cs, rfl, rfl, hcs⟩
    exact if_pos (List.all_eq_true.2 (List.forall_mem_map.2 hcs))

theorem yields_atoms (t : Term) : Yields (fun ts => ∃ cs : List Literal, ts = cs.map .literal) t.atoms := by
  cases h : t.atoms with
  | ok ts =>
    obtain ⟨cs, -, hcs, -⟩ := atoms_eq_ok.1 h
    exact .value ⟨cs, hcs⟩
  | error e =>
    unfold atoms at h
    split at h
    · split at h <;> cases h
      exact .fault rfl
    · cases h
      exact .fault rfl

/-! ## Sets -/

/-- Is this a set in normal form of the sort, which lists these tuples in this order? -/
inductive Lists (s : SmtSort) : Term → List (List Literal) → Prop
  | empty (hs : s.isSet = true) : Lists s (.emptySet s) []
  | single {cs : List Literal} (ht : (tupleOf cs).WellSorted) (hs : s = .set (tupleOf cs).sort) :
      Lists s (.unary .singleton (tupleOf cs)) [cs]
  | union {l r : Term} {xs ys : List (List Literal)} (hl : Lists s l xs) (hr : Lists s r ys) :
      Lists s (.binary (.set .union) l r) (xs ++ ys)

section Sets

variable {s : SmtSort} {t : Term} {xs : List (List Literal)}

theorem Lists.isSet (h : Lists s t xs) : s.isSet = true := by
  induction h with
  | empty hs => exact hs
  | single ht hs =>
    rw [hs]
    rfl
  | union _ _ ihl _ => exact ihl

theorem Lists.sort (h : Lists s t xs) : t.sort = s := by
  induction h with
  | empty hs => rfl
  | single ht hs => exact hs.symm
  | union hl hr ihl ihr => exact ihl

theorem Lists.wellSorted (h : Lists s t xs) : t.WellSorted := by
  induction h with
  | empty hs => exact hs
  | @single cs ht hs =>
    exact ⟨ht, unarySort_singleton.2 (isTuple_tupleOf _)⟩
  | union hl hr ihl ihr =>
    exact ⟨ihl, ihr, binarySort_set.2 ⟨hl.sort ▸ hl.isSet, hl.sort.trans hr.sort.symm⟩⟩

theorem Lists.isValue (h : Lists s t xs) : t.isValue = true := by
  induction h with
  | empty hs => rfl
  | single ht hs => exact isValue_tupleOf _
  | union _ _ ihl ihr => simp [Term.isValue, ihl, ihr]

theorem Lists.listed (h : Lists s t xs) : t.listed = .ok (xs.map tupleOf) := by
  induction h with
  | empty hs => rfl
  | single ht hs => rfl
  | union _ _ ihl ihr =>
    rw [Term.listed, ihl, ihr, List.map_append]
    rfl

/-- **Taking a set apart gives the tuples that it lists, by first occurrence.** -/
theorem Lists.elements (h : Lists s t xs) : t.elements = .ok (xs.eraseDups.map tupleOf) := by
  rw [Term.elements, h.listed, ← eraseDups_map tupleOf_beq]
  rfl

/-- Tuples that are told apart are taken apart as they are listed. -/
theorem Lists.elements_of_nodup (h : Lists s t xs) (hxs : xs.Nodup) :
    t.elements = .ok (xs.map tupleOf) := by
  rw [h.elements, eraseDups_of_nodup hxs]

end Sets

theorem lists_single {e : SmtSort} {cs : List Literal} (ht : (tupleOf cs).WellSorted)
    (hsort : (tupleOf cs).sort = e) : Lists (.set e) (.unary .singleton (tupleOf cs)) [cs] :=
  .single ht (congrArg _ hsort.symm)

/-- Uniting a set with the singletons of some tuples, one after the other, lists them behind what
the set lists. -/
theorem exists_foldlM_union {e : SmtSort} : ∀ {xs front : List (List Literal)} {set : Term},
    Lists (.set e) set front → (∀ cs ∈ xs, (tupleOf cs).WellSorted ∧ (tupleOf cs).sort = e) →
    ∃ t, (xs.map tupleOf).foldlM (fun set t => do set.union (← t.single)) set = .ok t ∧
      Lists (.set e) t (front ++ xs)
  | [], _, set, hset, _ => ⟨set, rfl, by rwa [List.append_nil]⟩
  | cs :: xs, front, set, hset, h => by
    obtain ⟨⟨ht, hsort⟩, hxs⟩ := List.forall_mem_cons.1 h
    have hone := lists_single ht hsort
    have hsingle := single_eq_ok.2 ⟨isTuple_tupleOf cs, rfl⟩
    have hunion : set.union (.unary .singleton (tupleOf cs)) = .ok _ :=
      setOp_eq_ok.2 ⟨⟨hset.sort ▸ hset.isSet, hset.sort.trans hone.sort.symm⟩, rfl⟩
    obtain ⟨t, hfold, hlists⟩ := exists_foldlM_union (hset.union hone) hxs
    rw [List.append_assoc] at hlists
    refine ⟨t, ?_, hlists⟩
    rw [List.map_cons, List.foldlM_cons]
    exact Checked.bind_eq_ok.2 ⟨_, Checked.bind_eq_ok.2 ⟨_, hsingle, hunion⟩, hfold⟩

/-- **The set made of some tuples lists them.** -/
theorem exists_ofElements {e : SmtSort} : ∀ {xs : List (List Literal)},
    (∀ cs ∈ xs, (tupleOf cs).WellSorted ∧ (tupleOf cs).sort = e) →
    ∃ t, ofElements (.set e) (xs.map tupleOf) = .ok t ∧ Lists (.set e) t xs
  | [], _ => ⟨.emptySet (.set e), emptyOf_eq_ok.2 ⟨rfl, rfl⟩, .empty rfl⟩
  | cs :: xs, h => by
    obtain ⟨⟨ht, hsort⟩, hxs⟩ := List.forall_mem_cons.1 h
    have hsingle := single_eq_ok.2 ⟨isTuple_tupleOf cs, rfl⟩
    obtain ⟨t, hfold, hlists⟩ := exists_foldlM_union (lists_single ht hsort) hxs
    exact ⟨t, Checked.bind_eq_ok.2 ⟨_, hsingle, hfold⟩, hlists⟩

/-! ## Values evaluate to themselves -/

section Evaluation

variable {call : Caller} {scope : Scope}

theorem evaluateAll_literals : ∀ cs : List Literal,
    evaluateAll call scope (cs.map .literal) = .ok (cs.map .literal)
  | [] => by rw [List.map_nil, evaluateAll]
  | c :: cs => by
    rw [List.map_cons, evaluateAll, evaluateAll_literals cs, evaluateWith]
    rfl

theorem evaluateWith_call_literals {f : FunctionSymbol} {d : FunctionDefinition}
    (h : scope.definition? f.name = some d) (cs : List Literal) :
    evaluateWith call scope (.call f (cs.map .literal)) = call.apply d (cs.map .literal) := by
  rw [evaluateWith, h, evaluateAll_literals]
  rfl

theorem evaluateWith_tupleOf {cs : List Literal} (h : (tupleOf cs).WellSorted) :
    evaluateWith call scope (tupleOf cs) = .ok (tupleOf cs) := by
  obtain ⟨hne, _, hfit⟩ := h
  rw [tupleOf, evaluateWith, evaluateAll_literals]
  exact mkNary_eq_ok.2 ⟨hne, hfit, rfl⟩

theorem Lists.evaluateWith {s : SmtSort} {t : Term} {xs : List (List Literal)}
    (h : Lists s t xs) : evaluateWith call scope t = .ok t := by
  induction h with
  | empty hs => rw [Term.evaluateWith]
  | single ht hs =>
    rw [Term.evaluateWith, evaluateWith_tupleOf ht]
    exact mkUnary_eq_ok.2 ⟨unarySort_singleton.2 (isTuple_tupleOf _), rfl⟩
  | union hl hr ihl ihr =>
    rw [Term.evaluateWith, ihl, ihr]
    refine (foldBinary_union _ _).trans (setOp_eq_ok.2 ⟨?_, rfl⟩)
    exact ⟨hl.sort ▸ hl.isSet, hl.sort.trans hr.sort.symm⟩

end Evaluation

end Term

end RelSmt
