import Mathlib.Data.Set.Finite.List
import Mathlib.Order.WellFoundedSet
import RelSmt.Proofs.Relational.Field
import RelSmt.Relational.Specification

/-!
# The hierarchy of signatures

Signatures that extend others make trees, with a top-level signature at each root. What two
signatures of trees have to do with each other depends on whether one is below the other. If so, it
is inside the other. If not, the two are disjoint, be they in one tree or in two. It is enough to
demand this of any two roots and of any two children of one signature (`hierarchy_iff_adjacent`):
further down everything is inside what is disjoint already.

Where each signature of a tree that has children is abstract, an element of the root comes down to
exactly one leaf (`Hierarchy.exists_unique_leaf`).
-/

namespace RelSmt.Relational

variable {E : Type}

/-! ## Trees -/

/-- The signatures that a signature of this kind names as its parents. -/
def SigKind.parents : SigKind → List SigRef
  | .top => []
  | .extends parent => [parent]
  | .subset parents => parents
  | .int => []

namespace Signature

/-- Is the signature what can be made of its parts? Its column is that of its parent then, and a
subset signature has a parent. -/
def IsMade (s : Signature) : Prop :=
  make s.ref.id s.ref.label s.kind s.isAbstract s.multiplicity s.position = .ok s

/-- Is the signature in a tree, be it as a root or below one? -/
def InTree (s : Signature) : Prop := s.kind = .top ∨ ∃ parent, s.kind = .extends parent

/-- Does one listed signature extend the other? -/
structure Child (all : List Signature) (c p : Signature) : Prop where
  listed : c ∈ all
  parent_listed : p ∈ all
  kind : c.kind = .extends p.ref

/-- Is one signature the other, or below it by way of children? -/
def Below (all : List Signature) : Signature → Signature → Prop := Relation.ReflTransGen (Child all)

/-- Is neither signature below the other, although both are in trees? -/
structure Unrelated (all : List Signature) (a b : Signature) : Prop where
  left : a.InTree
  right : b.InTree
  not_below : ¬ Below all a b
  not_above : ¬ Below all b a

/-- Are these two roots, or two children of one signature? -/
structure Adjacent (all : List Signature) (a b : Signature) : Prop where
  ne : a ≠ b
  siblings : (a.kind = .top ∧ b.kind = .top) ∨ ∃ p, Child all a p ∧ Child all b p

/-- Has the signature no children? -/
def IsLeaf (all : List Signature) (s : Signature) : Prop := ∀ c, ¬ Child all c s

end Signature

open Signature

/-- Do some signatures make trees? Each is listed once and with its parents, and every way up by way
of parents ends in a root. -/
structure Forest (all : List Signature) : Prop where
  distinct : (all.map Signature.ref).Nodup
  made : ∀ s ∈ all, s.IsMade
  parents : ∀ s ∈ all, ∀ r ∈ s.kind.parents, ∃ p ∈ all, p.ref = r
  rooted : ∀ s ∈ all, s.InTree → ∃ root ∈ all, root.kind = .top ∧ Below all s root

/-- Are the sets that signatures stand for as the hierarchy demands? Which signatures are to be
disjoint is left open. -/
structure Hierarchy (Apart : Signature → Signature → Prop) (value : SigRef → Set (Tuple E))
    (all : List Signature) : Prop where
  child : ∀ c p, Child all c p → value c.ref ⊆ value p.ref
  apart : ∀ a ∈ all, ∀ b ∈ all, Apart a b → value a.ref ∩ value b.ref = ∅
  abstract : ∀ p ∈ all, p.isAbstract = true → ¬ p.IsLeaf all →
    value p.ref = {t | ∃ c, Child all c p ∧ t ∈ value c.ref}
  subset : ∀ s ∈ all, ∀ ps, s.kind = .subset ps → ∀ t ∈ value s.ref, ∃ p ∈ ps, t ∈ value p
  size : ∀ s ∈ all, ∀ m, s.multiplicity = some m → m.Counts (value s.ref)

section Trees

variable {all : List Signature} {a b c p root : Signature}

theorem Signature.IsMade.column (h : p.IsMade) : p.ref.column = p.kind.column := by
  unfold IsMade make at h
  split at h
  · simp at h
  · split at h
    · simp at h
    · exact congrArg (fun s => s.ref.column) (Except.ok.inj h).symm

theorem Signature.IsMade.isInt (h : p.IsMade) : p.ref.isInt = true ↔ p.kind = .int := by
  unfold IsMade make at h
  split at h
  · simp at h
  · split at h
    · simp at h
    · have := congrArg (fun s => s.ref.isInt) (Except.ok.inj h)
      simp only at this
      rw [← this, beq_iff_eq]

theorem Signature.IsMade.subset_ne_nil (h : p.IsMade) : p.kind ≠ .subset [] := by
  intro hkind
  rw [IsMade, make, if_pos hkind] at h
  simp at h

/-- A signature has no multiplicity that bounds nothing. -/
theorem Signature.IsMade.admits (h : p.IsMade) {m : Multiplicity} (hm : p.multiplicity = some m) :
    admits m = true := by
  unfold IsMade make at h
  split at h
  · simp at h
  · by_contra hadmits
    rw [hm, Option.filter_some, if_pos (by simpa using hadmits)] at h
    simp at h

theorem Signature.not_child_of_top (hroot : root.kind = .top) : ¬ Child all root p := fun h => by
  have hkind := h.kind
  simp [hroot] at hkind

theorem Signature.Child.inTree (h : Child all c p) : c.InTree := Or.inr ⟨p.ref, h.kind⟩

section

variable (hall : Forest all)

include hall

theorem Forest.parent_unique (h : Child all c a) (h' : Child all c b) : a = b := by
  have hkind := h.kind.symm.trans h'.kind
  exact List.inj_on_of_nodup_map hall.distinct h.parent_listed h'.parent_listed (by simpa using hkind)

/-- A tree has no cycles: the way up from a signature ends in a root, which has no parent. -/
theorem Forest.acyclic (a : Signature) : ¬ Relation.TransGen (Child all) a a := by
  intro h
  obtain ⟨root, _, hroot, hbelow⟩ : ∃ root ∈ all, root.kind = .top ∧ Below all a root := by
    obtain ⟨p, hp, _⟩ := Relation.TransGen.head'_iff.1 h
    exact hall.rooted a hp.listed hp.inTree
  induction hbelow using Relation.ReflTransGen.head_induction_on with
  | refl =>
    obtain ⟨q, hq, _⟩ := Relation.TransGen.head'_iff.1 h
    exact not_child_of_top hroot hq
  | head hchild _ ih =>
    -- the cycle goes through the parent
    obtain ⟨q, hq, hqa⟩ := Relation.TransGen.head'_iff.1 h
    obtain rfl := hall.parent_unique hq hchild
    exact ih (Relation.TransGen.tail' hqa hchild)

/-- Signatures that stand side by side are not below each other. -/
theorem Forest.not_below_of_adjacent (h : Adjacent all a b) : ¬ Below all a b := by
  intro hbelow
  rcases Relation.ReflTransGen.cases_head hbelow with rfl | ⟨q, hq, hqb⟩
  · exact h.ne rfl
  · rcases h.siblings with ⟨htop, _⟩ | ⟨p, ha, hb⟩
    · exact not_child_of_top htop hq
    · obtain rfl := hall.parent_unique hq ha
      exact hall.acyclic q (Relation.TransGen.tail' hqb hb)

end

theorem Signature.Adjacent.symm (h : Adjacent all a b) : Adjacent all b a :=
  ⟨h.ne.symm, h.siblings.imp And.symm fun ⟨p, ha, hb⟩ => ⟨p, hb, ha⟩⟩

theorem Signature.Adjacent.inTree (h : Adjacent all a b) : a.InTree :=
  h.siblings.elim (fun h => Or.inl h.1) fun ⟨_, h, _⟩ => h.inTree

theorem Forest.unrelated_of_adjacent (hall : Forest all) (h : Adjacent all a b) :
    Unrelated all a b :=
  ⟨h.inTree, h.symm.inTree, hall.not_below_of_adjacent h, hall.not_below_of_adjacent h.symm⟩

end Trees

/-! ## Disjointness goes down -/

section Values

variable {all : List Signature} {value : SigRef → Set (Tuple E)}
  {Apart : Signature → Signature → Prop} {a b root : Signature}

theorem Hierarchy.subset_of_below (h : Hierarchy Apart value all) (hab : Below all a b) :
    value a.ref ⊆ value b.ref := by
  induction hab with
  | refl => exact subset_rfl
  | tail _ hchild ih => exact ih.trans (h.child _ _ hchild)

/-- A set inside another is disjoint from what the other is disjoint from. -/
theorem inter_eq_empty_of_subset {r s t : Set (Tuple E)} (hrs : r ⊆ s) (h : s ∩ t = ∅) :
    r ∩ t = ∅ :=
  Set.subset_empty_iff.1 (h ▸ Set.inter_subset_inter_left t hrs)

/-- A root and a signature below another root are disjoint, by induction on the way down. -/
theorem below_or_disjoint_root (hall : Forest all) (h : Hierarchy (Adjacent all) value all)
    (hroot : root ∈ all) (htop : root.kind = .top) (hb : b ∈ all) (htree : b.InTree) :
    Below all b root ∨ value root.ref ∩ value b.ref = ∅ := by
  obtain ⟨root', hroot', htop', hbelow⟩ := hall.rooted b hb htree
  by_cases he : root = root'
  · exact Or.inl (he ▸ hbelow)
  · right
    have hroots := h.apart root hroot root' hroot' ⟨he, Or.inl ⟨htop, htop'⟩⟩
    rw [Set.inter_comm] at hroots ⊢
    exact inter_eq_empty_of_subset (h.subset_of_below hbelow) hroots

/-- **Of two signatures in trees, one is below the other or they are disjoint**, if roots and
siblings are. The induction is on the way from one of them up to its root. -/
theorem below_or_disjoint (hall : Forest all) (h : Hierarchy (Adjacent all) value all)
    (hroot : root ∈ all) (htop : root.kind = .top) (ha : Below all a root) (hb : b ∈ all)
    (htree : b.InTree) : Below all a b ∨ Below all b a ∨ value a.ref ∩ value b.ref = ∅ := by
  induction ha using Relation.ReflTransGen.head_induction_on with
  | refl => exact Or.inr (below_or_disjoint_root hall h hroot htop hb htree)
  | @head a p hchild _ ih =>
    rcases ih with hpb | hbp | hdisjoint
    · exact Or.inl (.head hchild hpb)
    · -- `b` is the parent, or below some child of it
      rcases Relation.ReflTransGen.cases_tail hbp with rfl | ⟨c, hbc, hc⟩
      · exact Or.inl (.single hchild)
      · by_cases he : c = a
        · exact Or.inr (Or.inl (he ▸ hbc))
        · have hsiblings := h.apart c hc.listed a hchild.listed ⟨he, Or.inr ⟨p, hc, hchild⟩⟩
          rw [Set.inter_comm]
          exact Or.inr (Or.inr (inter_eq_empty_of_subset (h.subset_of_below hbc) hsiblings))
    · exact Or.inr (Or.inr (inter_eq_empty_of_subset (h.child _ _ hchild) hdisjoint))

/-- **Signatures of trees are disjoint wherever they are unrelated, if roots and siblings are.** -/
theorem hierarchy_iff_adjacent (hall : Forest all) :
    Hierarchy (Unrelated all) value all ↔ Hierarchy (Adjacent all) value all := by
  constructor
  · intro h
    exact { h with apart := fun a ha b hb hab => h.apart a ha b hb (hall.unrelated_of_adjacent hab) }
  · intro h
    refine { h with apart := fun a ha b hb hab => ?_ }
    obtain ⟨root, hroot, htop, hbelow⟩ := hall.rooted a ha hab.left
    exact ((below_or_disjoint hall h hroot htop hbelow hb hab.right).resolve_left
      hab.not_below).resolve_left hab.not_above

/-! ## Leaves -/

/-- Going down from a signature ends. -/
theorem Forest.wellFoundedOn_below (hall : Forest all) :
    {s | s ∈ all}.WellFoundedOn (Relation.TransGen (Child all)) :=
  have : IsStrictOrder Signature (Relation.TransGen (Child all)) :=
    { irrefl := hall.acyclic, trans := fun _ _ _ => .trans }
  (List.finite_toSet all).wellFoundedOn

theorem Hierarchy.exists_leaf (hall : Forest all) (h : Hierarchy Apart value all)
    {t : Tuple E} (ha : a ∈ all)
    (habstract : ∀ p ∈ all, Below all p a → ¬ p.IsLeaf all → p.isAbstract = true)
    (ht : t ∈ value a.ref) : ∃ l ∈ all, Below all l a ∧ l.IsLeaf all ∧ t ∈ value l.ref := by
  revert habstract ht
  refine hall.wellFoundedOn_below.induction (P := fun a =>
    (∀ p ∈ all, Below all p a → ¬ p.IsLeaf all → p.isAbstract = true) → t ∈ value a.ref →
      ∃ l ∈ all, Below all l a ∧ l.IsLeaf all ∧ t ∈ value l.ref) ha ?_
  intro a ha ih habstract ht
  by_cases hleaf : a.IsLeaf all
  · exact ⟨a, ha, .refl, hleaf, ht⟩
  · rw [h.abstract a ha (habstract a ha .refl hleaf) hleaf] at ht
    obtain ⟨c, hc, htc⟩ := ht
    obtain ⟨l, hl, hlc, hleaf, htl⟩ := ih c hc.listed (.single hc)
      (fun p hp hpc => habstract p hp (hpc.tail hc)) htc
    exact ⟨l, hl, hlc.tail hc, hleaf, htl⟩

/-- Nothing but the leaf itself is below a leaf. -/
theorem Signature.IsLeaf.eq_of_below (hb : b.IsLeaf all) (hab : Below all a b) : a = b := by
  rcases Relation.ReflTransGen.cases_tail hab with rfl | ⟨c, _, hc⟩
  · rfl
  · exact absurd hc (hb c)

/-- What is below a root is in a tree. -/
theorem Signature.inTree_of_below (htop : root.kind = .top) (h : Below all a root) : a.InTree := by
  rcases Relation.ReflTransGen.cases_head h with rfl | ⟨p, hp, _⟩
  · exact Or.inl htop
  · exact hp.inTree

/-- **Where every signature of a tree that has children is abstract, each element of the root is in
exactly one leaf.** -/
theorem Hierarchy.exists_unique_leaf (hall : Forest all)
    (h : Hierarchy (Unrelated all) value all) (hroot : root ∈ all) (htop : root.kind = .top)
    (habstract : ∀ p ∈ all, Below all p root → ¬ p.IsLeaf all → p.isAbstract = true)
    {t : Tuple E} (ht : t ∈ value root.ref) :
    ∃! l, l ∈ all ∧ Below all l root ∧ l.IsLeaf all ∧ t ∈ value l.ref := by
  obtain ⟨l, hl, hbelow, hleaf, htl⟩ := h.exists_leaf hall hroot habstract ht
  refine ⟨l, ⟨hl, hbelow, hleaf, htl⟩, ?_⟩
  rintro k ⟨hk, hkbelow, hkleaf, htk⟩
  by_contra hne
  have hunrelated : Unrelated all k l :=
    ⟨inTree_of_below htop hkbelow, inTree_of_below htop hbelow,
      fun h => hne (hleaf.eq_of_below h), fun h => hne (hkleaf.eq_of_below h).symm⟩
  have hmem : t ∈ value k.ref ∩ value l.ref := ⟨htk, htl⟩
  rw [h.apart k hk l hl hunrelated] at hmem
  exact hmem

end Values

end RelSmt.Relational
