import RelSmt.Proofs.Relational.Meaning

/-!
# What the declaration of a field demands

A field relates each element of its signature to the rests of the tuples that start with it. The
declaration demands that tuples start with elements of the signature, and that the rests at an
element are taken from the bound at that element, as many as the multiplicity says.
-/

namespace RelSmt.Relational

variable {E : Type}

/-- The rests of the tuples that start with `a`. -/
def rests (F : Set (Tuple E)) (a : Tuple E) : Set (Tuple E) := {r | a ++ r ∈ F}

/-- How many rests a bound allows at each element: as many as the marker says that stands in front of
it. Without a marker it is one tuple of a bound with one column, and any number of a wider one. -/
def Expr.demand (e : Expr) : Multiplicity :=
  match e with
  | .unary .oneOf _ => .one
  | .unary .someOf _ => .some
  | .unary .loneOf _ => .lone
  | .unary .setOf _ => .set
  | e => if e.columns.length = 1 then .one else .set

theorem Expr.splitMarker_fst (e : Expr) : e.splitMarker.1 = e.demand := by
  cases e with
  | unary op e => cases op <;> rfl
  | _ => rfl

/-- Markers make no difference to what a bound means. -/
theorem meaningWith_splitMarker {M : Structure E} {call : Callee E} (e : Expr) (δ : Valuation E) :
    meaningWith M call e.splitMarker.2 δ = meaningWith M call e δ := by
  cases e with
  | unary op e =>
    cases op <;> simp only [Expr.splitMarker, UnaryOp.marker?] <;> rw [meaningWith] <;> rfl
  | _ => rfl

theorem meaningWithin_splitMarker {M : Structure E} (depth : Nat) (e : Expr) (δ : Valuation E) :
    meaningWithin M depth e.splitMarker.2 δ = meaningWithin M depth e δ := by
  cases depth <;> exact meaningWith_splitMarker e δ

/-- Does a set have as many elements as the multiplicity says? -/
def Multiplicity.Counts (m : Multiplicity) (r : Set (Tuple E)) : Prop :=
  match m with
  | .one => ∃ t, r = {t}
  | .some => r.Nonempty
  | .lone => r.Subsingleton
  | .set => True
  | .no => False

/-- Does a field relate elements of its signature to what its bound is at these elements, and to as
many as its multiplicity says? -/
structure FieldFits (owner field : Set (Tuple E)) (m : Multiplicity)
    (bound : Tuple E → Set (Tuple E)) : Prop where
  starts : ∀ t ∈ field, t.take 1 ∈ owner
  within : ∀ a ∈ owner, rests field a ⊆ bound a
  counts : ∀ a ∈ owner, m.Counts (rests field a)

/-- A set of rows is one set only. -/
theorem exists_subset_eq_set {P : Set (Tuple E) → Prop} {bound r : Set (Tuple E)} :
    (∃ q ⊆ bound, P q ∧ Value.set r = .set q) ↔ r ⊆ bound ∧ P r := by
  constructor
  · rintro ⟨q, hsub, hp, he⟩
    obtain rfl : r = q := by simpa using he
    exact ⟨hsub, hp⟩
  · rintro ⟨hsub, hp⟩
    exact ⟨r, hsub, hp, rfl⟩

/-- A multiplicity admits the sets within the bound that have as many elements as it says. -/
theorem admits_set {m : Multiplicity} {bound r : Set (Tuple E)} :
    m.Admits bound (.set r) ↔ r ⊆ bound ∧ m.Counts r := by
  cases m with
  | one =>
    constructor
    · rintro ⟨t, ht, he⟩
      obtain rfl : r = {t} := by simpa using he
      exact ⟨Set.singleton_subset_iff.2 ht, t, rfl⟩
    · rintro ⟨hsub, t, rfl⟩
      exact ⟨t, Set.singleton_subset_iff.1 hsub, rfl⟩
  | some => exact exists_subset_eq_set
  | lone => exact exists_subset_eq_set
  | set =>
    constructor
    · rintro ⟨q, hsub, he⟩
      obtain rfl : r = q := by simpa using he
      exact ⟨hsub, trivial⟩
    · rintro ⟨hsub, _⟩
      exact ⟨r, hsub, rfl⟩
  | no => exact ⟨fun h => h.elim, fun h => h.2.elim⟩

theorem admits_of_eq_set {m : Multiplicity} {bound : Set (Tuple E)} {v : Value E}
    (hv : v = .set v.rows) : m.Admits bound v ↔ v.rows ⊆ bound ∧ m.Counts v.rows := by
  rw [← admits_set, ← hv]

/-- What a multiplicity admits is a set. -/
theorem exists_set_of_admits {m : Multiplicity} {bound : Set (Tuple E)} {v : Value E}
    (h : m.Admits bound v) : ∃ r, v = .set r := by
  cases m with
  | one => exact h.elim fun t h => ⟨{t}, h.2⟩
  | some => exact h.elim fun r h => ⟨r, h.2.2⟩
  | lone => exact h.elim fun r h => ⟨r, h.2.2⟩
  | set => exact h.elim fun r h => ⟨r, h.2⟩
  | no => exact h.elim

/-- The tuples that start with an element of one column are that element before the rests at it. -/
theorem starting_eq_product {F r : Set (Tuple E)} {a : Tuple E} (ha : a.length = 1) :
    {t ∈ F | t.take 1 ∈ ({a} : Set (Tuple E))} = productRows {a} r ↔ rests F a = r := by
  have htake : ∀ u : Tuple E, (a ++ u).take 1 = a := fun u => List.take_left' ha
  constructor
  · intro h
    ext u
    have hu := Set.ext_iff.1 h (a ++ u)
    constructor
    · intro hmem
      obtain ⟨b, hb, w, hw, he⟩ := hu.1 ⟨hmem, htake u⟩
      obtain rfl : b = a := hb
      rwa [List.append_cancel_left he]
    · intro hmem
      exact (hu.2 ⟨a, rfl, u, hmem, rfl⟩).1
  · rintro rfl
    ext t
    constructor
    · rintro ⟨ht, hstart⟩
      obtain rfl : t.take 1 = a := hstart
      exact ⟨_, rfl, t.drop 1, by rwa [rests, Set.mem_ofPred_eq, List.take_append_drop],
        (List.take_append_drop 1 t).symm⟩
    · rintro ⟨b, hb, u, hu, rfl⟩
      obtain rfl : b = a := hb
      exact ⟨hu, htake u⟩

/-- Relations of elements of one column to others are those whose tuples start with such an element
and go on with one of the others. -/
theorem subset_productRows {S F W : Set (Tuple E)} (hS : ∀ a ∈ S, a.length = 1) :
    F ⊆ productRows S W ↔ (∀ t ∈ F, t.take 1 ∈ S) ∧ ∀ t ∈ F, t.drop 1 ∈ W := by
  constructor
  · intro h
    refine ⟨fun t ht => ?_, fun t ht => ?_⟩ <;> obtain ⟨a, ha, u, hu, rfl⟩ := h ht
    · rwa [List.take_left' (hS a ha)]
    · rwa [List.drop_left' (hS a ha)]
  · rintro ⟨hstart, hrest⟩ t ht
    exact ⟨_, hstart t ht, _, hrest t ht, (List.take_append_drop 1 t).symm⟩

/-- A bound that holds for the whole signature what it holds at each element leaves nothing to
demand of the rests taken together. -/
theorem FieldFits.rests_subset {owner field whole : Set (Tuple E)} {m : Multiplicity}
    {bound : Tuple E → Set (Tuple E)} (h : FieldFits owner field m bound)
    (hbound : ∀ a ∈ owner, bound a ⊆ whole) : ∀ t ∈ field, t.drop 1 ∈ whole := by
  intro t ht
  refine hbound _ (h.starts t ht) (h.within _ (h.starts t ht) ?_)
  rwa [rests, Set.mem_ofPred_eq, List.take_append_drop]

/-- Sets are equal as relations, too, where different atoms stand for different integers. -/
theorem Structure.equal_set {M : Structure E} {r q : Set (Tuple E)}
    (hinj : ∀ d ∈ M.integers, ∀ e ∈ M.integers, M.intOf d = M.intOf e → d = e) :
    M.Equal (.set r) (.set q) ↔ r = q := by
  constructor
  · rintro (h | ⟨n, hr, hq⟩)
    · simpa using h
    · obtain ⟨d, hd, hrd, hdn⟩ := hr.resolve_left (by simp [Value.int])
      obtain ⟨e, he, hqe, hen⟩ := hq.resolve_left (by simp [Value.int])
      obtain rfl := hinj d hd e he (hdn.trans hen.symm)
      simpa using hrd.trans hqe.symm
  · rintro rfl
    exact Or.inl rfl

end RelSmt.Relational
