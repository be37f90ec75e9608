import Mathlib.Data.List.Induction
import Mathlib.Data.List.Nodup
import RelSmt.Scoped

/-!
# What names resolve to

A property of all bindings that can be seen from a scope survives entering a scope and binding names
to things that have it.

A list of things with names can be searched from either end. The first and the last thing of a name
differ where the name is given to different things.
-/

namespace RelSmt.Scoped

variable {α : Type} {p q : String → α → Prop} {s : Scoped α}

/-- Does every name that resolves do so to something that fits it? -/
def Resolves (p : String → α → Prop) (s : Scoped α) : Prop :=
  ∀ name a, s.get? name = some a → p name a

theorem Resolves.mono (h : s.Resolves p) (hpq : ∀ name a, p name a → q name a) : s.Resolves q :=
  fun name a ha => hpq name a (h name a ha)

theorem resolves_empty : ({} : Scoped α).Resolves p := by
  intro name a h
  simp [get?] at h

theorem Resolves.enter (h : s.Resolves p) : s.enter.Resolves p :=
  fun name a ha => h name a (by rwa [get?_enter] at ha)

theorem Resolves.put {name : String} {a : α} (h : s.Resolves p) (ha : p name a) :
    (s.put name a).Resolves p := by
  intro other b hb
  by_cases hname : other = name
  · subst hname
    rw [get?_put_self, Option.some.injEq] at hb
    exact hb ▸ ha
  · rw [get?_put_of_ne _ _ hname] at hb
    exact h other b hb

theorem Resolves.putAll : ∀ {bs : List (String × α)} {s : Scoped α}, s.Resolves p →
    (∀ b ∈ bs, p b.1 b.2) → (s.putAll bs).Resolves p
  | [], _, h, _ => h
  | b :: bs, s, h, hbs => by
    obtain ⟨hb, hbs⟩ := List.forall_mem_cons.1 hbs
    exact Resolves.putAll (s := s.put b.1 b.2) (h.put hb) hbs

/-! ## Names bound together -/

theorem get?_empty (name : String) : ({} : Scoped α).get? name = none := rfl

theorem get?_putAll_of_notMem {name : String} : ∀ {bs : List (String × α)} {s : Scoped α},
    name ∉ bs.map Prod.fst → (s.putAll bs).get? name = s.get? name
  | [], _, _ => rfl
  | b :: bs, s, h => by
    rw [List.map_cons, List.mem_cons, not_or] at h
    have hrest := get?_putAll_of_notMem (s := s.put b.1 b.2) h.2
    rwa [get?_put_of_ne _ _ h.1] at hrest

/-- Of several bindings of a name the last one counts. -/
theorem get?_putAll_append {bs cs : List (String × α)} {name : String} {a : α} {s : Scoped α}
    (h : name ∉ cs.map Prod.fst) : (s.putAll (bs ++ (name, a) :: cs)).get? name = some a := by
  rw [putAll, List.foldl_append, List.foldl_cons]
  change ((_ : Scoped α).putAll cs).get? name = some a
  rw [get?_putAll_of_notMem h, get?_put_self]

/-- Where no name is bound twice, each stands for what it is bound to. -/
theorem get?_putAll_of_mem {name : String} {a : α} {bs : List (String × α)} {s : Scoped α}
    (hnodup : (bs.map Prod.fst).Nodup) (h : (name, a) ∈ bs) :
    (s.putAll bs).get? name = some a := by
  obtain ⟨front, back, rfl⟩ := List.append_of_mem h
  rw [List.map_append, List.map_cons] at hnodup
  exact get?_putAll_append (List.nodup_cons.1 hnodup.of_append_right).1

theorem get?_putAll_zip_of_notMem {names : List String} {as : List α} {name : String}
    (h : name ∉ names) : (s.putAll (names.zip as)).get? name = s.get? name := by
  refine get?_putAll_of_notMem fun hmem => ?_
  obtain ⟨b, hb, rfl⟩ := List.mem_map.1 hmem
  exact h (List.of_mem_zip hb).1

/-- The last of equal names stands for the value in its place. -/
theorem get?_putAll_zip {front back : List String} {name : String} {as bs : List α} {a : α}
    (hlength : front.length = as.length) (h : name ∉ back) :
    (s.putAll ((front ++ name :: back).zip (as ++ a :: bs))).get? name = some a := by
  rw [List.zip_append hlength, List.zip_cons_cons]
  refine get?_putAll_append fun hmem => ?_
  obtain ⟨b, hb, rfl⟩ := List.mem_map.1 hmem
  exact h (List.of_mem_zip hb).1

/-- Where things are bound by their names, each name stands for the last one that has it. -/
theorem get?_putAll_map {β : Type} (key : β → String) (f : β → α) (bs : List β) (name : String) :
    (putAll {} (bs.map fun b => (key b, f b))).get? name
      = (bs.reverse.find? fun b => key b == name).map f := by
  induction bs using List.reverseRecOn with
  | nil => rfl
  | append_singleton bs b ih =>
    rw [List.map_append, List.map_singleton, List.reverse_append, List.reverse_singleton,
      List.singleton_append, List.find?_cons]
    by_cases hname : key b = name
    · rw [show (key b == name) = true from beq_iff_eq.2 hname, ← hname]
      exact get?_putAll_append List.not_mem_nil
    · rw [show (key b == name) = false from beq_eq_false_iff_ne.2 hname, ← ih, putAll, List.foldl_append]
      exact get?_put_of_ne _ _ (Ne.symm hname)

/-! ## Scopes around -/

theorem around_putAll (s : Scoped α) : ∀ bs : List (String × α), (s.putAll bs).around = s.around
  | [] => rfl
  | b :: bs => around_putAll (s.put b.1 b.2) bs

theorem root_enter_putAll (s : Scoped α) (bs : List (String × α)) :
    (s.enter.putAll bs).root = s.root := by
  rw [root, around_putAll, enter, List.getLastD_cons, root]

end RelSmt.Scoped

namespace RelSmt

/-! ## First and last of a name -/

variable {β : Type} {name : β → String} {bs : List β} {b : β} {key : String}

/-- Is this the first thing of its name in the list? -/
def IsFirstOf (name : β → String) (bs : List β) (b : β) : Prop :=
  ∃ front back, bs = front ++ b :: back ∧ ∀ c ∈ front, name c ≠ name b

/-- Is this the last thing of its name in the list? -/
def IsLastOf (name : β → String) (bs : List β) (b : β) : Prop :=
  ∃ front back, bs = front ++ b :: back ∧ ∀ c ∈ back, name c ≠ name b

theorem IsLastOf.mem (h : IsLastOf name bs b) : b ∈ bs := by
  obtain ⟨front, back, rfl, -⟩ := h
  exact List.mem_append_right _ List.mem_cons_self

theorem find?_eq_some_iff_isFirstOf :
    (bs.find? fun b => name b == key) = some b ↔ IsFirstOf name bs b ∧ name b = key := by
  rw [List.find?_eq_some_iff_append, beq_iff_eq, and_comm]
  refine and_congr_left fun hkey => exists₂_congr fun front back => and_congr_right fun _ => ?_
  simp [hkey]

theorem isFirstOf_reverse : IsFirstOf name bs.reverse b ↔ IsLastOf name bs b := by
  constructor
  · rintro ⟨front, back, hsplit, hfront⟩
    refine ⟨back.reverse, front.reverse, ?_, fun c hc => hfront c (List.mem_reverse.1 hc)⟩
    simpa using congrArg List.reverse hsplit
  · rintro ⟨front, back, rfl, hback⟩
    exact ⟨back.reverse, front.reverse, by simp, fun c hc => hback c (List.mem_reverse.1 hc)⟩

theorem reverse_find?_eq_some_iff_isLastOf :
    (bs.reverse.find? fun b => name b == key) = some b ↔ IsLastOf name bs b ∧ name b = key := by
  rw [find?_eq_some_iff_isFirstOf, isFirstOf_reverse]

theorem exists_isFirstOf (name : β → String) (hb : b ∈ bs) :
    ∃ c, IsFirstOf name bs c ∧ name c = name b := by
  have hsome : (bs.find? fun c => name c == name b).isSome :=
    List.find?_isSome.2 ⟨b, hb, beq_self_eq_true _⟩
  obtain ⟨c, hc⟩ := Option.isSome_iff_exists.1 hsome
  exact ⟨c, find?_eq_some_iff_isFirstOf.1 hc⟩

theorem exists_isLastOf (name : β → String) (hb : b ∈ bs) :
    ∃ c, IsLastOf name bs c ∧ name c = name b := by
  obtain ⟨c, hc, hname⟩ := exists_isFirstOf name (List.mem_reverse.2 hb)
  exact ⟨c, isFirstOf_reverse.1 hc, hname⟩

theorem IsLastOf.unique {c : β} (hb : IsLastOf name bs b) (hc : IsLastOf name bs c)
    (h : name b = name c) : b = c := by
  have hfind := reverse_find?_eq_some_iff_isLastOf.2 ⟨hb, h⟩
  exact Option.some.inj (hfind.symm.trans (reverse_find?_eq_some_iff_isLastOf.2 ⟨hc, rfl⟩))

/-- Both ends find the same exactly where the first and the last thing of the name are the same. -/
theorem find?_eq_reverse_find?_iff :
    (bs.find? fun b => name b == key) = (bs.reverse.find? fun b => name b == key) ↔
      ∀ b c, IsFirstOf name bs b → IsLastOf name bs c → name b = key → name c = key → b = c := by
  constructor
  · intro h b c hb hc hbkey hckey
    rw [find?_eq_some_iff_isFirstOf.2 ⟨hb, hbkey⟩,
      reverse_find?_eq_some_iff_isLastOf.2 ⟨hc, hckey⟩] at h
    exact Option.some.inj h
  · intro h
    cases hfirst : bs.find? fun b => name b == key with
    | none =>
      rw [eq_comm, List.find?_eq_none]
      exact fun b hb => List.find?_eq_none.1 hfirst b (List.mem_reverse.1 hb)
    | some b =>
      obtain ⟨hb, hbkey⟩ := find?_eq_some_iff_isFirstOf.1 hfirst
      obtain ⟨c, hc, hcname⟩ := exists_isLastOf name (List.mem_of_find?_eq_some hfirst)
      rw [h b c hb hc hbkey (hcname.trans hbkey)]
      exact (reverse_find?_eq_some_iff_isLastOf.2 ⟨hc, hcname.trans hbkey⟩).symm

end RelSmt
