import Mathlib.Data.Set.Card
import RelSmt.Model.Basic
import RelSmt.Proofs.Term.Fragment
import RelSmt.Proofs.Term.Table

/-!
# What a model means

The definitions of a model are equations between functions and bodies. A term depends on the
definitions that it reaches, so an interpretation gives the term its meaning in the model when it
satisfies the equations of these. There is such an interpretation where no definition refers to
itself and the bodies are evaluable (`exists_satisfiesDefinitions`): definitions have a rank, the
number of definitions that they depend on, and functions are defined rank by rank.
-/

namespace RelSmt

variable {E : Type}

/-! ## Ranks

What a relation that goes round in no circle leads from has a rank: the number of things that it
leads to. All but the first of these lie in a finite set, so that ranks are below the size of the
set. -/

section Rank

variable {α : Type} {R : α → α → Prop} {S : Set α} {a b : α}

/-- The number of things that the relation leads to. -/
noncomputable def rankIn (R : α → α → Prop) (a : α) : Nat := {b | Relation.TransGen R a b}.ncard

theorem mem_of_transGen (hS : ∀ {a b}, R a b → b ∈ S) (h : Relation.TransGen R a b) : b ∈ S := by
  cases h with
  | single h => exact hS h
  | tail _ h => exact hS h

/-- Steps go down in rank. -/
theorem rankIn_lt (hR : ∀ a, ¬Relation.TransGen R a a) (hfinite : S.Finite)
    (hS : ∀ {a b}, R a b → b ∈ S) (h : R a b) : rankIn R b < rankIn R a :=
  Set.ncard_lt_ncard ⟨fun _ hc => .head h hc, fun hsub => hR b (hsub (.single h))⟩
    (hfinite.subset fun _ h => mem_of_transGen hS h)

theorem rankIn_lt_ncard (hR : ∀ a, ¬Relation.TransGen R a a) (hfinite : S.Finite)
    (hS : ∀ {a b}, R a b → b ∈ S) (ha : a ∈ S) : rankIn R a < S.ncard :=
  Set.ncard_lt_ncard ⟨fun _ h => mem_of_transGen hS h, fun hsub => hR a (hsub ha)⟩ hfinite

/-- What goes down in some measure goes round in no circle. -/
theorem not_transGen_self_of_lt (size : α → Nat) (h : ∀ a b, R a b → size b < size a) (a : α) :
    ¬Relation.TransGen R a a := by
  have hlt : ∀ {b}, Relation.TransGen R a b → size b < size a := fun h' => by
    induction h' with
    | single hb => exact h _ _ hb
    | tail _ hb ih => exact (h _ _ hb).trans ih
  exact fun ha => absurd (hlt ha) (Nat.lt_irrefl _)

/-- A list has at least as many entries as members. -/
theorem ncard_mem_le_length (as : List α) : {a | a ∈ as}.ncard ≤ as.length := by
  classical
  have hlist : {a | a ∈ as} = (as.toFinset : Set α) := by simp
  rw [hlist, Set.ncard_coe_finset]
  exact List.toFinset_card_le _

end Rank

/-! ## References -/

namespace Model

/-- Does the body of one definition mention the other? -/
def Refers (m : Model) (d e : FunctionDefinition) : Prop :=
  d ∈ m.functions ∧ e ∈ m.functions ∧ e.symbol ∈ d.body.symbols

/-- Does no definition refer to itself, be it by way of others? -/
def Acyclic (m : Model) : Prop := ∀ d, ¬ Relation.TransGen m.Refers d d

/-- Does the term mention the definition, or does a definition that the term reaches? -/
inductive Reaches (m : Model) (t : Term) : FunctionDefinition → Prop
  | mentioned {d : FunctionDefinition} (hd : d ∈ m.functions) (h : d.symbol ∈ t.symbols) :
      Reaches m t d
  | referred {d e : FunctionDefinition} (hd : Reaches m t d) (h : m.Refers d e) : Reaches m t e

/-- The number of definitions that a definition depends on. -/
noncomputable def rank (m : Model) (d : FunctionDefinition) : Nat :=
  {e | Relation.TransGen m.Refers d e}.ncard

variable {m : Model} {t : Term} {d e : FunctionDefinition}

theorem Reaches.mem (h : m.Reaches t d) : d ∈ m.functions := by
  cases h with
  | mentioned hd _ => exact hd
  | referred _ h => exact h.2.1

/-- References go down in rank. -/
theorem rank_lt_of_refers (hm : m.Acyclic) (h : m.Refers d e) : m.rank e < m.rank d :=
  rankIn_lt hm (List.finite_toSet m.functions) (fun h => h.2.1) h

/-- Ranks are below the number of definitions. -/
theorem rank_lt_length (hm : m.Acyclic) (hd : d ∈ m.functions) : m.rank d < m.functions.length :=
  (rankIn_lt_ncard hm (List.finite_toSet m.functions) (fun h => h.2.1) hd).trans_le
    (ncard_mem_le_length m.functions)

/-- A model is acyclic where references go down in some measure. -/
theorem acyclic_of_lt (size : FunctionDefinition → Nat)
    (h : ∀ d e, m.Refers d e → size e < size d) : m.Acyclic :=
  not_transGen_self_of_lt size h

/-- Where no name is defined twice, a symbol has one definition. -/
theorem eq_of_symbol_eq (hnodup : (m.functions.map FunctionDefinition.name).Nodup)
    (hd : d ∈ m.functions) (he : e ∈ m.functions) (h : d.symbol = e.symbol) : d = e :=
  List.inj_on_of_nodup_map hnodup hd he (congrArg FunctionSymbol.name h)

end Model

/-! ## Resolved definitions -/

/-- Is the variable the last of its name? -/
def Variable.IsLastIn (v : Variable) (vs : List Variable) : Prop :=
  ∃ front back, vs = front ++ v :: back ∧ ∀ w ∈ back, w.name ≠ v.name

/-- Is the body built from the parameters and from functions of the model that no parameter hides,
and has it the sort declared? -/
structure FunctionDefinition.IsResolved (m : Model) (d : FunctionDefinition) : Prop where
  built : d.body.Built
  sort : d.body.sort = d.output
  free : ∀ v ∈ d.body.freeOccurrences, v.IsLastIn d.inputs
  mentioned : ∀ f ∈ d.body.symbols, ∃ e ∈ m.functions, e.symbol = f ∧ ∀ v ∈ d.inputs, v.name ≠ f.name

/-- What is in the place of the last variable of a name. -/
theorem Variable.IsLastIn.exists_split {β : Type} {v : Variable} {vs : List Variable}
    (hv : v.IsLastIn vs) {R : Variable → β → Prop} {bs : List β} (h : List.Forall₂ R vs bs) :
    ∃ front back bs₁ b bs₂, vs = front ++ v :: back ∧ bs = bs₁ ++ b :: bs₂ ∧
      front.length = bs₁.length ∧ R v b ∧ ∀ w ∈ back, w.name ≠ v.name := by
  obtain ⟨front, back, rfl, hback⟩ := hv
  suffices ∃ bs₁ b bs₂, bs = bs₁ ++ b :: bs₂ ∧ front.length = bs₁.length ∧ R v b by
    obtain ⟨bs₁, b, bs₂, hbs, hlength, hb⟩ := this
    exact ⟨front, back, bs₁, b, bs₂, rfl, hbs, hlength, hb, hback⟩
  induction front generalizing bs with
  | nil =>
    obtain ⟨b, rest, hb, _, rfl⟩ := List.forall₂_cons_left_iff.1 h
    exact ⟨[], b, rest, rfl, rfl, hb⟩
  | cons w front ih =>
    obtain ⟨c, rest, _, hrest, rfl⟩ := List.forall₂_cons_left_iff.1 h
    obtain ⟨bs₁, b, bs₂, rfl, hlength, hb⟩ := ih hrest
    exact ⟨c :: bs₁, b, bs₂, rfl, congrArg Nat.succ hlength, hb⟩

theorem Assignment.get_bindAll_split {v : Variable} {front back : List Variable}
    {as₁ as₂ : List (Value E)} (a : Value E) (hlength : front.length = as₁.length)
    (hback : ∀ w ∈ back, w.name ≠ v.name) (ρ : Assignment E) :
    (ρ.bindAll (front ++ v :: back) (as₁ ++ a :: as₂)).get v = a := by
  rw [bindAll_append ρ _ _ _ _ hlength, bindAll_cons,
    get_bindAll_of_not_mem _ _ _ fun w hw => (hback w hw).symm, get_bind_self]

/-- The last variable of a name has the value in its place. -/
theorem Variable.IsLastIn.exists_get_bindAll {v : Variable} {vs : List Variable}
    (hv : v.IsLastIn vs) {R : Variable → Value E → Prop} {as : List (Value E)}
    (h : List.Forall₂ R vs as) : ∃ a, R v a ∧ ∀ ρ : Assignment E, (ρ.bindAll vs as).get v = a := by
  obtain ⟨front, back, as₁, a, as₂, rfl, rfl, hlength, ha, hback⟩ := hv.exists_split h
  exact ⟨a, ha, Assignment.get_bindAll_split a hlength hback⟩

section Resolved

variable {m : Model} {t : Term} {d : FunctionDefinition}

/-- The value of a body depends on the arguments alone. -/
theorem FunctionDefinition.IsResolved.eval_body (hd : d.IsResolved m) {I : Interpretation E}
    {as : List (Value E)} (has : I.HasSorts d.inputs as) (ρ σ : Assignment E) :
    d.body.eval I (ρ.bindAll d.inputs as) = d.body.eval I (σ.bindAll d.inputs as) := by
  refine Term.eval_congr I _ fun v hv => ?_
  obtain ⟨a, _, hget⟩ := (hd.free v hv).exists_get_bindAll has
  rw [hget, hget]

/-- What a reached definition mentions is reached, and has a lower rank. -/
theorem FunctionDefinition.IsResolved.exists_refers (hd : d.IsResolved m) (hreach : m.Reaches t d) :
    ∀ f ∈ d.body.symbols, ∃ e, e.symbol = f ∧ m.Refers d e := fun f hf => by
  obtain ⟨e, he, rfl, _⟩ := hd.mentioned f hf
  exact ⟨e, rfl, hreach.mem, he, hf⟩

end Resolved

/-! ## Interpretations that satisfy definitions -/

namespace Interpretation

/-- Do the functions that the term reaches have the values that their bodies have? -/
def SatisfiesDefinitions (I : Interpretation E) (m : Model) (t : Term) : Prop :=
  ∀ d, m.Reaches t d → ∀ as, I.HasSorts d.inputs as → ∀ ρ : Assignment E,
    I.function d.symbol as = d.body.eval I (ρ.bindAll d.inputs as)

/-- The names of elements are the elements, and functions have some value. -/
noncomputable def named : Interpretation String :=
  { ofTable "" (fun _ _ => default) with
    element := fun name _ => name
    element_mem := fun _ _ => trivial }

/-- Arguments of the sorts of parameters. -/
theorem hasSorts_inputs_iff {I : Interpretation E} {d : FunctionDefinition} {as : List (Value E)} :
    List.Forall₂ (Value.HasSort I.carrier) as d.symbol.inputs ↔ I.HasSorts d.inputs as := by
  rw [FunctionDefinition.symbol, List.forall₂_map_right_iff]
  exact ⟨List.Forall₂.flip, List.Forall₂.flip⟩

/-- A definition holds here, and the function has values of its sort. -/
def Defines (I : Interpretation E) (d : FunctionDefinition) : Prop :=
  ∀ as, I.HasSorts d.inputs as → (I.function d.symbol as).HasSort I.carrier d.output ∧
    ∀ ρ : Assignment E, I.function d.symbol as = d.body.eval I (ρ.bindAll d.inputs as)

section Existence

variable {m : Model} {t : Term} {k : Nat}

/-- The value of a body has the declared sort, if functions of lower rank have theirs. -/
theorem hasSort_body {I : Interpretation E} {d : FunctionDefinition} (hd : d.IsResolved m)
    (hm : m.Acyclic) (hreach : m.Reaches t d) (hevaluable : d.body.IsEvaluable)
    (hI : ∀ e, m.Reaches t e → m.rank e < m.rank d → I.Defines e) {as : List (Value E)}
    (has : I.HasSorts d.inputs as) (ρ : Assignment E) :
    (d.body.eval I (ρ.bindAll d.inputs as)).HasSort I.carrier d.output := by
  have hbody := Term.evaluableOver_of_built hd.built hevaluable hd.free
    (hd.exists_refers hreach)
  rw [← hd.sort]
  refine hbody.hasSort (fun v hv => ?_) ?_
  · obtain ⟨a, ha, hget⟩ := hv.exists_get_bindAll has
    rwa [hget]
  · rintro _ ⟨e, rfl, he⟩ bs hbs
    exact (hI e (.referred hreach he) (Model.rank_lt_of_refers hm he) bs
      (hasSorts_inputs_iff.1 hbs)).1

open Classical in
/-- The functions of a rank defined by their bodies, and the others left as they are. -/
noncomputable def extend (I : Interpretation E) (m : Model) (t : Term) (k : Nat)
    (hsort : ∀ d, m.Reaches t d → m.rank d = k → ∀ as, I.HasSorts d.inputs as →
      (d.body.eval I (Assignment.bindAll default d.inputs as)).HasSort I.carrier d.output) :
    Interpretation E :=
  { I with
    function := fun f as =>
      if h : ∃ d, m.Reaches t d ∧ m.rank d = k ∧ d.symbol = f ∧ I.HasSorts d.inputs as then
        h.choose.body.eval I (Assignment.bindAll default h.choose.inputs as)
      else I.function f as
    function_sort := fun f as hproper has => by
      split
      · rename_i h
        obtain ⟨hreach, hrank, hf, hsorts⟩ := h.choose_spec
        have houtput : h.choose.output = f.output := congrArg FunctionSymbol.output hf
        exact houtput ▸ hsort _ hreach hrank as hsorts
      · exact I.function_sort f as hproper has }

theorem exists_defines (hnodup : (m.functions.map FunctionDefinition.name).Nodup)
    (hresolved : ∀ d ∈ m.functions, d.IsResolved m) (hm : m.Acyclic)
    (hevaluable : ∀ d, m.Reaches t d → d.body.IsEvaluable) : ∀ k, ∃ I : Interpretation String,
      I.element = named.element ∧ ∀ d, m.Reaches t d → m.rank d < k → I.Defines d
  | 0 => ⟨named, rfl, fun _ _ h => absurd h (Nat.not_lt_zero _)⟩
  | k + 1 => by
    obtain ⟨I, helement, hI⟩ := exists_defines hnodup hresolved hm hevaluable k
    have hsort : ∀ d, m.Reaches t d → m.rank d = k → ∀ as, I.HasSorts d.inputs as →
        (d.body.eval I (Assignment.bindAll default d.inputs as)).HasSort I.carrier d.output :=
      fun d hreach hrank as has => hasSort_body (hresolved d hreach.mem) hm hreach
        (hevaluable d hreach) (fun e he hlt => hI e he (hrank ▸ hlt)) has _
    let J := I.extend m t k hsort
    -- functions of other ranks are as before
    have hold : ∀ e, m.Reaches t e → m.rank e < k → J.function e.symbol = I.function e.symbol := by
      intro e he hlt
      funext as
      refine dif_neg ?_
      rintro ⟨d, hreach, hrank, hsymbol, _⟩
      obtain rfl := Model.eq_of_symbol_eq hnodup hreach.mem he.mem hsymbol
      omega
    -- bodies mention functions of lower rank only
    have hbody : ∀ d, m.Reaches t d → m.rank d < k + 1 → ∀ ρ, d.body.eval I ρ = d.body.eval J ρ := by
      intro d hreach hlt ρ
      refine Term.eval_congr_function (I := I) (J := J) rfl rfl rfl _ _ fun f hf => ?_
      obtain ⟨e, rfl, he⟩ := (hresolved d hreach.mem).exists_refers hreach f hf
      have hrank := Model.rank_lt_of_refers hm he
      exact (hold e (.referred hreach he) (by omega)).symm
    refine ⟨J, helement, fun d hreach hlt as has => ?_⟩
    rcases Nat.lt_succ_iff_lt_or_eq.1 hlt with hlt' | hrank
    · obtain ⟨hvalue, heq⟩ := hI d hreach hlt' as has
      rw [hold d hreach hlt']
      exact ⟨hvalue, fun ρ => (heq ρ).trans (hbody d hreach hlt _)⟩
    · have hd : ∃ e, m.Reaches t e ∧ m.rank e = k ∧ e.symbol = d.symbol ∧ I.HasSorts e.inputs as :=
        ⟨d, hreach, hrank, rfl, has⟩
      have hchoose : hd.choose = d := Model.eq_of_symbol_eq hnodup hd.choose_spec.1.mem hreach.mem
        hd.choose_spec.2.2.1
      have hfunction : J.function d.symbol as
          = d.body.eval I (Assignment.bindAll default d.inputs as) := by
        refine (dif_pos hd).trans ?_
        rw [hchoose]
      rw [hfunction]
      refine ⟨hsort d hreach hrank as has, fun ρ => ?_⟩
      rw [← hbody d hreach hlt]
      exact (hresolved d hreach.mem).eval_body (I := I) has _ _

/-- **Some interpretation satisfies the definitions that a term reaches**, where these are evaluable
and none refers to itself. -/
theorem exists_satisfiesDefinitions (hnodup : (m.functions.map FunctionDefinition.name).Nodup)
    (hresolved : ∀ d ∈ m.functions, d.IsResolved m) (hm : m.Acyclic)
    (hevaluable : ∀ d, m.Reaches t d → d.body.IsEvaluable) :
    ∃ I : Interpretation String, I.Distinct ∧ I.SatisfiesDefinitions m t := by
  obtain ⟨I, helement, hI⟩ := exists_defines hnodup hresolved hm hevaluable m.functions.length
  refine ⟨I, fun s a b h => ?_, fun d hreach as has => ?_⟩
  · rw [helement] at h
    exact h
  · exact (hI d hreach (Model.rank_lt_length hm hreach.mem) as has).2

end Existence

end Interpretation

end RelSmt
