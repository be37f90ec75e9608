import RelSmt.Lowering.Field
import RelSmt.Proofs.Lowering.Extension
import RelSmt.Proofs.Term.VariableNames

/-!
# Names of functions and of bound variables

A script has one space of names. Functions get theirs from the signatures and fields, from the
integers that they are constants of, from fixed words, and from the session's counter with one of
six hints. Bound variables get theirs from the counter alone, with the session's own hints or the
names of declared variables.

`Naming` says what a run of lowering does to all this: the functions that it declares have new
names, and the variables in what it asserts have names with numbers that no function has taken. The
counter keeps numbered names apart. What it cannot keep apart is a number behind a hint of the
specification's choosing from a name that was not made by the counter at all
(`numbered_eq_intSymbol_iff`).
-/

namespace RelSmt.Lowering

/-! ## Hints -/

/-- What the counted names of functions start with. -/
def functionHints : List String := ["comprehension", "plus", "minus", "mul", "div", "rem"]

/-- What the names of bound variables start with where no declared variable lends its name. -/
def ownHints : List String := ["x", "y", "z", "e", "a", "b", "s", "this"]

/-- What the names of bound variables start with. A copy of a variable has its name for a hint. -/
inductive Hint (V : Set String) : String → Prop where
  | own {h : String} (hmem : h ∈ ownHints) : Hint V h
  | declared {h : String} (hmem : h ∈ V) : Hint V h
  | copy {h : String} {k : Nat} (hhint : Hint V h) : Hint V (numbered h k)

theorem functionHint_mem (op : Arithmetic) : functionHint op ∈ functionHints := by
  cases op <;> decide

/-! ## Characters of names -/

theorem underscore_mem_numbered (h : String) (k : Nat) : '_' ∈ (numbered h k).toList := by
  simp [numbered]

theorem isDigit_of_mem_toDigits {n : Nat} {c : Char} (h : c ∈ Nat.toDigits 10 n) :
    c.isDigit = true :=
  Nat.isDigit_of_mem_toDigits (by decide) (by decide) h

theorem slash_not_mem_toDigits (n : Nat) : '/' ∉ Nat.toDigits 10 n := fun h => by
  simpa [Char.isDigit] using isDigit_of_mem_toDigits h

theorem slash_mem_numbered {h : String} {k : Nat} :
    '/' ∈ (numbered h k).toList ↔ '/' ∈ h.toList := by
  simp [numbered, slash_not_mem_toDigits]

theorem slash_mem_fieldName (f : Relational.FieldRef) : '/' ∈ (fieldName f).toList := by
  simp [fieldName]

theorem intSymbol_ofNat (n : Nat) : (intSymbol (.ofNat n)).name = numbered "u" n := rfl

theorem intSymbol_negSucc (n : Nat) : (intSymbol (.negSucc n)).name = "u_-" ++ toString (n + 1) := by
  have : (intSymbol (.negSucc n)).name = "u_" ++ ("-" ++ toString (n + 1)) := rfl
  rw [this, ← String.append_assoc]
  rfl

theorem underscore_mem_intSymbol (n : Int) : '_' ∈ (intSymbol n).name.toList := by
  match n with
  | .ofNat m => rw [intSymbol_ofNat]; exact underscore_mem_numbered "u" m
  | .negSucc m => simp [intSymbol_negSucc]

theorem slash_not_mem_intSymbol (n : Int) : '/' ∉ (intSymbol n).name.toList := by
  match n with
  | .ofNat m => rw [intSymbol_ofNat, slash_mem_numbered]; decide
  | .negSucc m => simp [intSymbol_negSucc, slash_not_mem_toDigits]

/-- **A counted name is the constant of an integer only where the hint is `u`.** -/
theorem numbered_eq_intSymbol_iff {h : String} {k : Nat} {n : Int} :
    numbered h k = (intSymbol n).name ↔ h = "u" ∧ n = k := by
  constructor
  · intro he
    match n with
    | .ofNat m =>
      rw [intSymbol_ofNat] at he
      exact ⟨(numbered_inj he).1, congrArg Int.ofNat (numbered_inj he).2.symm⟩
    | .negSucc m =>
      -- behind the last underscore stands a sign, which is no digit
      exfalso
      have hlist : h.toList ++ '_' :: Nat.toDigits 10 k
          = ['u'] ++ '_' :: ('-' :: Nat.toDigits 10 (m + 1)) := by
        simpa [numbered, intSymbol_negSucc] using congrArg String.toList he
      have hdigits : ∀ c ∈ '-' :: Nat.toDigits 10 (m + 1), c ≠ '_' := by
        simpa using digits_ne_underscore (m + 1)
      obtain ⟨_, hd⟩ := append_underscore_inj (by simpa using digits_ne_underscore k) hdigits hlist
      have hminus : '-' ∈ Nat.toDigits 10 k := hd ▸ List.mem_cons_self
      simpa [Char.isDigit] using isDigit_of_mem_toDigits hminus
  · rintro ⟨rfl, rfl⟩
    rfl

theorem intSymbol_name_injective {m n : Int} (h : (intSymbol m).name = (intSymbol n).name) :
    m = n := by
  match m, n with
  | .ofNat m, n =>
    rw [intSymbol_ofNat] at h
    exact (numbered_eq_intSymbol_iff.1 h).2.symm
  | .negSucc m, .ofNat n =>
    rw [intSymbol_ofNat] at h
    exact (numbered_eq_intSymbol_iff.1 h.symm).2
  | .negSucc m, .negSucc n =>
    rw [intSymbol_negSucc, intSymbol_negSucc, String.append_right_inj] at h
    have := Nat.repr_injective h
    simpa using this

/-! ## Names that sessions have taken -/

/-- The names of the functions declared so far. -/
def Session.names (s : Session) : List String := s.program.functions.map FunctionItem.name

/-- Is a counted name of a function never ahead of the counter? -/
structure Session.Counts (lo : Nat) (s : Session) : Prop where
  start : lo ≤ s.fresh
  counted : ∀ h ∈ functionHints, ∀ k, numbered h k ∈ s.names → k ≤ s.fresh

/-- A name for a bound variable: counted since `lo`, with a number that no function has taken. -/
def Bindable (V : Set String) (lo : Nat) (s : Session) (x : String) : Prop :=
  ∃ h k, Hint V h ∧ lo < k ∧ k ≤ s.fresh ∧ x = numbered h k ∧
    ∀ f ∈ functionHints, numbered f k ∉ s.names

/-- A name that a function gets between two sessions, where the specification itself names the
functions `C`. -/
inductive NewName (C : List String) (s s' : Session) (x : String) : Prop where
  | given (hx : x ∈ C)
  | int (n : Int) (hx : x = (intSymbol n).name) (hnew : n ∉ s.onDemand.ints)
      (hold : n ∈ s'.onDemand.ints)
  | iden (hx : x = idenSymbol.name) (hnew : s.onDemand.iden = false)
      (hold : s'.onDemand.iden = true)
  | integers (hx : x = integersSymbol.name) (hnew : s.onDemand.integers = false)
      (hold : s'.onDemand.integers = true)
  | counted (h : String) (k : Nat) (hx : x = numbered h k) (hmem : h ∈ functionHints)
      (hnew : s.fresh < k) (hold : k ≤ s'.fresh)

/-- What a run of lowering does to names. It declares functions of new names, those that the
specification gives among them, and the variables in what it asserts have names for bound variables.
-/
structure Naming (V : Set String) (lo : Nat) (C : List String) (s s' : Session) : Prop where
  fresh : s.fresh ≤ s'.fresh
  onDemand : s.onDemand.Within s'.onDemand
  userFunctions : s'.functions = s.functions
  slashes : ∀ x ∈ C, '/' ∈ x.toList
  functions : ∃ fs, s'.program.functions = s.program.functions ++ fs ∧
    (fs.map FunctionItem.name).Nodup ∧ ∀ f ∈ fs, NewName C s s' f.name
  assertions : ∃ as, s'.program.assertions = s.program.assertions ++ as ∧
    ∀ a ∈ as, a.formula.NamesOnly (Bindable V lo s')

/-- Do the variables in the term have names for bound variables? -/
abbrev WellNamed (V : Set String) (lo : Nat) (s : Session) (t : Term) : Prop :=
  t.NamesOnly (Bindable V lo s)

section

variable {V : Set String} {lo : Nat} {C D : List String} {s m s' : Session} {t : Term} {x : String}

theorem slash_not_mem_functionHint {h : String} (hh : h ∈ functionHints) : '/' ∉ h.toList := by
  revert h
  decide

theorem NewName.slash (h : NewName C s s' x) (hslash : '/' ∈ x.toList) : x ∈ C := by
  cases h with
  | given hx => exact hx
  | int n hx => exact absurd (hx ▸ hslash) (slash_not_mem_intSymbol n)
  | iden hx => exact absurd (hx ▸ hslash) (by decide)
  | integers hx => exact absurd (hx ▸ hslash) (by decide)
  | counted h k hx hmem =>
    exact absurd (slash_mem_numbered.1 (hx ▸ hslash)) (slash_not_mem_functionHint hmem)

/-- A counted name of a function gets its number from the counter, whatever else has been named. -/
theorem NewName.numbered_eq {h : String} {k : Nat} (hx : NewName C s s' (numbered h k))
    (hC : ∀ x ∈ C, '/' ∈ x.toList) (hh : h ∈ functionHints) : s.fresh < k ∧ k ≤ s'.fresh := by
  cases hx with
  | given hx =>
    exact absurd (slash_mem_numbered.1 (hC _ hx)) (slash_not_mem_functionHint hh)
  | int n hx =>
    obtain ⟨rfl, _⟩ := numbered_eq_intSymbol_iff.1 hx
    exact absurd hh (by decide)
  | iden hx => exact absurd (hx ▸ underscore_mem_numbered h k) (by decide)
  | integers hx => exact absurd (hx ▸ underscore_mem_numbered h k) (by decide)
  | counted h' k' hx _ hnew hold =>
    obtain ⟨rfl, rfl⟩ := numbered_inj hx
    exact ⟨hnew, hold⟩

theorem NewName.weaken_left (h : NewName C m s' x) (hw : s.onDemand.Within m.onDemand)
    (hf : s.fresh ≤ m.fresh) (hCD : ∀ x ∈ C, x ∈ D) : NewName D s s' x := by
  cases h with
  | given hx => exact .given (hCD x hx)
  | int n hx hnew hold => exact .int n hx (fun h => hnew (hw.ints n h)) hold
  | iden hx hnew hold =>
    exact .iden hx (by by_contra h; simp [hw.iden (by simpa using h)] at hnew) hold
  | integers hx hnew hold =>
    exact .integers hx (by by_contra h; simp [hw.integers (by simpa using h)] at hnew) hold
  | counted h k hx hmem hnew hold => exact .counted h k hx hmem (Nat.lt_of_le_of_lt hf hnew) hold

theorem NewName.weaken_right (h : NewName C s m x) (hw : m.onDemand.Within s'.onDemand)
    (hf : m.fresh ≤ s'.fresh) (hCD : ∀ x ∈ C, x ∈ D) : NewName D s s' x := by
  cases h with
  | given hx => exact .given (hCD x hx)
  | int n hx hnew hold => exact .int n hx hnew (hw.ints n hold)
  | iden hx hnew hold => exact .iden hx hnew (hw.iden hold)
  | integers hx hnew hold => exact .integers hx hnew (hw.integers hold)
  | counted h k hx hmem hnew hold => exact .counted h k hx hmem hnew (Nat.le_trans hold hf)

/-- A name is new only once. -/
theorem NewName.ne_of_later {y : String} (h : NewName C s m x) (h' : NewName D m s' y)
    (hC : ∀ x ∈ C, '/' ∈ x.toList) (hD : ∀ x ∈ D, '/' ∈ x.toList) (hCD : ∀ x ∈ C, x ∉ D) :
    x ≠ y := by
  rintro rfl
  -- names of signatures and fields have a slash, and names made on the way have none
  by_cases hslash : '/' ∈ x.toList
  · exact hCD x (h.slash hslash) (h'.slash hslash)
  cases h with
  | given hx => exact hslash (hC x hx)
  | int n hx _ hold =>
    subst hx
    cases h' with
    | given hx => exact hslash (hD _ hx)
    | int n' hx hnew =>
      -- the same integer would have been declared already
      rw [intSymbol_name_injective hx] at hold
      exact hnew hold
    | iden hx => exact absurd (hx ▸ underscore_mem_intSymbol n) (by decide)
    | integers hx => exact absurd (hx ▸ underscore_mem_intSymbol n) (by decide)
    | counted h k hx hmem =>
      obtain ⟨rfl, _⟩ := numbered_eq_intSymbol_iff.1 hx.symm
      exact absurd hmem (by decide)
  | iden hx _ hold =>
    subst hx
    cases h' with
    | given hx => exact hslash (hD _ hx)
    | int n hx => exact absurd (hx ▸ underscore_mem_intSymbol n) (by decide)
    | iden _ hnew => simp [hold] at hnew
    | integers hx => exact absurd hx (by decide)
    | counted h k hx => exact absurd (hx ▸ underscore_mem_numbered h k) (by decide)
  | integers hx _ hold =>
    subst hx
    cases h' with
    | given hx => exact hslash (hD _ hx)
    | int n hx => exact absurd (hx ▸ underscore_mem_intSymbol n) (by decide)
    | iden hx => exact absurd hx (by decide)
    | integers _ hnew => simp [hold] at hnew
    | counted h k hx => exact absurd (hx ▸ underscore_mem_numbered h k) (by decide)
  | counted h k hx hmem _ hold =>
    subst hx
    -- its number had been drawn before the later part began
    exact absurd (h'.numbered_eq hD hmem).1 (Nat.not_lt.2 hold)

theorem Naming.mem_names (h : Naming V lo C s s') :
    x ∈ s'.names ↔ x ∈ s.names ∨ ∃ f ∈ s'.program.functions.drop s.program.functions.length,
      f.name = x ∧ NewName C s s' x := by
  obtain ⟨fs, hfs, _, hnew⟩ := h.functions
  simp only [Session.names, hfs, List.map_append, List.mem_append, List.drop_left, List.mem_map]
  refine or_congr_right ⟨?_, ?_⟩
  · rintro ⟨f, hf, rfl⟩
    exact ⟨f, hf, rfl, hnew f hf⟩
  · rintro ⟨f, hf, rfl, _⟩
    exact ⟨f, hf, rfl⟩

theorem Naming.counts (h : Naming V lo C s s') (hs : s.Counts lo) : s'.Counts lo where
  start := Nat.le_trans hs.start h.fresh
  counted f hf k hk := by
    rcases h.mem_names.1 hk with hk | ⟨_, _, _, hk⟩
    · exact Nat.le_trans (hs.counted f hf k hk) h.fresh
    · exact (hk.numbered_eq h.slashes hf).2

/-- A name for a bound variable remains one. -/
theorem Naming.bindable (h : Naming V lo C s s') (hx : Bindable V lo s x) : Bindable V lo s' x := by
  obtain ⟨hint, k, hhint, hlo, hk, rfl, hfree⟩ := hx
  refine ⟨hint, k, hhint, hlo, Nat.le_trans hk h.fresh, rfl, fun f hf hmem => ?_⟩
  rcases h.mem_names.1 hmem with hmem | ⟨_, _, _, hnew⟩
  · exact hfree f hf hmem
  · exact absurd (hnew.numbered_eq h.slashes hf).1 (Nat.not_lt.2 hk)

theorem Naming.wellNamed (h : Naming V lo C s s') (ht : WellNamed V lo s t) : WellNamed V lo s' t :=
  ht.mono fun _ => h.bindable

theorem Naming.append (h : Naming V lo C s m) (h' : Naming V lo D m s') (hCD : ∀ x ∈ C, x ∉ D) :
    Naming V lo (C ++ D) s s' := by
  obtain ⟨fs, hfs, hnodup, hnew⟩ := h.functions
  obtain ⟨gs, hgs, hnodup', hnew'⟩ := h'.functions
  obtain ⟨as, has, hnames⟩ := h.assertions
  obtain ⟨bs, hbs, hnames'⟩ := h'.assertions
  refine ⟨Nat.le_trans h.fresh h'.fresh, h.onDemand.trans h'.onDemand,
    h'.userFunctions.trans h.userFunctions, ?_, ⟨fs ++ gs, ?_, ?_, ?_⟩, ⟨as ++ bs, ?_, ?_⟩⟩
  · intro x hx
    exact (List.mem_append.1 hx).elim (h.slashes x) (h'.slashes x)
  · rw [hgs, hfs, List.append_assoc]
  · rw [List.map_append, List.nodup_append]
    refine ⟨hnodup, hnodup', fun x hx y hy => ?_⟩
    obtain ⟨f, hf, rfl⟩ := List.mem_map.1 hx
    obtain ⟨g, hg, rfl⟩ := List.mem_map.1 hy
    exact (hnew f hf).ne_of_later (hnew' g hg) h.slashes h'.slashes hCD
  · intro f hf
    rcases List.mem_append.1 hf with hf | hf
    · exact (hnew f hf).weaken_right h'.onDemand h'.fresh fun _ => List.mem_append_left _
    · exact (hnew' f hf).weaken_left h.onDemand h.fresh fun _ => List.mem_append_right _
  · rw [hbs, has, List.append_assoc]
  · intro a ha
    rcases List.mem_append.1 ha with ha | ha
    · exact h'.wellNamed (hnames a ha)
    · exact hnames' a ha

theorem Naming.trans (h : Naming V lo [] s m) (h' : Naming V lo [] m s') : Naming V lo [] s s' :=
  h.append h' (by simp)

/-! ## Elementary steps -/

/-- A session that differs in numbers that have been taken, and in nothing else to do with names. -/
theorem naming_of_eq (hfresh : s.fresh ≤ s'.fresh) (hdemand : s'.onDemand = s.onDemand)
    (hfunctions : s'.functions = s.functions) (hprogram : s'.program = s.program) :
    Naming V lo [] s s' where
  fresh := hfresh
  onDemand := hdemand ▸ .refl _
  userFunctions := hfunctions
  slashes := by simp
  functions := ⟨[], by simp [hprogram], by simp, by simp⟩
  assertions := ⟨[], by simp [hprogram], by simp⟩

theorem Naming.refl (s : Session) : Naming V lo [] s s := naming_of_eq (Nat.le_refl _) rfl rfl rfl

theorem naming_next (s : Session) : Naming V lo [] s s.next :=
  naming_of_eq (Nat.le_succ _) rfl rfl rfl

/-- What is asserted has binders with names for bound variables. -/
theorem naming_asserting {a : Assertion} (h : WellNamed V lo s a.formula) :
    Naming V lo [] s (s.asserting a) where
  fresh := Nat.le_refl _
  onDemand := .refl _
  userFunctions := rfl
  slashes := by simp
  functions := ⟨[], by simp [Session.asserting, Program.assert], by simp, by simp⟩
  assertions := ⟨[a], rfl, fun b hb => by
    rw [List.mem_singleton.1 hb]
    exact h⟩

/-- A function may take the name that the counter has made last. -/
theorem naming_declaring {f : FunctionSymbol} {h : String} (hh : h ∈ functionHints)
    (hf : f.name = numbered h (s.fresh + 1)) : Naming V lo [] s (s.next.declaring f) where
  fresh := Nat.le_succ _
  onDemand := .refl _
  userFunctions := rfl
  slashes := by simp
  functions := ⟨[.declared f], rfl, by simp, fun g hg => by
    rw [List.mem_singleton.1 hg]
    exact .counted h _ hf hh (Nat.lt_succ_self _) (Nat.le_refl _)⟩
  assertions := ⟨[], by simp, by simp⟩

/-- A symbol may be declared when it is put on demand. -/
theorem naming_onDemand {f : FunctionSymbol} {o : OnDemand} (hw : s.onDemand.Within o)
    (hnew : NewName [] s { s.declaring f with onDemand := o } f.name) :
    Naming V lo [] s { s.declaring f with onDemand := o } where
  fresh := Nat.le_refl _
  onDemand := hw
  userFunctions := rfl
  slashes := by simp
  functions := ⟨[.declared f], rfl, by simp, fun g hg => by
    rw [List.mem_singleton.1 hg]
    exact hnew⟩
  assertions := ⟨[], by simp, by simp⟩

/-- The name that the counter makes next may be bound. -/
theorem bindable_next (hs : s.Counts lo) {h : String} (hh : Hint V h) :
    Bindable V lo s.next (numbered h (s.fresh + 1)) :=
  ⟨h, s.fresh + 1, hh, Nat.lt_succ_of_le hs.start, Nat.le_refl _, rfl, fun f hf hmem =>
    absurd (hs.counted f hf _ hmem) (Nat.not_succ_le_self _)⟩

theorem bindable_own (hs : s.Counts lo) {h : String} (hmem : h ∈ ownHints) :
    Bindable V lo s.next (numbered h (s.fresh + 1)) :=
  bindable_next hs (.own hmem)

end

end RelSmt.Lowering
