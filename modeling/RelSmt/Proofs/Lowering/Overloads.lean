import RelSmt.Proofs.Lowering.Comprehension
import RelSmt.Proofs.Lowering.Grouping
import RelSmt.Proofs.Scoped

/-!
# Functions that share a name

A call keeps the name of the function that it is built from and nothing else of it. Lowering looks
the name up among the functions of the specification and takes the last one that has it, whichever
function the call was built from (`Inlines`). The specification itself finds the first one. So a
call comes to the function it was built from exactly if no later function has the name, and the
functions that later ones hide have no part in what the specification is lowered to.
-/

namespace RelSmt.Lowering

variable {fs gs : List Relational.Function} {f g : Relational.Function} {s : Session}

/-! ## Arguments -/

/-- What the body of a function sees: its parameters as the arguments. -/
def arguments (g : Relational.Function) (ts : List Term) : Environment :=
  ({} : Environment).putAll ((g.params.map Relational.Var.name).zip ts)

/-- Does each parameter stand for the argument in its place, unless a later one has its name, and no
other name for anything? -/
structure Binds (vs : List Relational.Var) (ts : List Term) (env : Environment) : Prop where
  bound {front back : List Relational.Var} {v : Relational.Var} {as bs : List Term} {t : Term}
    (hvs : vs = front ++ v :: back) (hts : ts = as ++ t :: bs) (hlength : front.length = as.length)
    (hback : ∀ w ∈ back, w.name ≠ v.name) : env.get? v.name = some t
  only (name : String) (h : ∀ v ∈ vs, v.name ≠ name) : env.get? name = none

theorem binds_arguments (g : Relational.Function) (ts : List Term) :
    Binds g.params ts (arguments g ts) where
  bound {front back v as bs t} hvs hts hlength hback := by
    rw [arguments, hvs, hts, List.map_append, List.map_cons]
    refine Scoped.get?_putAll_zip (by rw [List.length_map, hlength]) fun hmem => ?_
    obtain ⟨w, hw, hname⟩ := List.mem_map.1 hmem
    exact hback w hw hname
  only name h := by
    rw [arguments, Scoped.get?_putAll_zip_of_notMem, Scoped.get?_empty]
    rw [List.mem_map]
    rintro ⟨w, hw, hname⟩
    exact h w hw hname

/-! ## Calls -/

section

variable {inline : Inliner} {active : List String} {name : String} {args : List Relational.Expr}
  {columns : List Relational.Column} {env : Environment} {body : Relational.Expr}

theorem outcome_function? (s : Session) (name : String) : outcome (function? name) s =
    (.ok (s.functions.reverse.find? fun f => f.name == name), s) := rfl

theorem outcome_function?_of_found
    (hg : (s.functions.reverse.find? fun f => f.name == name) = some g) :
    outcome (function? name) s = (.ok (some g), s) := by
  rw [outcome_function?, hg]

theorem outcome_call_of_noBody (hg : (s.functions.reverse.find? fun f => f.name == name) = some g)
    (hbody : g.body = none) : outcome (exprWith inline active (.call name args columns) env) s =
      (.error (.unresolved (.functionBody name)), s) := by
  rw [exprWith, outcome_bind_ok (outcome_function?_of_found hg)]
  simp only [hbody]
  rfl

theorem outcome_call_of_active (hg : (s.functions.reverse.find? fun f => f.name == name) = some g)
    (hbody : g.body = some body) (hactive : name ∈ active) :
    outcome (exprWith inline active (.call name args columns) env) s =
      (.error (.recursiveCall name), s) := by
  rw [exprWith, outcome_bind_ok (outcome_function?_of_found hg)]
  simp only [hbody, List.contains_iff_mem.2 hactive, if_true]
  rfl

theorem outcome_call_of_length (hg : (s.functions.reverse.find? fun f => f.name == name) = some g)
    (hbody : g.body = some body) (hactive : name ∉ active)
    (hlength : g.params.length ≠ args.length) :
    outcome (exprWith inline active (.call name args columns) env) s =
      (.error (.arityMismatch name g.params.length args.length), s) := by
  rw [exprWith, outcome_bind_ok (outcome_function?_of_found hg)]
  simp only [hbody, List.contains_iff_mem, hactive, if_false, hlength, ne_eq, not_false_iff,
    if_true]
  rfl

theorem outcome_call (hg : (s.functions.reverse.find? fun f => f.name == name) = some g)
    (hbody : g.body = some body) (hactive : name ∉ active)
    (hlength : g.params.length = args.length) :
    outcome (exprWith inline active (.call name args columns) env) s =
      outcome (do inline name body (arguments g (← exprsWith inline active args env))) s := by
  rw [exprWith, outcome_bind_ok (outcome_function?_of_found hg)]
  simp only [hbody, List.contains_iff_mem, hactive, if_false, hlength, ne_eq, not_true, arguments]

end

/-! ## Which function a call comes to -/

/-- Is the call lowered as this function of its name wherever it stands? -/
structure Inlines (fs : List Relational.Function) (g : Relational.Function) (call : Relational.Expr)
    (args : List Relational.Expr) : Prop where
  /-- Without a body the call fails. -/
  bodiless (hbody : g.body = none) {s : Session} (hs : s.functions = fs) (depth : Nat)
    (active : List String) (env : Environment) : outcome (exprWithin depth active call env) s =
      (.error (.unresolved (.functionBody g.name)), s)
  /-- So it does inside the body of the function itself. -/
  recursive {body : Relational.Expr} (hbody : g.body = some body) {active : List String}
    (hactive : g.name ∈ active) {s : Session} (hs : s.functions = fs) (depth : Nat)
    (env : Environment) : outcome (exprWithin depth active call env) s =
      (.error (.recursiveCall g.name), s)
  /-- So it does with another number of arguments than parameters. -/
  misapplied {body : Relational.Expr} (hbody : g.body = some body) {active : List String}
    (hactive : g.name ∉ active) (hlength : g.params.length ≠ args.length) {s : Session}
    (hs : s.functions = fs) (depth : Nat) (env : Environment) :
    outcome (exprWithin depth active call env) s =
      (.error (.arityMismatch g.name g.params.length args.length), s)
  /-- Everywhere else the arguments are lowered, and then the body, which sees them alone. -/
  inlined {body : Relational.Expr} (hbody : g.body = some body) {active : List String}
    (hactive : g.name ∉ active) (hlength : g.params.length = args.length) {s : Session}
    (hs : s.functions = fs) (depth : Nat) (env : Environment) :
    outcome (exprWithin (depth + 1) active call env) s = outcome (do
      let ts ← exprsWith (inlinerWithin (depth + 1) active) active args env
      exprWithin depth (g.name :: active) body (arguments g ts)) s
  /-- Where a formula is lowered, this is what became of every call that lowering came to. -/
  reached {e : Relational.Expr} {s s' : Session} {t : Term} (hs : s.functions = fs)
    (hrun : Runs (formula e) s t s') {scope : List Relational.Var}
    (hreach : Relational.Site.Reaches fs ⟨[], e⟩ ⟨scope, call⟩) :
    ∃ body depth active env s₁ ts s₂ u s₃, g.body = some body ∧ g.name ∉ active ∧
      g.params.length = args.length ∧ Arises fs s₁ env ∧
      Runs (exprsWith (inlinerWithin (depth + 1) active) active args env) s₁ ts s₂ ∧
      Runs (exprWithin depth (g.name :: active) body (arguments g ts)) s₂ u s₃ ∧
      Runs (exprWithin (depth + 1) active call env) s₁ u s₃

theorem inlines_of_found {name : String} {args : List Relational.Expr}
    {columns : List Relational.Column}
    (hg : (fs.reverse.find? fun f => f.name == name) = some g) :
    Inlines fs g (.call name args columns) args := by
  obtain ⟨-, rfl⟩ := reverse_find?_eq_some_iff_isLastOf.1 hg
  constructor
  case bodiless =>
    rintro hbody s rfl depth active env
    rw [exprWithin_eq, outcome_call_of_noBody hg hbody]
  case recursive =>
    rintro body hbody active hactive s rfl depth env
    rw [exprWithin_eq, outcome_call_of_active hg hbody hactive]
  case misapplied =>
    rintro body hbody active hactive hlength s rfl depth env
    rw [exprWithin_eq, outcome_call_of_length hg hbody hactive hlength]
  case inlined =>
    rintro body hbody active hactive hlength s rfl depth env
    rw [exprWithin_eq, outcome_call hg hbody hactive hlength]
    rfl
  case reached =>
    rintro e s s' t rfl hrun scope hreach
    obtain ⟨depth, active, env, s₁, u, s₃, harises, hcall⟩ := arisen_of_formula hrun hreach
    -- the call was met in a session with the same functions, so the same one was found there
    have hfunctions := harises.hygienic.1
    rw [exprWithin_eq] at hcall
    rcases runs_call hcall with ⟨_, _, _, _, hnone, _⟩ |
      ⟨g', body, ts, s₂, hg', hbody, hactive, hlength, hts, hbodyRun⟩
    · rw [hfunctions, hg] at hnone
      cases hnone
    rw [hfunctions, hg, Option.some.injEq] at hg'
    subst hg'
    cases depth with
    | zero =>
      -- without room the call would have been refused
      exact absurd hbodyRun runs_throw
    | succ depth =>
      refine ⟨body, depth, active, env, s₁, ts, s₂, u, s₃, hbody, ?_, hlength, harises, hts,
        hbodyRun, ?_⟩
      · rw [← List.contains_iff_mem, hactive]
        exact Bool.false_ne_true
      · rwa [exprWithin_eq]

/-! ## Functions that a later one hides -/

/-- What a later function hides is found by no call. -/
theorem callsAlike_of_hidden {front back : List Relational.Function} {f' h : Relational.Function}
    (hh : h ∈ back) (hhidden : h.name = f.name) (hname : f'.name = f.name) :
    CallsAlike (front ++ f :: back) (front ++ f' :: back) where
  length := by simp
  found name := by
    suffices hsame : ((front ++ f' :: back).reverse.find? fun f => f.name == name) =
        ((front ++ f :: back).reverse.find? fun f => f.name == name) by rw [hsame]
    simp only [List.reverse_append, List.reverse_cons, List.append_assoc, List.find?_append]
    by_cases hkey : f.name = name
    · -- the later function is found before either
      have hsome : (back.reverse.find? fun f => f.name == name).isSome :=
        List.find?_isSome.2 ⟨h, List.mem_reverse.2 hh, by simp [hhidden, hkey]⟩
      obtain ⟨g, hg⟩ := Option.isSome_iff_exists.1 hsome
      rw [hg, Option.some_or, Option.some_or]
    · simp [hname, hkey]

/-- **Lowering depends on what calls find and on nothing else of the functions.** -/
theorem lower_of_callsAlike {spec : Relational.Specification} (h : CallsAlike spec.functions gs)
    (singletonsOnly : Bool) :
    { spec with functions := gs }.lower singletonsOnly = spec.lower singletonsOnly := by
  -- commands are listed anew, which keeps them also where no function is replaced
  have hsame : ∀ {fs : List Relational.Function}, CallsAlike spec.functions fs →
      { spec with functions := fs }.lower singletonsOnly =
        (spec.lower singletonsOnly).map fun enc =>
          { enc with commands := spec.commands.zip (enc.commands.map Prod.snd) } := by
    intro fs hfs
    have hmirrors : Mirrors spec.functions fs _ (items spec)
        (items { spec with functions := fs }) :=
      mirrors_items_of_callsAlike hfs rfl (List.forall₂_same.2 fun g _ => .refl g)
        (List.forall₂_same.2 fun f _ => .refl f) (List.forall₂_same.2 fun c _ => .refl c)
    rw [lower_eq_items, lower_eq_items]
    exact congrArg Prod.fst (hmirrors (.initial singletonsOnly spec.functions) rfl).2
  rw [hsame h]
  exact (hsame (callsAlike_of_map_bare rfl)).symm

/-! ## Calls of a function -/

/-- **A call comes to the last function of its name.** Take a call that is built from a function of
the specification. There is one function of that name, the last, as which the call is lowered
wherever it stands, and it is the function that the call was built from exactly if no other one of
its name comes later. Lowering searches for functions from the back and the specification from the
front, so they agree on a name exactly if its first and its last function are the same. Where a
later function has its name, any function of that name could have stood in place of the one that the
call was built from: the specification would have been lowered to the same. -/
theorem call_inlines_last {spec : Relational.Specification} (hf : f ∈ spec.functions)
    (args : List Relational.Expr) : ∃ g,
      IsLastOf Relational.Function.name spec.functions g ∧ g.name = f.name ∧
      (g = f ↔ IsLastOf Relational.Function.name spec.functions f) ∧
      Inlines spec.functions g (f.call args) args ∧
      (∀ ts, Binds g.params ts (arguments g ts)) ∧
      (∀ s : Session, s.functions = spec.functions → ∀ name, ∃ found,
        outcome (function? name) s = (.ok found, s) ∧
        (∀ h, found = some h ↔
          IsLastOf Relational.Function.name spec.functions h ∧ h.name = name) ∧
        (∀ h, spec.function? name = some h ↔
          IsFirstOf Relational.Function.name spec.functions h ∧ h.name = name) ∧
        (spec.function? name = found ↔ ∀ h h',
          IsFirstOf Relational.Function.name spec.functions h →
          IsLastOf Relational.Function.name spec.functions h' → h.name = name → h'.name = name →
          h = h')) ∧
      ∀ front back, spec.functions = front ++ f :: back → (∃ h ∈ back, h.name = f.name) →
        ∀ f', f'.name = f.name → ∀ singletonsOnly,
          { spec with functions := front ++ f' :: back }.lower singletonsOnly =
            spec.lower singletonsOnly := by
  obtain ⟨g, hlast, hname⟩ := exists_isLastOf Relational.Function.name hf
  have hfound := reverse_find?_eq_some_iff_isLastOf.2 ⟨hlast, hname⟩
  refine ⟨g, hlast, hname, ⟨fun h => h ▸ hlast, fun h => hlast.unique h hname⟩,
    inlines_of_found hfound, binds_arguments g, fun s hs name => ?_, ?_⟩
  · refine ⟨_, hs ▸ outcome_function? s name, fun h => reverse_find?_eq_some_iff_isLastOf,
      fun h => find?_eq_some_iff_isFirstOf, find?_eq_reverse_find?_iff⟩
  -- what a later function hides no call finds, and lowering looks at nothing else
  · rintro front back hsplit ⟨h, hh, hhidden⟩ f' hname' singletonsOnly
    exact lower_of_callsAlike (hsplit ▸ callsAlike_of_hidden hh hhidden hname') singletonsOnly

/-! A specification with two predicates of one name, and a third one that calls the first of them.
-/

/-- Is there anything? -/
def somePredicate : Relational.Function := .predicate "p" [] (.unary .some (.sig nestedOwner)) {}

/-- Is there nothing? It has the name of the other. -/
def noPredicate : Relational.Function := .predicate "p" [] (.unary .no (.sig nestedOwner)) {}

/-- The specification with another function in the first place. -/
def overloaded (f : Relational.Function) : Relational.Specification where
  signatures := [⟨nestedOwner, .top, false, none, {}⟩]
  functions := [f, .predicate "q" [] (somePredicate.call []) {}, noPredicate]
  facts := [⟨"F", .call "q" [] [], {}⟩]

/-- The call of the first predicate comes to the last one, which could stand in both places. -/
theorem call_inlines_last_overloaded : somePredicate ∈ (overloaded somePredicate).functions ∧
    (overloaded somePredicate).function? "p" = some somePredicate ∧ noPredicate ≠ somePredicate ∧
    Inlines (overloaded somePredicate).functions noPredicate (somePredicate.call []) [] ∧
    (∃ enc, (overloaded somePredicate).lower true = .ok enc) ∧
    (overloaded noPredicate).lower true = (overloaded somePredicate).lower true := by
  have hmem : somePredicate ∈ (overloaded somePredicate).functions := List.mem_cons_self
  obtain ⟨g, hlast, hname, -, hinlines, -, -, hhidden⟩ := call_inlines_last hmem []
  have hg : g = noPredicate := hlast.unique ⟨[_, _], [], rfl, List.forall_mem_nil _⟩ hname
  subst hg
  exact ⟨hmem, rfl, nofun, hinlines, ⟨_, rfl⟩,
    hhidden [] _ rfl ⟨noPredicate, by simp, rfl⟩ noPredicate rfl true⟩

end RelSmt.Lowering
