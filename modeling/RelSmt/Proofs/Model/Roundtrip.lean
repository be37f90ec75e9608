import RelSmt.Proofs.Model.ReadsBack

/-!
# Models are read back as they were read

Reading a model, writing it and reading that gives the same model (`model_roundtrip`). What is read
reads back: this is shown for s-expressions by induction over their items, in every environment in
which each name stands for a term that is written as that name. Binders and definitions make only
such environments.

The one thing that is not read back is a name from between double quotes, which may hold blanks and
bars that reading a symbol would take away.
-/

namespace RelSmt

namespace Reply

/-! ## Sorts and binders -/

theorem readsBack_of_sort (x : SExpr) : ∀ {s : SmtSort}, sort x = .ok s → s.ReadsBack := by
  induction x using SExpr.itemsInduction with
  | number n => simp [sort]
  | symbol name =>
    intro s h
    rcases sort_symbol_eq_ok.1 h with ⟨_, rfl⟩ | ⟨_, rfl⟩ | ⟨_, rfl⟩ | ⟨_, rfl⟩
    · exact SmtSort.readsBack_atom
    · exact SmtSort.readsBack_uint
    · exact SmtSort.readsBack_bool
    · exact SmtSort.readsBack_int
  | list xs ih =>
    intro s h
    rcases sort_list_eq_ok.1 h with ⟨x, e, rfl, he, htuple, rfl⟩ | ⟨ys, cs, rfl, hne, hcs, rfl⟩
    · exact (ih x (by simp) he).set htuple
    · refine SmtSort.ReadsBack.tuple (fun c hc => ?_) ?_
      · obtain ⟨y, hy, hyc⟩ := exists_mem_of_forall₂ hcs hc
        exact ih y (List.mem_cons_of_mem _ hy) hyc
      · rintro rfl
        exact hne (List.forall₂_nil_right_iff.1 hcs)

theorem readsBack_of_binder {x : SExpr} {v : Variable} (h : binder x = .ok v) : v.ReadsBack := by
  obtain ⟨name, y, s, rfl, hs, rfl⟩ := binder_eq_ok.1 h
  exact Variable.readsBack_plain (Symbol.clean_sanitize name) (readsBack_of_sort y hs)

theorem readsBack_of_binders {x : SExpr} {vs : List Variable} (h : binders x = .ok vs) :
    ∀ v ∈ vs, v.ReadsBack := by
  obtain ⟨xs, rfl, hvs⟩ := binders_eq_ok.1 h
  intro v hv
  obtain ⟨x, _, hx⟩ := exists_mem_of_forall₂ hvs hv
  exact readsBack_of_binder hx

/-! ## Names -/

/-- Is the term written as this name? -/
structure IsNamed (name : String) (t : Term) : Prop where
  toSExpr : t.toSExpr = .symbol name
  text : t.text = Symbol.quote name
  clean : Symbol.Clean name

/-- The names that a binder brings in stand for its variables. -/
theorem resolves_bindVariables {env : Environment} {vs : List Variable} (h : env.Resolves IsNamed)
    (hvs : ∀ v ∈ vs, v.ReadsBack) : (bindVariables env vs).Resolves IsNamed := by
  refine h.enter.putAll ?_
  rw [List.forall_mem_map]
  exact fun v hv => ⟨rfl, rfl, (SExpr.clean_apply.1 (hvs v hv).clean).1⟩

/-- The names of definitions stand for their symbols. -/
theorem resolves_symbolScope {fs : List FunctionSymbol} (h : ∀ f ∈ fs, Symbol.Clean f.name) :
    (symbolScope fs).Resolves IsNamed := by
  refine Scoped.resolves_empty.putAll ?_
  rw [List.forall_mem_map]
  exact fun f hf => ⟨rfl, rfl, h f hf⟩

/-! ## Terms -/

section Terms

variable {env : Environment} {t : Term}

theorem readsBack_of_atom {name : String} (henv : env.Resolves IsNamed)
    (h : atom name env = .ok t) : t.ReadsBack env := by
  rcases atom_eq_ok.1 h with ⟨_, rfl⟩ | ⟨_, rfl⟩ | ⟨hword, hget | ⟨hget, s, hs, rfl⟩⟩
  · exact Term.readsBack_bool true
  · exact Term.readsBack_bool false
  · have hnamed := henv _ _ hget
    exact Term.readsBack_bound hnamed.toSExpr hnamed.text hnamed.clean hword hget
  · exact Term.readsBack_element (Symbol.clean_sanitize name) hword hget hs

/-- The negation of an integer that reads back does so too. -/
theorem readsBack_negate {n : Int} (h : (Term.int n).ReadsBack env) :
    (Term.int (negate n)).ReadsBack env := by
  have hn := Term.natAbs_le_of_readsBack h
  exact Term.readsBack_int (by rwa [negate_eq_neg hn, Int.natAbs_neg])

/-- What an application stands for reads back when its operands do. -/
theorem readsBack_of_applies {head : String} {args : List SExpr} (henv : env.Resolves IsNamed)
    (hhead : Symbol.Clean head)
    (ih : ∀ x ∈ args, ∀ {env : Environment} {t : Term}, env.Resolves IsNamed →
      term x env = .ok t → t.ReadsBack env)
    (h : Applies env head args t) : t.ReadsBack env := by
  cases h with
  | emptySet hs hset => exact Term.readsBack_emptySet (readsBack_of_sort _ hs) hset
  | fullSet hs hset => exact Term.readsBack_fullSet (readsBack_of_sort _ hs) hset
  | negated hx => exact readsBack_negate (ih _ (by simp) henv hx)
  | opposite hx ht hsort =>
    exact Term.ReadsBack.binary trivial (Term.readsBack_int (by decide)) (ih _ (by simp) henv hx)
      (Term.binarySort_arithmetic.2 ⟨rfl, hsort⟩)
  | unary hop hx hsort => exact (ih _ (by simp) henv hx).unary hsort
  | binary hop hx hy hsort =>
    exact Term.ReadsBack.binary (Operator.isRead_of_ofSymbol? hop) (ih _ (by simp) henv hx)
      (ih _ (by simp) henv hy) hsort
  | nary hop hxs hne hfit =>
    exact Term.ReadsBack.nary (forall_of_terms (fun x hx _ => ih x hx henv) hxs) hne hfit
  | quantified hop hx hy hne hsort =>
    have hvs := readsBack_of_binders hx
    exact Term.ReadsBack.quantified hvs (ih _ (by simp) (resolves_bindVariables henv hvs) hy) hne
      hsort
  | ite hx hy hz hc hsort =>
    exact (ih _ (by simp) henv hx).ite (ih _ (by simp) henv hy) (ih _ (by simp) henv hz) hc hsort
  | call has hop hf hxs hsort =>
    -- the symbol is written as its name, which is the head it was read from
    have hnamed := henv _ _ hf
    have hname := SExpr.symbol.inj hnamed.toSExpr
    rw [show Symbol.sanitize head = head from hhead] at hf hname
    subst hname
    exact Term.ReadsBack.call hhead has hop hf
      (forall_of_terms (fun x hx _ => ih x hx henv) hxs) hsort

/-- **A term that is read reads back**, in the environment in which it was read. -/
theorem readsBack_of_term (x : SExpr) (hx : x.Clean) {env : Environment} {t : Term}
    (henv : env.Resolves IsNamed) (h : term x env = .ok t) : t.ReadsBack env := by
  refine term_induction (P := fun x env t => x.Clean → env.Resolves IsNamed → t.ReadsBack env)
    ?_ ?_ ?_ h hx henv
  · exact fun n env hn _ _ => Term.readsBack_int hn
  · exact fun name env t h _ henv => readsBack_of_atom henv h
  · intro head args env t ih h hclean henv
    obtain ⟨hhead, hargs⟩ := SExpr.clean_apply.1 hclean
    exact readsBack_of_applies henv hhead
      (fun x hx _ _ henv h => ih x hx _ _ h (hargs x hx) henv) h

end Terms

/-! ## Models -/

section Models

variable {x : SExpr}

theorem readsBack_of_item_sort {s : SortDeclaration} (hx : x.Clean)
    (h : item x = .ok (.sort s)) : s.ReadsBack := by
  obtain ⟨name, n, rfl, rfl⟩ := item_eq_sort h
  obtain ⟨_, hargs⟩ := SExpr.clean_apply.1 hx
  exact ⟨Symbol.clean_sanitize name, hargs (.number n) (by simp)⟩

/-- What is known of a definition whose header is read. -/
structure Header.Readable (h : Header) : Prop where
  name : Symbol.Clean h.symbol.name
  unmarked : Position.isMarked h.symbol.name = false
  inputs : ∀ v ∈ h.inputs, v.ReadsBack
  symbol : h.symbol.inputs = h.inputs.map Variable.sort
  output : h.symbol.output.ReadsBack
  body : h.body.Clean

theorem readable_of_item {h : Header} (hx : x.Clean) (hi : item x = .ok (.function h)) :
    h.Readable := by
  obtain ⟨name, y, z, body, vs, s, rfl, hname, hy, hz, rfl⟩ := item_eq_function hi
  have hargs := (SExpr.clean_apply.1 hx).2
  exact ⟨Symbol.clean_sanitize name, hname, readsBack_of_binders hy, rfl, readsBack_of_sort z hz,
    hargs body (by simp)⟩

/-- A definition has the symbol of its header and reads back among the names it was read among. -/
theorem readsBack_of_define {root : Environment} {h : Header} {d : FunctionDefinition}
    (hroot : root.Resolves IsNamed) (hh : h.Readable) (hd : h.define root = .ok d) :
    d.symbol = h.symbol ∧ d.ReadsBack root := by
  obtain ⟨body, hbody, hsort, rfl⟩ := define_eq_ok.1 hd
  refine ⟨?_, hh.name, hh.unmarked, hh.inputs, hh.output, ?_, hsort⟩
  · rw [FunctionDefinition.symbol, ← hh.symbol]
  · exact readsBack_of_term h.body hh.body (resolves_bindVariables hroot hh.inputs) hbody

/-- The items of a clean text are clean. -/
theorem clean_modelItems {xs : List SExpr} (h : ∀ x ∈ xs, x.Clean) :
    ∀ x ∈ modelItems xs, x.Clean := by
  unfold modelItems
  split
  · simp
  · have hlist := h _ List.mem_cons_self
    rw [SExpr.Clean, SExpr.allClean_iff] at hlist
    exact fun x hx => hlist x (List.mem_cons_of_mem _ hx)
  · have hlist := h _ List.mem_cons_self
    rwa [SExpr.Clean, SExpr.allClean_iff] at hlist
  · exact h

end Models

/-- **Writing a model and reading it again is the identity**, for every model that is read from a
text without double quotes. -/
theorem model_roundtrip {text : String} {m : Model} (hquoted : ¬ SExpr.HasQuoted text)
    (h : model text = .ok m) : model m.text = .ok m := by
  obtain ⟨xs, items, hxs, hitems, hsorts, hds⟩ := model_eq_ok.1 h
  have hclean := clean_modelItems (SExpr.clean_readAll hquoted hxs)
  have hitem : ∀ i ∈ items, ∃ x, x.Clean ∧ item x = .ok i := fun i hi => by
    obtain ⟨x, hx, hxi⟩ := exists_mem_of_forall₂ hitems hi
    exact ⟨x, hclean x hx, hxi⟩
  -- every header that was read from a clean item can be read from its own text
  have hreadable : ∀ h ∈ items.filterMap Item.header?, h.Readable := fun h hh => by
    obtain ⟨i, hi, hih⟩ := List.mem_filterMap.1 hh
    obtain ⟨x, hx, hxi⟩ := hitem i hi
    cases i with
    | function h' =>
      obtain rfl := Option.some.inj hih
      exact readable_of_item hx hxi
    | _ => simp [Item.header?] at hih
  -- bodies are read in the scope of all headers, so that scope is known first
  have hroot : (symbolScope ((items.filterMap Item.header?).map Header.symbol)).Resolves IsNamed :=
    resolves_symbolScope (List.forall_mem_map.2 fun h hh => (hreadable h hh).name)
  have hread : List.Forall₂ (fun h d => d.symbol = Header.symbol h ∧ d.ReadsBack
      (symbolScope ((items.filterMap Item.header?).map Header.symbol)))
      (items.filterMap Item.header?) m.functions := by
    refine ((List.forall₂_and_left _ _).2 ⟨hreadable, hds⟩).imp ?_
    rintro h d ⟨hh, hd⟩
    exact readsBack_of_define hroot hh hd
  -- the scope made from the headers is the scope made from the functions of the model
  have hsymbols : (items.filterMap Item.header?).map Header.symbol
      = m.functions.map FunctionDefinition.symbol := by
    rw [← List.forall₂_eq_eq_eq, List.forall₂_map_left_iff, List.forall₂_map_right_iff]
    exact hread.imp fun h d hd => hd.1.symm
  refine model_text (fun s hs => ?_) fun d hd => ?_
  · rw [hsorts] at hs
    obtain ⟨i, hi, his⟩ := List.mem_filterMap.1 hs
    obtain ⟨x, hx, hxi⟩ := hitem i hi
    cases i with
    | sort s' =>
      obtain rfl := Option.some.inj his
      exact readsBack_of_item_sort hx hxi
    | _ => simp [Item.sort?] at his
  · obtain ⟨h, _, _, hd⟩ := exists_mem_of_forall₂ hread hd
    rwa [hsymbols] at hd

/-- A model with a function whose name needs bars, and a comment with double quotes in it. -/
def negationText : String :=
  "((define-fun |f 1| ((x Int)) Int (- x)) ; \"flip\"\n(define-fun g () Int (|f 1| (- 5))))"

/-- What is read from that text: the negation is a difference, the negative number a literal. -/
def negationModel : Model :=
  ⟨[], [⟨"f 1", [.plain "x" .int], .int, .binary (.arithmetic .minus) (.int 0) (.variable (.plain "x" .int))⟩,
    ⟨"g", [], .int, .call ⟨"f 1", [.int], .int⟩ [.int (-5)]⟩]⟩

theorem model_roundtrip_negation :
    ¬ SExpr.HasQuoted negationText ∧ model negationText = .ok negationModel ∧
      model negationModel.text = .ok negationModel := by
  have hquoted : ¬ SExpr.HasQuoted negationText := by decide +kernel
  have hitems : SExpr.readAll negationText = .ok [.list
      [.apply "define-fun" [.symbol "f 1", .list [.apply "x" [.symbol "Int"]], .symbol "Int",
        .apply "-" [.symbol "x"]],
      .apply "define-fun" [.symbol "g", .list [], .symbol "Int",
        .apply "f 1" [.apply "-" [.number 5]]]]] := rfl
  have hf : Reply.term (.apply "-" [.symbol "x"])
      (bindVariables (modelScope negationModel) [.plain "x" .int])
      = .ok (.binary (.arithmetic .minus) (.int 0) (.variable (.plain "x" .int))) :=
    term_list_eq_ok.2 ⟨_, _, rfl, application_eq_ok.2 (.opposite (by rw [term]; rfl) rfl rfl)⟩
  have hfive : Reply.term (.apply "-" [.number 5]) (bindVariables (modelScope negationModel) [])
      = .ok (.int (-5)) :=
    term_list_eq_ok.2 ⟨_, _, rfl, application_eq_ok.2
      (.negated (term_number_eq_ok.2 ⟨by decide, rfl⟩))⟩
  have hg : Reply.term (.apply "f 1" [.apply "-" [.number 5]])
      (bindVariables (modelScope negationModel) []) = .ok (.call ⟨"f 1", [.int], .int⟩ [.int (-5)]) :=
    term_list_eq_ok.2 ⟨_, _, rfl, application_eq_ok.2
      (.call (by decide) rfl rfl (.cons hfive .nil) rfl)⟩
  have hread : model negationText = .ok negationModel :=
    model_eq_ok.2 ⟨_, [.function ⟨⟨"f 1", [.int], .int⟩, [.plain "x" .int], .apply "-" [.symbol "x"]⟩,
        .function ⟨⟨"g", [], .int⟩, [], .apply "f 1" [.apply "-" [.number 5]]⟩],
      hitems, .cons rfl (.cons rfl .nil), rfl,
      .cons (define_eq_ok.2 ⟨_, hf, rfl, rfl⟩) (.cons (define_eq_ok.2 ⟨_, hg, rfl, rfl⟩) .nil)⟩
  exact ⟨hquoted, hread, model_roundtrip hquoted hread⟩

end Reply

end RelSmt
