import RelSmt.Proofs.Evaluation.Lasting
import RelSmt.Proofs.Model.Legible

/-!
# Values are read back

Evaluating a term of a model brings in no literals but truth values and integers, and no empty set
but those of the sorts of sets that it takes apart. So what it comes to is legible, integers apart
(`Term.legibleResults`), and a value in normal form is read back where no name is bound. The
exception is the lowest integer of 64 bits. It is written as the negation of a number that is no
64-bit integer itself, and numbers are checked before they are negated (`term_value_iff`).
-/

namespace RelSmt

/-- Is the literal read back where no name is bound, unless it is an integer? -/
def Literal.IsLegible (c : Literal) : Prop := (∃ n, c = .int n) ∨ c.ReadsBack

theorem Literal.IsLegible.sort {c : Literal} (h : c.IsLegible) : (Term.literal c).sort.ReadsBack := by
  cases c with
  | bool b => exact SmtSort.readsBack_bool
  | int n => exact SmtSort.readsBack_int
  | element name s =>
    obtain ⟨_, hn⟩ | hread := h
    · cases hn
    have hatom := hread.read
    rw [Term.toSExpr, Literal.toSExpr, Reply.term_symbol] at hatom
    rcases Reply.atom_eq_ok.1 hatom with ⟨_, he⟩ | ⟨_, he⟩ | ⟨_, hget | ⟨_, s', ⟨_, _, hs⟩, he⟩⟩
    · cases he
    · cases he
    · cases hget
    · obtain rfl := (Literal.element.inj (Term.literal.inj he)).2
      rcases Reply.constantSort_eq_ok.1 hs with ⟨_, rfl⟩ | ⟨_, rfl⟩
      · exact SmtSort.readsBack_atom
      · exact SmtSort.readsBack_uint

namespace Term

/-- Is the term legible, whatever integers are in it? -/
abbrev IsLegible (t : Term) : Prop := t.Legible Literal.IsLegible

/-! ## Values -/

variable {v : Term}

theorem isLiteral_iff {t : Term} : t.isLiteral = true ↔ ∃ c, t = .literal c := by
  cases t <;> simp [isLiteral]

theorem isValue_unary {op : UnaryOp} {t : Term} :
    (unary op t).isValue = true ↔ op = .singleton ∧ t.isValue = true := by
  cases op <;> simp [isValue]

theorem isValue_binary {op : BinaryOp} {l r : Term} :
    (binary op l r).isValue = true ↔ op = .set .union ∧ l.isValue = true ∧ r.isValue = true := by
  cases op with
  | set o => cases o <;> simp [isValue]
  | _ => simp [isValue]

theorem isValue_nary {op : NaryOp} {ts : List Term} :
    (nary op ts).isValue = true ↔ op = .mkTuple ∧ ∀ t ∈ ts, ∃ c, t = .literal c := by
  cases op <;> simp [isValue, isLiteral_iff]

/-- The sort of a value is made of sorts that are read back. -/
theorem IsLegible.sort (h : v.IsLegible) (hvalue : v.isValue = true) : v.sort.ReadsBack := by
  induction h with
  | literal hc => exact hc.sort
  | emptySet hs _ => exact hs
  | unary _ hsort ih =>
    obtain ⟨rfl, ht⟩ := isValue_unary.1 hvalue
    exact (ih ht).set (unarySort_singleton.1 hsort)
  | binary _ _ _ ihl _ =>
    obtain ⟨rfl, hl, _⟩ := isValue_binary.1 hvalue
    exact ihl hl
  | nary _ hne _ ih =>
    obtain ⟨rfl, hliterals⟩ := isValue_nary.1 hvalue
    rw [Term.sort, sorts_eq_map]
    refine SmtSort.ReadsBack.tuple (List.forall_mem_map.2 fun t ht => ?_) (by simpa using hne)
    obtain ⟨c, rfl⟩ := hliterals t ht
    exact ih _ ht rfl
  | _ => cases hvalue

/-! ## Evaluation -/

/-- **Legible terms have legible results**, integers apart. Where a set is emptied, the empty set
has the sort of the set that was taken apart. -/
def legibleResults : Lasting where
  Source := IsLegible
  Result := IsLegible
  operands h := by
    cases h with
    | unary ht _ => exact List.forall_mem_singleton.2 ht
    | binary hl hr _ => exact List.forall_mem_cons.2 ⟨hl, List.forall_mem_singleton.2 hr⟩
    | ite hc hy hn =>
      exact List.forall_mem_cons.2 ⟨hc, List.forall_mem_cons.2 ⟨hy, List.forall_mem_singleton.2 hn⟩⟩
    | nary hts _ _ => exact hts
    | call _ hts => exact hts
    | _ => exact List.forall_mem_nil _
  literal h := h
  emptySet h := h
  fullSet h := h
  bool b := .literal (.inr (readsBack_bool b))
  int n := .literal (.inl ⟨n, rfl⟩)
  unary ht hsort _ := .unary ht hsort
  binary hl hr hsort _ := .binary hl hr hsort
  ite hc hy hn _ _ := .ite hc hy hn
  nary hts hne hfit _ := .nary hts hne hfit
  united h := by
    cases h with
    | binary hl hr _ => exact ⟨hl, hr⟩
  emptied ht hvalue hset := .emptySet (ht.sort hvalue) hset

/-! ## Reading values -/

/-- **A legible value is read back when its literals are.** -/
theorem IsLegible.readsBack (h : v.IsLegible) (hvalue : v.isValue = true)
    (hliterals : ∀ c ∈ v.literals, c.ReadsBack) : v.ReadsBack {} := by
  induction h with
  | literal _ => exact hliterals _ (List.mem_singleton_self _)
  | emptySet hs hset => exact readsBack_emptySet hs hset
  | unary _ hsort ih =>
    obtain ⟨rfl, ht⟩ := isValue_unary.1 hvalue
    exact (ih ht hliterals).unary hsort
  | binary _ _ hsort ihl ihr =>
    obtain ⟨rfl, hl, hr⟩ := isValue_binary.1 hvalue
    obtain ⟨hlefts, hrights⟩ := List.forall_mem_append.1 hliterals
    exact (ihl hl hlefts).binary trivial (ihr hr hrights) hsort
  | nary _ hne hfit ih =>
    obtain ⟨rfl, hcomponents⟩ := isValue_nary.1 hvalue
    refine ReadsBack.nary (fun t ht => ?_) hne hfit
    obtain ⟨c, rfl⟩ := hcomponents t ht
    exact ih _ ht rfl fun d hd => hliterals d (mem_literalsList.2 ⟨_, ht, hd⟩)
  | _ => cases hvalue

end Term

namespace Reply

/-- A model that is read has legible bodies only. -/
theorem holds_ofModel {text : String} {m : Model} (h : model text = .ok m) :
    (Scope.ofModel m).Resolves fun _ b => Term.legibleResults.Holds b := by
  intro name b hb
  rw [Scope.get?_ofModel_eq] at hb
  obtain ⟨d, hd, rfl⟩ := Option.map_eq_some_iff.1 hb
  exact (legible_of_model h d (Model.mem_of_last? hd).1).mono fun _ hc => .inr hc

/-- What a term that is read among a model's names evaluates to is legible. -/
theorem legible_of_evaluate {text : String} {m : Model} {x : SExpr} {t v : Term}
    (hm : model text = .ok m) (ht : term x (modelScope m) = .ok t)
    (hv : Term.evaluate (Scope.ofModel m) t = .ok v) : v.IsLegible := by
  have hscope := holds_ofModel hm
  have hlegible := legible_of_term x (legible_modelScope m) ht
  refine Term.lasts_evaluate (L := Term.legibleResults) hscope ?_ (hlegible.mono fun _ => .inr) hv
  rwa [Scope.root_ofModel]

/-- The integers that are read back are those of 64 bits, but for the lowest. -/
theorem readsBack_int_iff {n : Int} : (Literal.int n).ReadsBack ↔ -2 ^ 63 < n ∧ n < 2 ^ 63 := by
  have hrange : (n.natAbs : Int) ≤ maxInt ↔ -2 ^ 63 < n ∧ n < 2 ^ 63 := by
    rw [maxInt]
    omega
  rw [← hrange]
  exact ⟨Term.natAbs_le_of_readsBack, Term.readsBack_int⟩

/-- **A value that evaluation reports is read back where no name is bound exactly when each integer
in it is one of 64 bits and not the lowest of these.** -/
theorem term_value_iff {text : String} {m : Model} {x : SExpr} {t v : Term}
    (hm : model text = .ok m) (ht : term x (modelScope m) = .ok t)
    (hv : Term.evaluate (Scope.ofModel m) t = .ok v) (hvalue : v.isValue = true) :
    (∃ y, SExpr.readAll v.text = .ok [y] ∧ term y {} = .ok v) ↔
      ∀ n, Literal.int n ∈ v.literals → -2 ^ 63 < n ∧ n < 2 ^ 63 := by
  have hlegible := legible_of_evaluate hm ht hv
  constructor
  · rintro ⟨y, _, hy⟩ n hn
    exact readsBack_int_iff.1 ((legible_of_term y Scoped.resolves_empty hy).of_mem_literals hn)
  · intro hrange
    have hread : v.ReadsBack {} := hlegible.readsBack hvalue fun c hc => by
      rcases hlegible.of_mem_literals hc with ⟨n, rfl⟩ | hread
      · exact readsBack_int_iff.2 (hrange n hc)
      · exact hread
    refine ⟨v.toSExpr, ?_, hread.read⟩
    rw [← hread.text]
    exact (SExpr.reads_text hread.clean).readAll

/-- A model with a constant that is one above the lowest integer. -/
def lowItems : SExpr :=
  .list [.apply "define-fun" [.symbol "low", .list [], .symbol "Int",
    .apply "-" [.number 9223372036854775807]]]

/-- What is read from the text of those items. -/
def lowModel : Model := ⟨[], [⟨"low", [], .int, .int (-9223372036854775807)⟩]⟩

theorem model_lowItems : model lowItems.text = .ok lowModel := by
  have hclean : lowItems.Clean := by decide
  have hitems : SExpr.readAll lowItems.text = .ok [lowItems] := (SExpr.reads_text hclean).readAll
  have hbody : term (.apply "-" [.number 9223372036854775807])
      (bindVariables (modelScope lowModel) []) = .ok (.int (-9223372036854775807)) :=
    term_list_eq_ok.2 ⟨_, _, rfl, application_eq_ok.2
      (.negated (term_number_eq_ok.2 ⟨by decide, rfl⟩))⟩
  exact model_eq_ok.2 ⟨_, [.function ⟨⟨"low", [], .int⟩, [], .apply "-" [.number 9223372036854775807]⟩],
    hitems, .cons rfl .nil, rfl, .cons (define_eq_ok.2 ⟨_, hbody, rfl, rfl⟩) .nil⟩

/-- One less than that constant. -/
def belowLow : Term := .binary (.arithmetic .minus) (.symbol ⟨"low", [], .int⟩) (.int 1)

/-- A pair with that constant, united with nothing. -/
def lowPair (low : Term) : Term :=
  .binary (.set .union)
    (.unary .singleton (.nary .mkTuple [.literal (.element "@uc_Atom_0" .atom), low]))
    (.emptySet (.relation [.atom, .int]))

/-- The pair is read back, and the integer below the constant is not. -/
theorem term_value_iff_low :
    model lowItems.text = .ok lowModel ∧
    (∃ x, term x (modelScope lowModel) = .ok belowLow) ∧
    Term.evaluate (Scope.ofModel lowModel) belowLow = .ok (.int (-2 ^ 63)) ∧
    (¬ ∃ y, SExpr.readAll (Term.int (-2 ^ 63)).text = .ok [y] ∧ term y {} = .ok (.int (-2 ^ 63))) ∧
    (∃ x, term x (modelScope lowModel) = .ok (lowPair (.symbol ⟨"low", [], .int⟩))) ∧
    Term.evaluate (Scope.ofModel lowModel) (lowPair (.symbol ⟨"low", [], .int⟩))
      = .ok (lowPair (.int (-9223372036854775807))) ∧
    ∃ y, SExpr.readAll (lowPair (.int (-9223372036854775807))).text = .ok [y] ∧
      term y {} = .ok (lowPair (.int (-9223372036854775807))) := by
  have hlow : (Term.symbol ⟨"low", [], .int⟩).ReadsBack (modelScope lowModel) :=
    Term.readsBack_bound rfl rfl (by decide) (by decide) rfl
  have hone : (Term.int 1).ReadsBack (modelScope lowModel) := Term.readsBack_int (by decide)
  -- both terms are written as they are read: below the lowest number, and in a pair
  have hbelow : belowLow.ReadsBack (modelScope lowModel) :=
    hlow.binary trivial hone (Term.binarySort_arithmetic.2 ⟨rfl, rfl⟩)
  have hpair : (lowPair (.symbol ⟨"low", [], .int⟩)).ReadsBack (modelScope lowModel) := by
    have hatom : (Term.literal (.element "@uc_Atom_0" .atom)).ReadsBack (modelScope lowModel) :=
      Term.readsBack_element (by decide) (by decide) rfl ⟨"Atom", by decide, rfl⟩
    have hsort : (SmtSort.relation [.atom, .int]).ReadsBack :=
      (SmtSort.ReadsBack.tuple (by simp [SmtSort.readsBack_atom, SmtSort.readsBack_int])
        (by simp)).set rfl
    have htuple : (Term.nary .mkTuple [.literal (.element "@uc_Atom_0" .atom),
        .symbol ⟨"low", [], .int⟩]).ReadsBack (modelScope lowModel) :=
      .nary (List.forall_mem_cons.2 ⟨hatom, List.forall_mem_singleton.2 hlow⟩) (by simp) (by decide)
    exact (htuple.unary (Term.unarySort_singleton.2 rfl)).binary trivial
      (Term.readsBack_emptySet hsort rfl) (Term.binarySort_set.2 ⟨rfl, rfl⟩)
  have hbelowValue : Term.evaluate (Scope.ofModel lowModel) belowLow = .ok (.int (-2 ^ 63)) := rfl
  have hpairValue : Term.evaluate (Scope.ofModel lowModel) (lowPair (.symbol ⟨"low", [], .int⟩))
      = .ok (lowPair (.int (-9223372036854775807))) := rfl
  refine ⟨model_lowItems, ⟨_, hbelow.read⟩, hbelowValue, fun hread => ?_, ⟨_, hpair.read⟩,
    hpairValue, ?_⟩
  · have hrange := (term_value_iff model_lowItems hbelow.read hbelowValue rfl).1 hread
    exact absurd (hrange (-2 ^ 63) (List.mem_singleton_self _)).1 (by decide)
  · refine (term_value_iff model_lowItems hpair.read hpairValue rfl).2 ?_
    simp [lowPair, Term.literals, Term.literalsList, Term.int]

end Reply

end RelSmt
