import RelSmt.Program.Printer
import RelSmt.Proofs.SExpr.Reader

/-!
# Texts that are read as one item

The reader takes the written form of a clean s-expression as one more item, wherever it stands
between other items (`SExpr.Reads`). A script is put together from texts that are not all such
written forms: labels always stand between bars, keywords start with a colon and never do, and
comments stand in front of commands. They are taken as one item each all the same. The property is
kept by lists, by comments in front and by lines, and a text of lines that have it reads as the list
of their items (`readAll_unlines`).
-/

namespace RelSmt

namespace SExpr

open Reader

/-- Does the reader take the text as one more item, where what follows cannot go on with its last
token? -/
def Reads (text : String) (x : SExpr) : Prop :=
  ∀ (r : Reader) (c : Char), r.token = .none → isBareChar c = false → ∀ cs : List Char,
    r.run (text.toList ++ c :: cs) = (r.push x).run (c :: cs)

theorem reads_number {n : Nat} (hn : n < UInt64.size) : Reads (toString n) (.number n) :=
  fun _ _ hr hc cs => run_number hr hn hc cs

theorem reads_quote {name : String} (hname : Symbol.Clean name) :
    Reads (Symbol.quote name) (.symbol name) :=
  fun _ _ hr hc cs => run_symbol hr hname hc cs

theorem reads_barred {name : String} (hname : Symbol.Clean name) :
    Reads ("|" ++ name ++ "|") (.symbol name) :=
  fun _ _ hr _ cs => run_barredName hr hname (_ :: cs)

/-- Can the name stand bare for a reader? Keywords can, though writers take them for no simple
symbols. -/
def isBare (name : String) : Bool :=
  match name.toList with
  | [] => false
  | c :: cs => !c.isDigit && (c :: cs).all isBareChar

theorem reads_bare {name : String} (h : isBare name = true) : Reads name (.symbol name) := by
  unfold isBare at h
  split at h
  · simp at h
  · rename_i d ds hds
    simp only [Bool.and_eq_true, Bool.not_eq_true', List.all_eq_true] at h
    exact fun _ _ hr hc cs => run_bareName hr hds h.1 h.2 hc cs

theorem reads_simple {name : String} (h : Symbol.isSimple name = true) :
    Reads name (.symbol name) := by
  have hread := reads_quote (Symbol.clean_of_isSimple h)
  rwa [Symbol.quote_of_isSimple h] at hread

/-- Items one space apart are read one after the other. -/
theorem run_intercalate {texts : List String} {xs : List SExpr} (h : List.Forall₂ Reads texts xs) :
    ∀ {r : Reader}, r.token = .none → ∀ {c : Char}, isBareChar c = false → ∀ cs : List Char,
      r.run ((" ".intercalate texts).toList ++ c :: cs)
        = { r with items := xs.reverse ++ r.items }.run (c :: cs) := by
  induction h with
  | nil =>
    intro r hr c hc cs
    simp
  | @cons t x ts xs ht hts ih =>
    intro r hr c hc cs
    cases hts with
    | nil => simpa [push, hr] using ht r c hr hc cs
    | @cons t' x' ts xs ht' hts =>
      have hspace : (r.push x).step ' ' = .ok (r.push x) := rfl
      have hlist : (" ".intercalate (t :: t' :: ts)).toList ++ c :: cs
          = t.toList ++ ' ' :: ((" ".intercalate (t' :: ts)).toList ++ c :: cs) := by
        simp [String.intercalate_cons_cons]
      rw [hlist, ht r _ hr (by decide), run_cons_of_step hspace, ih rfl hc]
      simp [push, hr]

/-- **A list reads as the list of what its items read as.** -/
theorem reads_inParens {texts : List String} {xs : List SExpr} (h : List.Forall₂ Reads texts xs) :
    Reads (inParens texts) (.list xs) := by
  intro r c hr _ cs
  have hlist : (inParens texts).toList ++ c :: cs
      = '(' :: ((" ".intercalate texts).toList ++ ')' :: c :: cs) := by
    simp [inParens]
  have hopen : r.step '(' = .ok { token := .none, items := [], outer := r.items :: r.outer } := by
    rw [step_of_none hr]
    rfl
  rw [hlist, run_cons_of_step hopen, run_intercalate h rfl (c := ')') (by decide)]
  refine run_cons_of_step ?_
  simp [step, start, push, isSeparator]

mutual

/-- **The written form of a clean s-expression is read back.** -/
theorem reads_text : ∀ {x : SExpr}, x.Clean → Reads x.text x
  | .number _, hx => reads_number hx
  | .symbol _, hx => reads_quote hx
  | .list _, hx => reads_inParens (reads_texts hx)

theorem reads_texts : ∀ {xs : List SExpr}, SExpr.AllClean xs → List.Forall₂ Reads (texts xs) xs
  | [], _ => .nil
  | _ :: _, hx => .cons (reads_text hx.1) (reads_texts hx.2)

end

/-! ## Lists that start with a symbol -/

/-- A list that starts with a symbol. -/
def apply (head : String) (args : List SExpr) : SExpr := .list (.symbol head :: args)

theorem text_list (xs : List SExpr) : (SExpr.list xs).text = inParens (xs.map text) := by
  rw [text, texts_eq_map, inParens]

theorem text_apply (head : String) (args : List SExpr) :
    (apply head args).text = inParens (Symbol.quote head :: args.map text) := by
  rw [apply, text_list, List.map_cons, text]

theorem clean_apply {head : String} {args : List SExpr} :
    (apply head args).Clean ↔ Symbol.Clean head ∧ ∀ x ∈ args, x.Clean := by
  simp only [apply, Clean, SExpr.AllClean, allClean_iff]

theorem reads_apply {head name : String} {texts : List String} {xs : List SExpr}
    (hhead : Reads head (.symbol name)) (h : List.Forall₂ Reads texts xs) :
    Reads (inParens (head :: texts)) (.apply name xs) :=
  reads_inParens (.cons hhead h)

/-! ## Comments -/

/-- A comment takes all characters up to a line feed. -/
theorem run_comment : ∀ (ds : List Char) {r : Reader} (cs : List Char), r.token = .comment →
    '\n' ∉ ds → r.run (ds ++ cs) = r.run cs
  | [], r, cs, _, _ => rfl
  | d :: ds, r, cs, hr, hds => by
    rw [List.mem_cons, not_or] at hds
    have hstep : r.step d = .ok r := by simp [step, hr, Ne.symm hds.1]
    rw [List.cons_append, run_cons_of_step hstep, run_comment ds cs hr hds.2]

/-- The reader skips the line of a comment, whatever the comment says. -/
theorem run_commentLine (comment : String) {r : Reader} (hr : r.token = .none) (cs : List Char) :
    r.run ((commentLine comment).toList ++ cs) = r.run cs := by
  unfold commentLine
  split
  · simp
  · have hopen : r.step ';' = .ok { r with token := .comment } := by
      rw [step_of_none hr]
      rfl
    have hclose : ({ r with token := .comment } : Reader).step '\n' = .ok r := by
      simp [step, ← hr]
    have hlist : ("; " ++ String.ofList (comment.toList.map fun c => if c = '\n' then ' ' else c)
        ++ "\n").toList ++ cs
        = ';' :: ((' ' :: comment.toList.map fun c => if c = '\n' then ' ' else c)
          ++ '\n' :: cs) := by simp
    -- a line feed in the comment would end it, and none is left
    have hfeed : '\n' ∉ ' ' :: comment.toList.map fun c => if c = '\n' then ' ' else c := by
      simp only [List.mem_cons, List.mem_map, not_or, not_exists, not_and]
      refine ⟨by decide, fun c _ h => ?_⟩
      split at h
      · exact absurd h (by decide)
      · contradiction
    rw [hlist, run_cons_of_step hopen, run_comment _ _ rfl hfeed, run_cons_of_step hclose]

theorem Reads.commented {text : String} {x : SExpr} (h : Reads text x) (comment : String) :
    Reads (commentLine comment ++ text) x := by
  intro r c hr hc cs
  rw [String.toList_append, List.append_assoc, run_commentLine comment hr, h r c hr hc]

/-! ## Lines -/

/-- Lines are read one after the other. -/
theorem run_unlines {lines : List String} {xs : List SExpr} (h : List.Forall₂ Reads lines xs) :
    ∀ {r : Reader}, r.token = .none → ∀ cs : List Char,
      r.run ((unlines lines).toList ++ cs) = { r with items := xs.reverse ++ r.items }.run cs := by
  induction h with
  | nil =>
    intro r _ cs
    simp [unlines]
  | @cons t x ts xs ht _ ih =>
    intro r hr cs
    have hlist : (unlines (t :: ts)).toList ++ cs
        = t.toList ++ '\n' :: ((unlines ts).toList ++ cs) := by simp [unlines]
    have hfeed : (r.push x).step '\n' = .ok (r.push x) := rfl
    rw [hlist, ht r _ hr (by decide), run_cons_of_step hfeed, ih rfl]
    simp [push, hr]

/-- What a reader has read when its last token settles with no list open. -/
theorem finish_of_settle {r r' : Reader} (hbarred : ∀ held, r.token ≠ .barred held)
    (hquoted : ∀ held, r.token ≠ .quoted held) (h : r.settle = .ok r') (houter : r'.outer = []) :
    r.finish = .ok r'.items.reverse := by
  unfold finish
  split
  · rename_i held ht
    exact absurd ht (hbarred held)
  · rename_i held ht
    exact absurd ht (hquoted held)
  · rw [h]
    simp [bind, Except.bind, houter]

theorem finish_of_none {r : Reader} (hr : r.token = .none) (houter : r.outer = []) :
    r.finish = .ok r.items.reverse :=
  finish_of_settle (by simp [hr]) (by simp [hr]) (by simp [settle, hr]) houter

/-- **A text of lines reads as the items of its lines.** -/
theorem readAll_unlines {lines : List String} {xs : List SExpr}
    (h : List.Forall₂ Reads lines xs) : readAll (unlines lines) = .ok xs := by
  have hrun := run_unlines h (r := {}) rfl []
  rw [List.append_nil] at hrun
  unfold readAll
  dsimp only
  rw [hrun]
  simp [Reader.run, finish_of_none]

/-- A list whose items stand on lines of their own is read back. -/
theorem readAll_lines {xs : List SExpr} (hxs : ∀ x ∈ xs, x.Clean) :
    readAll ("(" ++ String.join (xs.map fun x => x.text ++ "\n") ++ ")") = .ok [.list xs] := by
  have hreads : List.Forall₂ Reads (xs.map text) xs :=
    texts_eq_map xs ▸ reads_texts (allClean_iff.2 hxs)
  have hlist : ("(" ++ String.join (xs.map fun x => x.text ++ "\n") ++ ")").toList
      = '(' :: ((unlines (xs.map text)).toList ++ [')']) := by
    simp [unlines, Function.comp_def]
  have hopen : Reader.step {} '(' = .ok { token := .none, items := [], outer := [[]] } := rfl
  have hclose : Reader.step ⟨.none, xs.reverse ++ [], [[]]⟩ ')' = .ok ⟨.none, [.list xs], []⟩ := by
    simp [step, start, isSeparator]
  unfold readAll
  dsimp only
  rw [hlist, run_cons_of_step hopen, run_unlines hreads rfl, run_cons_of_step hclose]
  rfl

/-- The end of a text ends a number or a symbol as a line feed does. -/
theorem finish_of_step {r r' : Reader} (h : r.step '\n' = .ok r') (hr' : r'.token = .none)
    (houter : r'.outer = []) : r.finish = .ok r'.items.reverse := by
  have hstart : ∀ q : Reader, q.start '\n' = .ok q := fun q => rfl
  have hsettled : (do (← r.settle).start '\n') = .ok r' → r.settle = .ok r' := by
    cases hs : r.settle with
    | error e => exact id
    | ok q => exact id
  unfold step at h
  split at h <;> rename_i ht
  · obtain rfl := Except.ok.inj h
    exact finish_of_none ht houter
  · obtain rfl := Except.ok.inj h
    rw [if_pos rfl] at houter ⊢
    have hsettle : r.settle = .ok r := by simp [settle, ht]
    have hfinish : r.finish = .ok r.items.reverse :=
      finish_of_settle (by simp [ht]) (by simp [ht]) hsettle houter
    exact hfinish
  · obtain rfl := Except.ok.inj h
    simp at hr'
  · obtain rfl := Except.ok.inj h
    simp at hr'
  · exact finish_of_settle (by simp [ht]) (by simp [ht]) (hsettled h) houter
  · exact finish_of_settle (by simp [ht]) (by simp [ht]) (hsettled h) houter

/-- A text is read when it could go on with a line feed that leaves no token and no list open. -/
theorem readAll_of_run {text : String} {r' : Reader}
    (hrun : Reader.run {} (text.toList ++ ['\n']) = .ok r') (hr' : r'.token = .none)
    (houter : r'.outer = []) : readAll text = .ok r'.items.reverse := by
  rw [run_append] at hrun
  unfold readAll
  dsimp only
  cases hr : Reader.run {} text.toList with
  | error e =>
    rw [hr] at hrun
    cases hrun
  | ok r =>
    rw [hr] at hrun
    have hstep : r.step '\n' = .ok r' := by
      simp only [Reader.run] at hrun
      split at hrun
      · rename_i q hq
        rw [hq, Except.ok.inj hrun]
      · cases hrun
    simp only [finish_of_step hstep hr' houter]

/-- A text that reads as one item is the whole text of that item. -/
theorem Reads.readAll {text : String} {x : SExpr} (h : Reads text x) :
    SExpr.readAll text = .ok [x] :=
  readAll_of_run (h {} _ rfl (by decide) []) rfl rfl

/-- **S-expressions survive writing.** Whatever else is in a symbol that has no bar in it and no
blank at its ends, the written forms of several items are read as exactly those items. -/
theorem readAll_written {xs : List SExpr} (hxs : ∀ x ∈ xs, x.Clean) :
    readAll (" ".intercalate (xs.map text)) = .ok xs := by
  have hreads : List.Forall₂ Reads (xs.map text) xs :=
    texts_eq_map xs ▸ reads_texts (allClean_iff.2 hxs)
  have hrun : Reader.run {} ((" ".intercalate (xs.map text)).toList ++ ['\n'])
      = .ok { items := xs.reverse } := by
    rw [run_intercalate hreads rfl (by decide), List.append_nil]
    rfl
  simpa using readAll_of_run hrun rfl rfl

/-- Symbols that could merge, split, end a line or start a comment. -/
def oddItems : List SExpr :=
  [.symbol "", .symbol "12", .number 12, .symbol "\"a", .symbol "; (b", .symbol "c\n) d",
    .list [.list [], .symbol "a:#'", .list [.number 18446744073709551615, .symbol "-1"]],
    .symbol "x\u00a0y"]

theorem readAll_written_oddItems :
    (∀ x ∈ oddItems, x.Clean) ∧ readAll (" ".intercalate (oddItems.map text)) = .ok oddItems := by
  have hclean : ∀ x ∈ oddItems, x.Clean := by decide
  exact ⟨hclean, readAll_written hclean⟩

end SExpr

end RelSmt
