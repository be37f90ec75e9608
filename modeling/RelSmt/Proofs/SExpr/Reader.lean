import Mathlib.Data.List.Infix
import Std.Data.String.ToNat
import RelSmt.SExpr.Reader

/-!
# Reading what was written

A symbol is *clean* when sanitizing leaves it as it is: it has no bar in it and no blank around it.
An s-expression is clean when its symbols are and its numbers fit 64 bits. The reader reads written
numbers and clean symbols back (`run_number`, `run_symbol`), and apart from what it takes from
between double quotes it makes clean s-expressions only (`clean_readAll`).

A written number or symbol says nothing about where it ends, so what comes next has to: it must be
no character that a number or a bare symbol could go on with.
-/

namespace RelSmt

/-! ## Clean symbols -/

namespace Text

theorem mem_of_mem_trimChars {cs : List Char} {c : Char} (h : c ∈ trimChars cs) : c ∈ cs := by
  rw [trimChars, List.mem_reverse] at h
  have h := (List.dropWhile_sublist _).mem h
  rw [List.mem_reverse] at h
  exact (List.dropWhile_sublist _).mem h

theorem head?_dropWhile_isBlank (cs : List Char) :
    ∀ c ∈ (cs.dropWhile isBlank).head?, isBlank c = false := by
  intro c hc
  have h := List.head?_dropWhile_not isBlank cs
  rw [Option.mem_def] at hc
  simpa [hc] using h

theorem head?_trimChars (cs : List Char) : ∀ c ∈ (trimChars cs).head?, isBlank c = false := by
  intro c hc
  rw [trimChars, List.head?_reverse] at hc
  -- what is left of the reversed text ends as the reversed text does
  obtain ⟨front, hfront⟩ := List.dropWhile_suffix isBlank (l := (cs.dropWhile isBlank).reverse)
  refine head?_dropWhile_isBlank cs c ?_
  rw [← List.getLast?_reverse, ← hfront]
  exact List.mem_getLast?_append_of_mem_getLast? hc

theorem getLast?_trimChars (cs : List Char) :
    ∀ c ∈ (trimChars cs).getLast?, isBlank c = false := by
  intro c hc
  rw [trimChars, List.getLast?_reverse] at hc
  exact head?_dropWhile_isBlank _ c hc

/-- Trimming leaves no blank at either end. -/
theorem trimChars_trimChars (cs : List Char) : trimChars (trimChars cs) = trimChars cs :=
  trimChars_eq_self (head?_trimChars cs) (getLast?_trimChars cs)

theorem trim_trim (s : String) : trim (trim s) = trim s := by
  simp [trim, trimChars_trimChars]

end Text

namespace Symbol

/-- Does sanitizing leave the name as it is? -/
def Clean (name : String) : Prop := sanitize name = name

instance (name : String) : Decidable (Clean name) := decEq _ _

theorem clean_iff {name : String} : Clean name ↔ '|' ∉ name.toList ∧ Text.trim name = name := by
  constructor
  · intro h
    have hbar : '|' ∉ name.toList := by
      intro hmem
      rw [← h, sanitize, Text.trim, String.toList_ofList] at hmem
      simpa using Text.mem_of_mem_trimChars hmem
    refine ⟨hbar, ?_⟩
    have hfilter : name.toList.filter (· != '|') = name.toList :=
      List.filter_eq_self.2 fun c hc => by
        simpa using fun he : c = '|' => hbar (he ▸ hc)
    rw [Clean, sanitize, hfilter, String.ofList_toList] at h
    exact h
  · rintro ⟨hbar, htrim⟩
    have hfilter : name.toList.filter (· != '|') = name.toList :=
      List.filter_eq_self.2 fun c hc => by
        simpa using fun he : c = '|' => hbar (he ▸ hc)
    rw [Clean, sanitize, hfilter, String.ofList_toList]
    exact htrim

/-- A name is clean when it has no bar in it and neither starts nor ends with a blank. -/
theorem clean_iff_ends {name : String} :
    Clean name ↔ '|' ∉ name.toList ∧ (∀ c ∈ name.toList.head?, Text.isBlank c = false)
      ∧ ∀ c ∈ name.toList.getLast?, Text.isBlank c = false := by
  rw [clean_iff]
  refine and_congr_right fun _ => ⟨fun h => ?_, fun h => ?_⟩
  · have htrim : Text.trimChars name.toList = name.toList := by
      rw [← String.toList_ofList (l := Text.trimChars name.toList)]
      exact congrArg String.toList h
    rw [← htrim]
    exact ⟨Text.head?_trimChars _, Text.getLast?_trimChars _⟩
  · rw [Text.trim, Text.trimChars_eq_self h.1 h.2, String.ofList_toList]

/-- Sanitizing makes a clean name. -/
theorem clean_sanitize (name : String) : Clean (sanitize name) := by
  refine clean_iff.2 ⟨fun hmem => ?_, Text.trim_trim _⟩
  rw [sanitize, Text.trim, String.toList_ofList] at hmem
  simpa using Text.mem_of_mem_trimChars hmem

end Symbol

namespace SExpr

mutual

/-- Are the symbols clean, and do the numbers fit 64 bits? -/
def Clean : SExpr → Prop
  | .number n => n < UInt64.size
  | .symbol s => Symbol.Clean s
  | .list xs => AllClean xs

/-- Are several s-expressions clean? -/
def AllClean : List SExpr → Prop
  | [] => True
  | x :: xs => x.Clean ∧ AllClean xs

end

mutual

/-- Cleanliness can be computed. -/
def decideClean : (x : SExpr) → Decidable x.Clean
  | .number n => inferInstanceAs (Decidable (n < UInt64.size))
  | .symbol s => inferInstanceAs (Decidable (Symbol.Clean s))
  | .list xs => decideAllClean xs

/-- Cleanliness of several s-expressions can be computed. -/
def decideAllClean : (xs : List SExpr) → Decidable (AllClean xs)
  | [] => .isTrue trivial
  | x :: xs => @instDecidableAnd _ _ (decideClean x) (decideAllClean xs)

end

instance : DecidablePred Clean := decideClean

theorem allClean_iff {xs : List SExpr} : AllClean xs ↔ ∀ x ∈ xs, x.Clean := by
  induction xs with
  | nil => simp [AllClean]
  | cons x xs ih => simp [AllClean, ih]

namespace Reader

/-! ## Characters -/

theorem isBareChar_of_isDigit {c : Char} (h : c.isDigit = true) : isBareChar c = true := by
  simp [isBareChar, Symbol.isSimpleChar, Char.isAlphanum, h]

theorem isBareChar_of_isSimpleChar {c : Char} (h : Symbol.isSimpleChar c = true) :
    isBareChar c = true := by
  simp [isBareChar, h]

/-- A character of bare symbols is none that stands for itself. -/
theorem ne_of_isBareChar {c d : Char} (h : isBareChar c = true) (hd : isBareChar d = false) :
    c ≠ d := by
  rintro rfl
  simp [h] at hd

theorem isSeparator_of_isBareChar {c : Char} (h : isBareChar c = true) : isSeparator c = false := by
  simp [isSeparator, ne_of_isBareChar h (d := ' ') (by decide),
    ne_of_isBareChar h (d := '\t') (by decide), ne_of_isBareChar h (d := '\n') (by decide),
    ne_of_isBareChar h (d := '\r') (by decide)]

/-- Letters and digits are printing characters of ASCII. -/
theorem toNat_of_isAlphanum {c : Char} (h : c.isAlphanum = true) : 33 ≤ c.toNat ∧ c.toNat ≤ 126 := by
  rcases Bool.or_eq_true_iff.1 h with halpha | hdigit
  · rcases Bool.or_eq_true_iff.1 halpha with hupper | hlower
    · have hrange : 65 ≤ c.toNat ∧ c.toNat ≤ 90 :=
        of_decide_eq_true (p := c.val ≥ 'A'.val ∧ c.val ≤ 'Z'.val) hupper
      omega
    · obtain ⟨hl, hr⟩ := Bool.and_eq_true_iff.1 hlower
      have hrange : 97 ≤ c.toNat ∧ c.toNat ≤ 122 := ⟨of_decide_eq_true hl, of_decide_eq_true hr⟩
      omega
  · have hrange : 48 ≤ c.toNat ∧ c.toNat ≤ 57 := Char.isDigit_iff_toNat.1 hdigit
    omega

/-- Bare symbols are made of printing characters of ASCII. -/
theorem toNat_of_isBareChar {c : Char} (h : isBareChar c = true) : 33 ≤ c.toNat ∧ c.toNat ≤ 126 := by
  have hpunctuation : ∀ d ∈ Symbol.punctuation, 33 ≤ d.toNat ∧ d.toNat ≤ 126 := by
    simp [Symbol.punctuation]
  simp only [isBareChar, Symbol.isSimpleChar, Bool.or_eq_true, List.contains_iff_mem,
    beq_iff_eq] at h
  rcases h with (((h | h) | rfl) | rfl) | rfl
  · exact toNat_of_isAlphanum h
  · exact hpunctuation c h
  all_goals decide

theorem isBlank_of_isBareChar {c : Char} (h : isBareChar c = true) : Text.isBlank c = false := by
  have hc := toNat_of_isBareChar h
  simp [Text.isBlank, Text.inRanges, Text.blankRanges]
  omega

/-! ## Running over tokens -/

section

variable {r r' : Reader} {c : Char} {cs held : List Char}

theorem run_cons_of_step (h : r.step c = .ok r') : r.run (c :: cs) = r'.run cs := by
  simp only [run, h]

/-- With no token begun, a character is taken as the start of what comes next. -/
theorem step_of_none (h : r.token = .none) : r.step c = r.start c := by
  simp [step, h]

theorem start_of_isBareChar (h : isBareChar c = true) :
    r.start c = .ok { r with token := if c.isDigit then .number [c] else .bare [c] } := by
  simp only [start, isSeparator_of_isBareChar h, ne_of_isBareChar h (d := ';') (by decide),
    ne_of_isBareChar h (d := '|') (by decide), ne_of_isBareChar h (d := '"') (by decide),
    ne_of_isBareChar h (d := '(') (by decide), ne_of_isBareChar h (d := ')') (by decide),
    Bool.false_eq_true, if_false]
  split
  · rfl
  · simp

/-- A token takes all characters that it goes on with. -/
theorem run_held {t : List Char → Token} {p : Char → Prop}
    (hstep : ∀ {r : Reader} {held : List Char} {d : Char}, r.token = t held → p d →
      r.step d = .ok { r with token := t (d :: held) }) :
    ∀ (ds : List Char) {r : Reader} {held : List Char}, (∀ d ∈ ds, p d) → r.token = t held →
      r.run (ds ++ cs) = { r with token := t (ds.reverse ++ held) }.run cs
  | [], r, held, _, h => by
    simp only [List.nil_append, List.reverse_nil, ← h]
  | d :: ds, r, held, hds, h => by
    obtain ⟨hd, hds⟩ := List.forall_mem_cons.1 hds
    rw [List.cons_append, run_cons_of_step (hstep h hd), run_held hstep ds hds rfl]
    simp

/-- A number takes all digits. -/
theorem run_digits (ds : List Char) (hds : ∀ d ∈ ds, d.isDigit = true)
    (h : r.token = .number held) :
    r.run (ds ++ cs) = { r with token := .number (ds.reverse ++ held) }.run cs :=
  run_held (t := .number) (fun h hd => by simp [step, h, hd]) ds hds h

/-- A bare symbol takes all characters that it may be made of. -/
theorem run_bareChars (ds : List Char) (hds : ∀ d ∈ ds, isBareChar d = true)
    (h : r.token = .bare held) :
    r.run (ds ++ cs) = { r with token := .bare (ds.reverse ++ held) }.run cs :=
  run_held (t := .bare) (fun h hd => by simp [step, h, hd]) ds hds h

/-- What stands between bars is taken up to the next bar. -/
theorem run_barred (ds : List Char) (hds : ∀ d ∈ ds, d ≠ '|') (h : r.token = .barred held) :
    r.run (ds ++ cs) = { r with token := .barred (ds.reverse ++ held) }.run cs :=
  run_held (t := .barred) (fun h hd => by simp [step, h, hd]) ds hds h

/-- A character that ends a number or a bare symbol is taken after it. -/
theorem run_of_settle {x : SExpr} (hc : isBareChar c = false)
    (ht : (∃ held, r.token = .number held) ∨ ∃ held, r.token = .bare held)
    (h : r.settle = .ok (r.push x)) : r.run (c :: cs) = (r.push x).run (c :: cs) := by
  have hdigit : c.isDigit = false := by
    by_contra hd
    rw [isBareChar_of_isDigit (by simpa using hd)] at hc
    simp at hc
  -- such a character settles the token first and then starts what comes next
  have hstep : r.step c = (r.push x).step c := by
    rw [step_of_none (r := r.push x) rfl]
    rcases ht with ⟨held, ht⟩ | ⟨held, ht⟩
    · simp only [step, ht, hdigit, h]
      rfl
    · simp only [step, ht, hc, h]
      rfl
  simp only [run, hstep]

end

/-! ## Reading written numbers and symbols -/

/-- The digits of a number give its value back. -/
theorem value_reverse_toDigits (n : Nat) : value (Nat.toDigits 10 n).reverse = n := by
  have h := Nat.ofDigitChars_toDigits (b := 10) (n := n) (by decide) (by decide)
  rw [Nat.ofDigitChars] at h
  rw [value, List.foldr_reverse]
  exact h

theorem run_number {r : Reader} (hr : r.token = .none) {n : Nat} (hn : n < UInt64.size) {c : Char}
    (hc : isBareChar c = false) (cs : List Char) :
    r.run ((toString n).toList ++ c :: cs) = (r.push (.number n)).run (c :: cs) := by
  have hdigits : ∀ d ∈ Nat.toDigits 10 n, d.isDigit = true := fun d hd =>
    Nat.isDigit_of_mem_toDigits (by decide) (by decide) hd
  have hvalue := value_reverse_toDigits n
  rw [Nat.toString_eq_ofList_toDigits, String.toList_ofList]
  obtain ⟨d, ds, hds⟩ := List.exists_cons_of_ne_nil (Nat.toDigits_ne_nil (n := n) (b := 10))
  rw [hds] at hdigits hvalue ⊢
  obtain ⟨hd, hrest⟩ := List.forall_mem_cons.1 hdigits
  have hstep : r.step d = .ok { r with token := .number [d] } := by
    rw [step_of_none hr, start_of_isBareChar (isBareChar_of_isDigit hd), if_pos hd]
  rw [List.cons_append, run_cons_of_step hstep, run_digits ds hrest rfl]
  rw [List.reverse_cons] at hvalue
  refine run_of_settle hc (Or.inl ⟨_, rfl⟩) ?_
  simp only [settle, hvalue, if_pos hn, push]

/-- A name of characters of bare symbols is read as itself, unless a digit comes first. -/
theorem run_bareName {r : Reader} (hr : r.token = .none) {name : String} {d : Char} {ds : List Char}
    (hname : name.toList = d :: ds) (hd : d.isDigit = false)
    (hall : ∀ e ∈ d :: ds, isBareChar e = true) {c : Char} (hc : isBareChar c = false)
    (cs : List Char) :
    r.run (name.toList ++ c :: cs) = (r.push (.symbol name)).run (c :: cs) := by
  obtain ⟨hbare, hrest⟩ := List.forall_mem_cons.1 hall
  have hstep : r.step d = .ok { r with token := .bare [d] } := by
    rw [step_of_none hr, start_of_isBareChar hbare, if_neg (by simp [hd])]
  rw [hname, List.cons_append, run_cons_of_step hstep, run_bareChars ds hrest rfl]
  refine run_of_settle hc (Or.inr ⟨_, rfl⟩) ?_
  simp [settle, push, ← hname]

/-- A name between bars is read as the name, simple or not. -/
theorem run_barredName {r : Reader} (hr : r.token = .none) {name : String}
    (hname : Symbol.Clean name) (cs : List Char) :
    r.run (("|" ++ name ++ "|").toList ++ cs) = (r.push (.symbol name)).run cs := by
  obtain ⟨hbar, htrim⟩ := Symbol.clean_iff.1 hname
  have hlist : ("|" ++ name ++ "|").toList ++ cs = '|' :: (name.toList ++ '|' :: cs) := by simp
  have hopen : r.step '|' = .ok { r with token := .barred [] } := by
    rw [step_of_none hr]
    rfl
  rw [hlist, run_cons_of_step hopen, run_barred name.toList (fun _ hd he => hbar (he ▸ hd)) rfl]
  refine run_cons_of_step ?_
  simp [step, push, htrim]

theorem run_symbol {r : Reader} (hr : r.token = .none) {name : String} (hname : Symbol.Clean name)
    {c : Char} (hc : isBareChar c = false) (cs : List Char) :
    r.run ((Symbol.quote name).toList ++ c :: cs) = (r.push (.symbol name)).run (c :: cs) := by
  cases hsimple : Symbol.isSimple name with
  | true =>
    rw [Symbol.quote_of_isSimple hsimple]
    unfold Symbol.isSimple at hsimple
    split at hsimple
    · simp at hsimple
    · rename_i d ds hds
      simp only [Bool.and_eq_true, Bool.not_eq_true', List.all_eq_true] at hsimple
      obtain ⟨hd, hall⟩ := hsimple
      exact run_bareName hr hds hd (fun e he => isBareChar_of_isSimpleChar (hall e he)) hc cs
  | false =>
    rw [Symbol.quote_of_not_isSimple hsimple]
    exact run_barredName hr hname (c :: cs)

/-! ## Reading clean s-expressions -/

/-- What a token holds, if it was not opened by a double quote. -/
def Token.Clean : Token → Prop
  | .barred held => '|' ∉ held
  | .quoted _ => False
  | .bare held => ∀ c ∈ held, isBareChar c = true
  | _ => True

/-- Everything that the reader holds is clean. -/
structure AllClean (r : Reader) : Prop where
  token : Token.Clean r.token
  items : ∀ x ∈ r.items, x.Clean
  outer : ∀ xs ∈ r.outer, ∀ x ∈ xs, x.Clean

section

variable {r r' : Reader} {c : Char}

theorem AllClean.push {x : SExpr} (hr : r.AllClean) (hx : x.Clean) : (r.push x).AllClean :=
  ⟨trivial, List.forall_mem_cons.2 ⟨hx, hr.items⟩, hr.outer⟩

/-- A name without blanks and bars is clean. -/
theorem clean_of_isBareChar {name : String} (h : ∀ c ∈ name.toList, isBareChar c = true) :
    Symbol.Clean name := by
  have hblank : ∀ c ∈ name.toList, Text.isBlank c = false := fun c hc => isBlank_of_isBareChar (h c hc)
  refine Symbol.clean_iff.2 ⟨fun hmem => absurd (h _ hmem) (by decide), ?_⟩
  rw [Text.trim, Text.trimChars_eq_self, String.ofList_toList]
  · exact fun c hc => hblank c (List.mem_of_mem_head? hc)
  · exact fun c hc => hblank c (List.mem_of_getLast? hc)

theorem clean_bare {held : List Char} (h : ∀ c ∈ held, isBareChar c = true) :
    Symbol.Clean (String.ofList held.reverse) := by
  refine clean_of_isBareChar fun c hc => h c ?_
  rwa [String.toList_ofList, List.mem_reverse] at hc

theorem clean_barred {held : List Char} (h : '|' ∉ held) :
    Symbol.Clean (Text.trim (String.ofList held.reverse)) := by
  refine Symbol.clean_iff.2 ⟨fun hmem => h ?_, Text.trim_trim _⟩
  rw [Text.trim, String.toList_ofList, String.toList_ofList] at hmem
  exact List.mem_reverse.1 (Text.mem_of_mem_trimChars hmem)

theorem AllClean.settle (hr : r.AllClean) (h : r.settle = .ok r') : r'.AllClean := by
  unfold Reader.settle at h
  split at h
  · split at h
    · rename_i hfits
      rw [← Except.ok.inj h]
      exact hr.push hfits
    · simp at h
  · rename_i held ht
    rw [← Except.ok.inj h]
    have htoken := hr.token
    rw [ht] at htoken
    exact hr.push (clean_bare htoken)
  · exact Except.ok.inj h ▸ hr

theorem AllClean.start (hr : r.AllClean) (h : r.start c = .ok r')
    (hquote : ∀ held, r'.token ≠ .quoted held) : r'.AllClean := by
  unfold Reader.start at h
  split at h
  · exact Except.ok.inj h ▸ hr
  split at h
  · exact Except.ok.inj h ▸ ⟨trivial, hr.items, hr.outer⟩
  split at h
  · exact Except.ok.inj h ▸ ⟨List.not_mem_nil, hr.items, hr.outer⟩
  split at h
  · rw [← Except.ok.inj h] at hquote
    exact absurd rfl (hquote [])
  split at h
  · exact Except.ok.inj h ▸ ⟨trivial, by simp, List.forall_mem_cons.2 ⟨hr.items, hr.outer⟩⟩
  split at h
  · split at h
    · simp at h
    · rename_i around outer houter
      have hall := hr.outer
      rw [houter] at hall
      -- a closing parenthesis makes an item of what was held, in the order it was read
      obtain ⟨haround, hrest⟩ := List.forall_mem_cons.1 hall
      rw [← Except.ok.inj h]
      refine ⟨trivial, List.forall_mem_cons.2 ⟨allClean_iff.2 fun x hx => ?_, haround⟩, hrest⟩
      exact hr.items x (List.mem_reverse.1 hx)
  split at h
  · exact Except.ok.inj h ▸ ⟨trivial, hr.items, hr.outer⟩
  split at h
  · rename_i hbare
    exact Except.ok.inj h ▸ ⟨List.forall_mem_singleton.2 hbare, hr.items, hr.outer⟩
  · simp at h

/-- **A step keeps everything clean**, unless it opens a double quote. -/
theorem AllClean.step (hr : r.AllClean) (h : r.step c = .ok r')
    (hquote : ∀ held, r'.token ≠ .quoted held) : r'.AllClean := by
  have htoken := hr.token
  unfold Reader.step at h
  split at h
  · exact hr.start h hquote
  · rw [← Except.ok.inj h]
    split
    · exact ⟨trivial, hr.items, hr.outer⟩
    · exact hr
  · rename_i held ht
    rw [ht] at htoken
    rw [← Except.ok.inj h]
    split
    · exact hr.push (clean_barred htoken)
    · rename_i hbar
      -- within bars anything but a bar is held
      exact ⟨by simpa [Token.Clean, Ne.symm hbar] using htoken, hr.items, hr.outer⟩
  · rename_i held ht
    rw [ht] at htoken
    exact htoken.elim
  · split at h
    · exact Except.ok.inj h ▸ ⟨trivial, hr.items, hr.outer⟩
    · cases hm : r.settle with
      | error e =>
        rw [hm] at h
        cases h
      | ok m =>
        rw [hm] at h
        -- the character ends the token, and then starts what comes next
        exact (hr.settle hm).start h hquote
  · rename_i held ht
    rw [ht] at htoken
    split at h
    · rename_i hbare
      exact Except.ok.inj h ▸ ⟨List.forall_mem_cons.2 ⟨hbare, htoken⟩, hr.items, hr.outer⟩
    · cases hm : r.settle with
      | error e =>
        rw [hm] at h
        cases h
      | ok m =>
        rw [hm] at h
        exact (hr.settle hm).start h hquote

/-- **A run keeps everything clean**, unless it opens a double quote on the way. -/
theorem AllClean.run : ∀ (cs : List Char) {r r' : Reader}, r.AllClean → r.run cs = .ok r' →
    (∀ front, front <+: cs → ∀ m, r.run front = .ok m → ∀ held, m.token ≠ .quoted held) →
    r'.AllClean
  | [], r, r', hr, h, _ => Except.ok.inj h ▸ hr
  | c :: cs, r, r', hr, h, hquote => by
    cases hm : r.step c with
    | error e => simp [Reader.run, hm] at h
    | ok m =>
      rw [run_cons_of_step hm] at h
      -- the readers on the way from `m` on stand one character further on the way from `r` on
      have hfirst := hquote [c] ⟨cs, rfl⟩ m (run_cons_of_step hm)
      refine AllClean.run cs (hr.step hm hfirst) h fun front hfront k hk => ?_
      exact hquote (c :: front) ((List.cons_prefix_cons).2 ⟨rfl, hfront⟩) k
        ((run_cons_of_step hm).trans hk)

end

end Reader

end SExpr

/-- Simple symbols are clean. -/
theorem Symbol.clean_of_isSimple {name : String} (h : Symbol.isSimple name = true) :
    Symbol.Clean name := by
  refine SExpr.Reader.clean_of_isBareChar fun c hc =>
    SExpr.Reader.isBareChar_of_isSimpleChar ?_
  unfold Symbol.isSimple at h
  split at h
  · simp at h
  · rename_i d ds hds
    rw [Bool.and_eq_true, List.all_eq_true] at h
    exact h.2 c (hds ▸ hc)

namespace SExpr

/-- Does the text have a token between double quotes? The reader then stands in one somewhere. -/
def HasQuoted (text : String) : Prop :=
  ∃ front, front <+: text.toList ∧ ∃ r held, Reader.run {} front = .ok r ∧ r.token = .quoted held

/-- Does the reader stand between double quotes after these characters? -/
def endsQuoted (cs : List Char) : Bool :=
  match Reader.run {} cs with
  | .ok { token := .quoted _, .. } => true
  | _ => false

theorem endsQuoted_iff {cs : List Char} :
    endsQuoted cs = true ↔ ∃ r held, Reader.run {} cs = .ok r ∧ r.token = .quoted held := by
  unfold endsQuoted
  split
  · rename_i held items outer h
    exact iff_of_true rfl ⟨_, held, h, rfl⟩
  · rename_i hne
    refine iff_of_false (by simp) ?_
    rintro ⟨⟨_, items, outer⟩, held, h, rfl⟩
    exact hne held items outer h

instance (text : String) : Decidable (HasQuoted text) :=
  decidable_of_iff (∃ front ∈ text.toList.inits, endsQuoted front = true) <| by
    simp only [HasQuoted, List.mem_inits, endsQuoted_iff]

/-- **What is read from a text without double quotes is clean.** -/
theorem clean_readAll {text : String} {xs : List SExpr} (hquoted : ¬ HasQuoted text)
    (h : readAll text = .ok xs) : ∀ x ∈ xs, x.Clean := by
  unfold readAll at h
  dsimp only at h
  split at h
  · simp at h
  · rename_i r hr
    have hstart : Reader.AllClean {} := ⟨trivial, by simp, by simp⟩
    -- no quotation mark is met on the way, so each state that is reached is clean
    have hclean : r.AllClean := hstart.run text.toList hr
      fun front hfront m hm held ht => hquoted ⟨front, hfront, m, held, hm, ht⟩
    split at h
    · simp at h
    · rename_i ys hys
      obtain rfl := Except.ok.inj h
      unfold Reader.finish at hys
      split at hys
      · simp at hys
      · simp at hys
      · cases hm : r.settle with
        | error e =>
          rw [hm] at hys
          cases hys
        | ok m =>
          rw [hm] at hys
          have hm := hclean.settle hm
          change (if m.outer.isEmpty then _ else _) = _ at hys
          split at hys
          · rw [← Except.ok.inj hys]
            exact fun x hx => hm.items x (List.mem_reverse.1 hx)
          · simp at hys

end SExpr

end RelSmt
