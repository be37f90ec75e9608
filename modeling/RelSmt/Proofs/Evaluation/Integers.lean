import Mathlib.Data.Int.Lemmas
import RelSmt.Proofs.Evaluation.Folding
import RelSmt.Proofs.Evaluation.Scope

/-!
# Integer operators on literals

An operator on two 64-bit integers evaluates to its mathematical result where 64 bits can hold that
result, and fails where they cannot or where the divisor is zero. There is one exception: the lowest
integer has the remainder zero by minus one, which fails all the same, because the quotient computed
along with it is one too large.

The mathematical result is a relation between integers (`Arithmetic.Gives`), with quotient and
remainder as the two numbers that make up the dividend.
-/

namespace RelSmt

/-- Can 64 bits hold the integer? -/
def Holds64 (n : Int) : Prop := -2 ^ 63 ≤ n ∧ n < 2 ^ 63

instance (n : Int) : Decidable (Holds64 n) := inferInstanceAs (Decidable (_ ∧ _))

namespace Arithmetic

/-- What the operator makes of two integers. A remainder is never negative and smaller than the
magnitude of the divisor, so there is nothing to divide by zero. -/
inductive Gives : Arithmetic → Int → Int → Int → Prop
  | plus {a b : Int} : Gives .plus a b (a + b)
  | minus {a b : Int} : Gives .minus a b (a - b)
  | times {a b : Int} : Gives .times a b (a * b)
  | div {a b q r : Int} (ha : r + b * q = a) (hr : 0 ≤ r ∧ r < |b|) : Gives .div a b q
  | mod {a b q r : Int} (ha : r + b * q = a) (hr : 0 ≤ r ∧ r < |b|) : Gives .mod a b r

variable {op : Arithmetic} {a b n : Int}

/-- A remainder leaves no zero divisor. -/
theorem ne_zero_of_lt_abs {r : Int} (hr : 0 ≤ r ∧ r < |b|) : b ≠ 0 :=
  abs_pos.1 (hr.1.trans_lt hr.2)

theorem gives_exactResult (h : ¬ op.DividesByZero b) : op.Gives a b (Term.exactResult op a b) := by
  cases op with
  | plus => exact .plus
  | minus => exact .minus
  | times => exact .times
  | div =>
    obtain ⟨ha, hr⟩ := (Int.ediv_emod_unique'' h).1 ⟨rfl, rfl⟩
    exact .div ha hr
  | mod =>
    obtain ⟨ha, hr⟩ := (Int.ediv_emod_unique'' h).1 ⟨rfl, rfl⟩
    exact .mod ha hr

theorem Gives.not_dividesByZero (h : op.Gives a b n) : ¬ op.DividesByZero b := by
  cases h with
  | plus => exact id
  | minus => exact id
  | times => exact id
  | div _ hr => exact ne_zero_of_lt_abs hr
  | mod _ hr => exact ne_zero_of_lt_abs hr

theorem Gives.eq_exactResult (h : op.Gives a b n) : n = Term.exactResult op a b := by
  cases h with
  | plus => rfl
  | minus => rfl
  | times => rfl
  | div ha hr => exact ((Int.ediv_emod_unique'' (ne_zero_of_lt_abs hr)).2 ⟨ha, hr⟩).1.symm
  | mod ha hr => exact ((Int.ediv_emod_unique'' (ne_zero_of_lt_abs hr)).2 ⟨ha, hr⟩).2.symm

/-! ## What 64 bits can hold -/

/-- Of the quotients of 64-bit integers only that of the lowest one by minus one does not fit. -/
theorem holds64_ediv_iff (ha : Holds64 a) (hb : b ≠ 0) :
    Holds64 (a / b) ↔ ¬ (a = -2 ^ 63 ∧ b = -1) := by
  constructor
  · rintro hquotient ⟨rfl, rfl⟩
    exact absurd hquotient.2 (by decide)
  · intro hlowest
    by_contra hquotient
    -- a quotient is no larger than its dividend, so it can only be one too large
    have hmagnitude := Int.natAbs_ediv_le_natAbs a b
    unfold Holds64 at ha hquotient
    have hlargest : a / b = 2 ^ 63 := by omega
    obtain ⟨hdividend, hremainder⟩ := (Int.ediv_emod_unique'' hb).1 ⟨hlargest, rfl⟩
    rw [Int.abs_eq_natAbs] at hremainder
    omega

/-- A remainder fits as the divisor does. -/
theorem holds64_emod (hb : Holds64 b) (hne : b ≠ 0) : Holds64 (a % b) := by
  have hnonneg := Int.emod_nonneg a hne
  have hlt := Int.emod_lt_abs a hne
  rw [Int.abs_eq_natAbs] at hlt
  unfold Holds64 at hb ⊢
  omega

theorem overflows_iff : op.Overflows a b ↔ ¬ Holds64 (op.computed a b) := by
  rw [Overflows, Holds64, not_and_or, not_le, not_lt]

/-- Is it the remainder that fits although the quotient computed along with it does not? -/
def MissesRemainder (op : Arithmetic) (a b : Int) : Prop := op = .mod ∧ a = -2 ^ 63 ∧ b = -1

theorem Gives.overflows_iff (ha : Holds64 a) (hb : Holds64 b) (h : op.Gives a b n) :
    op.Overflows a b ↔ ¬ Holds64 n ∨ op.MissesRemainder a b := by
  have hzero := h.not_dividesByZero
  rw [Arithmetic.overflows_iff, h.eq_exactResult]
  by_cases hop : op = .mod
  · -- the remainder always fits, and only its quotient may not
    subst hop
    have hquotient : Holds64 (computed .mod a b) ↔ _ := holds64_ediv_iff ha hzero
    have hremainder : Holds64 (Term.exactResult .mod a b) := holds64_emod hb hzero
    rw [hquotient, not_not]
    exact ⟨fun hlowest => Or.inr ⟨rfl, hlowest⟩,
      fun h => (h.resolve_left (not_not_intro hremainder)).2⟩
  · have hcomputed : op.computed a b = Term.exactResult op a b := by
      cases op <;> first | rfl | exact absurd rfl hop
    rw [hcomputed]
    exact ⟨Or.inl, fun h => h.resolve_right fun hmisses => hop hmisses.1⟩

end Arithmetic

/-! ## Evaluation -/

namespace Term

variable {a b : Int}

theorem evaluate_comparison (scope : Scope) (c : Comparison) (a b : Int) :
    evaluate scope (.binary (.comparison c) (.int a) (.int b)) = .ok (.bool (compareInts c a b)) :=
  evaluateWithin_of_forall (fun _ => rfl) _

theorem evaluate_arithmetic (scope : Scope) (op : Arithmetic) (a b : Int) :
    evaluate scope (.binary (.arithmetic op) (.int a) (.int b)) = foldArithmetic op a b :=
  evaluateWithin_of_forall (fun _ => rfl) _

theorem foldArithmetic_eq_ok {op : Arithmetic} {t : Term} : foldArithmetic op a b = .ok t ↔
    ∃ n, op.Gives a b n ∧ ¬ op.Overflows a b ∧ t = .int n := by
  constructor
  · intro hok
    have hnone : ∀ e, ¬ op.Fails a b e := fun e he => by
      rw [foldArithmetic_of_fails he] at hok
      cases hok
    have hzero : ¬ op.DividesByZero b := fun h => hnone _ (.zeroDivisor h)
    have hfits : ¬ op.Overflows a b := fun h => hnone _ (.overflow hzero h)
    rw [foldArithmetic_of_fits hzero hfits] at hok
    exact ⟨_, Arithmetic.gives_exactResult hzero, hfits, (Except.ok.inj hok).symm⟩
  · rintro ⟨n, hgives, hfits, rfl⟩
    rw [hgives.eq_exactResult, foldArithmetic_of_fits hgives.not_dividesByZero hfits]

theorem foldArithmetic_eq_error {op : Arithmetic} {e : Fault} : foldArithmetic op a b = .error e ↔
    ∃ f, op.Fails a b f ∧ e = .evaluation f := by
  constructor
  · intro herror
    by_cases hzero : op.DividesByZero b
    · rw [foldArithmetic_of_fails (.zeroDivisor hzero)] at herror
      exact ⟨_, .zeroDivisor hzero, (Except.error.inj herror).symm⟩
    by_cases hfits : op.Overflows a b
    · rw [foldArithmetic_of_fails (.overflow hzero hfits)] at herror
      exact ⟨_, .overflow hzero hfits, (Except.error.inj herror).symm⟩
    · rw [foldArithmetic_of_fits hzero hfits] at herror
      cases herror
  · rintro ⟨f, hfails, rfl⟩
    exact foldArithmetic_of_fails hfails

/-- **Operators on 64-bit integers are exact.** A comparison holds as it does between integers. An
integer operator has the one value that it gives if 64 bits can hold it, except that the remainder
is missed along with a quotient that does not fit. In all other cases, and in no others, it fails:
by a zero divisor or by an overflow, which is a fault of evaluation either way. -/
theorem evaluate_integers (scope : Scope) (ha : Holds64 a) (hb : Holds64 b) :
    (∀ c, ∃ v, evaluate scope (.binary (.comparison c) (.int a) (.int b)) = .ok (.bool v) ∧
      (v = true ↔ c.Holds a b)) ∧
    ∀ op, (∀ t, evaluate scope (.binary (.arithmetic op) (.int a) (.int b)) = .ok t ↔
        ∃ n, op.Gives a b n ∧ Holds64 n ∧ ¬ op.MissesRemainder a b ∧ t = .int n) ∧
      ∀ e, evaluate scope (.binary (.arithmetic op) (.int a) (.int b)) = .error e ↔
        op.DividesByZero b ∧ e = .evaluation (.zeroDivisor op a) ∨
        (∃ n, op.Gives a b n ∧ (¬ Holds64 n ∨ op.MissesRemainder a b)) ∧
          e = .evaluation (.overflow op a b) := by
  refine ⟨fun c => ⟨_, evaluate_comparison scope c a b, compareInts_iff⟩, fun op => ⟨?_, ?_⟩⟩
  · intro t
    rw [evaluate_arithmetic, foldArithmetic_eq_ok]
    refine exists_congr fun n => and_congr_right fun hgives => ?_
    rw [hgives.overflows_iff ha hb, not_or, not_not, and_assoc]
  · intro e
    rw [evaluate_arithmetic, foldArithmetic_eq_error]
    constructor
    · rintro ⟨f, hzero | ⟨hzero, hoverflows⟩, rfl⟩
      · exact Or.inl ⟨hzero, rfl⟩
      · have hgives := Arithmetic.gives_exactResult (a := a) hzero
        exact Or.inr ⟨⟨_, hgives, (hgives.overflows_iff ha hb).1 hoverflows⟩, rfl⟩
    · rintro (⟨hzero, rfl⟩ | ⟨⟨n, hgives, hmisses⟩, rfl⟩)
      · exact ⟨_, .zeroDivisor hzero, rfl⟩
      · exact ⟨_, .overflow hgives.not_dividesByZero ((hgives.overflows_iff ha hb).2 hmisses), rfl⟩

/-- The lowest integer by minus one leaves the remainder zero, which is missed. -/
theorem evaluate_integers_lowest :
    Holds64 (-2 ^ 63) ∧ Holds64 (-1) ∧ Arithmetic.Gives .mod (-2 ^ 63) (-1) 0 ∧ Holds64 0 ∧
      evaluate {} (.binary (.arithmetic .mod) (.int (-2 ^ 63)) (.int (-1))) =
        .error (.evaluation (.overflow .mod (-2 ^ 63) (-1))) ∧
      evaluate {} (.binary (.arithmetic .plus) (.int (-2 ^ 63)) (.int (-1))) =
        .error (.evaluation (.overflow .plus (-2 ^ 63) (-1))) ∧
      evaluate {} (.binary (.arithmetic .mod) (.int (-7)) (.int (-2))) = .ok (.int 1) := by
  have hlowest : Holds64 (-2 ^ 63) := by decide
  have hone : Holds64 (-1) := by decide
  have hmod : Arithmetic.Gives .mod (-2 ^ 63) (-1) 0 := .mod (q := 2 ^ 63) (by decide) (by decide)
  have hodd : Arithmetic.Gives .mod (-7) (-2) 1 := .mod (q := 4) (by decide) (by decide)
  have hops := (evaluate_integers {} hlowest hone).2
  have hodds := (evaluate_integers {} (a := -7) (b := -2) (by decide) (by decide)).2
  refine ⟨hlowest, hone, hmod, by decide, ?_, ?_, ?_⟩
  · exact ((hops .mod).2 _).2 (Or.inr ⟨⟨0, hmod, Or.inr ⟨rfl, rfl, rfl⟩⟩, rfl⟩)
  · exact ((hops .plus).2 _).2 (Or.inr ⟨⟨_, .plus, Or.inl (by decide)⟩, rfl⟩)
  · exact ((hodds .mod).1 _).2 ⟨1, hodd, by decide, fun h => absurd h.2.1 (by decide), rfl⟩

end Term

end RelSmt
