import Fibonacci.Proofs.Congruence
import Fibonacci.Proofs.Numerals

set_option autoImplicit false

/-! # Equality and the printed forms

An error can be compared as a value, by its message and by its inspected form, and an outcome as a
value and by its inspected form. All these comparisons come to the same. A printed form is a numeral
in a fixed frame, the numeral says one integer only, and the frames of values and of errors begin
with different letters, so nothing is lost in print (`Outcome.inspect_injective`).

Two outcomes are therefore told apart in print exactly where they differ: at negative indices by the
index, at all others by the residue of the unbounded term modulo `2 ^ 32` (`evaluate_eq_iff`).
-/

namespace Fibonacci

/-- Texts in the same frame are equal exactly if they are equal without it. -/
theorem framed_inj (first last : String) {s t : String} :
    first ++ s ++ last = first ++ t ++ last ↔ s = t := by
  rw [String.append_left_inj, String.append_right_inj]

/-! ## Errors -/

namespace IndexError

theorem message_injective : Function.Injective message := by
  rintro ⟨m⟩ ⟨n⟩ h
  have hWrite : Decimal.write m = Decimal.write n := (String.append_right_inj _).mp h
  rw [Decimal.write_injective hWrite]

theorem inspect_injective : Function.Injective inspect := by
  rintro ⟨m⟩ ⟨n⟩ h
  have hWrite : Decimal.write m = Decimal.write n := (framed_inj _ _).mp h
  rw [Decimal.write_injective hWrite]

end IndexError

/-! ## Outcomes -/

namespace Outcome

theorem inspect_ok_ne_inspect_error (v : Int32) (e : IndexError) :
    inspect (.ok v) ≠ inspect (.error e) := by
  intro h
  have hList := congrArg String.toList h
  simp only [inspect, String.toList_append] at hList
  have hFirst : (some 'O' : Option Char) = some 'E' := congrArg List.head? hList
  exact absurd hFirst (by decide)

/-- Outcomes are inspected alike only if they are equal. -/
theorem inspect_injective : Function.Injective inspect := by
  intro x y h
  cases x with
  | ok v =>
      cases y with
      | ok w =>
          have hWrite : Decimal.write v = Decimal.write w := (framed_inj _ _).mp h
          rw [Decimal.write_injective hWrite]
      | error e => exact absurd h (inspect_ok_ne_inspect_error v e)
  | error d =>
      cases y with
      | ok w => exact absurd h.symm (inspect_ok_ne_inspect_error w d)
      | error e =>
          have hInspect : d.inspect = e.inspect := (framed_inj _ _).mp h
          rw [IndexError.inspect_injective hInspect]

end Outcome

/-! ## Evaluated indices -/

/-- Two indices have equal outcomes if they are one negative index, or if neither is negative and
the unbounded terms are congruent. -/
theorem evaluate_eq_iff (a b : Int32) :
    evaluate a = evaluate b ↔
      a < 0 ∧ b < 0 ∧ a = b ∨
      0 ≤ a ∧ 0 ≤ b ∧ Nat.fib a.toNatClampNeg ≡ Nat.fib b.toNatClampNeg [MOD 2 ^ 32] := by
  by_cases ha : 0 ≤ a
  · by_cases hb : 0 ≤ b
    · rw [evaluate_of_nonneg ha, evaluate_of_nonneg hb, Except.ok.injEq, term_eq_ofNat_fib a ha,
        term_eq_ofNat_fib b hb, ofNat_eq_ofNat_iff]
      simp [ha, hb, Int32.not_lt.mpr ha]
    · -- a value and an error, and indices of different signs
      rw [evaluate_of_nonneg ha, evaluate_of_neg hb]
      simp [hb, Int32.not_lt.mpr ha]
  · have hneg : a < 0 := Int32.not_le.mp ha
    by_cases hb : 0 ≤ b
    · rw [evaluate_of_neg ha, evaluate_of_nonneg hb]
      simp [ha, Int32.not_lt.mpr hb]
    · have hneg' : b < 0 := Int32.not_le.mp hb
      rw [evaluate_of_neg ha, evaluate_of_neg hb, Except.error.injEq, IndexError.invalid.injEq]
      simp [ha, hneg, hneg']

/-- **Equality and the printed forms never disagree.** Errors are equal exactly if they carry the
same index, and so are their messages and their inspected forms. The outcomes at two indices are
equal exactly if they are inspected alike: for one and the same negative index, or for two indices
that are not negative and whose unbounded terms are congruent modulo `2 ^ 32`. No value equals an
error or is inspected like one. -/
theorem printed_forms_agree (a b : Int32) :
    ((IndexError.invalid a == IndexError.invalid b) = true ↔ a = b) ∧
    ((IndexError.invalid a).message = (IndexError.invalid b).message ↔ a = b) ∧
    ((IndexError.invalid a).inspect = (IndexError.invalid b).inspect ↔ a = b) ∧
    ((evaluate a == evaluate b) = true ↔ (evaluate a).inspect = (evaluate b).inspect) ∧
    ((evaluate a == evaluate b) = true ↔
      a < 0 ∧ b < 0 ∧ a = b ∨
      0 ≤ a ∧ 0 ≤ b ∧ Nat.fib a.toNatClampNeg ≡ Nat.fib b.toNatClampNeg [MOD 2 ^ 32]) ∧
    ∀ (v : Int32) (e : IndexError),
      ((.ok v : Outcome) == .error e) = false ∧
        Outcome.inspect (.ok v) ≠ Outcome.inspect (.error e) := by
  refine ⟨?_, ?_, ?_, ?_, ?_, ?_⟩
  · rw [beq_iff_eq, IndexError.invalid.injEq]
  · rw [IndexError.message_injective.eq_iff, IndexError.invalid.injEq]
  · rw [IndexError.inspect_injective.eq_iff, IndexError.invalid.injEq]
  · rw [beq_iff_eq, Outcome.inspect_injective.eq_iff]
  · rw [beq_iff_eq, evaluate_eq_iff]
  · intro v e
    exact ⟨beq_eq_false_iff_ne.mpr nofun, Outcome.inspect_ok_ne_inspect_error v e⟩

example : (evaluate (-3)).inspect = "Err(InvalidArgument(-3))" := by
  decide

end Fibonacci
