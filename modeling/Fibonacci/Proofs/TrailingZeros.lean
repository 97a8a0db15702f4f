import Fibonacci.Proofs.Congruence
import Fibonacci.Proofs.PowersOfTwo
import Mathlib.Data.Nat.Factorization.Basic

set_option autoImplicit false

/-! # Trailing zeros of the terms

How many zero bits end the word at an index. The count follows the index alone: words in which
fewer than 32 low bits are zero keep the power of two of the unbounded term, and that power of
two is known from the index. It never reaches `2 ^ 32` at an index that is a positive word, so
the only index with the term zero is zero.
-/

namespace Fibonacci

/-- The number of zero bits at the low end of a word; `32` for the word zero. -/
def trailingZeros (v : Int32) : Nat := v.toBitVec.ctz.toNat

/-! ## Counting through divisibility -/

/-- The bits of the reduction of `2 ^ k * m` are those of `m`, moved up by `k`. -/
theorem getLsbD_ofNat_two_pow_mul {k m i : Nat} (hi : i < 32) :
    (Int32.ofNat (2 ^ k * m)).toBitVec.getLsbD i = (decide (k ≤ i) && m.testBit (i - k)) := by
  rw [Int32.toBitVec_ofNat', BitVec.getLsbD_ofNat, decide_eq_true hi, Bool.true_and,
    Nat.testBit_two_pow_mul]

/-- The reduction of `2 ^ k` times an odd number ends in `k` zero bits, as long as `k < 32`. -/
theorem trailingZeros_ofNat_two_pow_mul {k m : Nat} (hk : k < 32) (hm : Odd m) :
    trailingZeros (Int32.ofNat (2 ^ k * m)) = k := by
  set v := Int32.ofNat (2 ^ k * m) with hv
  have hSet : v.toBitVec.getLsbD k = true := by
    rw [hv, getLsbD_ofNat_two_pow_mul hk, Nat.sub_self, Nat.testBit_zero, Nat.odd_iff.mp hm]
    simp
  have hNe : v.toBitVec ≠ 0#32 := by
    intro h0
    rw [h0, BitVec.getLsbD_zero] at hSet
    cases hSet
  rcases Nat.lt_trichotomy (trailingZeros v) k with hlt | heq | hgt
  · -- a count below `k` would end at a bit that is not set
    have hUnset : v.toBitVec.getLsbD (trailingZeros v) = false := by
      rw [hv, getLsbD_ofNat_two_pow_mul (Nat.lt_trans hlt hk), decide_eq_false (Nat.not_le.mpr hlt),
        Bool.false_and]
    have hEnd : v.toBitVec.getLsbD (trailingZeros v) = true :=
      BitVec.getLsbD_true_ctz_of_ne_zero hNe
    rw [hUnset] at hEnd
    cases hEnd
  · exact heq
  · -- a count beyond `k` would pass the bit that is set
    have hUnset := BitVec.getLsbD_false_of_lt_ctz hgt
    rw [hSet] at hUnset
    cases hUnset

theorem trailingZeros_ofNat {a k : Nat} (hk : k < 32) (h : 2 ^ k ∣ a) (h' : ¬ 2 ^ (k + 1) ∣ a) :
    trailingZeros (Int32.ofNat a) = k := by
  obtain ⟨m, rfl⟩ := h
  have hm : Odd m := by
    rw [pow_succ, Nat.mul_dvd_mul_iff_left (Nat.two_pow_pos k)] at h'
    exact Nat.not_even_iff_odd.mp fun he => h' he.two_dvd
  exact trailingZeros_ofNat_two_pow_mul hk hm

theorem toNatClampNeg_pos {n : Int32} (h : 1 ≤ n) : 0 < n.toNatClampNeg := by
  have hle := Int32.le_iff_toInt_le.mp h
  rw [show (1 : Int32).toInt = 1 by decide] at hle
  rw [← Int32.toNat_toInt]
  omega

/-- The count of a positive word is the power of two in it. -/
theorem two_pow_trailingZeros_dvd {n : Int32} (h : 1 ≤ n) :
    2 ^ trailingZeros n ∣ n.toNatClampNeg ∧ ¬ 2 ^ (trailingZeros n + 1) ∣ n.toNatClampNeg := by
  have h0 : 0 ≤ n := Int32.le_trans (by decide) h
  obtain ⟨k, m, hm, hkm⟩ := Nat.exists_eq_two_pow_mul_odd (toNatClampNeg_pos h).ne'
  have hpow : 2 ^ k < 2 ^ 31 :=
    calc 2 ^ k ≤ 2 ^ k * m := Nat.le_mul_of_pos_right _ hm.pos
      _ = n.toNatClampNeg := hkm.symm
      _ < 2 ^ 31 := n.toNatClampNeg_lt
  have hk : k < 31 := (Nat.pow_lt_pow_iff_right (by decide)).mp hpow
  have hcount : trailingZeros n = k := by
    rw [← Int32.ofNat_toNatClampNeg n h0, hkm]
    exact trailingZeros_ofNat_two_pow_mul (by omega) hm
  rw [hcount, hkm]
  refine ⟨Nat.dvd_mul_right _ _, ?_⟩
  rw [pow_succ, Nat.mul_dvd_mul_iff_left (Nat.two_pow_pos k)]
  exact fun h2 => Nat.not_even_iff_odd.mpr hm (even_iff_two_dvd.mpr h2)

/-- A multiple of three that fits into a word ends in fewer than 30 zero bits. -/
theorem trailingZeros_lt_thirty {n : Int32} (h : 1 ≤ n) (h3 : 3 ∣ n.toNatClampNeg) :
    trailingZeros n < 30 := by
  have hdvd := (two_pow_trailingZeros_dvd h).1
  have hcop : Nat.Coprime 3 (2 ^ trailingZeros n) := Nat.Coprime.pow_right _ (by decide)
  have hle : 3 * 2 ^ trailingZeros n ≤ n.toNatClampNeg :=
    Nat.le_of_dvd (toNatClampNeg_pos h) (hcop.mul_dvd_of_dvd_of_dvd h3 hdvd)
  have hlt := n.toNatClampNeg_lt
  have hpow : 2 ^ trailingZeros n < 2 ^ 30 := by omega
  exact (Nat.pow_lt_pow_iff_right (by decide)).mp hpow

/-! ## Counts of the terms -/

theorem trailingZeros_fib_of_not_three_dvd {n : Nat} (h : ¬ 3 ∣ n) :
    trailingZeros (Int32.ofNat (Nat.fib n)) = 0 := by
  refine trailingZeros_ofNat (by decide) (one_dvd _) ?_
  intro h2
  exact h ((two_dvd_fib_iff n).mp h2)

theorem trailingZeros_fib_of_mod_six {n : Nat} (h : n % 6 = 3) :
    trailingZeros (Int32.ofNat (Nat.fib n)) = 1 := by
  refine trailingZeros_ofNat (by decide) ((two_dvd_fib_iff n).mpr (by omega)) ?_
  intro h4
  have h6 := (four_dvd_fib_iff n).mp h4
  omega

theorem trailingZeros_fib_of_mod_twelve {n : Nat} (h : n % 12 = 6) :
    trailingZeros (Int32.ofNat (Nat.fib n)) = 3 := by
  refine trailingZeros_ofNat (by decide) ((eight_dvd_fib_iff n).mpr (by omega)) ?_
  intro h16
  have h12 := (sixteen_dvd_fib_iff n).mp h16
  omega

/-- At a multiple of twelve the word has two zero bits more than the index. -/
theorem trailingZeros_fib_of_twelve_dvd {n k : Nat} (h12 : 12 ∣ n) (hk : k < 30)
    (h : 2 ^ k ∣ n) (h' : ¬ 2 ^ (k + 1) ∣ n) :
    trailingZeros (Int32.ofNat (Nat.fib n)) = k + 2 := by
  have hk1 : 1 ≤ k := by
    by_contra h0
    obtain rfl : k = 0 := by omega
    exact h' (dvd_trans (by decide) h12)
  have h3 : 3 ∣ n := dvd_trans (by decide) h12
  have hcop : Nat.Coprime 3 (2 ^ k) := Nat.Coprime.pow_right k (by decide)
  refine trailingZeros_ofNat (by omega) ?_ ?_
  · exact (two_pow_dvd_fib_iff hk1 n).mpr (hcop.mul_dvd_of_dvd_of_dvd h3 h)
  · intro hmore
    have hindex := (two_pow_dvd_fib_iff (k := k + 1) (by omega) n).mp hmore
    exact h' (dvd_trans (Nat.dvd_mul_left _ _) hindex)

/-! ## Vanishing terms -/

theorem ofNat_eq_zero_iff (a : Nat) : Int32.ofNat a = 0 ↔ 2 ^ 32 ∣ a := by
  rw [ofNat_eq_iff_modEq, Int32.toInt_zero, Int.modEq_comm, Int.modEq_zero_iff_dvd]
  exact_mod_cast Iff.rfl

theorem term_eq_zero_iff (n : Int32) (h : 0 ≤ n) : term n h = 0 ↔ n = 0 := by
  constructor
  · intro hz
    by_contra hn
    have hne : n.toNatClampNeg ≠ 0 := by
      intro h0
      rw [← Int32.ofNat_toNatClampNeg n h, h0] at hn
      exact hn rfl
    have hlt := n.toNatClampNeg_lt
    -- a word is below `3 * 2 ^ 30`, the first index at which the unbounded term would vanish
    rw [term_eq_ofNat_fib n h, ofNat_eq_zero_iff] at hz
    exact not_two_pow_dvd_fib hne (by omega) hz
  · rintro rfl
    exact term_zero h

theorem evaluate_eq_ok_zero_iff (n : Int32) : evaluate n = .ok 0 ↔ n = 0 := by
  by_cases h : 0 ≤ n
  · rw [evaluate_of_nonneg h, Except.ok.injEq, term_eq_zero_iff n h]
  · rw [evaluate_of_neg h]
    constructor
    · intro he
      cases he
    · rintro rfl
      exact absurd (by decide) h

/-- **Zero bits of the outcomes.** At a positive index the outcome is a word other than zero.
It is odd if three does not divide the index; otherwise it ends in one zero bit, in three, or in
two more than the index, according to the remainder of the index modulo twelve. -/
theorem evaluate_trailingZeros (n : Int32) :
    (1 ≤ n → ∃ v, evaluate n = .ok v ∧ v ≠ 0 ∧
      (¬ 3 ∣ n.toInt → trailingZeros v = 0) ∧
      (n.toInt % 6 = 3 → trailingZeros v = 1) ∧
      (n.toInt % 12 = 6 → trailingZeros v = 3) ∧
      (12 ∣ n.toInt → trailingZeros v = trailingZeros n + 2)) ∧
    (evaluate n = .ok 0 ↔ n = 0) := by
  refine ⟨?_, evaluate_eq_ok_zero_iff n⟩
  intro h1
  have h : 0 ≤ n := Int32.le_trans (by decide) h1
  have hn0 : n ≠ 0 := by
    rintro rfl
    exact absurd h1 (by decide)
  have hcast : (n.toNatClampNeg : Int) = n.toInt := Int32.cast_toNatClampNeg n h
  refine ⟨term n h, evaluate_of_nonneg h, (term_eq_zero_iff n h).not.mpr hn0, ?_⟩
  rw [term_eq_ofNat_fib n h, ← hcast]
  refine ⟨?_, ?_, ?_, ?_⟩
  · intro h3
    exact trailingZeros_fib_of_not_three_dvd (by omega)
  · intro h6
    exact trailingZeros_fib_of_mod_six (by omega)
  · intro h12
    exact trailingZeros_fib_of_mod_twelve (by omega)
  · intro h12
    obtain ⟨hdvd, hmore⟩ := two_pow_trailingZeros_dvd h1
    have hlt := trailingZeros_lt_thirty h1 (by omega)
    exact trailingZeros_fib_of_twelve_dvd (by omega) hlt hdvd hmore

/-- At `3 * 2 ^ 29` every bit of the term but the highest is zero. -/
theorem evaluate_only_highest_bit :
    (1 : Int32) ≤ 1610612736 ∧ (12 : Int) ∣ (1610612736 : Int32).toInt ∧
      ∃ v, evaluate 1610612736 = .ok v ∧ v ≠ 0 ∧ trailingZeros v = 31 := by
  have h1 : (1 : Int32) ≤ 1610612736 := by decide
  have h12 : (12 : Int) ∣ (1610612736 : Int32).toInt := by decide
  obtain ⟨v, hv, hne, -, -, -, hcount⟩ := (evaluate_trailingZeros 1610612736).1 h1
  have hindex : trailingZeros 1610612736 = 29 :=
    trailingZeros_ofNat_two_pow_mul (k := 29) (m := 3) (by decide) (by decide)
  exact ⟨h1, h12, v, hv, hne, by rw [hcount h12, hindex]⟩

end Fibonacci
