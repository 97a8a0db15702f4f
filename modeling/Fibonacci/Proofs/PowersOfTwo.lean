import Mathlib.Algebra.Ring.Parity
import Mathlib.Data.Nat.Fib.Basic
import Mathlib.Data.Nat.Periodic

set_option autoImplicit false

/-! # Powers of two in the unbounded sequence

Which unbounded terms are divisible by which power of two, and with that which terms of the
word sequence vanish.

* Up to `16` this is read off one period: modulo `16` the sequence repeats after 24 terms.
* Beyond, doubling the index doubles the term up to an odd factor (`exists_odd_fib_two_mul`),
  so `2 ^ (k + 2)` divides the term at `n` exactly if `3 * 2 ^ k` divides `n`
  (`two_pow_dvd_fib_iff`).

The first positive index whose term vanishes modulo `2 ^ 32` is therefore `3 * 2 ^ 30`, which is
larger than every word.
-/

namespace Fibonacci

/-! ## The sequence modulo 16 -/

theorem fib_mod_sixteen_periodic : Function.Periodic (fun n => Nat.fib n % 16) 24 := by
  intro n
  have h23 : Nat.fib 23 = 28657 := by decide
  have h24 : Nat.fib 24 = 46368 := by decide
  have hadd : Nat.fib (n + 24) = Nat.fib n * 28657 + Nat.fib (n + 1) * 46368 := by
    have h := Nat.fib_add n 23
    rwa [h23, h24] at h
  show Nat.fib (n + 24) % 16 = Nat.fib n % 16
  rw [hadd]
  omega

/-- Divisibility by a divisor of `16` is decided on one period. -/
theorem dvd_fib_iff_of_period {d e : Nat} (hd : d ∣ 16) (he : e ∣ 24)
    (h : ∀ r < 24, d ∣ Nat.fib r ↔ e ∣ r) (n : Nat) : d ∣ Nat.fib n ↔ e ∣ n :=
  calc d ∣ Nat.fib n
      ↔ d ∣ Nat.fib n % 16 := (Nat.dvd_mod_iff hd).symm
    _ ↔ d ∣ Nat.fib (n % 24) % 16 := by rw [fib_mod_sixteen_periodic.map_mod_nat n]
    _ ↔ d ∣ Nat.fib (n % 24) := Nat.dvd_mod_iff hd
    _ ↔ e ∣ n % 24 := h (n % 24) (Nat.mod_lt n (by decide))
    _ ↔ e ∣ n := Nat.dvd_mod_iff he

theorem two_dvd_fib_iff (n : Nat) : 2 ∣ Nat.fib n ↔ 3 ∣ n :=
  dvd_fib_iff_of_period (by decide) (by decide) (by decide) n

theorem four_dvd_fib_iff (n : Nat) : 4 ∣ Nat.fib n ↔ 6 ∣ n :=
  dvd_fib_iff_of_period (by decide) (by decide) (by decide) n

theorem eight_dvd_fib_iff (n : Nat) : 8 ∣ Nat.fib n ↔ 6 ∣ n :=
  dvd_fib_iff_of_period (by decide) (by decide) (by decide) n

theorem sixteen_dvd_fib_iff (n : Nat) : 16 ∣ Nat.fib n ↔ 12 ∣ n :=
  dvd_fib_iff_of_period (by decide) (by decide) (by decide) n

/-! ## Doubling the index -/

/-- The term at twice a multiple of six is twice the term there, up to an odd factor. -/
theorem exists_odd_fib_two_mul {m : Nat} (h : 6 ∣ m) :
    ∃ c, Odd c ∧ Nat.fib (2 * m) = 2 * (c * Nat.fib m) := by
  obtain ⟨q, hq⟩ := (eight_dvd_fib_iff m).mpr h
  have hodd : ¬ 2 ∣ Nat.fib (m + 1) := by
    rw [two_dvd_fib_iff]
    omega
  have hle : Nat.fib m ≤ Nat.fib (m + 1) := Nat.fib_le_fib_succ
  refine ⟨Nat.fib (m + 1) - 4 * q, ?_, ?_⟩
  · rw [Nat.odd_iff]
    omega
  · have hfactor : 2 * Nat.fib (m + 1) - Nat.fib m = 2 * (Nat.fib (m + 1) - 4 * q) := by omega
    rw [Nat.fib_two_mul, hfactor]
    ring

theorem two_pow_succ_dvd_fib_two_mul_iff {m : Nat} (h : 6 ∣ m) (j : Nat) :
    2 ^ (j + 1) ∣ Nat.fib (2 * m) ↔ 2 ^ j ∣ Nat.fib m := by
  obtain ⟨c, hc, hfib⟩ := exists_odd_fib_two_mul h
  have hcop : Nat.Coprime (2 ^ j) c := Nat.Coprime.pow_left j (Nat.coprime_two_left.mpr hc)
  rw [hfib, pow_succ', Nat.mul_dvd_mul_iff_left (by decide)]
  exact hcop.dvd_mul_left

/-- The common shape of a law for all powers of two: it holds at the first exponent, it asks for a
multiple of twelve beyond, and doubling the index raises the exponent by one. -/
theorem iff_three_mul_two_pow_dvd {P : Nat → Nat → Prop} (base : ∀ n, P 1 n ↔ 6 ∣ n)
    (twelve : ∀ k n, 1 ≤ k → P (k + 1) n → 12 ∣ n)
    (double : ∀ k m, 1 ≤ k → 6 ∣ m → (P (k + 1) (2 * m) ↔ P k m))
    {k : Nat} (hk : 1 ≤ k) (n : Nat) : P k n ↔ 3 * 2 ^ k ∣ n := by
  induction k, hk using Nat.le_induction generalizing n with
  | base => exact base n
  | succ k hk ih =>
      -- both sides need a multiple of twelve, and halving the index takes them to `k`
      by_cases h12 : 12 ∣ n
      · obtain ⟨m, rfl⟩ : 2 ∣ n := dvd_trans (by decide) h12
        have h6 : 6 ∣ m := by omega
        have hpow : 3 * 2 ^ (k + 1) = 2 * (3 * 2 ^ k) := by ring
        rw [double k m hk h6, ih, hpow, Nat.mul_dvd_mul_iff_left (by decide)]
      · have hindex : ¬ 3 * 2 ^ (k + 1) ∣ n := by
          intro h
          have h4 : 3 * 2 ^ 2 ∣ 3 * 2 ^ (k + 1) :=
            Nat.mul_dvd_mul_left 3 (Nat.pow_dvd_pow 2 (by omega))
          exact h12 (dvd_trans h4 h)
        exact iff_of_false (fun h => h12 (twelve k n hk h)) hindex

/-- **The law of the powers of two.** From `8` on, a power of two divides a term exactly if its
fourth part, and three, divide the index. -/
theorem two_pow_dvd_fib_iff {k : Nat} (hk : 1 ≤ k) (n : Nat) :
    2 ^ (k + 2) ∣ Nat.fib n ↔ 3 * 2 ^ k ∣ n := by
  refine iff_three_mul_two_pow_dvd (P := fun k n => 2 ^ (k + 2) ∣ Nat.fib n) ?_ ?_ ?_ hk n
  · exact eight_dvd_fib_iff
  · intro k n hk h
    have h16 : 2 ^ 4 ∣ 2 ^ (k + 1 + 2) := Nat.pow_dvd_pow 2 (by omega)
    exact (sixteen_dvd_fib_iff n).mp (dvd_trans h16 h)
  · intro k m _ h6
    exact two_pow_succ_dvd_fib_two_mul_iff h6 (k + 2)

/-! ## Vanishing terms -/

/-- No term at a positive index below `3 * 2 ^ 30` is divisible by `2 ^ 32`. -/
theorem not_two_pow_dvd_fib {n : Nat} (h0 : n ≠ 0) (h : n < 3 * 2 ^ 30) :
    ¬ 2 ^ 32 ∣ Nat.fib n := by
  rw [two_pow_dvd_fib_iff (k := 30) (by decide)]
  exact Nat.not_dvd_of_pos_of_lt (Nat.pos_of_ne_zero h0) h

end Fibonacci
