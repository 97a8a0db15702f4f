import Fibonacci.Proofs.LoopAndDoubling
import Mathlib.Data.Int.Fib.Lemmas
import Mathlib.Tactic.LinearCombination

set_option autoImplicit false

/-! # Identities that survive wrapping

The reduction of integers to words respects sums, differences, products and powers. An identity
of the unbounded terms that is built from them is therefore one of the terms in words, whatever
has wrapped on the way. Two such identities relate terms at free indices:

* the addition law gives the term at `m + n + 1` from those at `m` and `n` and at the indices after
  them (`ofNat_fib_add_add_one`);
* the product of the terms at `n + i` and `n + j` differs from that of the terms at `n` and
  `n + i + j` by a number that depends on `n` only in its sign (`ofNat_fib_mul_sub_mul`).

They hold of the outcomes as long as the indices do not wrap.
-/

namespace Fibonacci

/-! ## Differences of products of unbounded terms -/

theorem cast_fib_add_two (k : Nat) :
    (Nat.fib (k + 2) : Int) = Nat.fib k + Nat.fib (k + 1) := by
  rw [Nat.fib_add_two, Nat.cast_add]

/-- The case `i = j = 1` of `fib_mul_sub_mul`: the square of a term and the product of its two
neighbours. -/
theorem fib_succ_mul_self_sub (n : Nat) :
    (Nat.fib (n + 1) : Int) * Nat.fib (n + 1) - Nat.fib n * Nat.fib (n + 2) = (-1) ^ n := by
  have hsub : ((n + 1 : Nat) : Int) - 1 = n := by
    rw [Nat.cast_succ, add_sub_cancel_right]
  have h := Int.fib_succ_mul_fib_pred_sub_fib_sq (n + 1 : Nat)
  rw [← Nat.cast_succ, hsub, Int.natAbs_natCast, pow_succ] at h
  simp only [Int.fib_natCast] at h
  linear_combination -h

/-- The case `i = 1` of `fib_mul_sub_mul`. Both sides satisfy the recurrence in `j`. -/
theorem fib_succ_mul_sub (n j : Nat) :
    (Nat.fib (n + 1) : Int) * Nat.fib (n + j) - Nat.fib n * Nat.fib (n + 1 + j)
      = (-1) ^ n * Nat.fib j := by
  induction j using Nat.twoStepInduction with
  | zero =>
      simp only [Nat.add_zero, Nat.fib_zero, Nat.cast_zero]
      ring
  | one =>
      rw [Nat.fib_one, Nat.cast_one, mul_one]
      exact fib_succ_mul_self_sub n
  | more k ih ih' =>
      have hLeft : (Nat.fib (n + (k + 2)) : Int) = Nat.fib (n + k) + Nat.fib (n + (k + 1)) :=
        cast_fib_add_two (n + k)
      have hRight : (Nat.fib (n + 1 + (k + 2)) : Int)
          = Nat.fib (n + 1 + k) + Nat.fib (n + 1 + (k + 1)) := cast_fib_add_two (n + 1 + k)
      rw [hLeft, hRight, cast_fib_add_two k]
      linear_combination ih + ih'

/-- The products of the terms at `n + i` and `n + j` and at `n` and `n + i + j`. Both sides satisfy
the recurrence in `i`. -/
theorem fib_mul_sub_mul (n i j : Nat) :
    (Nat.fib (n + i) : Int) * Nat.fib (n + j) - Nat.fib n * Nat.fib (n + i + j)
      = (-1) ^ n * Nat.fib i * Nat.fib j := by
  induction i using Nat.twoStepInduction with
  | zero =>
      simp only [Nat.add_zero, Nat.fib_zero, Nat.cast_zero]
      ring
  | one =>
      rw [Nat.fib_one, Nat.cast_one, mul_one]
      exact fib_succ_mul_sub n j
  | more k ih ih' =>
      have hLeft : (Nat.fib (n + (k + 2)) : Int) = Nat.fib (n + k) + Nat.fib (n + (k + 1)) :=
        cast_fib_add_two (n + k)
      have hRight : (Nat.fib (n + (k + 2) + j) : Int)
          = Nat.fib (n + k + j) + Nat.fib (n + (k + 1) + j) := by
        rw [show n + (k + 2) + j = n + k + j + 2 by omega,
          show n + (k + 1) + j = n + k + j + 1 by omega]
        exact cast_fib_add_two (n + k + j)
      rw [hLeft, hRight, cast_fib_add_two k]
      linear_combination ih + ih'

/-! ## Reduction to words -/

theorem ofInt_pow (a : Int) (k : Nat) : Int32.ofInt (a ^ k) = Int32.ofInt a ^ k := by
  induction k with
  | zero => rw [pow_zero, Int32.pow_zero, Int32.ofInt_eq_iff_bmod_eq_toInt]; rfl
  | succ k ih => rw [pow_succ, Int32.ofInt_mul, ih, Int32.pow_succ]

theorem ofNat_fib_add_add_one (m n : Nat) :
    Int32.ofNat (Nat.fib (m + n + 1))
      = Int32.ofNat (Nat.fib m) * Int32.ofNat (Nat.fib n)
        + Int32.ofNat (Nat.fib (m + 1)) * Int32.ofNat (Nat.fib (n + 1)) := by
  rw [Nat.fib_add, Int32.ofNat_add, Int32.ofNat_mul, Int32.ofNat_mul]

theorem ofNat_fib_mul_sub_mul (n i j : Nat) :
    Int32.ofNat (Nat.fib (n + i)) * Int32.ofNat (Nat.fib (n + j))
        - Int32.ofNat (Nat.fib n) * Int32.ofNat (Nat.fib (n + i + j))
      = (-1) ^ n * Int32.ofNat (Nat.fib i) * Int32.ofNat (Nat.fib j) := by
  have h := congrArg Int32.ofInt (fib_mul_sub_mul n i j)
  simp only [Int32.ofInt_sub, Int32.ofInt_mul, ofInt_pow, Int32.ofInt_eq_ofNat] at h
  exact h

/-! ## Identities of outcomes -/

/-- **The addition law in words.** As long as the index `m + n + 1` does not wrap, the outcome
there is the sum of the products of the outcomes at `m` and `n` and at the indices after them,
all of them values. -/
theorem evaluate_add_add_one {m n : Int32} (hm : 0 ≤ m) (hn : 0 ≤ n)
    (h : m.toInt + n.toInt + 1 ≤ Int32.maxValue.toInt) :
    (m + n + 1).toInt = m.toInt + n.toInt + 1 ∧
    ∃ u v u' v', evaluate m = .ok u ∧ evaluate n = .ok v ∧
      evaluate (m + 1) = .ok u' ∧ evaluate (n + 1) = .ok v' ∧
      evaluate (m + n + 1) = .ok (u * v + u' * v') := by
  obtain ⟨k, hk⟩ := Int.eq_ofNat_of_zero_le (nonneg_iff.mp hm)
  obtain ⟨l, hl⟩ := Int.eq_ofNat_of_zero_le (nonneg_iff.mp hn)
  rw [hk, hl] at h ⊢
  have hk' : (m + 1).toInt = (k + 1 : Nat) := toInt_add_eq hk toInt_one_eq (by omega)
  have hl' : (n + 1).toInt = (l + 1 : Nat) := toInt_add_eq hl toInt_one_eq (by omega)
  have hkl : (m + n).toInt = (k + l : Nat) := toInt_add_eq hk hl (by omega)
  have hsum : (m + n + 1).toInt = (k + l + 1 : Nat) := toInt_add_eq hkl toInt_one_eq (by omega)
  refine ⟨by omega, _, _, _, _, evaluate_of_toInt_eq hk, evaluate_of_toInt_eq hl,
    evaluate_of_toInt_eq hk', evaluate_of_toInt_eq hl', ?_⟩
  rw [evaluate_of_toInt_eq hsum, ofNat_fib_add_add_one]

/-- The term at the largest index, from terms near its third and near its two thirds. -/
theorem evaluate_largest_index_as_sum :
    (0 : Int32) ≤ 715827882 ∧ (0 : Int32) ≤ 1431655764 ∧
    (715827882 : Int32).toInt + (1431655764 : Int32).toInt + 1 ≤ Int32.maxValue.toInt ∧
    evaluate 715827882 = .ok 1653652024 ∧ evaluate 1431655764 = .ok 1262903280 ∧
    evaluate 715827883 = .ok (-108174171) ∧ evaluate 1431655765 = .ok (-439828839) ∧
    evaluate 2147483647 = .ok (1653652024 * 1262903280 + -108174171 * -439828839) ∧
    (1653652024 * 1262903280 + -108174171 * -439828839 : Int32) = -1070270179 := by
  have hm : (0 : Int32) ≤ 715827882 := by decide
  have hn : (0 : Int32) ≤ 1431655764 := by decide
  have h : (715827882 : Int32).toInt + (1431655764 : Int32).toInt + 1 ≤ Int32.maxValue.toInt := by
    decide
  have hu : evaluate 715827882 = .ok 1653652024 := evaluate_of_byDoubling hm (by cbv)
  have hv : evaluate 1431655764 = .ok 1262903280 := evaluate_of_byDoubling hn (by cbv)
  have hu' : evaluate 715827883 = .ok (-108174171) :=
    evaluate_of_byDoubling (by decide) (by cbv)
  have hv' : evaluate 1431655765 = .ok (-439828839) :=
    evaluate_of_byDoubling (by decide) (by cbv)
  obtain ⟨-, u, v, u', v', eu, ev, eu', ev', hsum⟩ := evaluate_add_add_one hm hn h
  obtain rfl : 1653652024 = u := Except.ok.inj (hu.symm.trans eu)
  obtain rfl : 1262903280 = v := Except.ok.inj (hv.symm.trans ev)
  obtain rfl : -108174171 = u' := Except.ok.inj (hu'.symm.trans eu')
  obtain rfl : -439828839 = v' := Except.ok.inj (hv'.symm.trans ev')
  exact ⟨hm, hn, h, hu, hv, hu', hv', hsum, by decide⟩

/-- **Differences of products in words.** As long as the index `n + i + j` does not wrap, the
product of the outcomes at `n + i` and `n + j`, less that of the outcomes at `n` and `n + i + j`,
is up to a sign the product of the outcomes at `i` and `j`, all of them values. The sign is that
of `(-1) ^ n`. -/
theorem evaluate_mul_sub_mul {n i j : Int32} (hn : 0 ≤ n) (hi : 0 ≤ i) (hj : 0 ≤ j)
    (h : n.toInt + i.toInt + j.toInt ≤ Int32.maxValue.toInt) :
    (n + i + j).toInt = n.toInt + i.toInt + j.toInt ∧
    ∃ s t u v x y, evaluate (n + i) = .ok s ∧ evaluate (n + j) = .ok t ∧
      evaluate n = .ok u ∧ evaluate (n + i + j) = .ok v ∧
      evaluate i = .ok x ∧ evaluate j = .ok y ∧
      s * t - u * v = (-1) ^ n.toNatClampNeg * x * y := by
  obtain ⟨k, hk⟩ := Int.eq_ofNat_of_zero_le (nonneg_iff.mp hn)
  obtain ⟨l, hl⟩ := Int.eq_ofNat_of_zero_le (nonneg_iff.mp hi)
  obtain ⟨m, hm⟩ := Int.eq_ofNat_of_zero_le (nonneg_iff.mp hj)
  rw [hk, hl, hm] at h ⊢
  have hkl : (n + i).toInt = (k + l : Nat) := toInt_add_eq hk hl (by omega)
  have hkm : (n + j).toInt = (k + m : Nat) := toInt_add_eq hk hm (by omega)
  have hsum : (n + i + j).toInt = (k + l + m : Nat) := toInt_add_eq hkl hm (by omega)
  refine ⟨by omega, _, _, _, _, _, _, evaluate_of_toInt_eq hkl, evaluate_of_toInt_eq hkm,
    evaluate_of_toInt_eq hk, evaluate_of_toInt_eq hsum, evaluate_of_toInt_eq hl,
    evaluate_of_toInt_eq hm, ?_⟩
  rw [toNatClampNeg_of_toInt_eq hk, ofNat_fib_mul_sub_mul]

/-- The square of the term at the largest index but one, against the product of its neighbours. -/
theorem evaluate_square_sub_neighbours :
    (0 : Int32) ≤ 2147483645 ∧ (0 : Int32) ≤ 1 ∧
    (2147483645 : Int32).toInt + (1 : Int32).toInt + (1 : Int32).toInt ≤ Int32.maxValue.toInt ∧
    ∃ s u v, evaluate 2147483646 = .ok s ∧ evaluate 2147483645 = .ok u ∧
      evaluate 2147483647 = .ok v ∧ s * s - u * v = -1 := by
  have hn : (0 : Int32) ≤ 2147483645 := by decide
  have h1 : (0 : Int32) ≤ 1 := by decide
  have h : (2147483645 : Int32).toInt + (1 : Int32).toInt + (1 : Int32).toInt
      ≤ Int32.maxValue.toInt := by
    decide
  obtain ⟨-, s, t, u, v, x, y, hs, ht, hu, hv, hx, hy, hsub⟩ := evaluate_mul_sub_mul hn h1 h1 h
  obtain rfl : s = t := Except.ok.inj (hs.symm.trans ht)
  have hone : evaluate 1 = .ok 1 := evaluate_of_toInt_eq toInt_one_eq
  obtain rfl : 1 = x := Except.ok.inj (hone.symm.trans hx)
  obtain rfl : 1 = y := Except.ok.inj (hone.symm.trans hy)
  have hsign : (-1 : Int32) ^ (2147483645 : Int32).toNatClampNeg = -1 := by
    have hodd : Odd (2147483645 : Int32).toNatClampNeg := by decide
    have hpow := ofInt_pow (-1) (2147483645 : Int32).toNatClampNeg
    rw [hodd.neg_one_pow] at hpow
    exact hpow.symm
  rw [hsign] at hsub
  exact ⟨hn, h1, h, s, u, v, hs, hu, hv, hsub⟩

end Fibonacci
