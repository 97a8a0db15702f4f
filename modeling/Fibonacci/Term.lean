set_option autoImplicit false

/-! # Terms of the Fibonacci sequence in 32-bit words

`term n` is the term at the index `n`, computed by the double recursion

    term 0 = 0,   term 1 = 1,   term n = term (n - 2) + term (n - 1).

Indices and terms are signed 32-bit words, and the sum wraps: from the index 47 on the word
holds the term of the unbounded sequence modulo `2 ^ 32`, between `-2 ^ 31` and `2 ^ 31 - 1`.

The recursion has no case of its own for a negative index, so `term` asks for a proof that the
index is not negative. The lemmas before it say why that proof can be passed on: past the two
base cases an index is at least `2`, where both subtractions are exact.
-/

namespace Fibonacci

/-! ## Indices past the base cases -/

theorem two_le_toInt {n : Int32} (h : 0 ≤ n) (h0 : n ≠ 0) (h1 : n ≠ 1) : 2 ≤ n.toInt := by
  have hn : (0 : Int32).toInt ≤ n.toInt := Int32.le_iff_toInt_le.mp h
  have hn0 : n.toInt ≠ 0 := fun e => h0 (Int32.toInt_inj.mp e)
  have hn1 : n.toInt ≠ 1 := fun e => h1 (Int32.toInt_inj.mp e)
  rw [show (0 : Int32).toInt = 0 by decide] at hn
  omega

theorem toInt_sub_two {n : Int32} (h : 2 ≤ n.toInt) : (n - 2).toInt = n.toInt - 2 := by
  have hlt := n.toInt_lt
  rw [Int32.toInt_sub, show (2 : Int32).toInt = 2 by decide]
  exact Int.bmod_eq_of_le (by omega) (by omega)

theorem toInt_sub_one {n : Int32} (h : 2 ≤ n.toInt) : (n - 1).toInt = n.toInt - 1 := by
  have hlt := n.toInt_lt
  rw [Int32.toInt_sub, show (1 : Int32).toInt = 1 by decide]
  exact Int.bmod_eq_of_le (by omega) (by omega)

theorem nonneg_iff {n : Int32} : 0 ≤ n ↔ 0 ≤ n.toInt := by
  rw [Int32.le_iff_toInt_le, show (0 : Int32).toInt = 0 by decide]

theorem sub_two_nonneg {n : Int32} (h : 2 ≤ n.toInt) : 0 ≤ n - 2 := by
  rw [nonneg_iff, toInt_sub_two h]
  omega

theorem sub_one_nonneg {n : Int32} (h : 2 ≤ n.toInt) : 0 ≤ n - 1 := by
  rw [nonneg_iff, toInt_sub_one h]
  omega

/-! ## The double recursion -/

/-- The term at a non-negative index. Nothing is cached: both earlier terms are computed anew. -/
def term (n : Int32) (h : 0 ≤ n) : Int32 :=
  if h0 : n = 0 then 0
  else if h1 : n = 1 then 1
  else
    have h2 : 2 ≤ n.toInt := two_le_toInt h h0 h1
    term (n - 2) (sub_two_nonneg h2) + term (n - 1) (sub_one_nonneg h2)
termination_by n.toInt.toNat
decreasing_by
  · rw [toInt_sub_two h2]
    omega
  · rw [toInt_sub_one h2]
    omega

theorem term_zero (h : (0 : Int32) ≤ 0) : term 0 h = 0 := by
  rw [term, dif_pos rfl]

theorem term_one (h : (0 : Int32) ≤ 1) : term 1 h = 1 := by
  rw [term, dif_neg (by decide), dif_pos rfl]

theorem term_of_two_le {n : Int32} (h : 0 ≤ n) (h2 : 2 ≤ n.toInt) :
    term n h = term (n - 2) (sub_two_nonneg h2) + term (n - 1) (sub_one_nonneg h2) := by
  have h0 : n ≠ 0 := by
    rintro rfl
    exact absurd h2 (by decide)
  have h1 : n ≠ 1 := by
    rintro rfl
    exact absurd h2 (by decide)
  rw [term, dif_neg h0, dif_neg h1]

end Fibonacci
