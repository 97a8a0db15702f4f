import Fibonacci.Pair
import Fibonacci.Proofs.Congruence

set_option autoImplicit false

/-! # The loop and fast doubling give the terms

All three ways to a term reduce the unbounded sequence to words, only at different places. The
reduction respects sums, differences and products, so one step of the loop takes the pair of
reduced terms at `n` to the one at `n + 1`, and one doubling takes it to the one at `2 * n`,
although what is multiplied there has been reduced before. Both computations therefore stay on
`Pair.reduced`, and so does the double recursion (`term_eq_ofNat_fib`).
-/

namespace Fibonacci

namespace Pair

/-- The reductions of the unbounded terms at `n` and `n + 1`. -/
def reduced (n : Nat) : Pair := ⟨Int32.ofNat (Nat.fib n), Int32.ofNat (Nat.fib (n + 1))⟩

theorem reduced_zero : reduced 0 = start := rfl

/-! ## One step -/

theorem advance_reduced (n : Nat) : (reduced n).advance = reduced (n + 1) := by
  rw [reduced, reduced, advance, Nat.fib_add_two, Int32.ofNat_add]

theorem double_reduced (n : Nat) : (reduced n).double = reduced (2 * n) := by
  have hle : Nat.fib n ≤ 2 * Nat.fib (n + 1) := by
    have hstep : Nat.fib n ≤ Nat.fib (n + 1) := Nat.fib_le_fib_succ
    omega
  have hcurrent : Int32.ofNat (Nat.fib (2 * n))
      = Int32.ofNat (Nat.fib n)
        * (2 * Int32.ofNat (Nat.fib (n + 1)) - Int32.ofNat (Nat.fib n)) := by
    rw [Nat.fib_two_mul, Int32.ofNat_mul, Int32.ofNat_sub _ _ hle, Int32.ofNat_mul]
    rfl
  have hnext : Int32.ofNat (Nat.fib (2 * n + 1))
      = Int32.ofNat (Nat.fib n) * Int32.ofNat (Nat.fib n)
        + Int32.ofNat (Nat.fib (n + 1)) * Int32.ofNat (Nat.fib (n + 1)) := by
    rw [Nat.fib_two_mul_add_one, Nat.add_comm, pow_two, pow_two, Int32.ofNat_add,
      Int32.ofNat_mul, Int32.ofNat_mul]
  rw [reduced, reduced, double, hcurrent, hnext]

/-! ## Whole runs -/

theorem byLoop_eq_reduced (n : Nat) : byLoop n = reduced n := by
  induction n with
  | zero => rw [byLoop_zero, reduced_zero]
  | succ n ih => rw [byLoop_succ, ih, advance_reduced]

theorem byDoubling_eq_reduced (n : Nat) : byDoubling n = reduced n := by
  induction n using byDoubling.induct with
  | case1 => rw [byDoubling_zero, reduced_zero]
  | case2 n h0 heven ih =>
      have hn : n = 2 * (n / 2) := by omega
      have hhalf : n / 2 ≠ 0 := by omega
      calc byDoubling n
          = byDoubling (2 * (n / 2)) := by rw [← hn]
        _ = (byDoubling (n / 2)).double := byDoubling_two_mul hhalf
        _ = reduced n := by rw [ih, double_reduced, ← hn]
  | case3 n h0 hodd ih =>
      have hn : n = 2 * (n / 2) + 1 := by omega
      calc byDoubling n
          = byDoubling (2 * (n / 2) + 1) := by rw [← hn]
        _ = (byDoubling (n / 2)).double.advance := byDoubling_two_mul_add_one (n / 2)
        _ = reduced n := by rw [ih, double_reduced, advance_reduced, ← hn]

end Pair

/-- The outcome at an index that is not negative, by fast doubling. -/
theorem evaluate_eq_byDoubling {n : Int32} (h : 0 ≤ n) :
    evaluate n = .ok (Pair.byDoubling n.toNatClampNeg).current := by
  rw [evaluate_of_nonneg h, term_eq_ofNat_fib n h, Pair.byDoubling_eq_reduced]
  rfl

theorem evaluate_of_byDoubling {n v : Int32} (h : 0 ≤ n)
    (hv : (Pair.byDoubling n.toNatClampNeg).current = v) : evaluate n = .ok v := by
  rw [evaluate_eq_byDoubling h, hv]

/-- **Three ways to a term.** At every index that is not negative the calls of the double
recursion end, with the word that the loop computes in as many steps as the index says, and
with the word that fast doubling computes from the binary digits of the index. -/
theorem term_eq_byLoop_and_byDoubling (n : Int32) (h : 0 ≤ n) :
    term n h = (Pair.byLoop n.toNatClampNeg).current ∧
    term n h = (Pair.byDoubling n.toNatClampNeg).current ∧
    ∀ v, Returns n v ↔ v = (Pair.byLoop n.toNatClampNeg).current := by
  have hterm : term n h = (Pair.reduced n.toNatClampNeg).current := term_eq_ofNat_fib n h
  rw [Pair.byDoubling_eq_reduced, Pair.byLoop_eq_reduced, ← hterm]
  exact ⟨rfl, rfl, returns_iff h⟩

/-- The term at the largest index, computed by fast doubling. -/
theorem term_largest_index :
    ∃ h : (0 : Int32) ≤ 2147483647, term 2147483647 h = -1070270179 := by
  have h : (0 : Int32) ≤ 2147483647 := by decide
  have hDoubling : (Pair.byDoubling 2147483647).current = -1070270179 := by cbv
  exact ⟨h, (term_eq_byLoop_and_byDoubling 2147483647 h).2.1.trans hDoubling⟩

end Fibonacci
