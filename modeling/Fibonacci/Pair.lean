set_option autoImplicit false

/-! # Pairs of consecutive terms

Two ways to reach the pair of the terms at `n` and `n + 1` without a double recursion. The loop
starts from the pair at `0` and moves on `n` times. Fast doubling reads the binary digits of
`n`, the highest first: each digit doubles the index of the pair, and a digit `1` then moves
on once. The doubling uses

    term (2 k)     = term k * (2 * term (k + 1) - term k),
    term (2 k + 1) = term k * term k + term (k + 1) * term (k + 1).

All sums, differences and products wrap in 32 bits.
-/

namespace Fibonacci

/-- Two consecutive terms. -/
structure Pair where
  current : Int32
  next : Int32
  deriving DecidableEq, Repr

namespace Pair

/-- The terms at `0` and `1`. -/
def start : Pair := ⟨0, 1⟩

/-! ## The loop -/

/-- Moves on by one index. -/
def advance (p : Pair) : Pair := ⟨p.next, p.current + p.next⟩

/-- Moves on by `n` indices. -/
def advanceBy : Nat → Pair → Pair
  | 0, p => p
  | n + 1, p => advanceBy n p.advance

theorem advanceBy_succ (n : Nat) (p : Pair) : advanceBy (n + 1) p = (advanceBy n p).advance := by
  induction n generalizing p with
  | zero => rfl
  | succ n ih => exact ih p.advance

/-- The pair at `n`, by the loop. -/
def byLoop (n : Nat) : Pair := advanceBy n start

theorem byLoop_zero : byLoop 0 = start := rfl

theorem byLoop_succ (n : Nat) : byLoop (n + 1) = (byLoop n).advance := advanceBy_succ n start

/-! ## Fast doubling -/

/-- The pair at twice the index. -/
def double (p : Pair) : Pair :=
  ⟨p.current * (2 * p.next - p.current), p.current * p.current + p.next * p.next⟩

/-- The pair at `n`, by fast doubling. -/
def byDoubling (n : Nat) : Pair :=
  if n = 0 then start
  else
    let p := (byDoubling (n / 2)).double
    if n % 2 = 0 then p else p.advance
termination_by n

theorem byDoubling_zero : byDoubling 0 = start := by
  rw [byDoubling, if_pos rfl]

theorem byDoubling_two_mul {n : Nat} (h : n ≠ 0) :
    byDoubling (2 * n) = (byDoubling n).double := by
  have hn : 2 * n ≠ 0 := by omega
  have hm : 2 * n % 2 = 0 := by omega
  have hd : 2 * n / 2 = n := by omega
  rw [byDoubling, if_neg hn]
  simp only [hm, hd, if_true]

theorem byDoubling_two_mul_add_one (n : Nat) :
    byDoubling (2 * n + 1) = (byDoubling n).double.advance := by
  have hn : 2 * n + 1 ≠ 0 := by omega
  have hm : (2 * n + 1) % 2 ≠ 0 := by omega
  have hd : (2 * n + 1) / 2 = n := by omega
  rw [byDoubling, if_neg hn]
  simp only [hm, hd, if_false]

end Pair

end Fibonacci
