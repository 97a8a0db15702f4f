import Fibonacci.Similarity
import Mathlib.Algebra.Order.Field.Rat
import Mathlib.Tactic.GCongr
import Mathlib.Tactic.Linarith
import Mathlib.Tactic.Positivity

set_option autoImplicit false

/-! # How similar two words can be

The number of matched pairs bounds the similarity from above, since at best all of them are in
place (`similarity_le`). Read the other way round, words that are similar need many matched pairs
for their lengths (`length_mul_length_le`).
-/

namespace Fibonacci

namespace Similarity

variable {a b : List Char}

theorem similarity_of_zero (h : (matching a b).length = 0) : similarity a b = 0 := if_pos h

theorem similarity_of_ne_zero (h : (matching a b).length ≠ 0) :
    similarity a b = (((matching a b).length : Rat) / a.length
      + ((matching a b).length : Rat) / b.length
      + (((matching a b).length - transpositions a b : Nat) : Rat) / (matching a b).length) / 3 :=
  if_neg h

theorem quotient_le_one {m n : Nat} (h : m ≤ n) : (m : Rat) / n ≤ 1 := by
  apply div_le_one_of_le₀
  · exact_mod_cast h
  · positivity

/-- Few matched pairs make little similarity. -/
theorem similarity_le {m : Nat} (h : (matching a b).length ≤ m) :
    similarity a b ≤ ((m : Rat) / a.length + (m : Rat) / b.length + 1) / 3 := by
  have hpairs : ((matching a b).length : Rat) ≤ m := by exact_mod_cast h
  have hplace := quotient_le_one (Nat.sub_le (matching a b).length (transpositions a b))
  by_cases hzero : (matching a b).length = 0
  · rw [similarity_of_zero hzero]
    positivity
  · rw [similarity_of_ne_zero hzero]
    gcongr

/-- Words that are at least `7/10` similar have many matched pairs for their lengths. -/
theorem length_mul_length_le {m : Nat} (h : 7 / 10 ≤ similarity a b)
    (hm : (matching a b).length ≤ m) :
    11 * (a.length * b.length) ≤ 10 * (m * (a.length + b.length)) := by
  rcases Nat.eq_zero_or_pos a.length with ha | ha
  · simp [ha]
  rcases Nat.eq_zero_or_pos b.length with hb | hb
  · simp [hb]
  have ha' : (0 : Rat) < a.length := by exact_mod_cast ha
  have hb' : (0 : Rat) < b.length := by exact_mod_cast hb
  have hsum : (11 : Rat) / 10 ≤ (m * b.length + a.length * m) / (a.length * b.length) := by
    rw [← div_add_div _ _ ha'.ne' hb'.ne']
    have hle := h.trans (similarity_le hm)
    linarith
  rw [le_div_iff₀ (mul_pos ha' hb')] at hsum
  have hcast : (11 * (a.length * b.length) : Rat) ≤ 10 * (m * (a.length + b.length)) := by
    linarith
  exact_mod_cast hcast

end Similarity

end Fibonacci
