import Fibonacci.Proofs.MatchedPositions
import Mathlib.Algebra.Order.Field.Rat
import Mathlib.Tactic.Linarith
import Mathlib.Tactic.Ring

set_option autoImplicit false

/-! # A word that goes on

A word with more characters after it is matched with the word in place: each position finds
itself, since all earlier positions are taken (`matching_append_self`). All of the word is matched
then, and nothing is left for what follows, whatever its characters are. Nothing is transposed, so
the similarity depends on the lengths alone (`similarity_append_self`), and it falls below `7/10`
when the word makes up less than a tenth of the whole.
-/

namespace Fibonacci

namespace Similarity

variable {w : Nat}

/-! ## Matched positions -/

/-- With all earlier positions taken, a position finds itself. -/
theorem partner?_eq_self {p u : List Char} {c : Char} {taken : List Nat}
    (h : ∀ j, j ∈ taken ↔ j < p.length) :
    partner? w (p ++ c :: u) taken p.length c = some p.length := by
  have hFree : p.length ∉ taken := fun hmem => Nat.lt_irrefl _ ((h _).mp hmem)
  rw [partner?, List.find?_range_eq_some]
  refine ⟨?_, ?_, ?_⟩
  · simp [hFree]
  · simp
  · intro j hj
    have hTaken : j ∈ taken := (h j).mpr hj
    simp [hTaken]

/-- With all positions taken, nothing is matched. -/
theorem matchFrom_eq_nil {b s : List Char} {taken : List Nat} (h : ∀ j < b.length, j ∈ taken)
    (i : Nat) : matchFrom w b i taken s = [] := by
  induction s generalizing i with
  | nil => rfl
  | cons c s ih =>
      have hNone : partner? w b taken i c = none := by
        rw [partner?, List.find?_range_eq_none]
        intro j hj
        simp [h j hj]
      rw [matchFrom_cons_of_none hNone, ih]

/-- From any position of the word on, with the earlier ones taken. -/
theorem matchFrom_append_self {p u s : List Char} {taken : List Nat}
    (h : ∀ j, j ∈ taken ↔ j < p.length) :
    matchFrom w (p ++ u) p.length taken (u ++ s)
      = (List.range' p.length u.length).map fun i => (i, i) := by
  induction u generalizing p taken with
  | nil =>
      rw [List.append_nil]
      exact matchFrom_eq_nil (fun j hj => (h j).mpr hj) p.length
  | cons c u ih =>
      have hNext : ∀ j, j ∈ p.length :: taken ↔ j < (p ++ [c]).length := by
        intro j
        rw [List.mem_cons, h, List.length_append, List.length_singleton]
        omega
      have hRest := ih hNext
      rw [List.length_append, List.length_singleton, List.append_assoc, List.singleton_append]
        at hRest
      rw [List.cons_append, matchFrom_cons_of_some (partner?_eq_self h), hRest, List.length_cons,
        List.range'_succ, List.map_cons]

theorem matching_append_self (b s : List Char) :
    matching (b ++ s) b = (List.range b.length).map fun i => (i, i) := by
  rw [List.range_eq_range']
  exact matchFrom_append_self (p := []) (by simp)

/-! ## Matched letters -/

/-- The letters at all positions below a bound are a beginning of the word. -/
theorem lettersAt_eq_take {positions : List Nat} {n : Nat} (h : ∀ i, i ∈ positions ↔ i < n)
    (s : List Char) : lettersAt positions s = s.take n := by
  -- the positions are counted on from an arbitrary start
  have key : ∀ k, ((s.zipIdx k).filter fun p => decide (p.2 ∈ positions)).map Prod.fst
      = s.take (n - k) := by
    induction s with
    | nil => simp
    | cons c s ih =>
        intro k
        rw [List.zipIdx_cons]
        by_cases hk : k < n
        · have hmem : k ∈ positions := (h k).mpr hk
          have hsub : n - k = (n - (k + 1)) + 1 := by omega
          rw [List.filter_cons_of_pos (by simpa using hmem), List.map_cons, ih, hsub,
            List.take_succ_cons]
        · have hmem : k ∉ positions := fun hk' => hk ((h k).mp hk')
          have hzero : n - k = 0 ∧ n - (k + 1) = 0 := by omega
          rw [List.filter_cons_of_neg (by simpa using hmem), ih, hzero.1, hzero.2, List.take_zero,
            List.take_zero]
  exact key 0

theorem lettersLeft_append_self (b s : List Char) : lettersLeft (b ++ s) b = b := by
  rw [lettersLeft, matching_append_self, lettersAt_eq_take (n := b.length) (by simp)]
  exact List.take_left

theorem lettersRight_append_self (b s : List Char) : lettersRight (b ++ s) b = b := by
  rw [lettersRight, matching_append_self, lettersAt_eq_take (n := b.length) (by simp)]
  exact List.take_length

theorem mismatches_append_self (b s : List Char) : mismatches (b ++ s) b = 0 := by
  rw [mismatches, lettersLeft_append_self, lettersRight_append_self, List.countP_eq_zero]
  intro p hp
  obtain ⟨i, hi⟩ := List.mem_iff_getElem?.mp hp
  obtain ⟨hLeft, hRight⟩ := List.getElem?_zip_eq_some.mp hi
  have hsame : p.1 = p.2 := Option.some.inj (hLeft.symm.trans hRight)
  simp [hsame]

theorem transpositions_append_self (b s : List Char) : transpositions (b ++ s) b = 0 := by
  rw [transpositions, mismatches_append_self]

/-- All of the word is matched in place. -/
theorem similarity_append_self {b : List Char} (hb : b ≠ []) (s : List Char) :
    similarity (b ++ s) b = ((b.length : Rat) / (b.length + s.length) + 2) / 3 := by
  have hlength : (matching (b ++ s) b).length = b.length := by
    rw [matching_append_self, List.length_map, List.length_range]
  have hpos : b.length ≠ 0 := fun h => hb (List.eq_nil_of_length_eq_zero h)
  have hcast : (b.length : Rat) ≠ 0 := by exact_mod_cast hpos
  simp only [similarity, hlength, transpositions_append_self, Nat.sub_zero, if_neg hpos,
    List.length_append, Nat.cast_add, div_self hcast]
  ring

/-- The word is at least `7/10` similar as long as it makes up a tenth of the whole. -/
theorem seven_tenths_le_similarity_append_self_iff {b : List Char} (hb : b ≠ []) (s : List Char) :
    7 / 10 ≤ similarity (b ++ s) b ↔ s.length ≤ 9 * b.length := by
  have hpos : (0 : Rat) < b.length + s.length := by
    exact_mod_cast Nat.add_pos_left (List.length_pos_of_ne_nil hb) s.length
  calc 7 / 10 ≤ similarity (b ++ s) b
      ↔ (7 : Rat) / 10 ≤ ((b.length : Rat) / (b.length + s.length) + 2) / 3 := by
        rw [similarity_append_self hb]
    _ ↔ (1 : Rat) / 10 ≤ b.length / (b.length + s.length) := by
        constructor <;> intro h <;> linarith
    _ ↔ (1 : Rat) / 10 * (b.length + s.length) ≤ b.length := le_div_iff₀ hpos
    _ ↔ (s.length : Rat) ≤ 9 * b.length := by
        constructor <;> intro h <;> linarith
    _ ↔ s.length ≤ 9 * b.length := by
        exact_mod_cast Iff.rfl

end Similarity

end Fibonacci
