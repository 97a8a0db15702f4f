import Fibonacci.Proofs.MatchedPositions
import Mathlib.Data.List.Zip
import Mathlib.Data.Prod.Basic

set_option autoImplicit false

/-! # The similarity is symmetric

The run takes the positions of the first word in order and searches the second word. With the words
exchanged it finds the same pairs, written the other way round (`mem_matching_comm`).

The reason is that what the run finds is *settled*: of two matchable positions, one at least is
matched to a position no later than the other. This says the same of both words, and there is only
one settled matching (`IsMatching.mem_iff_of_isSettled`).

Which positions are matched decides about all that a similarity is made of: the matched letters of
either word, in the order of that word, the transpositions between them, and the number of pairs.
-/

namespace Fibonacci

namespace Similarity

variable {w : Nat} {a b : List Char} {pairs pairs' : List (Nat × Nat)}

/-! ## Settled matchings -/

/-- Of two matchable positions, one at least is matched to a position no later than the other. -/
def IsSettled (w : Nat) (a b : List Char) (pairs : List (Nat × Nat)) : Prop :=
  ∀ i j, Matchable w a b i j → (∃ k ≤ j, (i, k) ∈ pairs) ∨ ∃ k ≤ i, (k, j) ∈ pairs

theorem isSettled_matching (a b : List Char) :
    IsSettled (window a b) a b (matching a b) := by
  intro i j h
  rcases exists_mem_matching h with hi | ⟨k, hk, hmem⟩
  · exact .inl hi
  · exact .inr ⟨k, Nat.le_of_lt hk, hmem⟩

/-- A pair of a matching is in every settled one that gives neither of its two positions an earlier
partner, unless the first matching does so too. -/
theorem IsMatching.mem_of_isSettled (h : IsMatching w a b pairs) (hSettled : IsSettled w a b pairs')
    {i j : Nat} (hmem : (i, j) ∈ pairs) (hi : ∀ k < j, (i, k) ∈ pairs' → (i, k) ∈ pairs)
    (hj : ∀ k < i, (k, j) ∈ pairs' → (k, j) ∈ pairs) : (i, j) ∈ pairs' := by
  rcases hSettled i j (h.matchable hmem) with ⟨k, hk, hmem'⟩ | ⟨k, hk, hmem'⟩
  · rcases Nat.eq_or_lt_of_le hk with rfl | hlt
    · exact hmem'
    · exact absurd (h.right_unique (hi k hlt hmem') hmem) (Nat.ne_of_lt hlt)
  · rcases Nat.eq_or_lt_of_le hk with rfl | hlt
    · exact hmem'
    · exact absurd (h.left_unique (hj k hlt hmem') hmem) (Nat.ne_of_lt hlt)

/-- Two settled matchings have the same pairs. -/
theorem IsMatching.mem_iff_of_isSettled (h : IsMatching w a b pairs)
    (hSettled : IsSettled w a b pairs) (h' : IsMatching w a b pairs')
    (hSettled' : IsSettled w a b pairs') (i j : Nat) : (i, j) ∈ pairs ↔ (i, j) ∈ pairs' := by
  -- the pairs that decide about a pair have a smaller sum of positions
  induction hsum : i + j using Nat.strong_induction_on generalizing i j with
  | _ n ih =>
      have hi : ∀ k < j, (i, k) ∈ pairs ↔ (i, k) ∈ pairs' :=
        fun k hk => ih (i + k) (by omega) i k rfl
      have hj : ∀ k < i, (k, j) ∈ pairs ↔ (k, j) ∈ pairs' :=
        fun k hk => ih (k + j) (by omega) k j rfl
      constructor
      · intro hmem
        exact h.mem_of_isSettled hSettled' hmem (fun k hk => (hi k hk).mpr)
          fun k hk => (hj k hk).mpr
      · intro hmem
        exact h'.mem_of_isSettled hSettled hmem (fun k hk => (hi k hk).mp)
          fun k hk => (hj k hk).mp

/-! ## The words exchanged -/

theorem window_comm (a b : List Char) : window a b = window b a := by
  rw [window, window, Nat.max_comm]

theorem mem_map_swap {i j : Nat} : (j, i) ∈ pairs.map Prod.swap ↔ (i, j) ∈ pairs :=
  List.mem_map_of_injective Prod.swap_injective (a := (i, j))

theorem IsMatching.swap (h : IsMatching w a b pairs) : IsMatching w b a (pairs.map Prod.swap) where
  nodup_left := by
    rw [List.map_map]
    exact h.nodup_right
  nodup_right := by
    rw [List.map_map]
    exact h.nodup_left
  equal := fun (j, i) hp => (matchable_comm.mp (h.matchable (mem_map_swap.mp hp))).1
  near := fun (j, i) hp => (matchable_comm.mp (h.matchable (mem_map_swap.mp hp))).2

theorem IsSettled.swap (h : IsSettled w a b pairs) : IsSettled w b a (pairs.map Prod.swap) := by
  intro j i hm
  simp only [mem_map_swap]
  exact (h i j (matchable_comm.mpr hm)).symm

/-- Both ways to read find the same pairs. -/
theorem mem_matching_comm (a b : List Char) (i j : Nat) :
    (i, j) ∈ matching a b ↔ (j, i) ∈ matching b a := by
  have h := (isMatching_matching a b).swap
  have hSettled := (isSettled_matching a b).swap
  rw [window_comm] at h hSettled
  rw [← mem_map_swap]
  exact h.mem_iff_of_isSettled hSettled (isMatching_matching b a) (isSettled_matching b a) j i

theorem matching_perm_swap (a b : List Char) :
    (matching a b).Perm ((matching b a).map Prod.swap) := by
  have hLeft := (isMatching_matching a b).nodup_left.of_map
  have hRight := (isMatching_matching b a).swap.nodup_left.of_map
  rw [List.perm_ext_iff_of_nodup hLeft hRight]
  rintro ⟨i, j⟩
  rw [mem_map_swap, mem_matching_comm]

/-! ## Positions, letters and similarity -/

/-- The matched positions of a word are the same when it is the word that is searched. -/
theorem left_positions_perm (a b : List Char) :
    ((matching a b).map Prod.fst).Perm ((matching b a).map Prod.snd) := by
  have h := (matching_perm_swap a b).map Prod.fst
  rwa [List.map_map] at h

/-- Which positions are given matters, not their order. -/
theorem lettersAt_eq_of_perm {positions positions' : List Nat}
    (h : positions.Perm positions') (s : List Char) :
    lettersAt positions s = lettersAt positions' s := by
  simp only [lettersAt, h.mem_iff]

theorem lettersLeft_eq_lettersRight (a b : List Char) : lettersLeft a b = lettersRight b a :=
  lettersAt_eq_of_perm (left_positions_perm a b) a

theorem mismatches_comm (a b : List Char) : mismatches a b = mismatches b a := by
  rw [mismatches, mismatches, lettersLeft_eq_lettersRight a b, ← lettersLeft_eq_lettersRight b a,
    ← List.zip_swap (lettersLeft b a), List.countP_map]
  refine List.countP_congr fun p _ => ?_
  simp only [Function.comp_apply, Prod.fst_swap, Prod.snd_swap, decide_eq_true_eq]
  exact ne_comm

theorem transpositions_comm (a b : List Char) : transpositions a b = transpositions b a := by
  rw [transpositions, transpositions, mismatches_comm]

theorem length_matching_comm (a b : List Char) :
    (matching a b).length = (matching b a).length := by
  rw [(matching_perm_swap a b).length_eq, List.length_map]

theorem similarity_comm (a b : List Char) : similarity a b = similarity b a := by
  simp only [similarity, length_matching_comm a b, transpositions_comm a b]
  rw [Rat.add_comm (_ / (a.length : Rat))]

/-- **The similarity is symmetric.** Whichever of the two words is read in order, the same pairs
of positions are matched. So the matched positions of either word, the number of pairs, the number
of transpositions and the similarity are the same. -/
theorem similarity_symmetric (a b : List Char) :
    similarity a b = similarity b a ∧
    (∀ i j, (i, j) ∈ matching a b ↔ (j, i) ∈ matching b a) ∧
    (∀ i, i ∈ (matching a b).map Prod.fst ↔ i ∈ (matching b a).map Prod.snd) ∧
    (∀ j, j ∈ (matching a b).map Prod.snd ↔ j ∈ (matching b a).map Prod.fst) ∧
    (matching a b).length = (matching b a).length ∧
    transpositions a b = transpositions b a := by
  refine ⟨similarity_comm a b, mem_matching_comm a b, ?_, ?_, length_matching_comm a b,
    transpositions_comm a b⟩
  · exact fun i => (left_positions_perm a b).mem_iff
  · exact fun j => (left_positions_perm b a).mem_iff.symm

end Similarity

end Fibonacci
