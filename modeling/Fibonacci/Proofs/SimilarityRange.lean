import Fibonacci.Proofs.ContinuedWord
import Fibonacci.Proofs.SimilarityBounds

set_option autoImplicit false

/-! # The similarity lies between zero and one

The matched characters of the two words are the same characters in two orders
(`lettersLeft_perm_lettersRight`). Two orders of the same characters never differ in a single place
(`countP_zip_ne_one`): with all other places equal, what is left over on both sides is equal too.
So halving the mismatches loses none that counts, and without a transposition the two orders agree.

There are no more transpositions than pairs, and no more pairs than characters in either word. Each
of the three quotients of a similarity is therefore between zero and one. If all three are one, both
words are matched throughout and in one order: they are equal (`similarity_eq_one_iff`).
-/

namespace Fibonacci

namespace Similarity

variable {w : Nat} {a b : List Char}

/-! ## Letters at given positions -/

section LettersAt

variable {positions : List Nat} {s : List Char}

/-- The letters of a word at the given positions, each with its position. -/
def placedAt (positions : List Nat) (s : List Char) : List (Char × Nat) :=
  s.zipIdx.filter fun p => decide (p.2 ∈ positions)

theorem lettersAt_eq_map_placedAt (positions : List Nat) (s : List Char) :
    lettersAt positions s = (placedAt positions s).map Prod.fst := rfl

theorem getElem?_of_mem_placedAt {p : Char × Nat} (h : p ∈ placedAt positions s) :
    s[p.2]? = some p.1 :=
  List.mem_zipIdx_iff_getElem?.mp (List.mem_of_mem_filter h)

/-- As many letters as the word has are the whole word. -/
theorem lettersAt_eq_self (h : (lettersAt positions s).length = s.length) :
    lettersAt positions s = s := by
  have hsub : (lettersAt positions s).Sublist (s.zipIdx.map Prod.fst) :=
    List.filter_sublist.map Prod.fst
  rw [List.zipIdx_map_fst] at hsub
  exact hsub.eq_of_length h

variable (hNodup : positions.Nodup) (hlt : ∀ i ∈ positions, i < s.length)

include hNodup hlt

/-- Every given position of the word is taken once, in whatever order they are given. -/
theorem map_snd_placedAt_perm : ((placedAt positions s).map Prod.snd).Perm positions := by
  have hPlaces : ((placedAt positions s).map Prod.snd).Nodup := by
    have hAll : (s.zipIdx.map Prod.snd).Nodup := by
      rw [List.zipIdx_map_snd]
      exact List.nodup_range'
    exact hAll.sublist (List.filter_sublist.map Prod.snd)
  -- neither list repeats a position, so only their members have to be compared
  rw [List.perm_ext_iff_of_nodup hPlaces hNodup]
  intro i
  constructor
  · intro hi
    obtain ⟨p, hp, rfl⟩ := List.mem_map.mp hi
    exact of_decide_eq_true (List.mem_filter.mp hp).2
  · intro hi
    obtain ⟨c, hc⟩ : ∃ c, s[i]? = some c := ⟨_, List.getElem?_eq_getElem (hlt i hi)⟩
    have hmem : (c, i) ∈ s.zipIdx := List.mk_mem_zipIdx_iff_getElem?.mpr hc
    exact List.mem_map.mpr ⟨(c, i), List.mem_filter.mpr ⟨hmem, decide_eq_true hi⟩, rfl⟩

theorem length_lettersAt : (lettersAt positions s).length = positions.length := by
  have hlength := (map_snd_placedAt_perm hNodup hlt).length_eq
  rw [List.length_map] at hlength
  rw [lettersAt_eq_map_placedAt, List.length_map, hlength]

/-- The letters in the order of the word and in the order of the given positions are the same. -/
theorem lettersAt_perm :
    (lettersAt positions s).Perm (positions.filterMap fun i => s[i]?) := by
  have hLetters : lettersAt positions s
      = ((placedAt positions s).map Prod.snd).filterMap fun i => s[i]? := by
    rw [lettersAt_eq_map_placedAt, List.filterMap_map, ← List.filterMap_eq_map]
    exact List.filterMap_congr fun p hp => (getElem?_of_mem_placedAt hp).symm
  rw [hLetters]
  exact (map_snd_placedAt_perm hNodup hlt).filterMap _

end LettersAt

/-! ## Matched letters -/

namespace IsMatching

variable {pairs : List (Nat × Nat)}

theorem left_lt_length (h : IsMatching w a b pairs) : ∀ i ∈ pairs.map Prod.fst, i < a.length := by
  intro i hi
  obtain ⟨p, hp, rfl⟩ := List.mem_map.mp hi
  exact (h.matchable hp).lt_length

theorem right_lt_length (h : IsMatching w a b pairs) : ∀ j ∈ pairs.map Prod.snd, j < b.length := by
  intro j hj
  obtain ⟨p, hp, rfl⟩ := List.mem_map.mp hj
  exact (matchable_comm.mp (h.matchable hp)).lt_length

/-- A matching takes the same letters from both words. -/
theorem letters_perm (h : IsMatching w a b pairs) :
    (lettersAt (pairs.map Prod.fst) a).Perm (lettersAt (pairs.map Prod.snd) b) := by
  have hPairs : (pairs.map Prod.fst).filterMap (fun i => a[i]?)
      = (pairs.map Prod.snd).filterMap fun j => b[j]? := by
    rw [List.filterMap_map, List.filterMap_map]
    refine List.filterMap_congr fun p hp => ?_
    obtain ⟨c, hLeft, hRight⟩ := h.equal p hp
    exact hLeft.trans hRight.symm
  have hLeft := lettersAt_perm h.nodup_left h.left_lt_length
  have hRight := lettersAt_perm h.nodup_right h.right_lt_length
  rw [hPairs] at hLeft
  exact hLeft.trans hRight.symm

end IsMatching

theorem lettersLeft_perm_lettersRight (a b : List Char) :
    (lettersLeft a b).Perm (lettersRight a b) :=
  (isMatching_matching a b).letters_perm

theorem length_lettersLeft (a b : List Char) :
    (lettersLeft a b).length = (matching a b).length := by
  have h := isMatching_matching a b
  rw [lettersLeft, length_lettersAt h.nodup_left h.left_lt_length, List.length_map]

theorem length_lettersRight (a b : List Char) :
    (lettersRight a b).length = (matching a b).length := by
  rw [← length_lettersLeft, (lettersLeft_perm_lettersRight a b).length_eq]

/-! ## Mismatches -/

theorem eq_of_countP_zip_eq_zero {l r : List Char} (hlength : l.length = r.length)
    (h : ((l.zip r).countP fun p => decide (p.1 ≠ p.2)) = 0) : l = r := by
  induction l generalizing r with
  | nil => exact (List.eq_nil_of_length_eq_zero hlength.symm).symm
  | cons c l ih =>
      cases r with
      | nil => cases hlength
      | cons d r =>
          simp only [List.zip_cons_cons, List.countP_cons, Nat.add_eq_zero_iff] at h
          have hcd : c = d := by simpa using h.2
          rw [hcd, ih (Nat.succ.inj hlength) h.1]

/-- Two orders of the same letters do not differ in one place only. -/
theorem countP_zip_ne_one {l r : List Char} (h : l.Perm r) :
    ((l.zip r).countP fun p => decide (p.1 ≠ p.2)) ≠ 1 := by
  induction l generalizing r with
  | nil => simp
  | cons c l ih =>
      cases r with
      | nil => simp
      | cons d r =>
          rw [List.zip_cons_cons, List.countP_cons]
          by_cases hcd : c = d
          · subst hcd
            simpa using ih h.cons_inv
          · -- with equal rests, the two first letters would be left over
            intro hone
            have hzero : ((l.zip r).countP fun p => decide (p.1 ≠ p.2)) = 0 := by
              simpa [hcd] using hone
            have hlength : l.length = r.length := Nat.succ.inj h.length_eq
            obtain rfl := eq_of_countP_zip_eq_zero hlength hzero
            have hcount := h.count_eq c
            rw [List.count_cons_self, List.count_cons_of_ne (Ne.symm hcd)] at hcount
            omega

theorem mismatches_ne_one (a b : List Char) : mismatches a b ≠ 1 :=
  countP_zip_ne_one (lettersLeft_perm_lettersRight a b)

theorem mismatches_le (a b : List Char) : mismatches a b ≤ (matching a b).length :=
  calc mismatches a b
      ≤ ((lettersLeft a b).zip (lettersRight a b)).length := List.countP_le_length
    _ = (matching a b).length := by
        rw [List.length_zip, length_lettersLeft, length_lettersRight, Nat.min_self]

theorem two_mul_transpositions_le (a b : List Char) :
    2 * transpositions a b ≤ (matching a b).length :=
  (Nat.mul_div_le (mismatches a b) 2).trans (mismatches_le a b)

/-- Without a transposition the matched letters are in one order. -/
theorem lettersLeft_eq_lettersRight_of_transpositions (h : transpositions a b = 0) :
    lettersLeft a b = lettersRight a b := by
  -- a single mismatch would be lost in halving, but there is never a single one
  have hone := mismatches_ne_one a b
  have hzero : mismatches a b = 0 := by
    unfold transpositions at h
    omega
  exact eq_of_countP_zip_eq_zero ((lettersLeft_perm_lettersRight a b).length_eq) hzero

/-! ## The similarity -/

theorem length_matching_le_left (a b : List Char) : (matching a b).length ≤ a.length :=
  (isMatching_matching a b).length_le_left.trans List.countP_le_length

/-- A quotient is one only if both its numbers are equal. -/
theorem eq_of_quotient_eq_one {m n : Nat} (h : (m : Rat) / n = 1) : m = n := by
  have hn : (n : Rat) ≠ 0 := by
    intro hzero
    rw [hzero, div_zero] at h
    exact absurd h (by decide)
  exact_mod_cast (div_eq_one_iff_eq hn).mp h

theorem similarity_nonneg (a b : List Char) : 0 ≤ similarity a b := by
  by_cases h : (matching a b).length = 0
  · exact le_of_eq (similarity_of_zero h).symm
  · rw [similarity_of_ne_zero h]
    positivity

theorem similarity_le_one (a b : List Char) : similarity a b ≤ 1 := by
  have hLeft := quotient_le_one (length_matching_le_left a b)
  have hRight := quotient_le_one (length_matching_le_length a b)
  have hle := similarity_le (Nat.le_refl (matching a b).length)
  linarith

theorem similarity_eq_zero_iff (a b : List Char) :
    similarity a b = 0 ↔ (matching a b).length = 0 := by
  constructor
  · intro hzero
    by_contra h
    have hm : 0 < (matching a b).length := Nat.pos_of_ne_zero h
    have ha : 0 < a.length := hm.trans_le (length_matching_le_left a b)
    have hpos : 0 < similarity a b := by
      rw [similarity_of_ne_zero h]
      positivity
    exact absurd hzero hpos.ne'
  · exact similarity_of_zero

theorem similarity_self (h : b ≠ []) : similarity b b = 1 := by
  have hself := similarity_append_self h []
  have hb : (b.length : Rat) ≠ 0 := by exact_mod_cast (List.length_pos_of_ne_nil h).ne'
  rw [List.append_nil, List.length_nil, Nat.cast_zero, add_zero, div_self hb] at hself
  rw [hself]
  norm_num

/-- Words are as similar as can be only if they are equal. -/
theorem eq_of_similarity_eq_one (h : similarity a b = 1) : a = b := by
  have hne : (matching a b).length ≠ 0 := by
    intro hzero
    rw [similarity_of_zero hzero] at h
    exact absurd h (by decide)
  have hLeft := quotient_le_one (length_matching_le_left a b)
  have hRight := quotient_le_one (length_matching_le_length a b)
  have hPlace := quotient_le_one (Nat.sub_le (matching a b).length (transpositions a b))
  rw [similarity_of_ne_zero hne] at h
  -- three quotients of at most one each have the sum three
  have ha : (matching a b).length = a.length := eq_of_quotient_eq_one (by linarith)
  have hb : (matching a b).length = b.length := eq_of_quotient_eq_one (by linarith)
  have ht : (matching a b).length - transpositions a b = (matching a b).length :=
    eq_of_quotient_eq_one (by linarith)
  have hOrder := lettersLeft_eq_lettersRight_of_transpositions (a := a) (b := b) (by omega)
  calc a = lettersLeft a b := (lettersAt_eq_self ((length_lettersLeft a b).trans ha)).symm
    _ = lettersRight a b := hOrder
    _ = b := lettersAt_eq_self ((length_lettersRight a b).trans hb)

theorem similarity_eq_one_iff (h : a ≠ [] ∨ b ≠ []) : similarity a b = 1 ↔ a = b := by
  constructor
  · exact eq_of_similarity_eq_one
  · rintro rfl
    exact similarity_self (or_self_iff.mp h)

/-- **The similarity lies between zero and one.** There are at most as many pairs as characters in
either word. The matched characters of the two words are the same in two orders, which never differ
in one place only. There are at most half as many transpositions as pairs, so that their difference
is not cut off at zero, and if there is a pair, no quotient has the divisor zero. The similarity is
zero exactly if nothing is matched, and one exactly if the words are equal. -/
theorem similarity_between_zero_and_one (a b : List Char) (h : a ≠ [] ∨ b ≠ []) :
    (matching a b).length ≤ min a.length b.length ∧
    ((lettersLeft a b).length = (matching a b).length ∧
      (lettersLeft a b).Perm (lettersRight a b)) ∧
    mismatches a b ≠ 1 ∧
    (2 * transpositions a b ≤ (matching a b).length ∧
      (((matching a b).length - transpositions a b : Nat) : Int)
        = (matching a b).length - transpositions a b) ∧
    (0 < (matching a b).length → 0 < a.length ∧ 0 < b.length) ∧
    (0 ≤ similarity a b ∧ similarity a b ≤ 1) ∧
    (similarity a b = 0 ↔ (matching a b).length = 0) ∧
    (similarity a b = 1 ↔ a = b) := by
  have ha := length_matching_le_left a b
  have hb := length_matching_le_length a b
  have htwo := two_mul_transpositions_le a b
  refine ⟨Nat.le_min.mpr ⟨ha, hb⟩, ⟨length_lettersLeft a b, lettersLeft_perm_lettersRight a b⟩,
    mismatches_ne_one a b, ⟨htwo, by omega⟩, ?_, ⟨similarity_nonneg a b, similarity_le_one a b⟩,
    similarity_eq_zero_iff a b, similarity_eq_one_iff h⟩
  intro hpos
  exact ⟨hpos.trans_le ha, hpos.trans_le hb⟩

/-- Two repeated letters are matched crosswise. -/
theorem similarity_between_crossed :
    (['a', 'b', 'a', 'c'] ≠ [] ∨ ['b', 'a', 'a', 'c'] ≠ []) ∧
    mismatches ['a', 'b', 'a', 'c'] ['b', 'a', 'a', 'c'] = 2 ∧
    2 * transpositions ['a', 'b', 'a', 'c'] ['b', 'a', 'a', 'c']
      ≤ (matching ['a', 'b', 'a', 'c'] ['b', 'a', 'a', 'c']).length ∧
    similarity ['a', 'b', 'a', 'c'] ['b', 'a', 'a', 'c'] ≤ 1 ∧
    similarity ['a', 'b', 'a', 'c'] ['b', 'a', 'a', 'c'] ≠ 1 := by
  have h : ['a', 'b', 'a', 'c'] ≠ [] ∨ ['b', 'a', 'a', 'c'] ≠ [] := by decide
  obtain ⟨-, -, -, ⟨htwo, -⟩, -, ⟨-, hle⟩, -, hOne⟩ := similarity_between_zero_and_one _ _ h
  exact ⟨h, by decide, htwo, hle, fun hone => absurd (hOne.mp hone) (by decide)⟩

end Similarity

end Fibonacci
