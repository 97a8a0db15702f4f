import Fibonacci.Similarity
import Mathlib.Data.List.Nodup
import Mathlib.Data.List.Perm.Subperm

set_option autoImplicit false

/-! # Which positions are matched

The matched pairs of two words are a matching in the usual sense (`IsMatching`): no position of
either word is in two pairs, and a pair holds equal characters that are at most the window apart.
This follows from what a single step of the run guarantees for the position it chooses
(`partner?_eq_some`). A step passes over no position that is free and may be matched
(`exists_partner?_le`), so of two positions that may be matched, one is matched to a position no
later than the other (`exists_mem_matching`).

A matching is an injection between equal characters. Either word therefore bounds the number of
pairs by the number of its characters that occur in the other word
(`IsMatching.length_le_left`, `IsMatching.length_le_right`).
-/

namespace Fibonacci

namespace Similarity

/-- The pairs of positions match equal characters of the two words, at most `w` apart, and no
position of either word twice. -/
structure IsMatching (w : Nat) (a b : List Char) (pairs : List (Nat × Nat)) : Prop where
  nodup_left : (pairs.map Prod.fst).Nodup
  nodup_right : (pairs.map Prod.snd).Nodup
  equal : ∀ p ∈ pairs, ∃ c, a[p.1]? = some c ∧ b[p.2]? = some c
  near : ∀ p ∈ pairs, p.1 ≤ p.2 + w ∧ p.2 ≤ p.1 + w

/-- The two positions may be matched: they hold the same character and are at most `w` apart. -/
def Matchable (w : Nat) (a b : List Char) (i j : Nat) : Prop :=
  (∃ c, a[i]? = some c ∧ b[j]? = some c) ∧ i ≤ j + w ∧ j ≤ i + w

variable {w : Nat} {a b : List Char}

theorem matchable_comm {i j : Nat} : Matchable w a b i j ↔ Matchable w b a j i := by
  unfold Matchable
  simp only [and_comm]

theorem Matchable.lt_length {i j : Nat} (h : Matchable w a b i j) : i < a.length := by
  obtain ⟨⟨c, hLeft, -⟩, -⟩ := h
  exact (List.getElem?_eq_some_iff.mp hLeft).1

theorem Matchable.getElem?_right {i j : Nat} {c : Char} (h : Matchable w a b i j)
    (hletter : a[i]? = some c) : b[j]? = some c := by
  obtain ⟨⟨d, hLeft, hRight⟩, -⟩ := h
  rw [hRight, ← hLeft, hletter]

namespace IsMatching

variable {pairs : List (Nat × Nat)}

theorem left_unique (h : IsMatching w a b pairs) {i i' j : Nat} (hi : (i, j) ∈ pairs)
    (hi' : (i', j) ∈ pairs) : i = i' :=
  congrArg Prod.fst (List.inj_on_of_nodup_map h.nodup_right hi hi' rfl)

theorem right_unique (h : IsMatching w a b pairs) {i j j' : Nat} (hj : (i, j) ∈ pairs)
    (hj' : (i, j') ∈ pairs) : j = j' :=
  congrArg Prod.snd (List.inj_on_of_nodup_map h.nodup_left hj hj' rfl)

theorem matchable (h : IsMatching w a b pairs) {i j : Nat} (hmem : (i, j) ∈ pairs) :
    Matchable w a b i j :=
  ⟨h.equal (i, j) hmem, h.near (i, j) hmem⟩

end IsMatching

/-! ## Steps of the run -/

theorem partner?_eq_some {taken : List Nat} {i j : Nat} {c : Char}
    (h : partner? w b taken i c = some j) :
    b[j]? = some c ∧ (i ≤ j + w ∧ j ≤ i + w) ∧ j ∉ taken := by
  have hfound := List.find?_some h
  simp only [Bool.and_eq_true, decide_eq_true_eq] at hfound
  obtain ⟨⟨⟨hletter, hle⟩, hge⟩, hfree⟩ := hfound
  exact ⟨hletter, ⟨hle, hge⟩, hfree⟩

/-- A free position that `i` may be matched to is passed over only for an earlier one. -/
theorem exists_partner?_le {taken : List Nat} {i j : Nat} {c : Char} (h : Matchable w a b i j)
    (hletter : a[i]? = some c) (hfree : j ∉ taken) :
    ∃ k ≤ j, partner? w b taken i c = some k := by
  have hRight := h.getElem?_right hletter
  obtain ⟨hj, -⟩ := List.getElem?_eq_some_iff.mp hRight
  cases hPartner : partner? w b taken i c with
  | none =>
      have hrefused := List.find?_eq_none.mp hPartner j (List.mem_range.mpr hj)
      simp [hRight, h.2, hfree] at hrefused
  | some k =>
      refine ⟨k, ?_, rfl⟩
      by_contra hk
      obtain ⟨-, -, hearlier⟩ := List.find?_range_eq_some.mp hPartner
      have hrefused := hearlier j (Nat.lt_of_not_le hk)
      simp [hRight, h.2, hfree] at hrefused

theorem matchFrom_cons_of_some {taken : List Nat} {i j : Nat} {c : Char}
    (h : partner? w b taken i c = some j) (rest : List Char) :
    matchFrom w b i taken (c :: rest) = (i, j) :: matchFrom w b (i + 1) (j :: taken) rest := by
  rw [matchFrom, h]

theorem matchFrom_cons_of_none {taken : List Nat} {i : Nat} {c : Char}
    (h : partner? w b taken i c = none) (rest : List Char) :
    matchFrom w b i taken (c :: rest) = matchFrom w b (i + 1) taken rest := by
  rw [matchFrom, h]

/-! ## Runs -/

/-- A matched pair holds a position that is read, counted on from the start, and a position that
was still free. -/
theorem mem_matchFrom {i : Nat} {taken : List Nat} {p : Nat × Nat}
    (h : p ∈ matchFrom w b i taken a) :
    p.2 ∉ taken ∧ (p.1 ≤ p.2 + w ∧ p.2 ≤ p.1 + w) ∧
      ∃ k c, p.1 = i + k ∧ a[k]? = some c ∧ b[p.2]? = some c := by
  induction a generalizing i taken with
  | nil => cases h
  | cons c rest ih =>
      cases hPartner : partner? w b taken i c with
      | none =>
          rw [matchFrom_cons_of_none hPartner] at h
          obtain ⟨hFree, hNear, k, d, hk, hLeft, hRight⟩ := ih h
          exact ⟨hFree, hNear, k + 1, d, by omega, by rwa [List.getElem?_cons_succ], hRight⟩
      | some j =>
          rw [matchFrom_cons_of_some hPartner] at h
          rcases List.mem_cons.mp h with rfl | h
          · obtain ⟨hRight, hNear, hFree⟩ := partner?_eq_some hPartner
            exact ⟨hFree, hNear, 0, c, rfl, List.getElem?_cons_zero, hRight⟩
          · obtain ⟨hFree, hNear, k, d, hk, hLeft, hRight⟩ := ih h
            exact ⟨fun hTaken => hFree (List.mem_cons_of_mem j hTaken), hNear, k + 1, d, by omega,
              by rwa [List.getElem?_cons_succ], hRight⟩

theorem of_drop_eq_cons {i : Nat} {c : Char} {rest : List Char} (h : a.drop i = c :: rest) :
    a[i]? = some c ∧ a.drop (i + 1) = rest := by
  refine ⟨?_, ?_⟩
  · rw [← List.head?_drop, h, List.head?_cons]
  · rw [← List.tail_drop, h, List.tail_cons]

/-- If the run still has two matchable positions before it, either the one that it reads is matched
to a position no later than the other, or the other is taken before. -/
theorem exists_mem_matchFrom {i i' j : Nat} {taken : List Nat} {rest : List Char}
    (hrest : a.drop i = rest) (h : Matchable w a b i' j) (hi : i ≤ i') (hfree : j ∉ taken) :
    (∃ k ≤ j, (i', k) ∈ matchFrom w b i taken rest) ∨
      ∃ k < i', (k, j) ∈ matchFrom w b i taken rest := by
  induction rest generalizing i taken with
  | nil =>
      have hend := List.drop_eq_nil_iff.mp hrest
      have hlt := h.lt_length
      omega
  | cons c rest ih =>
      obtain ⟨hletter, htail⟩ := of_drop_eq_cons hrest
      rcases Nat.eq_or_lt_of_le hi with rfl | hlt
      · obtain ⟨k, hk, hPartner⟩ := exists_partner?_le h hletter hfree
        rw [matchFrom_cons_of_some hPartner]
        exact .inl ⟨k, hk, List.mem_cons_self⟩
      · cases hPartner : partner? w b taken i c with
        | none =>
            rw [matchFrom_cons_of_none hPartner]
            exact ih htail hlt hfree
        | some k =>
            rw [matchFrom_cons_of_some hPartner]
            by_cases hjk : j = k
            · exact .inr ⟨i, hlt, hjk ▸ List.mem_cons_self⟩
            · have hfree' : j ∉ k :: taken := List.not_mem_cons_of_ne_of_not_mem hjk hfree
              rcases ih htail hlt hfree' with ⟨l, hl, hmem⟩ | ⟨l, hl, hmem⟩
              · exact .inl ⟨l, hl, List.mem_cons_of_mem _ hmem⟩
              · exact .inr ⟨l, hl, List.mem_cons_of_mem _ hmem⟩

/-- The positions of the first word are matched in order, to different positions of the second. -/
theorem pairwise_matchFrom (w : Nat) (a b : List Char) (i : Nat) (taken : List Nat) :
    (matchFrom w b i taken a).Pairwise fun p q => p.1 < q.1 ∧ p.2 ≠ q.2 := by
  induction a generalizing i taken with
  | nil => exact List.Pairwise.nil
  | cons c rest ih =>
      cases hPartner : partner? w b taken i c with
      | none =>
          rw [matchFrom_cons_of_none hPartner]
          exact ih (i + 1) taken
      | some j =>
          rw [matchFrom_cons_of_some hPartner]
          refine List.Pairwise.cons ?_ (ih (i + 1) (j :: taken))
          -- what is still to be read is past `i`, and `j` is taken for the rest of the run
          intro q hq
          obtain ⟨hFree, -, k, -, hk, -⟩ := mem_matchFrom hq
          refine ⟨by omega, ?_⟩
          rintro rfl
          exact hFree List.mem_cons_self

/-- The matched pairs are a matching within the window. -/
theorem isMatching_matching (a b : List Char) : IsMatching (window a b) a b (matching a b) where
  nodup_left := List.pairwise_map.mpr
    ((pairwise_matchFrom (window a b) a b 0 []).imp fun h => Nat.ne_of_lt h.1)
  nodup_right := List.pairwise_map.mpr
    ((pairwise_matchFrom (window a b) a b 0 []).imp fun h => h.2)
  equal := by
    intro p hp
    obtain ⟨-, -, k, c, hk, hLeft, hRight⟩ := mem_matchFrom hp
    rw [Nat.zero_add] at hk
    exact ⟨c, hk ▸ hLeft, hRight⟩
  near := fun p hp => (mem_matchFrom hp).2.1

theorem exists_mem_matching {i j : Nat} (h : Matchable (window a b) a b i j) :
    (∃ k ≤ j, (i, k) ∈ matching a b) ∨ ∃ k < i, (k, j) ∈ matching a b :=
  exists_mem_matchFrom List.drop_zero h (Nat.zero_le i) List.not_mem_nil

/-! ## The number of pairs -/

/-- Different positions whose characters satisfy `q` are at most as many as such characters. -/
theorem length_le_countP {s : List Char} {q : Char → Bool} {positions : List Nat}
    (hNodup : positions.Nodup) (h : ∀ i ∈ positions, ∃ c, s[i]? = some c ∧ q c = true) :
    positions.length ≤ s.countP q := by
  have hsub : positions ⊆ (s.zipIdx.filter fun p => q p.1).map Prod.snd := by
    intro i hi
    obtain ⟨c, hc, hq⟩ := h i hi
    have hmem : (c, i) ∈ s.zipIdx := List.mk_mem_zipIdx_iff_getElem?.mpr hc
    exact List.mem_map.mpr ⟨(c, i), List.mem_filter.mpr ⟨hmem, hq⟩, rfl⟩
  calc positions.length
      ≤ ((s.zipIdx.filter fun p => q p.1).map Prod.snd).length :=
        (List.subperm_of_subset hNodup hsub).length_le
    _ = s.zipIdx.countP (q ∘ Prod.fst) := by rw [List.length_map, List.countP_eq_length_filter]; rfl
    _ = s.countP q := by rw [← List.countP_map, List.zipIdx_map_fst]

namespace IsMatching

variable {pairs : List (Nat × Nat)}

/-- Only characters of the first word that occur in the second are matched. -/
theorem length_le_left (h : IsMatching w a b pairs) :
    pairs.length ≤ a.countP fun c => decide (c ∈ b) := by
  rw [← List.length_map (f := Prod.fst)]
  apply length_le_countP h.nodup_left
  intro i hi
  obtain ⟨p, hp, rfl⟩ := List.mem_map.mp hi
  obtain ⟨c, hLeft, hRight⟩ := h.equal p hp
  exact ⟨c, hLeft, decide_eq_true (List.mem_of_getElem? hRight)⟩

/-- Only characters of the second word that occur in the first are matched. -/
theorem length_le_right (h : IsMatching w a b pairs) :
    pairs.length ≤ b.countP fun c => decide (c ∈ a) := by
  rw [← List.length_map (f := Prod.snd)]
  apply length_le_countP h.nodup_right
  intro j hj
  obtain ⟨p, hp, rfl⟩ := List.mem_map.mp hj
  obtain ⟨c, hLeft, hRight⟩ := h.equal p hp
  exact ⟨c, hRight, decide_eq_true (List.mem_of_getElem? hLeft)⟩

end IsMatching

theorem length_matching_le_length (a b : List Char) : (matching a b).length ≤ b.length :=
  Nat.le_trans (isMatching_matching a b).length_le_right List.countP_le_length

end Similarity

end Fibonacci
