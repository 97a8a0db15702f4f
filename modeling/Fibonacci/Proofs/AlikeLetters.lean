import Fibonacci.CommandLine.Flag
import Mathlib.Data.List.Forall2

set_option autoImplicit false

/-! # Letters that a similarity tells apart

A similarity compares characters of the first word with characters of the second, and never two
characters of the same word. A character of the first word therefore counts only as equal or not
equal to each letter of the second (`Alike`). Words of alike characters are matched at the same
positions, with the same transpositions, and are equally similar. In particular all characters
that do not occur in the second word may be folded into a single one (`fold`).
-/

namespace Fibonacci

namespace Similarity

/-- The two characters are equal to the same letters of a word. -/
def Alike (b : List Char) (c d : Char) : Prop := ∀ z ∈ b, c = z ↔ d = z

/-! ## Matched positions -/

variable {a a' b : List Char}

theorem partner?_congr {c d : Char} (h : Alike b c d) (w : Nat) (taken : List Nat) (i : Nat) :
    partner? w b taken i c = partner? w b taken i d := by
  have hletter : ∀ j : Nat, b[j]? = some c ↔ b[j]? = some d := by
    intro j
    cases hj : b[j]? with
    | none => simp
    | some z =>
        have hz : c = z ↔ d = z := h z (List.mem_of_getElem? hj)
        rw [Option.some_inj, Option.some_inj, eq_comm, hz, eq_comm]
  simp only [partner?, hletter]

theorem matchFrom_congr (h : List.Forall₂ (Alike b) a a') (w i : Nat) (taken : List Nat) :
    matchFrom w b i taken a = matchFrom w b i taken a' := by
  induction h generalizing i taken with
  | nil => rfl
  | cons hc _ ih => simp only [matchFrom, partner?_congr hc, ih]

theorem matching_congr (h : List.Forall₂ (Alike b) a a') : matching a b = matching a' b := by
  rw [matching, matching, window, window, h.length_eq, matchFrom_congr h]

/-! ## Matched letters -/

theorem lettersAt_forall₂ {R : Char → Char → Prop} {s s' : List Char} (h : List.Forall₂ R s s')
    (positions : List Nat) : List.Forall₂ R (lettersAt positions s) (lettersAt positions s') := by
  -- the positions are counted on from an arbitrary start
  have key : ∀ k, List.Forall₂ R
      (((s.zipIdx k).filter fun p => decide (p.2 ∈ positions)).map Prod.fst)
      (((s'.zipIdx k).filter fun p => decide (p.2 ∈ positions)).map Prod.fst) := by
    induction h with
    | nil => exact fun k => .nil
    | cons hc _ ih =>
        intro k
        by_cases hk : k ∈ positions
        · simp only [List.zipIdx_cons, List.filter_cons, hk, decide_true, if_true, List.map_cons]
          exact .cons hc (ih (k + 1))
        · simp only [List.zipIdx_cons, List.filter_cons, hk, decide_false, Bool.false_eq_true,
            if_false]
          exact ih (k + 1)
  exact key 0

theorem mem_of_mem_lettersAt {positions : List Nat} {s : List Char} {c : Char}
    (h : c ∈ lettersAt positions s) : c ∈ s := by
  obtain ⟨p, hp, rfl⟩ := List.mem_map.mp h
  exact List.fst_mem_of_mem_zipIdx (List.mem_filter.mp hp).1

theorem countP_zip_congr {l l' r : List Char} (h : List.Forall₂ (Alike b) l l') (hr : r ⊆ b) :
    ((l.zip r).countP fun p => decide (p.1 ≠ p.2))
      = (l'.zip r).countP fun p => decide (p.1 ≠ p.2) := by
  induction h generalizing r with
  | nil => rfl
  | @cons c d l l' hc _ ih =>
      cases r with
      | nil => rfl
      | cons z r =>
          obtain ⟨hz, hrest⟩ := List.cons_subset.mp hr
          have hcd : c = z ↔ d = z := hc z hz
          simp only [List.zip_cons_cons, List.countP_cons, ih hrest, ne_eq, hcd]

theorem transpositions_congr (h : List.Forall₂ (Alike b) a a') :
    transpositions a b = transpositions a' b := by
  have hLeft : List.Forall₂ (Alike b) (lettersLeft a b) (lettersLeft a' b) := by
    rw [lettersLeft, lettersLeft, matching_congr h]
    exact lettersAt_forall₂ h _
  have hRight : lettersRight a b = lettersRight a' b := by
    rw [lettersRight, lettersRight, matching_congr h]
  have hsub : lettersRight a' b ⊆ b := fun _ hc => mem_of_mem_lettersAt hc
  rw [transpositions, transpositions, mismatches, mismatches, hRight, countP_zip_congr hLeft hsub]

/-- Words of alike characters are equally similar. -/
theorem similarity_congr (h : List.Forall₂ (Alike b) a a') : similarity a b = similarity a' b := by
  simp only [similarity, matching_congr h, transpositions_congr h, h.length_eq]

/-! ## Characters that do not occur -/

/-- The characters that do not occur in a word, as a single one. -/
def fold (b : List Char) (c : Char) : Char := if c ∈ b then c else '?'

theorem fold_of_mem {c : Char} (h : c ∈ b) : fold b c = c := if_pos h

theorem fold_of_not_mem {c : Char} (h : c ∉ b) : fold b c = '?' := if_neg h

theorem fold_mem (b : List Char) (c : Char) : fold b c ∈ '?' :: b := by
  by_cases h : c ∈ b
  · rw [fold_of_mem h]
    exact List.mem_cons_of_mem '?' h
  · rw [fold_of_not_mem h]
    exact List.mem_cons_self

theorem fold_eq_iff (hb : '?' ∉ b) {z : Char} (hz : z ∈ b) (c : Char) : fold b c = z ↔ c = z := by
  by_cases hc : c ∈ b
  · rw [fold_of_mem hc]
  · have hfold : '?' ≠ z := fun he => hb (he ▸ hz)
    have hcz : c ≠ z := fun he => hc (he ▸ hz)
    rw [fold_of_not_mem hc]
    exact iff_of_false hfold hcz

theorem map_fold_self (b : List Char) : b.map (fold b) = b :=
  calc b.map (fold b)
      = b.map id := List.map_congr_left fun _ hc => fold_of_mem hc
    _ = b := List.map_id b

theorem similarity_map_fold (hb : '?' ∉ b) (a : List Char) :
    similarity (a.map (fold b)) b = similarity a b := by
  have hAlike : List.Forall₂ (Alike b) a (a.map (fold b)) := by
    rw [List.forall₂_map_right_iff, List.forall₂_same]
    intro c _ z hz
    exact (fold_eq_iff hb hz c).symm
  rw [similarity_congr hAlike]

end Similarity

end Fibonacci
