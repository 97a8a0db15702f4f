import Fibonacci.Call
import Fibonacci.Outcome
import Mathlib.Data.Int.ModEq
import Mathlib.Data.Nat.Fib.Basic

set_option autoImplicit false

/-! # Terms and the unbounded sequence

The unbounded sequence is `Nat.fib`. Reduction of an integer to a word, `Int32.ofInt`, respects
sums, so each wrapped sum of the double recursion is the reduction of the sum of unbounded
terms (`term_eq_ofNat_fib`). The word at an index is therefore the one word that is congruent
to the unbounded term modulo `2 ^ 32`, and it is the unbounded term itself as long as that term
fits into a word, which is up to the index 46.

The calls of the double recursion (`Returns`) end at every index that is not negative, with the
value that `term` computes and no other.
-/

namespace Fibonacci

/-! ## Reduction to words -/

/-- Reduction modulo `2 ^ 32` is the only word in its residue class. -/
theorem ofInt_eq_iff_modEq (a : Int) (w : Int32) :
    Int32.ofInt a = w ↔ w.toInt ≡ a [ZMOD 2 ^ 32] := by
  rw [Int32.ofInt_eq_iff_bmod_eq_toInt]
  constructor
  · intro h
    rw [← h]
    exact Int.bmod_emod
  · intro h
    -- a word is its own balanced remainder, and balanced remainders see only the residue class
    have hw : (w.toInt % (2 ^ 32 : Nat)).bmod (2 ^ 32) = w.toInt := by
      rw [Int.emod_bmod]
      exact w.toInt_bmod
    have ha : w.toInt % (2 ^ 32 : Nat) = a % (2 ^ 32 : Nat) := h
    rw [ha, Int.emod_bmod] at hw
    exact hw

theorem ofNat_eq_iff_modEq (a : Nat) (w : Int32) :
    Int32.ofNat a = w ↔ w.toInt ≡ a [ZMOD 2 ^ 32] := by
  rw [← Int32.ofInt_eq_ofNat, ofInt_eq_iff_modEq]

theorem ofNat_eq_ofNat_iff (a b : Nat) :
    Int32.ofNat a = Int32.ofNat b ↔ a ≡ b [MOD 2 ^ 32] := by
  have hb : (Int32.ofNat b).toInt ≡ b [ZMOD 2 ^ 32] := (ofNat_eq_iff_modEq b _).mp rfl
  rw [ofNat_eq_iff_modEq, Int.modEq_comm, ← Int.natCast_modEq_iff]
  exact ⟨fun h => h.trans hb, fun h => h.trans hb.symm⟩

/-- A natural number is kept by the reduction if it is less than `2 ^ 31`, and only then. -/
theorem toInt_ofNat_eq_self_iff (a : Nat) : (Int32.ofNat a).toInt = a ↔ a < 2 ^ 31 := by
  constructor
  · intro h
    have hlt := (Int32.ofNat a).toInt_lt
    rw [h] at hlt
    omega
  · intro h
    exact Int32.toInt_ofNat_of_lt h

/-! ## Indices as natural numbers -/

theorem toNatClampNeg_of_toInt_eq {n : Int32} {k : Nat} (h : n.toInt = k) :
    n.toNatClampNeg = k := by
  rw [← Int32.toNat_toInt, h, Int.toNat_natCast]

theorem toInt_one_eq : (1 : Int32).toInt = (1 : Nat) := by
  decide

/-- The sum of two indices does not wrap if it is at most the largest word. -/
theorem toInt_add_eq {m n : Int32} {k l : Nat} (hm : m.toInt = k) (hn : n.toInt = l)
    (h : (k + l : Int) ≤ Int32.maxValue.toInt) : (m + n).toInt = (k + l : Nat) := by
  rw [Int32.toInt_maxValue] at h
  rw [Int32.toInt_add, hm, hn, Nat.cast_add]
  exact Int.bmod_eq_of_le (by omega) (by omega)

theorem toNatClampNeg_of_toInt_sub {m n : Int32} {k : Nat} (h : m.toInt = n.toInt - k) :
    m.toNatClampNeg = n.toNatClampNeg - k := by
  rw [← Int32.toNat_toInt, ← Int32.toNat_toInt, h]
  omega

theorem two_le_toNatClampNeg {n : Int32} (h : 2 ≤ n.toInt) : 2 ≤ n.toNatClampNeg := by
  rw [← Int32.toNat_toInt]
  omega

theorem le_iff_toNatClampNeg_le {n : Int32} (h : 0 ≤ n) {k : Int32} (hk : 0 ≤ k) :
    n ≤ k ↔ n.toNatClampNeg ≤ k.toNatClampNeg := by
  have hn := Int32.cast_toNatClampNeg n h
  have hk' := Int32.cast_toNatClampNeg k hk
  rw [Int32.le_iff_toInt_le]
  omega

/-! ## The double recursion -/

/-- A term is the reduction of the unbounded term at the same index. -/
theorem term_eq_ofNat_fib (n : Int32) (h : 0 ≤ n) :
    term n h = Int32.ofNat (Nat.fib n.toNatClampNeg) := by
  induction n, h using term.induct with
  | case1 h => exact term_zero h
  | case2 h _ => exact term_one h
  | case3 n h _ _ h2 ih2 ih1 =>
      -- both subtractions are exact, so the two calls are at the two indices before `n`
      have hsub2 := toNatClampNeg_of_toInt_sub (k := 2) (toInt_sub_two h2)
      have hsub1 := toNatClampNeg_of_toInt_sub (k := 1) (toInt_sub_one h2)
      have hfib : Nat.fib n.toNatClampNeg
          = Nat.fib (n.toNatClampNeg - 2) + Nat.fib (n.toNatClampNeg - 1) := by
        obtain ⟨k, hk⟩ := Nat.exists_eq_add_of_le' (two_le_toNatClampNeg h2)
        rw [hk, Nat.fib_add_two]
        rfl
      calc term n h
          = term (n - 2) (sub_two_nonneg h2) + term (n - 1) (sub_one_nonneg h2) :=
            term_of_two_le h h2
        _ = Int32.ofNat (Nat.fib (n.toNatClampNeg - 2))
              + Int32.ofNat (Nat.fib (n.toNatClampNeg - 1)) := by rw [ih2, ih1, hsub2, hsub1]
        _ = Int32.ofNat (Nat.fib n.toNatClampNeg) := by rw [← Int32.ofNat_add, ← hfib]

/-! ## Calls -/

/-- The call at an index that is not negative ends, with the term at that index. -/
theorem returns_term (n : Int32) (h : 0 ≤ n) : Returns n (term n h) := by
  induction n, h using term.induct with
  | case1 h =>
      rw [term_zero h]
      exact .zero
  | case2 h _ =>
      rw [term_one h]
      exact .one
  | case3 n h h0 h1 h2 ih2 ih1 =>
      rw [term_of_two_le h h2]
      exact .sum h0 h1 ih2 ih1

/-- No call ends with two values. -/
theorem Returns.unique {n v w : Int32} (hv : Returns n v) (hw : Returns n w) : v = w := by
  induction hv generalizing w with
  | zero =>
      cases hw with
      | zero => rfl
      | sum h0 _ _ _ => exact absurd rfl h0
  | one =>
      cases hw with
      | one => rfl
      | sum _ h1 _ _ => exact absurd rfl h1
  | sum h0 h1 _ _ ih2 ih1 =>
      cases hw with
      | zero => exact absurd rfl h0
      | one => exact absurd rfl h1
      | sum _ _ hw2 hw1 => rw [ih2 hw2, ih1 hw1]

theorem returns_iff {n : Int32} (h : 0 ≤ n) (v : Int32) : Returns n v ↔ v = term n h := by
  constructor
  · intro hv
    exact hv.unique (returns_term n h)
  · rintro rfl
    exact returns_term n h

/-! ## The first term that wraps -/

/-- The unbounded terms below `2 ^ 31` are those up to the index 46. -/
theorem fib_lt_two_pow_iff (k : Nat) : Nat.fib k < 2 ^ 31 ↔ k ≤ 46 := by
  constructor
  · intro h
    by_contra hk
    have hle : Nat.fib 47 ≤ Nat.fib k := Nat.fib_mono (by omega)
    have h47 : Nat.fib 47 = 2971215073 := by decide
    omega
  · intro h
    have hle : Nat.fib k ≤ Nat.fib 46 := Nat.fib_mono h
    have h46 : Nat.fib 46 = 1836311903 := by decide
    omega

theorem toInt_term_eq_fib_iff (n : Int32) (h : 0 ≤ n) :
    (term n h).toInt = Nat.fib n.toNatClampNeg ↔ n ≤ 46 := by
  rw [term_eq_ofNat_fib n h]
  calc (Int32.ofNat (Nat.fib n.toNatClampNeg)).toInt = Nat.fib n.toNatClampNeg
      ↔ Nat.fib n.toNatClampNeg < 2 ^ 31 := toInt_ofNat_eq_self_iff _
    _ ↔ n.toNatClampNeg ≤ 46 := fib_lt_two_pow_iff _
    _ ↔ n ≤ 46 := (le_iff_toNatClampNeg_le h (k := 46) (by decide)).symm

/-! ## Outcomes -/

/-- The outcome at an index that is a natural number. -/
theorem evaluate_of_toInt_eq {n : Int32} {k : Nat} (h : n.toInt = k) :
    evaluate n = .ok (Int32.ofNat (Nat.fib k)) := by
  have hn : 0 ≤ n := nonneg_iff.mpr (by omega)
  rw [evaluate_of_nonneg hn, term_eq_ofNat_fib n hn, toNatClampNeg_of_toInt_eq h]

theorem evaluate_isError_iff (n : Int32) : (∃ e, evaluate n = .error e) ↔ n < 0 := by
  constructor
  · rintro ⟨e, he⟩
    by_contra hn
    rw [evaluate_of_nonneg (Int32.not_lt.mp hn)] at he
    cases he
  · intro hn
    exact ⟨.invalid n, evaluate_of_neg (Int32.not_le.mpr hn)⟩

/-- **Evaluation against the unbounded sequence.** An index has an error exactly if it is
negative, and the error carries the index. At every other index the calls of the double
recursion end, with one value, and this value is the outcome: the only word that is congruent
modulo `2 ^ 32` to the unbounded term. It is the unbounded term itself exactly up to 46. -/
theorem evaluate_congruent_fib (n : Int32) :
    ((∃ e, evaluate n = .error e) ↔ n < 0) ∧
    (n < 0 → evaluate n = .error (.invalid n)) ∧
    (0 ≤ n → ∃ v,
      (∀ w, Returns n w ↔ w = v) ∧
      evaluate n = .ok v ∧
      (∀ w : Int32, w.toInt ≡ Nat.fib n.toNatClampNeg [ZMOD 2 ^ 32] ↔ w = v) ∧
      (v.toInt = Nat.fib n.toNatClampNeg ↔ n ≤ 46)) := by
  refine ⟨evaluate_isError_iff n, fun hn => evaluate_of_neg (Int32.not_le.mpr hn), ?_⟩
  intro h
  refine ⟨term n h, returns_iff h, evaluate_of_nonneg h, ?_, toInt_term_eq_fib_iff n h⟩
  intro w
  rw [← ofNat_eq_iff_modEq, ← term_eq_ofNat_fib n h]
  exact eq_comm

/-- The first term that wraps. -/
theorem evaluate_first_wrapped :
    (0 : Int32) ≤ 47 ∧ evaluate 47 = .ok (-1323752223) ∧ Returns 47 (-1323752223) := by
  have h : (0 : Int32) ≤ 47 := by decide
  obtain ⟨v, hReturns, hEvaluate, hUnique, -⟩ := (evaluate_congruent_fib 47).2.2 h
  have hv : (-1323752223 : Int32) = v := (hUnique (-1323752223)).mp (by decide)
  exact ⟨h, hv ▸ hEvaluate, (hReturns _).mpr hv⟩

end Fibonacci
