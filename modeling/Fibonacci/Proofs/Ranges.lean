import Fibonacci.Proofs.LoopAndDoubling
import Mathlib.Data.Int.Interval
import Mathlib.Data.Set.Card

set_option autoImplicit false

/-! # Ranges of outcomes

The outcomes of a range come in the order of their indices, and the negative indices come first: the
list is a block of errors followed by a block of values (`evaluateRange_eq_append`). Either block may
be empty. The positions are natural numbers, so neither the largest word at the end of a range nor a
range with more entries than a word can count is a special case.

Each value of a block is the difference of the terms after and before the next one, so the values of
a block add up to a difference of two terms, in words as in unbounded numbers
(`total_valuesFrom_add`).
-/

namespace Fibonacci

/-! ## Wrapped sums -/

/-- The wrapped sum of the values among some outcomes. Errors add nothing. -/
def total : List Outcome → Int32
  | [] => 0
  | .ok v :: outcomes => v + total outcomes
  | .error _ :: outcomes => total outcomes

theorem total_append (xs ys : List Outcome) : total (xs ++ ys) = total xs + total ys := by
  induction xs with
  | nil => exact (Int32.zero_add _).symm
  | cons x xs ih =>
      cases x with
      | ok v => rw [List.cons_append, total, total, ih, Int32.add_assoc]
      | error e => rw [List.cons_append, total, total, ih]

theorem total_errors (es : List IndexError) : total (es.map .error) = 0 := by
  induction es with
  | nil => rfl
  | cons e es ih => rw [List.map_cons, total, ih]

/-! ## Blocks of errors and of values -/

/-- The errors of the `m` indices from `first` on. -/
def errorsFrom (first : Int32) (m : Nat) : List IndexError :=
  (List.range m).map fun k : Nat => .invalid (Int32.ofInt (first.toInt + k))

theorem length_errorsFrom (first : Int32) (m : Nat) : (errorsFrom first m).length = m := by
  rw [errorsFrom, List.length_map, List.length_range]

theorem getElem?_errorsFrom_eq_some {first : Int32} {m k : Nat} {e : IndexError}
    (h : (errorsFrom first m)[k]? = some e) :
    k < m ∧ e = .invalid (Int32.ofInt (first.toInt + k)) := by
  have hk : k < m := by
    have hlt := (List.getElem?_eq_some_iff.mp h).1
    rwa [length_errorsFrom] at hlt
  rw [errorsFrom, List.getElem?_map, List.getElem?_range hk] at h
  exact ⟨hk, (Option.some.inj h).symm⟩

/-- The values at the `m` natural numbers from `b` on. -/
def valuesFrom (b m : Nat) : List Int32 :=
  (List.range m).map fun k => Int32.ofNat (Nat.fib (b + k))

theorem valuesFrom_succ (b m : Nat) :
    valuesFrom b (m + 1) = valuesFrom b m ++ [Int32.ofNat (Nat.fib (b + m))] := by
  rw [valuesFrom, List.range_succ, List.map_append]
  rfl

/-- One more value moves the sum on by one index, as the recurrence says. -/
theorem total_valuesFrom_add (b m : Nat) :
    total ((valuesFrom b m).map .ok) + Int32.ofNat (Nat.fib (b + 1))
      = Int32.ofNat (Nat.fib (b + m + 1)) := by
  induction m with
  | zero => exact Int32.zero_add _
  | succ m ih =>
      have hlast : total ((valuesFrom b (m + 1)).map .ok)
          = total ((valuesFrom b m).map .ok) + Int32.ofNat (Nat.fib (b + m)) := by
        rw [valuesFrom_succ, List.map_append, total_append]
        exact congrArg _ (Int32.add_zero _)
      calc total ((valuesFrom b (m + 1)).map .ok) + Int32.ofNat (Nat.fib (b + 1))
          = Int32.ofNat (Nat.fib (b + m))
              + (total ((valuesFrom b m).map .ok) + Int32.ofNat (Nat.fib (b + 1))) := by
            rw [hlast, Int32.add_comm (total _), Int32.add_assoc]
        _ = Int32.ofNat (Nat.fib (b + m)) + Int32.ofNat (Nat.fib (b + m + 1)) := by rw [ih]
        _ = Int32.ofNat (Nat.fib (b + (m + 1) + 1)) := by
            rw [← Int32.ofNat_add, ← Nat.fib_add_two]
            rfl

/-! ## The entries of a range -/

/-- The index at a position of a range does not wrap. -/
theorem toInt_ofInt_add (first last : Int32) {k : Nat} (h : first.toInt + k ≤ last.toInt) :
    (Int32.ofInt (first.toInt + k)).toInt = first.toInt + k := by
  have hfirst := first.le_toInt
  have hlast := last.toInt_lt
  exact Int32.toInt_ofInt_of_le (by omega) (by omega)

theorem evaluateRange_eq_nil {first last : Int32} (h : last < first) :
    evaluateRange first last = [] := by
  rw [Int32.lt_iff_toInt_lt] at h
  rw [← List.length_eq_zero_iff, length_evaluateRange]
  omega

theorem getElem?_evaluateRange {first last : Int32} {k : Nat} (h : first.toInt + k ≤ last.toInt) :
    (evaluateRange first last)[k]? = some (evaluate (Int32.ofInt (first.toInt + k))) := by
  have hk : k < (last.toInt - first.toInt + 1).toNat := by omega
  rw [evaluateRange, List.getElem?_map, List.getElem?_range hk]
  rfl

/-- **The two blocks of a range.** Below zero the entries are errors, from zero on values. -/
theorem evaluateRange_eq_append {first last : Int32} (h : first ≤ last) :
    evaluateRange first last
      = (errorsFrom first (min (last.toInt + 1) 0 - first.toInt).toNat).map .error
        ++ (valuesFrom (max first.toInt 0).toNat
            (last.toInt + 1 - max first.toInt 0).toNat).map .ok := by
  rw [Int32.le_iff_toInt_le] at h
  have hlength : (last.toInt - first.toInt + 1).toNat
      = (min (last.toInt + 1) 0 - first.toInt).toNat
        + (last.toInt + 1 - max first.toInt 0).toNat := by omega
  rw [evaluateRange, hlength, List.range_add, List.map_append, errorsFrom, valuesFrom,
    List.map_map, List.map_map, List.map_map]
  refine congrArg₂ (· ++ ·) (List.map_congr_left fun k hk => ?_) (List.map_congr_left fun k hk => ?_)
  · rw [List.mem_range] at hk
    have hindex := toInt_ofInt_add first last (k := k) (by omega)
    refine evaluate_of_neg ?_
    rw [nonneg_iff, hindex]
    omega
  · rw [List.mem_range] at hk
    have hindex := toInt_ofInt_add first last
      (k := (min (last.toInt + 1) 0 - first.toInt).toNat + k) (by omega)
    refine evaluate_of_toInt_eq (hindex.trans ?_)
    omega

/-- The negative indices from `first` to `last`, counted as integers. -/
theorem ncard_negative (first last : Int32) :
    {n : Int32 | first ≤ n ∧ n ≤ last ∧ n < 0}.ncard
      = (min (last.toInt + 1) 0 - first.toInt).toNat := by
  have himage : Int32.toInt '' {n : Int32 | first ≤ n ∧ n ≤ last ∧ n < 0}
      = (Finset.Icc first.toInt (min last.toInt (-1)) : Set Int) := by
    ext i
    rw [Finset.coe_Icc, Set.mem_Icc]
    constructor
    · rintro ⟨n, ⟨hfirst, hlast, hneg⟩, rfl⟩
      rw [Int32.le_iff_toInt_le] at hfirst hlast
      rw [Int32.lt_iff_toInt_lt, Int32.toInt_zero] at hneg
      omega
    · intro hi
      have hmin := first.le_toInt
      have hn : (Int32.ofInt i).toInt = i := Int32.toInt_ofInt_of_le (by omega) (by omega)
      refine ⟨Int32.ofInt i, ⟨?_, ?_, ?_⟩, hn⟩
      · rw [Int32.le_iff_toInt_le, hn]
        omega
      · rw [Int32.le_iff_toInt_le, hn]
        omega
      · rw [Int32.lt_iff_toInt_lt, hn, Int32.toInt_zero]
        omega
  rw [← Set.ncard_image_of_injective _ fun _ _ h => Int32.toInt_inj.mp h, himage,
    Set.ncard_coe_finset, Int.card_Icc]
  omega

/-! ## Sums over a range -/

theorem toInt_max (a b : Int32) : (max a b).toInt = max a.toInt b.toInt := by
  rw [show max a b = if a ≤ b then b else a from rfl]
  simp only [Int32.le_iff_toInt_le]
  split
  · omega
  · omega

theorem total_evaluateRange_add {first last : Int32} (h : first ≤ last) (h0 : 0 ≤ last) :
    total (evaluateRange first last) + Int32.ofNat (Nat.fib ((max first.toInt 0).toNat + 1))
      = Int32.ofNat (Nat.fib (last.toInt.toNat + 2)) := by
  rw [Int32.le_iff_toInt_le] at h
  rw [nonneg_iff] at h0
  have hend : (max first.toInt 0).toNat + (last.toInt + 1 - max first.toInt 0).toNat
      = last.toInt.toNat + 1 := by omega
  rw [evaluateRange_eq_append (Int32.le_iff_toInt_le.mpr h), total_append, total_errors,
    Int32.zero_add, total_valuesFrom_add, hend]

/-- **A range is answered completely and adds up.** From `first` to `last` there is one entry for each
index, in order, also for the negative indices: their errors, each with its own index, are the first
entries, and all others are values. If `last` is not negative and `last + 2` does not wrap, the
wrapped sum of all values is the outcome there less the outcome after the first index of the range
that is not negative. -/
theorem evaluateRange_complete (first last : Int32) :
    (last < first → evaluateRange first last = []) ∧
    (first ≤ last →
      ((evaluateRange first last).length : Int) = last.toInt - first.toInt + 1 ∧
      (∀ k : Nat, first.toInt + k ≤ last.toInt →
        ∃ n : Int32, n.toInt = first.toInt + k ∧
          (evaluateRange first last)[k]? = some (evaluate n)) ∧
      (∃ (es : List IndexError) (vs : List Int32),
        evaluateRange first last = es.map .error ++ vs.map .ok ∧
        es.length = {n : Int32 | first ≤ n ∧ n ≤ last ∧ n < 0}.ncard ∧
        ∀ (k : Nat) (e : IndexError), es[k]? = some e →
          ∃ n : Int32, n.toInt = first.toInt + k ∧ e = .invalid n) ∧
      (0 ≤ last → last.toInt + 2 ≤ Int32.maxValue.toInt →
        ∃ v w, evaluate (last + 2) = .ok v ∧ evaluate (max first 0 + 1) = .ok w ∧
          total (evaluateRange first last) = v - w)) := by
  refine ⟨evaluateRange_eq_nil, fun h => ⟨?_, ?_, ?_, ?_⟩⟩
  · rw [Int32.le_iff_toInt_le] at h
    rw [length_evaluateRange]
    omega
  · intro k hk
    exact ⟨_, toInt_ofInt_add first last hk, getElem?_evaluateRange hk⟩
  · refine ⟨_, _, evaluateRange_eq_append h, ?_, ?_⟩
    · rw [length_errorsFrom, ncard_negative]
    · intro k e he
      obtain ⟨hk, rfl⟩ := getElem?_errorsFrom_eq_some he
      exact ⟨_, toInt_ofInt_add first last (by omega), rfl⟩
  · intro h0 hmax
    obtain ⟨j, hj⟩ := Int.eq_ofNat_of_zero_le (nonneg_iff.mp h0)
    have hfirst : (max first 0).toInt = (max first.toInt 0).toNat := by
      rw [toInt_max, Int32.toInt_zero]
      omega
    have htwo : (2 : Int32).toInt = (2 : Nat) := by decide
    have hlast : (last + 2).toInt = (j + 2 : Nat) := toInt_add_eq hj htwo (by omega)
    have hstart : (max first 0 + 1).toInt = ((max first.toInt 0).toNat + 1 : Nat) := by
      refine toInt_add_eq hfirst toInt_one_eq ?_
      rw [Int32.le_iff_toInt_le] at h
      omega
    refine ⟨_, _, evaluate_of_toInt_eq hlast, evaluate_of_toInt_eq hstart, ?_⟩
    rw [Int32.eq_sub_iff_add_eq, total_evaluateRange_add h h0, hj]
    rfl

/-- Every index up to the largest but two. There are more entries than a word can count. -/
theorem evaluateRange_from_least :
    Int32.minValue ≤ 2147483645 ∧ (0 : Int32) ≤ 2147483645 ∧
    (2147483645 : Int32).toInt + 2 ≤ Int32.maxValue.toInt ∧
    (evaluateRange Int32.minValue 2147483645).length = 4294967294 ∧
    total (evaluateRange Int32.minValue 2147483645) = -1070270180 := by
  have h : Int32.minValue ≤ 2147483645 := by decide
  have h0 : (0 : Int32) ≤ 2147483645 := by decide
  have hmax : (2147483645 : Int32).toInt + 2 ≤ Int32.maxValue.toInt := by decide
  obtain ⟨hlength, -, -, hsum⟩ := (evaluateRange_complete Int32.minValue 2147483645).2 h
  obtain ⟨v, w, hv, hw, htotal⟩ := hsum h0 hmax
  have hvalue : evaluate 2147483647 = .ok (-1070270179) :=
    evaluate_of_byDoubling (by decide) (by cbv)
  have hone : evaluate 1 = .ok 1 := evaluate_of_toInt_eq toInt_one_eq
  obtain rfl : -1070270179 = v := Except.ok.inj (hvalue.symm.trans hv)
  obtain rfl : 1 = w := Except.ok.inj (hone.symm.trans hw)
  refine ⟨h, h0, hmax, ?_, htotal⟩
  exact Int.ofNat_inj.mp (hlength.trans (by decide))

end Fibonacci
