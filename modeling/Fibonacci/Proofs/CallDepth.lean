import Fibonacci.Proofs.Congruence
import Mathlib.Data.Nat.Find

set_option autoImplicit false

/-! # How deep the calls go

A call at an index that is not negative makes calls only from the index 2 on, where both
subtractions are exact and neither result is negative. Each step down a chain of calls therefore
lowers the index by one or two and stays at zero or above, and the two base cases catch every
chain, the one that jumps over `1` as well as the one that meets it (`Below.of_nested`). Below a
call at `n` no chain has more than `n - 1` steps, and one has as many.

A run on a stack has a result exactly if all chains below the call fit on the stack and no
subtraction on them wraps (`exists_termWithin_iff`). So the run at `n` needs room for `max n 1`
calls and no more, and a run at a negative index has no result on any stack: it is led down to the
least word, where the next subtraction leaves the words.
-/

namespace Fibonacci

/-! ## One step down -/

theorem two_le_iff {n : Int32} : 2 ≤ n ↔ 2 ≤ n.toInt := by
  rw [Int32.le_iff_toInt_le, show (2 : Int32).toInt = 2 by decide]

/-- From an index that is not negative calls are made only from `2` on. -/
theorem Calls.two_le {n k : Int32} (call : Calls n k) (h : 0 ≤ n) : 2 ≤ n.toInt := by
  obtain ⟨h0, h1, -⟩ := (calls_iff n k).mp call
  exact two_le_toInt h h0 h1

/-- What holds of a call at `m`, reached in `d` steps from a call at `n` that is not negative. -/
structure Below (n : Int32) (d : Nat) (m : Int32) : Prop where
  nonneg : 0 ≤ m
  index_add_le : m.toInt + d ≤ n.toInt
  depth_add_le : d + max m.toInt 1 ≤ max n.toInt 1

theorem Below.here {n : Int32} (h : 0 ≤ n) : Below n 0 n := by
  refine ⟨h, ?_, ?_⟩ <;> simp

theorem Below.step {n m k : Int32} {d : Nat} (below : Below n d m) (call : Calls m k) :
    Below n (d + 1) k := by
  obtain ⟨hm, hindex, hdepth⟩ := below
  have h2 : 2 ≤ m.toInt := call.two_le hm
  cases call with
  | lessTwo =>
      have hsub := toInt_sub_two h2
      exact ⟨sub_two_nonneg h2, by omega, by omega⟩
  | lessOne =>
      have hsub := toInt_sub_one h2
      exact ⟨sub_one_nonneg h2, by omega, by omega⟩

theorem Below.depth_le {n m : Int32} {d : Nat} (below : Below n d m) :
    (d : Int) ≤ max (n.toInt - 1) 0 := by
  have h := below.depth_add_le
  omega

/-! ## Whole chains -/

theorem Below.of_nested {n m : Int32} {d : Nat} (h : 0 ≤ n) (chain : Nested n d m) :
    Below n d m := by
  induction chain with
  | here => exact .here h
  | deeper _ call ih => exact ih.step call

/-- The chain that always follows the call at the index less one. It goes on as long as neither a
base case nor the least word is passed. -/
theorem exists_nested_sub {n : Int32} (d : Nat) (hleast : Int32.minValue.toInt + d ≤ n.toInt)
    (hbase : n < 0 ∨ (d : Int) ≤ max (n.toInt - 1) 0) :
    ∃ m, Nested n d m ∧ m.toInt = n.toInt - d := by
  induction d with
  | zero => exact ⟨n, .here, by simp⟩
  | succ d ih =>
      rw [Int32.lt_iff_toInt_lt, Int32.toInt_zero] at hbase ih
      obtain ⟨m, chain, hm⟩ := ih (by omega) (by omega)
      have h0 : m ≠ 0 := by
        rintro rfl
        rw [Int32.toInt_zero] at hm
        omega
      have h1 : m ≠ 1 := by
        rintro rfl
        rw [toInt_one_eq] at hm
        omega
      refine ⟨m - 1, .deeper chain (.lessOne h0 h1), ?_⟩
      have hlt := n.toInt_lt
      rw [Int32.toInt_minValue] at hleast
      rw [Int32.toInt_sub, toInt_one_eq, hm]
      rw [Int.bmod_eq_of_le (by omega) (by omega)]
      omega

/-! ## Ways down -/

/-- A way down is a chain of calls as long as it has not met a base case. -/
theorem Descent.nested {n : Int32} {way : Nat → Int32} (down : Descent n way) {d : Nat}
    (h : ∀ i < d, ¬(way i = 0 ∨ way i = 1)) : Nested n d (way d) := by
  induction d with
  | zero =>
      rw [down.start]
      exact .here
  | succ d ih =>
      have chain : Nested n d (way d) := ih fun i hi => h i (by omega)
      have hd := h d (by omega)
      rw [not_or] at hd
      exact .deeper chain (down.step d hd.1 hd.2)

/-- Every way down meets a base case. -/
theorem Descent.exists_base {n : Int32} {way : Nat → Int32} (down : Descent n way) (h : 0 ≤ n) :
    ∃ d, Nested n d (way d) ∧ (way d = 0 ∨ way d = 1) := by
  have hbase : ∃ d, way d = 0 ∨ way d = 1 := by
    by_contra hnone
    -- a way that never ended would be a chain longer than any chain below `n`
    have chain : Nested n (max n.toInt 1).toNat (way (max n.toInt 1).toNat) :=
      down.nested fun i _ hi => hnone ⟨i, hi⟩
    have hdepth := (Below.of_nested h chain).depth_le
    omega
  refine ⟨Nat.find hbase, down.nested fun i hi => Nat.find_min hbase hi, Nat.find_spec hbase⟩

/-! ## Runs on a stack -/

/-- Taking away a positive word is exact if it gives less, and only then. -/
theorem toInt_sub_eq_iff {n k : Int32} (hk : 0 < k.toInt) :
    (n - k).toInt = n.toInt - k.toInt ↔ (n - k).toInt < n.toInt := by
  have hle := n.le_toInt
  have hlt := n.toInt_lt
  have hlt' := k.toInt_lt
  rw [Int32.toInt_sub, Int.bmod_def]
  omega

/-- Both subtractions of a call are exact if the calls it makes are at lesser indices. -/
theorem subtractions_exact_iff {n : Int32} (h0 : n ≠ 0) (h1 : n ≠ 1) :
    ((n - 2).toInt = n.toInt - 2 ∧ (n - 1).toInt = n.toInt - 1) ↔
      ∀ k, Calls n k → k.toInt < n.toInt := by
  have hTwo : (n - 2).toInt = n.toInt - 2 ↔ (n - 2).toInt < n.toInt :=
    toInt_sub_eq_iff (k := 2) (by decide)
  have hOne : (n - 1).toInt = n.toInt - 1 ↔ (n - 1).toInt < n.toInt :=
    toInt_sub_eq_iff (k := 1) (by decide)
  rw [hTwo, hOne]
  constructor
  · rintro ⟨hLessTwo, hLessOne⟩ k call
    cases call with
    | lessTwo => exact hLessTwo
    | lessOne => exact hLessOne
  · intro h
    exact ⟨h _ (.lessTwo h0 h1), h _ (.lessOne h0 h1)⟩

/-- A run has a result exactly if no subtraction of the call wraps and, with one place less on the
stack, all calls it makes have results. A base case makes none. -/
theorem exists_termWithin_succ_iff (height : Nat) (n : Int32) :
    (∃ x, termWithin (height + 1) n = some x) ↔
      (∀ k, Calls n k → k.toInt < n.toInt) ∧
      ∀ k, Calls n k → ∃ v, termWithin height k = some v := by
  by_cases hbase : n = 0 ∨ n = 1
  · have hnone := (forall_not_calls_iff n).mpr hbase
    refine iff_of_true ?_ ⟨fun k call => absurd call (hnone k), fun k call => absurd call (hnone k)⟩
    rcases hbase with rfl | rfl
    · exact ⟨0, termWithin_zero height⟩
    · exact ⟨1, termWithin_one height⟩
  · rw [not_or] at hbase
    obtain ⟨h0, h1⟩ := hbase
    simp only [termWithin_succ_eq_some_iff h0 h1, subtractions_exact_iff h0 h1,
      exists_and_left]
    refine and_congr_right fun _ => ?_
    constructor
    · rintro ⟨x, v, hv, w, hw, -⟩ k call
      cases call with
      | lessTwo => exact ⟨v, hv⟩
      | lessOne => exact ⟨w, hw⟩
    · intro h
      obtain ⟨v, hv⟩ := h _ (.lessTwo h0 h1)
      obtain ⟨w, hw⟩ := h _ (.lessOne h0 h1)
      exact ⟨v + w, v, hv, w, hw, rfl⟩

/-- A run has a result exactly if every chain below the call has fewer steps than the stack has
places, and no subtraction on it wraps. -/
theorem exists_termWithin_iff (height : Nat) (n : Int32) :
    (∃ v, termWithin height n = some v) ↔
      ∀ d m, Nested n d m → d < height ∧ ∀ k, Calls m k → k.toInt < m.toInt := by
  induction height generalizing n with
  | zero =>
      refine iff_of_false nofun fun h => ?_
      exact absurd (h 0 n .here).1 (Nat.lt_irrefl 0)
  | succ height ih =>
      rw [exists_termWithin_succ_iff]
      constructor
      · rintro ⟨hexact, hruns⟩ d m chain
        rcases (nested_iff n m d).mp chain with ⟨rfl, rfl⟩ | ⟨k, e, call, inner, rfl⟩
        · exact ⟨Nat.succ_pos height, hexact⟩
        · obtain ⟨he, hm⟩ := (ih k).mp (hruns k call) e m inner
          exact ⟨Nat.succ_lt_succ he, hm⟩
      · intro h
        refine ⟨(h 0 n .here).2, fun k call => (ih k).mpr fun e m inner => ?_⟩
        obtain ⟨he, hm⟩ := h (e + 1) m (.of_calls call inner)
        exact ⟨Nat.lt_of_succ_lt_succ he, hm⟩

/-- The result of a run is what the call returns. -/
theorem returns_of_termWithin {height : Nat} {n v : Int32} (h : termWithin height n = some v) :
    Returns n v := by
  induction height generalizing n v with
  | zero => cases h
  | succ height ih =>
      by_cases h0 : n = 0
      · subst h0
        obtain rfl : 0 = v := Option.some.inj ((termWithin_zero height).symm.trans h)
        exact .zero
      · by_cases h1 : n = 1
        · subst h1
          obtain rfl : 1 = v := Option.some.inj ((termWithin_one height).symm.trans h)
          exact .one
        · obtain ⟨-, v, w, hv, hw, rfl⟩ := (termWithin_succ_eq_some_iff h0 h1 height v).mp h
          exact .sum h0 h1 (ih hv) (ih hw)

/-- At a negative index no run has a result. -/
theorem termWithin_of_neg (height : Nat) {n : Int32} (h : n < 0) : termWithin height n = none := by
  rw [Option.eq_none_iff_forall_ne_some]
  intro v hv
  have hchains := (exists_termWithin_iff height n).mp ⟨v, hv⟩
  -- the index less one, again and again, is the least word in the end
  have hle := n.le_toInt
  obtain ⟨m, chain, hm⟩ := exists_nested_sub (n := n) (n.toInt - Int32.minValue.toInt).toNat
    (by rw [Int32.toInt_minValue]; omega) (.inl h)
  obtain rfl : m = Int32.minValue := by
    rw [Int32.toInt_minValue] at hm
    rw [← Int32.toInt_inj, Int32.toInt_minValue]
    omega
  have hless := (hchains _ _ chain).2 _ (.lessOne (by decide) (by decide))
  exact absurd hless (by decide)

/-- A run has a result exactly at an index that is not negative, with room for as many calls as the
index says, and for one at `0`. The result is the term. -/
theorem termWithin_eq_some_iff (height : Nat) (n v : Int32) :
    termWithin height n = some v ↔
      ∃ h : 0 ≤ n, max n.toNatClampNeg 1 ≤ height ∧ v = term n h := by
  constructor
  · intro hv
    have h : 0 ≤ n := by
      by_contra hneg
      rw [termWithin_of_neg height (Int32.not_le.mp hneg)] at hv
      cases hv
    have hn := Int32.cast_toNatClampNeg n h
    obtain ⟨m, chain, -⟩ := exists_nested_sub (n := n) (n.toNatClampNeg - 1)
      (by rw [Int32.toInt_minValue]; omega) (.inr (by omega))
    have hroom := ((exists_termWithin_iff height n).mp ⟨v, hv⟩ _ m chain).1
    exact ⟨h, by omega, (returns_iff h v).mp (returns_of_termWithin hv)⟩
  · rintro ⟨h, hroom, rfl⟩
    have hn := Int32.cast_toNatClampNeg n h
    have hchains : ∀ d m, Nested n d m → d < height ∧ ∀ k, Calls m k → k.toInt < m.toInt := by
      intro d m chain
      have below := Below.of_nested h chain
      have hdepth := below.depth_le
      refine ⟨by omega, fun k call => ?_⟩
      have hless := ((Below.here below.nonneg).step call).index_add_le
      omega
    obtain ⟨v, hv⟩ := (exists_termWithin_iff height n).mpr hchains
    rw [hv, (returns_iff h v).mp (returns_of_termWithin hv)]

/-- From zero on it makes no difference whether subtractions wrap or are checked. -/
theorem returns_iff_exists_termWithin {n : Int32} (h : 0 ≤ n) (v : Int32) :
    Returns n v ↔ ∃ height, termWithin height n = some v := by
  rw [returns_iff h]
  constructor
  · intro hv
    exact ⟨_, (termWithin_eq_some_iff (max n.toNatClampNeg 1) n v).mpr ⟨h, le_rfl, hv⟩⟩
  · rintro ⟨height, hv⟩
    obtain ⟨_, _, hTerm⟩ := (termWithin_eq_some_iff height n v).mp hv
    exact hTerm

example : termWithin 5 5 = some 5 ∧ termWithin 4 5 = none ∧ termWithin 9 (-1) = none := by
  decide

/-! ## Evaluation on a stack -/

/-- The outcome at an index, with the calls of the double recursion on a stack. -/
def evaluateWithin (height : Nat) (n : Int32) : Option Outcome :=
  if 0 ≤ n then (termWithin height n).map .ok else some (.error (.invalid n))

/-- Evaluation has its outcome on a stack of any height if the index is negative, and else on every
stack with enough room. -/
theorem evaluateWithin_eq_some_iff (height : Nat) (n : Int32) (o : Outcome) :
    evaluateWithin height n = some o ↔
      evaluate n = o ∧ (0 ≤ n → max n.toNatClampNeg 1 ≤ height) := by
  by_cases h : 0 ≤ n
  · rw [evaluateWithin, if_pos h, evaluate_of_nonneg h]
    simp only [Option.map_eq_some_iff, termWithin_eq_some_iff]
    constructor
    · rintro ⟨_, ⟨_, hroom, rfl⟩, rfl⟩
      exact ⟨rfl, fun _ => hroom⟩
    · rintro ⟨rfl, hroom⟩
      exact ⟨_, ⟨h, hroom h, rfl⟩, rfl⟩
  · rw [evaluateWithin, if_neg h, evaluate_of_neg h, Option.some.injEq]
    exact ⟨fun ho => ⟨ho, fun h' => absurd h' h⟩, fun ho => ho.1⟩

/-- **The calls below an index.** Below the call at an index `n` that is not negative, every call
is at an index between `0` and `n`, at most `max (n - 1) 0` steps down. Calls are made only from `2`
on, where both subtractions are exact and their results not negative, and every way down ends in a
base case. These are the calls of a run on a stack: it has a result exactly if no chain of them is
too long for the stack and no subtraction on one wraps, and so at a negative index it has none on
any stack. Evaluation never starts a run there: a negative index is answered on a stack without room
for any call, and every other index on a stack with room for `max n 1` calls. -/
theorem nested_calls_bounded (n : Int32) :
    (0 ≤ n →
      (∀ (d : Nat) (m : Int32), Nested n d m →
        0 ≤ m ∧ m ≤ n ∧ (d : Int) ≤ max (n.toInt - 1) 0 ∧
        ∀ k, Calls m k → 2 ≤ m ∧
          (m - 2).toInt = m.toInt - 2 ∧ 0 ≤ m - 2 ∧ (m - 1).toInt = m.toInt - 1 ∧ 0 ≤ m - 1) ∧
      (∀ way, Descent n way → ∃ d : Nat, (d : Int) ≤ max (n.toInt - 1) 0 ∧
        Nested n d (way d) ∧ (way d = 0 ∨ way d = 1))) ∧
    (∀ height, (∃ v, termWithin height n = some v) ↔
      ∀ d m, Nested n d m → d < height ∧ ∀ k, Calls m k → k.toInt < m.toInt) ∧
    (n < 0 → ∀ height, termWithin height n = none) ∧
    (∀ (height : Nat) (o : Outcome), evaluateWithin height n = some o ↔
      evaluate n = o ∧ (0 ≤ n → max n.toNatClampNeg 1 ≤ height)) := by
  refine ⟨fun h => ⟨?_, ?_⟩, fun height => exists_termWithin_iff height n,
    fun h height => termWithin_of_neg height h,
    fun height o => evaluateWithin_eq_some_iff height n o⟩
  · intro d m chain
    have below := Below.of_nested h chain
    have hindex := below.index_add_le
    refine ⟨below.nonneg, ?_, below.depth_le, fun k call => ?_⟩
    · rw [Int32.le_iff_toInt_le]
      omega
    · have h2 := call.two_le below.nonneg
      exact ⟨two_le_iff.mpr h2, toInt_sub_two h2, sub_two_nonneg h2, toInt_sub_one h2,
        sub_one_nonneg h2⟩
  · intro way down
    obtain ⟨d, chain, hbase⟩ := down.exists_base h
    exact ⟨d, (Below.of_nested h chain).depth_le, chain, hbase⟩

/-- The index 42: the longest chain, the way down by twos, and the least stack. -/
theorem nested_calls_below_forty_two :
    (0 : Int32) ≤ 42 ∧ Nested 42 40 2 ∧ Calls 2 1 ∧
    (∀ d m, Nested 42 d m → 0 ≤ m ∧ m ≤ 42 ∧ d ≤ 41) ∧
    Descent 42 (fun i => Int32.ofNat (42 - 2 * i)) ∧
    (∃ d, d ≤ 41 ∧ (Int32.ofNat (42 - 2 * d) = 0 ∨ Int32.ofNat (42 - 2 * d) = 1)) ∧
    evaluateWithin 42 42 = some (.ok 267914296) ∧ evaluateWithin 41 42 = none ∧
    (-1 : Int32) < 0 ∧ ∀ height, termWithin height (-1) = none := by
  have h : (0 : Int32) ≤ 42 := by decide
  have hneg : (-1 : Int32) < 0 := by decide
  have htoInt : (42 : Int32).toInt = (42 : Nat) := by decide
  have hchain : Nested 42 40 2 := by
    obtain ⟨m, chain, hm⟩ := exists_nested_sub (n := 42) 40 (by decide) (.inr (by decide))
    obtain rfl : m = 2 := Int32.toInt_inj.mp (hm.trans (by decide))
    exact chain
  have hdown : Descent 42 (fun i => Int32.ofNat (42 - 2 * i)) := by
    refine ⟨rfl, fun i h0 h1 => ?_⟩
    have hi : i ≤ 20 := by
      by_contra hlate
      rw [show 42 - 2 * i = 0 by omega] at h0
      exact h0 rfl
    have hnext : Int32.ofNat (42 - 2 * (i + 1)) = Int32.ofNat (42 - 2 * i) - 2 := by
      rw [show 42 - 2 * (i + 1) = 42 - 2 * i - 2 by omega, Int32.ofNat_sub _ _ (by omega)]
      rfl
    rw [hnext]
    exact .lessTwo h0 h1
  obtain ⟨hcalls, hways⟩ := (nested_calls_bounded 42).1 h
  obtain ⟨-, -, hruns⟩ := (nested_calls_bounded 42).2
  refine ⟨h, hchain, .lessOne (by decide) (by decide), ?_, hdown, ?_, ?_, ?_, hneg,
    (nested_calls_bounded (-1)).2.2.1 hneg⟩
  · intro d m chain
    obtain ⟨h0, hle, hd, -⟩ := hcalls d m chain
    rw [htoInt] at hd
    exact ⟨h0, hle, by omega⟩
  · obtain ⟨d, hd, -, hbase⟩ := hways _ hdown
    rw [htoInt] at hd
    exact ⟨d, by omega, hbase⟩
  · refine (hruns 42 _).mpr ⟨?_, fun _ => by decide⟩
    rw [evaluate_of_toInt_eq htoInt]
    decide
  · rw [Option.eq_none_iff_forall_ne_some]
    intro o ho
    exact absurd (((hruns 41 o).mp ho).2 h) (by decide)

end Fibonacci
