import Fibonacci.Proofs.LoopAndDoubling
import Fibonacci.Proofs.PowersOfTwo

set_option autoImplicit false

/-! # Periods of the terms

Two consecutive terms determine all later ones, and all earlier ones too, since the recurrence can
be run backwards. Modulo `q` the unbounded sequence therefore repeats after `p` indices exactly if
the terms at `p` and `p + 1` are those at `0` and `1` (`Restarts`), and it cannot come back to a
pair of consecutive terms without having come back to the first one.

For a power of two the indices at which the sequence restarts are known. Up to `8` they are read off
the period of the sequence modulo `16`. Beyond, doubling the index goes with doubling the modulus
(`restarts_two_mul_iff`), so modulo `2 ^ (k + 1)` they are the multiples of `3 * 2 ^ k`
(`restarts_two_pow_iff`).

Words keep the residues modulo every power of two up to `2 ^ 32`. The low `k` bits of the outcomes
have the period `3 * 2 ^ (k - 1)`, and the whole words have the period `3 * 2 ^ 31`, which is larger
than every index: no pair of consecutive outcomes occurs twice.
-/

namespace Fibonacci

/-! ## When the sequence starts again -/

/-- Modulo `q`, the terms at `p` and `p + 1` are those at `0` and `1`. -/
def Restarts (q p : Nat) : Prop := Nat.fib p ≡ 0 [MOD q] ∧ Nat.fib (p + 1) ≡ 1 [MOD q]

instance (q p : Nat) : Decidable (Restarts q p) := inferInstanceAs (Decidable (_ ∧ _))

/-- Forwards, all terms after a restart are those from `0` on. -/
theorem Restarts.fib_add {q p : Nat} (h : Restarts q p) (n : Nat) :
    Nat.fib (n + p) ≡ Nat.fib n [MOD q] := by
  induction n using Nat.twoStepInduction with
  | zero =>
      rw [Nat.zero_add]
      exact h.1
  | one =>
      rw [Nat.add_comm 1 p]
      exact h.2
  | more n ih ih' =>
      have hstep : Nat.fib (n + 2 + p) = Nat.fib (n + p) + Nat.fib (n + 1 + p) := by
        rw [show n + 2 + p = n + p + 2 by omega, show n + 1 + p = n + p + 1 by omega,
          Nat.fib_add_two]
      rw [hstep, Nat.fib_add_two]
      exact ih.add ih'

/-- Backwards, two equal pairs of consecutive terms come from equal pairs all the way down to the
pair at `0`. -/
theorem restarts_of_fib_add {q n p : Nat} (h : Nat.fib (n + p) ≡ Nat.fib n [MOD q])
    (h' : Nat.fib (n + 1 + p) ≡ Nat.fib (n + 1) [MOD q]) : Restarts q p := by
  induction n with
  | zero =>
      rw [Nat.zero_add] at h
      rw [Nat.zero_add, Nat.add_comm 1 p] at h'
      exact ⟨h, h'⟩
  | succ n ih =>
      have hstep : Nat.fib (n + 1 + 1 + p) = Nat.fib (n + p) + Nat.fib (n + 1 + p) := by
        rw [show n + 1 + 1 + p = n + p + 2 by omega, show n + 1 + p = n + p + 1 by omega,
          Nat.fib_add_two]
      rw [hstep, Nat.fib_add_two] at h'
      exact ih (Nat.ModEq.add_right_cancel h h') h

/-! ## Powers of two -/

/-- Modulo a divisor of `16`, restarts are decided on one period. -/
theorem restarts_iff_of_period {q e : Nat} (hq : q ∣ 16) (he : e ∣ 24)
    (h : ∀ r < 24, Restarts q r ↔ e ∣ r) (p : Nat) : Restarts q p ↔ e ∣ p := by
  have hfib : Nat.fib p ≡ Nat.fib (p % 24) [MOD q] :=
    Nat.ModEq.of_dvd hq (fib_mod_sixteen_periodic.map_mod_nat p).symm
  have hnext : Nat.fib (p + 1) ≡ Nat.fib (p % 24 + 1) [MOD q] := by
    have hmod : (p % 24 + 1) % 24 = (p + 1) % 24 := by omega
    refine Nat.ModEq.of_dvd hq ?_
    calc Nat.fib (p + 1) % 16
        = Nat.fib ((p + 1) % 24) % 16 := (fib_mod_sixteen_periodic.map_mod_nat (p + 1)).symm
      _ = Nat.fib ((p % 24 + 1) % 24) % 16 := by rw [hmod]
      _ = Nat.fib (p % 24 + 1) % 16 := fib_mod_sixteen_periodic.map_mod_nat (p % 24 + 1)
  have hred : Restarts q p ↔ Restarts q (p % 24) :=
    and_congr ⟨hfib.symm.trans, hfib.trans⟩ ⟨hnext.symm.trans, hnext.trans⟩
  rw [hred, h (p % 24) (Nat.mod_lt p (by decide)), Nat.dvd_mod_iff he]

theorem restarts_two_iff (p : Nat) : Restarts 2 p ↔ 3 ∣ p :=
  restarts_iff_of_period (by decide) (by decide) (by decide) p

theorem restarts_four_iff (p : Nat) : Restarts 4 p ↔ 6 ∣ p :=
  restarts_iff_of_period (by decide) (by decide) (by decide) p

theorem restarts_eight_iff (p : Nat) : Restarts 8 p ↔ 12 ∣ p :=
  restarts_iff_of_period (by decide) (by decide) (by decide) p

/-- The squares congruent to `1`, for roots that are `1` modulo `4`: the other factor of
`x ^ 2 - 1` is twice an odd number. -/
theorem sq_modEq_one_iff (k y : Nat) :
    (4 * y + 1) ^ 2 ≡ 1 [MOD 2 ^ (k + 1)] ↔ 4 * y + 1 ≡ 1 [MOD 2 ^ k] := by
  have hsquare : (4 * y + 1) ^ 2 = 1 + 2 * (4 * y * (2 * y + 1)) := by ring
  have hcop : Nat.Coprime (2 ^ k) (2 * y + 1) :=
    Nat.Coprime.pow_left k (Nat.coprime_two_left.mpr (odd_two_mul_add_one y))
  calc (4 * y + 1) ^ 2 ≡ 1 [MOD 2 ^ (k + 1)]
      ↔ 1 ≡ 1 + 2 * (4 * y * (2 * y + 1)) [MOD 2 ^ (k + 1)] := by rw [hsquare, Nat.ModEq.comm]
    _ ↔ 2 ^ (k + 1) ∣ 2 * (4 * y * (2 * y + 1)) := by
        rw [Nat.modEq_iff_dvd' (Nat.le_add_right _ _), Nat.add_sub_cancel_left]
    _ ↔ 2 ^ k ∣ 4 * y * (2 * y + 1) := by
        rw [pow_succ', Nat.mul_dvd_mul_iff_left (by decide)]
    _ ↔ 2 ^ k ∣ 4 * y := hcop.dvd_mul_right
    _ ↔ 4 * y + 1 ≡ 1 [MOD 2 ^ k] := by
        rw [Nat.ModEq.comm, Nat.modEq_iff_dvd' (Nat.le_add_left _ _), Nat.add_sub_cancel]

/-- Twice the index and twice the modulus. -/
theorem restarts_two_mul_iff {k m : Nat} (hk : 1 ≤ k) (h : 6 ∣ m) :
    Restarts (2 ^ (k + 1)) (2 * m) ↔ Restarts (2 ^ k) m := by
  obtain ⟨-, h4⟩ := (restarts_four_iff m).mpr h
  obtain ⟨y, hy⟩ : ∃ y, Nat.fib (m + 1) = 4 * y + 1 := by
    have hmod : Nat.fib (m + 1) % 4 = 1 := h4
    exact ⟨Nat.fib (m + 1) / 4, by omega⟩
  have hfib : Nat.fib (2 * m) ≡ 0 [MOD 2 ^ (k + 1)] ↔ Nat.fib m ≡ 0 [MOD 2 ^ k] := by
    rw [Nat.modEq_zero_iff_dvd, Nat.modEq_zero_iff_dvd, two_pow_succ_dvd_fib_two_mul_iff h]
  have hnext (hm : Nat.fib m ≡ 0 [MOD 2 ^ k]) :
      Nat.fib (2 * m + 1) ≡ 1 [MOD 2 ^ (k + 1)] ↔ Nat.fib (m + 1) ≡ 1 [MOD 2 ^ k] := by
    -- the square of the term at `m` vanishes modulo `2 ^ (2 * k)`, so that of the next one is left
    have hvanish : Nat.fib m ^ 2 ≡ 0 [MOD 2 ^ (k + 1)] := by
      rw [Nat.modEq_zero_iff_dvd] at hm ⊢
      have hsquare : (2 ^ k) ^ 2 ∣ Nat.fib m ^ 2 := pow_dvd_pow_of_dvd hm 2
      rw [← pow_mul] at hsquare
      exact dvd_trans (Nat.pow_dvd_pow 2 (by omega)) hsquare
    have hleft : Nat.fib (2 * m + 1) ≡ Nat.fib (m + 1) ^ 2 [MOD 2 ^ (k + 1)] := by
      rw [Nat.fib_two_mul_add_one]
      exact Nat.ModEq.add_left _ hvanish
    rw [hy] at hleft ⊢
    exact Iff.trans ⟨hleft.symm.trans, hleft.trans⟩ (sq_modEq_one_iff k y)
  rw [Restarts, Restarts, hfib]
  exact and_congr_right hnext

/-- **Restarts modulo a power of two.** They are the multiples of three times the half of it. -/
theorem restarts_two_pow_iff (k p : Nat) : Restarts (2 ^ (k + 1)) p ↔ 3 * 2 ^ k ∣ p := by
  rcases Nat.eq_zero_or_pos k with rfl | hk
  · exact restarts_two_iff p
  refine iff_three_mul_two_pow_dvd (P := fun k p => Restarts (2 ^ (k + 1)) p) ?_ ?_ ?_ hk p
  · exact restarts_four_iff
  · intro k p hk h
    have h8 : 2 ^ 3 ∣ 2 ^ (k + 1 + 1) := Nat.pow_dvd_pow 2 (by omega)
    exact (restarts_eight_iff p).mp ⟨h.1.of_dvd h8, h.2.of_dvd h8⟩
  · intro k m _ h6
    exact restarts_two_mul_iff (Nat.le_add_left 1 k) h6

/-- Equal pairs of consecutive terms lie a multiple of the period apart. -/
theorem modEq_of_fib_modEq {k i j : Nat} (h : Nat.fib i ≡ Nat.fib j [MOD 2 ^ (k + 1)])
    (h' : Nat.fib (i + 1) ≡ Nat.fib (j + 1) [MOD 2 ^ (k + 1)]) : i ≡ j [MOD 3 * 2 ^ k] := by
  wlog hij : i ≤ j generalizing i j
  · exact (this h.symm h'.symm (Nat.le_of_not_le hij)).symm
  obtain ⟨p, rfl⟩ := Nat.exists_eq_add_of_le hij
  rw [show i + p + 1 = i + 1 + p by omega] at h'
  have hrestarts := restarts_of_fib_add h.symm h'.symm
  rw [Nat.modEq_iff_dvd' hij, Nat.add_sub_cancel_left]
  exact (restarts_two_pow_iff k p).mp hrestarts

/-! ## Low bits of words -/

/-- The low `k` bits of a word. -/
def lowBits (k : Nat) (v : Int32) : BitVec k := v.toBitVec.setWidth k

/-- The sign of a word is no matter: two words agree in their low bits exactly if the integers they
stand for are congruent. -/
theorem lowBits_eq_iff {k : Nat} (hk : k ≤ 32) (v w : Int32) :
    lowBits k v = lowBits k w ↔ v.toInt ≡ w.toInt [ZMOD 2 ^ k] := by
  have hunsigned (u : Int32) : u.toInt ≡ u.toBitVec.toNat [ZMOD 2 ^ k] := by
    have hword : u.toInt ≡ u.toBitVec.toNat [ZMOD 2 ^ 32] := by
      rw [← Int32.toInt_toBitVec, BitVec.toInt_eq_toNat_bmod]
      exact Int.bmod_emod
    exact hword.of_dvd (pow_dvd_pow 2 hk)
  have hmod : v.toInt ≡ w.toInt [ZMOD 2 ^ k]
      ↔ (v.toBitVec.toNat : Int) ≡ w.toBitVec.toNat [ZMOD 2 ^ k] :=
    ⟨fun h => (hunsigned v).symm.trans (h.trans (hunsigned w)),
      fun h => (hunsigned v).trans (h.trans (hunsigned w).symm)⟩
  rw [hmod, lowBits, lowBits, ← BitVec.toNat_inj, BitVec.toNat_setWidth, BitVec.toNat_setWidth]
  exact_mod_cast (Int.natCast_modEq_iff (n := 2 ^ k)).symm

/-- The low bits of the reduction of a number are those of the number. -/
theorem lowBits_ofNat_eq_iff {k : Nat} (hk : k ≤ 32) (a b : Nat) :
    lowBits k (Int32.ofNat a) = lowBits k (Int32.ofNat b) ↔ a ≡ b [MOD 2 ^ k] := by
  have hreduced (c : Nat) : lowBits k (Int32.ofNat c) = BitVec.ofNat k c := by
    rw [lowBits, Int32.toBitVec_ofNat', BitVec.setWidth_ofNat_of_le hk]
  rw [hreduced, hreduced, ← BitVec.toNat_inj, BitVec.toNat_ofNat, BitVec.toNat_ofNat]
  exact Iff.rfl

/-! ## Outcomes -/

/-- A natural number up to the largest word is an index. -/
theorem exists_toInt_eq {i : Nat} (h : (i : Int) ≤ Int32.maxValue.toInt) :
    ∃ n : Int32, n.toInt = i := by
  rw [Int32.toInt_maxValue] at h
  exact ⟨Int32.ofNat i, (toInt_ofNat_eq_self_iff i).mpr (by omega)⟩

/-- Outcomes at two natural numbers agree in their low bits as the unbounded terms there do. -/
theorem evaluate_lowBits_eq_iff {k i j : Nat} {n m : Int32} (hk : k ≤ 32) (hn : n.toInt = i)
    (hm : m.toInt = j) : ∃ v w, evaluate n = .ok v ∧ evaluate m = .ok w ∧
      (v.toInt ≡ w.toInt [ZMOD 2 ^ k] ↔ Nat.fib i ≡ Nat.fib j [MOD 2 ^ k]) ∧
      (lowBits k v = lowBits k w ↔ Nat.fib i ≡ Nat.fib j [MOD 2 ^ k]) := by
  refine ⟨_, _, evaluate_of_toInt_eq hn, evaluate_of_toInt_eq hm, ?_, lowBits_ofNat_eq_iff hk _ _⟩
  rw [← lowBits_eq_iff hk]
  exact lowBits_ofNat_eq_iff hk _ _

theorem exists_lowBits_ne {k i p : Nat} (hk : k ≤ 32)
    (hmax : ((i + p : Nat) : Int) ≤ Int32.maxValue.toInt)
    (h : ¬ Nat.fib i ≡ Nat.fib (i + p) [MOD 2 ^ k]) :
    ∃ n m v w : Int32, 0 ≤ n ∧ m.toInt = n.toInt + p ∧
      evaluate n = .ok v ∧ evaluate m = .ok w ∧
      ¬ v.toInt ≡ w.toInt [ZMOD 2 ^ k] ∧ lowBits k v ≠ lowBits k w := by
  obtain ⟨n, hn⟩ := exists_toInt_eq (i := i) (by omega)
  obtain ⟨m, hm⟩ := exists_toInt_eq hmax
  obtain ⟨v, w, hv, hw, hmod, hbits⟩ := evaluate_lowBits_eq_iff hk hn hm
  exact ⟨n, m, v, w, nonneg_iff.mpr (by omega), by omega, hv, hw, hmod.not.mpr h, hbits.not.mpr h⟩

/-- **The period of the low bits.** The outcomes at two indices that are `3 * 2 ^ (k - 1)` apart are
values with the same low `k` bits: as integers, wrapped or not, they are congruent modulo `2 ^ k`.
No smaller distance keeps the low `k` bits of all outcomes. -/
theorem evaluate_lowBits_periodic {k : Nat} (h1 : 1 ≤ k) (h30 : k ≤ 30) :
    (∀ n : Int32, 0 ≤ n → n.toInt + 3 * 2 ^ (k - 1) ≤ Int32.maxValue.toInt →
      ∃ m v w : Int32, m.toInt = n.toInt + 3 * 2 ^ (k - 1) ∧
        evaluate n = .ok v ∧ evaluate m = .ok w ∧
        v.toInt ≡ w.toInt [ZMOD 2 ^ k] ∧ lowBits k v = lowBits k w) ∧
    (∀ p : Nat, 0 < p → p < 3 * 2 ^ (k - 1) →
      ∃ n m v w : Int32, 0 ≤ n ∧ m.toInt = n.toInt + p ∧
        evaluate n = .ok v ∧ evaluate m = .ok w ∧
        ¬ v.toInt ≡ w.toInt [ZMOD 2 ^ k] ∧ lowBits k v ≠ lowBits k w) := by
  obtain ⟨j, rfl⟩ := Nat.exists_eq_add_of_le' h1
  have hk : j + 1 ≤ 32 := by omega
  rw [Nat.add_sub_cancel]
  constructor
  · intro n hn hmax
    obtain ⟨i, hi⟩ := Int.eq_ofNat_of_zero_le (nonneg_iff.mp hn)
    have hcast : ((i + 3 * 2 ^ j : Nat) : Int) = n.toInt + 3 * 2 ^ j := by
      rw [hi]
      push_cast
      rfl
    obtain ⟨m, hm⟩ := exists_toInt_eq (i := i + 3 * 2 ^ j) (by rwa [hcast])
    have hperiod : Nat.fib i ≡ Nat.fib (i + 3 * 2 ^ j) [MOD 2 ^ (j + 1)] :=
      (((restarts_two_pow_iff j _).mpr dvd_rfl).fib_add i).symm
    obtain ⟨v, w, hv, hw, hmod, hbits⟩ := evaluate_lowBits_eq_iff hk hi hm
    exact ⟨m, v, w, hm.trans hcast, hv, hw, hmod.mpr hperiod, hbits.mpr hperiod⟩
  · intro p hp hlt
    have hpow : 2 ^ j ≤ 2 ^ 29 := Nat.pow_le_pow_right (by decide) (by omega)
    have hmax (i : Nat) (hi : i ≤ 1) : ((i + p : Nat) : Int) ≤ Int32.maxValue.toInt := by
      rw [Int32.toInt_maxValue]
      omega
    -- one of the first two outcomes tells `p` from a restart
    have hno : ¬ Restarts (2 ^ (j + 1)) p := by
      rw [restarts_two_pow_iff]
      exact Nat.not_dvd_of_pos_of_lt hp hlt
    by_cases hzero : Nat.fib 0 ≡ Nat.fib (0 + p) [MOD 2 ^ (j + 1)]
    · refine exists_lowBits_ne hk (hmax 1 le_rfl) fun hone => hno ?_
      exact restarts_of_fib_add hzero.symm hone.symm
    · exact exists_lowBits_ne hk (hmax 0 (by decide)) hzero

/-- The last two outcomes of one period apart modulo `2 ^ 30`; the second is negative. -/
theorem evaluate_lowBits_largest_index :
    1 ≤ 30 ∧ 30 ≤ 30 ∧ (0 : Int32) ≤ 536870911 ∧
    (536870911 : Int32).toInt + 3 * 2 ^ (30 - 1) ≤ Int32.maxValue.toInt ∧
    ∃ v w, evaluate 536870911 = .ok v ∧ evaluate 2147483647 = .ok w ∧
      lowBits 30 v = lowBits 30 w := by
  have h1 : 1 ≤ 30 := by decide
  have h30 : 30 ≤ 30 := le_rfl
  have hn : (0 : Int32) ≤ 536870911 := by decide
  have hmax : (536870911 : Int32).toInt + 3 * 2 ^ (30 - 1) ≤ Int32.maxValue.toInt := by decide
  obtain ⟨m, v, w, hm, hv, hw, -, hbits⟩ := (evaluate_lowBits_periodic h1 h30).1 _ hn hmax
  obtain rfl : m = 2147483647 := Int32.toInt_inj.mp (hm.trans (by decide))
  exact ⟨h1, h30, hn, hmax, v, w, hv, hw, hbits⟩

/-! ## Pairs of outcomes -/

/-- **No pair of consecutive outcomes occurs twice.** Single values may collide, but two indices
that have the same value, and whose successors have the same value, are equal. -/
theorem evaluate_consecutive_eq_iff {a b : Int32} (ha : 0 ≤ a) (hb : 0 ≤ b)
    (ha' : a.toInt + 1 ≤ Int32.maxValue.toInt) (hb' : b.toInt + 1 ≤ Int32.maxValue.toInt) :
    evaluate a = evaluate b ∧ evaluate (a + 1) = evaluate (b + 1) ↔ a = b := by
  constructor
  · rintro ⟨h, h'⟩
    obtain ⟨i, hi⟩ := Int.eq_ofNat_of_zero_le (nonneg_iff.mp ha)
    obtain ⟨j, hj⟩ := Int.eq_ofNat_of_zero_le (nonneg_iff.mp hb)
    have hi' : (a + 1).toInt = (i + 1 : Nat) := toInt_add_eq hi toInt_one_eq (by omega)
    have hj' : (b + 1).toInt = (j + 1 : Nat) := toInt_add_eq hj toInt_one_eq (by omega)
    rw [evaluate_of_toInt_eq hi, evaluate_of_toInt_eq hj, Except.ok.injEq,
      ofNat_eq_ofNat_iff] at h
    rw [evaluate_of_toInt_eq hi', evaluate_of_toInt_eq hj', Except.ok.injEq,
      ofNat_eq_ofNat_iff] at h'
    have hmod : i ≡ j [MOD 3 * 2 ^ 31] := modEq_of_fib_modEq h h'
    -- the period is larger than both indices
    have hij : i = j := by
      rw [Int32.toInt_maxValue] at ha' hb'
      exact hmod.eq_of_lt_of_lt (by omega) (by omega)
    rw [← Int32.toInt_inj, hi, hj, hij]
  · rintro rfl
    exact ⟨rfl, rfl⟩

/-- Two indices past the first wrapping that have the same value; those after them differ. -/
theorem evaluate_wrapped_collision :
    (0 : Int32) ≤ 49154 ∧ (0 : Int32) ≤ 147457 ∧
    (49154 : Int32).toInt + 1 ≤ Int32.maxValue.toInt ∧
    (147457 : Int32).toInt + 1 ≤ Int32.maxValue.toInt ∧
    evaluate 49154 = evaluate 147457 ∧ evaluate (49154 + 1) ≠ evaluate (147457 + 1) := by
  have ha : (0 : Int32) ≤ 49154 := by decide
  have hb : (0 : Int32) ≤ 147457 := by decide
  have ha' : (49154 : Int32).toInt + 1 ≤ Int32.maxValue.toInt := by decide
  have hb' : (147457 : Int32).toInt + 1 ≤ Int32.maxValue.toInt := by decide
  have hvalue : (Pair.byDoubling 49154).current = (Pair.byDoubling 147457).current := by cbv
  have heq : evaluate 49154 = evaluate 147457 := by
    rw [evaluate_eq_byDoubling ha, evaluate_eq_byDoubling hb]
    exact congrArg Except.ok hvalue
  refine ⟨ha, hb, ha', hb', heq, fun hnext => ?_⟩
  exact absurd ((evaluate_consecutive_eq_iff ha hb ha' hb').mp ⟨heq, hnext⟩) (by decide)

end Fibonacci
