import Fibonacci.Decimal
import Mathlib.Data.List.Basic

set_option autoImplicit false

/-! # The decimal form of a 32-bit integer is unique

`Numeral s v` is the grammar: the text `s` is zero, or digits without a leading zero, or a `-` and
such digits, and `v` is the integer that the digits say. It does not mention how numbers are written
or read. Writing gives a numeral of the integer and there is no other (`numeral_iff`); reading
accepts the numerals of 32-bit integers and no other text (`word?_eq_some_iff`).
-/

namespace Fibonacci

/-- What a reader accepts as the text of one value only is the text of no other value. -/
theorem injective_of_read {α : Type} {read : String → Option α} {text : α → String}
    (h : ∀ s x, read s = some x ↔ text x = s) : Function.Injective text := by
  intro x y hxy
  have hx := (h (text y) x).mpr hxy
  have hy := (h (text y) y).mpr rfl
  exact Option.some.inj (hx.symm.trans hy)

namespace Decimal

/-! ## The grammar -/

/-- One or more digits, the first of them not zero. -/
structure Significant (s : List Char) : Prop where
  ne_nil : s ≠ []
  digits : ∀ c ∈ s, c.isDigit = true
  head : s.head? ≠ some '0'

/-- The text is a decimal numeral and says the integer. -/
inductive Numeral : List Char → Int → Prop where
  | zero : Numeral ['0'] 0
  | positive {s : List Char} (h : Significant s) : Numeral s (Nat.ofDigitChars 10 s 0)
  | negative {s : List Char} (h : Significant s) : Numeral ('-' :: s) (-Nat.ofDigitChars 10 s 0)

/-- The text is the numeral of a 32-bit integer. -/
def WordNumeral (s : List Char) : Prop :=
  ∃ v, Numeral s v ∧ Int32.minValue.toInt ≤ v ∧ v ≤ Int32.maxValue.toInt

/-! ## Digits -/

theorem toNat_of_isDigit {c : Char} (h : c.isDigit = true) : 48 ≤ c.toNat ∧ c.toNat ≤ 57 := by
  rw [Char.isDigit, Bool.and_eq_true, decide_eq_true_eq, decide_eq_true_eq] at h
  exact h

theorem digitChar_toNat_sub {c : Char} (h : c.isDigit = true) :
    Nat.digitChar (c.toNat - 48) = c := by
  have hc := toNat_of_isDigit h
  apply Char.toNat_inj.mp
  rw [Nat.toNat_digitChar_of_lt_ten (by omega)]
  omega

/-- Reading further digits writes them behind what has been read. -/
theorem toDigits_ofDigitChars_append {n : Nat} (hn : 0 < n) {s : List Char}
    (hs : ∀ c ∈ s, c.isDigit = true) :
    Nat.toDigits 10 (Nat.ofDigitChars 10 s n) = Nat.toDigits 10 n ++ s := by
  induction s generalizing n with
  | nil => rw [Nat.ofDigitChars_nil, List.append_nil]
  | cons c s ih =>
      have hc : c.isDigit = true := hs c List.mem_cons_self
      have hbound := toNat_of_isDigit hc
      have hlt : c.toNat - 48 < 10 := by omega
      have hone : Nat.toDigits 10 (10 * n + (c.toNat - 48)) = Nat.toDigits 10 n ++ [c] := by
        rw [← Nat.toDigits_append_toDigits (by decide) hn hlt, Nat.toDigits_of_lt_base hlt,
          digitChar_toNat_sub hc]
      calc Nat.toDigits 10 (Nat.ofDigitChars 10 (c :: s) n)
          = Nat.toDigits 10 (Nat.ofDigitChars 10 s (10 * n + (c.toNat - 48))) := by
            rw [Nat.ofDigitChars_cons]
            rfl
        _ = Nat.toDigits 10 (10 * n + (c.toNat - 48)) ++ s :=
            ih (by omega) fun d hd => hs d (List.mem_cons_of_mem c hd)
        _ = Nat.toDigits 10 n ++ c :: s := by rw [hone, List.append_assoc, List.singleton_append]

/-- Significant digits are what is written for their value. -/
theorem Significant.toDigits_ofDigitChars {s : List Char} (h : Significant s) :
    Nat.toDigits 10 (Nat.ofDigitChars 10 s 0) = s := by
  cases s with
  | nil => exact absurd rfl h.ne_nil
  | cons c s =>
      have hc : c.isDigit = true := h.digits c List.mem_cons_self
      have hbound := toNat_of_isDigit hc
      have hzero : c.toNat ≠ 48 := fun he => h.head (congrArg some (Char.toNat_inj.mp he))
      have hvalue : Nat.ofDigitChars 10 (c :: s) 0 = Nat.ofDigitChars 10 s (c.toNat - 48) := by
        rw [Nat.ofDigitChars_cons, Nat.mul_zero, Nat.zero_add]
        rfl
      rw [hvalue, toDigits_ofDigitChars_append (by omega) fun d hd =>
        h.digits d (List.mem_cons_of_mem c hd), Nat.toDigits_of_lt_base (by omega),
        digitChar_toNat_sub hc, List.singleton_append]

theorem isDigit_of_mem_toDigits {c : Char} {n : Nat} (h : c ∈ Nat.toDigits 10 n) :
    c.isDigit = true :=
  Nat.isDigit_of_mem_toDigits (by decide) (by decide) h

theorem not_mem_toDigits {c : Char} (h : c.isDigit = false) (n : Nat) : c ∉ Nat.toDigits 10 n := by
  intro hc
  rw [isDigit_of_mem_toDigits hc] at h
  cases h

theorem head?_toDigits {n : Nat} (h : 0 < n) : (Nat.toDigits 10 n).head? ≠ some '0' := by
  induction n using Nat.strongRecOn with
  | ind n ih =>
      by_cases hn : n < 10
      · rw [Nat.toDigits_of_lt_base hn, List.head?_cons, ne_eq, Option.some.injEq,
          Nat.digitChar_eq_zero]
        omega
      · -- the last digit does not matter for the first one
        obtain ⟨c, t, ht⟩ := List.exists_cons_of_ne_nil (Nat.toDigits_ne_nil (n := n / 10) (b := 10))
        have hc := ih (n / 10) (by omega) (by omega)
        rw [ht, List.head?_cons] at hc
        rw [Nat.toDigits_of_base_le (by decide) (Nat.le_of_not_lt hn), ht, List.cons_append,
          List.head?_cons]
        exact hc

theorem significant_toDigits {n : Nat} (h : 0 < n) : Significant (Nat.toDigits 10 n) where
  ne_nil := Nat.toDigits_ne_nil
  digits := fun _ hc => isDigit_of_mem_toDigits hc
  head := head?_toDigits h

theorem Significant.ofDigitChars_pos {s : List Char} (h : Significant s) :
    0 < Nat.ofDigitChars 10 s 0 := by
  rw [Nat.pos_iff_ne_zero]
  intro hzero
  have hs := h.toDigits_ofDigitChars
  rw [hzero, Nat.toDigits_zero] at hs
  exact h.head (hs ▸ rfl)

/-! ## Writing -/

theorem chars_natCast (n : Nat) : chars n = Nat.toDigits 10 n := rfl

theorem chars_neg {n : Nat} (h : 0 < n) : chars (-n) = '-' :: Nat.toDigits 10 n := by
  obtain ⟨m, rfl⟩ := Nat.exists_eq_add_of_le' h
  rfl

theorem numeral_natCast (n : Nat) : Numeral (Nat.toDigits 10 n) n := by
  rcases Nat.eq_zero_or_pos n with rfl | h
  · exact .zero
  · have hnumeral := Numeral.positive (significant_toDigits h)
    rwa [Nat.ofDigitChars_ten_toDigits] at hnumeral

theorem numeral_neg {n : Nat} (h : 0 < n) : Numeral ('-' :: Nat.toDigits 10 n) (-n) := by
  have hnumeral := Numeral.negative (significant_toDigits h)
  rwa [Nat.ofDigitChars_ten_toDigits] at hnumeral

/-- **One numeral for each integer.** It is what is written for the integer. -/
theorem numeral_iff (s : List Char) (v : Int) : Numeral s v ↔ s = chars v := by
  constructor
  · intro h
    cases h with
    | zero => rfl
    | positive h => rw [chars_natCast, h.toDigits_ofDigitChars]
    | negative h => rw [chars_neg h.ofDigitChars_pos, h.toDigits_ofDigitChars]
  · rintro rfl
    cases v with
    | ofNat n => exact numeral_natCast n
    | negSucc n => exact numeral_neg (Nat.succ_pos n)

theorem wordNumeral_iff (s : List Char) : WordNumeral s ↔ ∃ n : Int32, s = chars n.toInt := by
  constructor
  · rintro ⟨v, hv, hmin, hmax⟩
    rw [numeral_iff] at hv
    refine ⟨Int32.ofInt v, ?_⟩
    rw [Int32.toInt_ofInt_of_le hmin (Int.lt_of_le_sub_one hmax), hv]
  · rintro ⟨n, rfl⟩
    exact ⟨n.toInt, (numeral_iff _ _).mpr rfl, n.le_toInt, Int.le_of_lt_add_one n.toInt_lt⟩

theorem toList_write (n : Int32) : (write n).toList = chars n.toInt := String.toList_ofList

/-- Apart from digits only a `-` is written. -/
theorem not_mem_chars {c : Char} (hdigit : c.isDigit = false) (hminus : c ≠ '-') (v : Int) :
    c ∉ chars v := by
  cases v with
  | ofNat n => exact not_mem_toDigits hdigit n
  | negSucc n =>
      intro hc
      rcases List.mem_cons.mp hc with rfl | hc
      · exact hminus rfl
      · exact not_mem_toDigits hdigit (n + 1) hc

/-! ## Reading -/

theorem natural?_eq_some_iff (s : List Char) (n : Nat) :
    natural? s = some n ↔ s = Nat.toDigits 10 n := by
  rw [natural?]
  split_ifs with hempty hzero hdigits
  · rw [List.isEmpty_iff] at hempty
    subst hempty
    exact iff_of_false nofun fun h => Nat.toDigits_ne_nil h.symm
  · -- a leading zero is written for zero only, and then it stands alone
    refine iff_of_false nofun fun h => ?_
    rcases Nat.eq_zero_or_pos n with rfl | hn
    · exact hzero.2 (by rw [h, Nat.toDigits_zero]; rfl)
    · exact head?_toDigits hn (h ▸ hzero.1)
  · rw [Option.some.injEq]
    constructor
    · rintro rfl
      by_cases hhead : s.head? = some '0'
      · have hlength : s.length = 1 := by
          by_contra hne
          exact hzero ⟨hhead, hne⟩
        obtain ⟨c, rfl⟩ := List.length_eq_one_iff.mp hlength
        obtain rfl : c = '0' := Option.some.inj hhead
        rfl
      · have hs : Significant s :=
          ⟨fun he => hempty (List.isEmpty_iff.mpr he), List.all_eq_true.mp hdigits, hhead⟩
        exact hs.toDigits_ofDigitChars.symm
    · rintro rfl
      exact Nat.ofDigitChars_ten_toDigits
  · refine iff_of_false nofun fun h => hdigits ?_
    rw [List.all_eq_true, h]
    exact fun c hc => isDigit_of_mem_toDigits hc

theorem integer?_eq_some_iff (s : List Char) (v : Int) : integer? s = some v ↔ s = chars v := by
  cases s with
  | nil =>
      refine iff_of_false nofun fun h => ?_
      cases v with
      | ofNat n => exact Nat.toDigits_ne_nil h.symm
      | negSucc n => exact List.cons_ne_nil _ _ h.symm
  | cons c s =>
      by_cases hc : c = '-'
      · subst hc
        rw [integer?, if_pos rfl]
        cases v with
        | ofNat n =>
            have hminus : '-' :: s ≠ Nat.toDigits 10 n := fun h =>
              not_mem_toDigits (c := '-') (by decide) n (h ▸ List.mem_cons_self)
            refine iff_of_false ?_ hminus
            split
            · exact fun h => Int.noConfusion (Option.some.inj h)
            · exact nofun
        | negSucc n =>
            rw [chars, List.cons.injEq, ← natural?_eq_some_iff]
            split
            · next m hm =>
                rw [hm, Option.some.injEq, Option.some.injEq, Int.negSucc.injEq, Nat.succ.injEq]
                exact (and_iff_right rfl).symm
            · next hm => exact iff_of_false nofun fun h => hm n h.2
      · rw [integer?, if_neg hc, Option.map_eq_some_iff]
        cases v with
        | ofNat n =>
            rw [chars, ← natural?_eq_some_iff]
            constructor
            · rintro ⟨m, hm, he⟩
              rw [hm, Int.ofNat.inj he]
            · exact fun h => ⟨n, h, rfl⟩
        | negSucc n =>
            refine iff_of_false ?_ fun h => hc (List.cons.inj h).1
            rintro ⟨m, -, he⟩
            cases he

/-- **Reading accepts what writing gives, and nothing else.** -/
theorem word?_eq_some_iff (s : List Char) (n : Int32) : word? s = some n ↔ s = chars n.toInt := by
  rw [← integer?_eq_some_iff, word?]
  cases hs : integer? s with
  | none => exact iff_of_false nofun nofun
  | some v =>
      rw [Option.some.injEq]
      constructor
      · intro h
        by_cases hrange : Int32.minValue.toInt ≤ v ∧ v ≤ Int32.maxValue.toInt
        · simp only [if_pos hrange, Option.some.injEq] at h
          rw [← h, Int32.toInt_ofInt_of_le hrange.1 (Int.lt_of_le_sub_one hrange.2)]
        · simp only [if_neg hrange] at h
          cases h
      · rintro rfl
        have hrange : Int32.minValue.toInt ≤ n.toInt ∧ n.toInt ≤ Int32.maxValue.toInt :=
          ⟨n.le_toInt, Int.le_of_lt_add_one n.toInt_lt⟩
        simp only [if_pos hrange, Int32.ofInt_toInt]

theorem read?_eq_some_iff (s : String) (n : Int32) : read? s = some n ↔ write n = s := by
  rw [read?, word?_eq_some_iff, ← toList_write, String.toList_inj, eq_comm]

theorem write_injective : Function.Injective write := injective_of_read read?_eq_some_iff

end Decimal

end Fibonacci
