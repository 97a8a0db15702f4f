import Fibonacci.Decimal
import Fibonacci.Term

set_option autoImplicit false

/-! # Evaluating an index

Every 32-bit index has an outcome: the term at the index, or an error that carries the index if
it is negative. A range of indices has the list of the outcomes in order; an error does not end
the list.

An error has two texts: a message for people, and the inspected form, which shows how the value
is built. Outcomes have an inspected form too.
-/

namespace Fibonacci

/-! ## Errors -/

/-- Why an index has no term. -/
inductive IndexError where
  /-- The sequence starts at zero, and the index is not in it. -/
  | invalid (index : Int32)
  deriving DecidableEq, Repr

/-- The message for people. -/
def IndexError.message : IndexError → String
  | .invalid n => "fib: index must be non-negative, got " ++ Decimal.write n

/-- The inspected form. -/
def IndexError.inspect : IndexError → String
  | .invalid n => "InvalidArgument(" ++ Decimal.write n ++ ")"

/-! ## Outcomes -/

/-- What evaluating an index gives. -/
abbrev Outcome := Except IndexError Int32

/-- Outcomes are equal as values with values and as errors with errors, never across. -/
instance : DecidableEq Outcome
  | .ok v, .ok w =>
    if h : v = w then .isTrue (by rw [h]) else .isFalse fun e => h (Except.ok.inj e)
  | .error d, .error e =>
    if h : d = e then .isTrue (by rw [h]) else .isFalse fun e => h (Except.error.inj e)
  | .ok _, .error _ => .isFalse nofun
  | .error _, .ok _ => .isFalse nofun

/-- The inspected form of an outcome. -/
def Outcome.inspect : Outcome → String
  | .ok v => "Ok(" ++ Decimal.write v ++ ")"
  | .error e => "Err(" ++ e.inspect ++ ")"

/-- The outcome at an index. -/
def evaluate (n : Int32) : Outcome :=
  if h : 0 ≤ n then .ok (term n h) else .error (.invalid n)

theorem evaluate_of_nonneg {n : Int32} (h : 0 ≤ n) : evaluate n = .ok (term n h) := dif_pos h

theorem evaluate_of_neg {n : Int32} (h : ¬0 ≤ n) : evaluate n = .error (.invalid n) := dif_neg h

/-! ## Ranges -/

/-- The outcomes from the index `first` to the index `last`, both included. The positions are
counted without bound, so the range may end at the largest word. -/
def evaluateRange (first last : Int32) : List Outcome :=
  (List.range (last.toInt - first.toInt + 1).toNat).map fun k : Nat =>
    evaluate (Int32.ofInt (first.toInt + k))

theorem length_evaluateRange (first last : Int32) :
    (evaluateRange first last).length = (last.toInt - first.toInt + 1).toNat := by
  rw [evaluateRange, List.length_map, List.length_range]

end Fibonacci
