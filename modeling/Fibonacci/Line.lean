import Fibonacci.Outcome

set_option autoImplicit false

/-! # Output lines

A line states that the term at an index is a value: `fib(42) is 267914296`. It holds two 32-bit
integers and does not check that one is the term at the other. `Line.render` writes a line
without a line break, and `Line.read?` accepts exactly what `Line.render` writes.
-/

namespace Fibonacci

/-- The statement that the term at `index` is `value`. -/
structure Line where
  index : Int32
  value : Int32
  deriving DecidableEq, Repr

/-- The text of a line. -/
def Line.render (l : Line) : String :=
  "fib(" ++ Decimal.write l.index ++ ") is " ++ Decimal.write l.value

/-- Reads the text of a line. The first closing bracket ends the index. -/
def Line.read? (s : String) : Option Line := do
  let rest ← "fib(".toList.isPrefixOf? s.toList
  let index ← Decimal.word? (rest.takeWhile (· != ')'))
  let rest ← ") is ".toList.isPrefixOf? (rest.dropWhile (· != ')'))
  let value ← Decimal.word? rest
  return ⟨index, value⟩

/-- The line for an index, or the error if it has no term. -/
def lineAt (n : Int32) : Except IndexError Line := (evaluate n).map (Line.mk n)

theorem lineAt_of_nonneg {n : Int32} (h : 0 ≤ n) : lineAt n = .ok ⟨n, term n h⟩ := by
  rw [lineAt, evaluate_of_nonneg h]
  rfl

theorem lineAt_of_neg {n : Int32} (h : ¬0 ≤ n) : lineAt n = .error (.invalid n) := by
  rw [lineAt, evaluate_of_neg h]
  rfl

/-- The text to show for an index: its line, or the message of the error. -/
def report (n : Int32) : String :=
  match lineAt n with
  | .ok l => l.render
  | .error e => e.message

theorem report_of_nonneg {n : Int32} (h : 0 ≤ n) : report n = Line.render ⟨n, term n h⟩ := by
  rw [report, lineAt_of_nonneg h]

theorem report_of_neg {n : Int32} (h : ¬0 ≤ n) : report n = (IndexError.invalid n).message := by
  rw [report, lineAt_of_neg h]

end Fibonacci
