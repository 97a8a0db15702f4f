set_option autoImplicit false

/-! # Decimal forms of 32-bit integers

The decimal form of a natural number has no leading zero, except that zero is written `0`. A
negative integer has a `-` before the form of its absolute value. There is no `+`, no `-0` and
no separator, so each integer has one form.

`Decimal.write` gives the form of a 32-bit integer. `Decimal.read?` accepts exactly such forms:
it checks the leading zero, the digits, the sign and the range on its own.
-/

namespace Fibonacci.Decimal

/-! ## Writing -/

/-- The decimal form of an integer. -/
def chars : Int → List Char
  | .ofNat n => Nat.toDigits 10 n
  | .negSucc n => '-' :: Nat.toDigits 10 (n + 1)

/-- The decimal form of a 32-bit integer. -/
def write (n : Int32) : String := String.ofList (chars n.toInt)

/-! ## Reading -/

/-- Reads a natural number: at least one digit, and a leading zero only if it is the only digit. -/
def natural? (s : List Char) : Option Nat :=
  if s.isEmpty then none
  else if s.head? = some '0' ∧ s.length ≠ 1 then none
  else if s.all Char.isDigit then some (Nat.ofDigitChars 10 s 0)
  else none

/-- Reads an integer: a natural number, or a `-` and a natural number other than zero. -/
def integer? : List Char → Option Int
  | [] => none
  | c :: s =>
    if c = '-' then
      match natural? s with
      | some (n + 1) => some (Int.negSucc n)
      | _ => none
    else (natural? (c :: s)).map Int.ofNat

/-- Reads a 32-bit integer. -/
def word? (s : List Char) : Option Int32 :=
  match integer? s with
  | some v =>
    if Int32.minValue.toInt ≤ v ∧ v ≤ Int32.maxValue.toInt then some (Int32.ofInt v) else none
  | none => none

/-- Reads a 32-bit integer from a text. -/
def read? (s : String) : Option Int32 := word? s.toList

end Fibonacci.Decimal
