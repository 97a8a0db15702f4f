set_option autoImplicit false

/-! # Similarity of two words

The Jaro similarity of two lists of characters `a` and `b`, an exact fraction between 0 and 1.

Two positions may be matched if they hold the same character and are at most `window a b`
apart. The characters of `a` are taken in order, and each is matched to the first position of
`b` that is still free (`matching`). The matched characters of `a` and those of `b`, each read
in its own order, are the same characters in two orders; every two places where the two orders
differ make a transposition. With `m` matched pairs and `t` transpositions the similarity is

    (m / |a| + m / |b| + (m - t) / m) / 3,

and 0 if nothing matches, as when one of the words is empty. Lengths and positions count
characters.
-/

namespace Fibonacci

namespace Similarity

/-- How far apart matched positions may be. -/
def window (a b : List Char) : Nat := max a.length b.length / 2 - 1

/-- The first free position of `b` with the character `c`, at most `w` away from position `i`. -/
def partner? (w : Nat) (b : List Char) (taken : List Nat) (i : Nat) (c : Char) : Option Nat :=
  (List.range b.length).find? fun j =>
    decide (b[j]? = some c) && decide (i ≤ j + w) && decide (j ≤ i + w) && decide (j ∉ taken)

/-- Matches the characters from position `i` on, with the positions `taken` of `b` no longer
free. The pairs hold a position of the first word and one of `b`. -/
def matchFrom (w : Nat) (b : List Char) (i : Nat) (taken : List Nat) :
    List Char → List (Nat × Nat)
  | [] => []
  | c :: rest =>
    match partner? w b taken i c with
    | some j => (i, j) :: matchFrom w b (i + 1) (j :: taken) rest
    | none => matchFrom w b (i + 1) taken rest

/-- The matched pairs of positions, in the order of the positions of `a`. -/
def matching (a b : List Char) : List (Nat × Nat) := matchFrom (window a b) b 0 [] a

/-- The characters of a word at the given positions, in the order of the word. -/
def lettersAt (positions : List Nat) (s : List Char) : List Char :=
  (s.zipIdx.filter fun p => decide (p.2 ∈ positions)).map Prod.fst

/-- The matched characters of `a`, in the order of `a`. -/
def lettersLeft (a b : List Char) : List Char := lettersAt ((matching a b).map Prod.fst) a

/-- The matched characters of `b`, in the order of `b`. -/
def lettersRight (a b : List Char) : List Char := lettersAt ((matching a b).map Prod.snd) b

/-- The number of places where the matched characters of the two words differ. -/
def mismatches (a b : List Char) : Nat :=
  ((lettersLeft a b).zip (lettersRight a b)).countP fun p => decide (p.1 ≠ p.2)

/-- The number of transpositions: half of the mismatches, rounded down. -/
def transpositions (a b : List Char) : Nat := mismatches a b / 2

end Similarity

open Similarity

/-- The similarity of two words. -/
def similarity (a b : List Char) : Rat :=
  let m := (matching a b).length
  let inPlace := m - transpositions a b
  if m = 0 then 0
  else ((m : Rat) / a.length + (m : Rat) / b.length + (inPlace : Rat) / m) / 3

end Fibonacci
