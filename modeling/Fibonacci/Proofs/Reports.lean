import Fibonacci.Proofs.Congruence
import Fibonacci.Proofs.LineForm

set_option autoImplicit false

/-! # Reports can be read back

The report on an index is its line, or the message of the error if it has none. Lines and messages
part at their fourth character (`render_ne_message`), and each kind of text has an exact reader, so
a report is read back by trying one reader and then the other (`readReport?_report`). What is read
is the index and its outcome: no two indices have one report, although many share a value.
-/

namespace Fibonacci

/-! ## Reading messages -/

namespace IndexError

/-- Reads the message of an error. -/
def read? (s : String) : Option IndexError := do
  let rest ← "fib: index must be non-negative, got ".toList.isPrefixOf? s.toList
  let index ← Decimal.word? rest
  return .invalid index

theorem toList_message (n : Int32) :
    (invalid n).message.toList
      = "fib: index must be non-negative, got ".toList ++ Decimal.chars n.toInt := by
  show ("fib: index must be non-negative, got " ++ Decimal.write n).toList = _
  rw [String.toList_append, Decimal.toList_write]

/-- Reading accepts messages, and nothing else. -/
theorem read?_eq_some_iff (s : String) (e : IndexError) : read? s = some e ↔ e.message = s := by
  obtain ⟨n⟩ := e
  rw [← String.toList_inj, toList_message, read?]
  simp only [Option.bind_eq_bind, Option.bind_eq_some_iff, List.isPrefixOf?_eq_some_iff_append_eq,
    Decimal.word?_eq_some_iff]
  constructor
  · rintro ⟨rest, hrest, m, rfl, h⟩
    obtain rfl := invalid.inj (Option.some.inj h)
    exact hrest
  · exact fun h => ⟨_, h, n, rfl, rfl⟩

end IndexError

/-- No line is the message of an error. -/
theorem render_ne_message (l : Line) (e : IndexError) : l.render ≠ e.message := by
  obtain ⟨n⟩ := e
  intro h
  -- the two texts part right behind `fib`
  have hLine : l.render.toList[3]? = some '(' := by
    rw [Line.toList_render]
    rfl
  have hMessage : (IndexError.invalid n).message.toList[3]? = some ':' := by
    rw [IndexError.toList_message]
    rfl
  rw [h, hMessage] at hLine
  exact absurd hLine (by decide)

/-! ## Reading reports -/

/-- Reads a report: the index, and what the report says to be its outcome. -/
def readReport? (s : String) : Option (Int32 × Outcome) :=
  match Line.read? s, IndexError.read? s with
  | some l, _ => some (l.index, .ok l.value)
  | none, some (.invalid n) => some (n, .error (.invalid n))
  | none, none => none

theorem line_read?_message (e : IndexError) : Line.read? e.message = none := by
  rw [Option.eq_none_iff_forall_ne_some]
  intro l hl
  exact render_ne_message l e ((Line.read?_eq_some_iff _ _).mp hl)

theorem indexError_read?_render (l : Line) : IndexError.read? l.render = none := by
  rw [Option.eq_none_iff_forall_ne_some]
  intro e he
  exact render_ne_message l e ((IndexError.read?_eq_some_iff _ _).mp he).symm

theorem readReport?_render (l : Line) : readReport? l.render = some (l.index, .ok l.value) := by
  rw [readReport?, (Line.read?_eq_some_iff _ l).mpr rfl]

theorem readReport?_message (n : Int32) :
    readReport? (IndexError.invalid n).message = some (n, .error (.invalid n)) := by
  rw [readReport?, line_read?_message, (IndexError.read?_eq_some_iff _ (.invalid n)).mpr rfl]

/-- A report is read back as its index and the outcome there. -/
theorem readReport?_report (n : Int32) : readReport? (report n) = some (n, evaluate n) := by
  by_cases h : 0 ≤ n
  · rw [report_of_nonneg h, readReport?_render, evaluate_of_nonneg h]
  · rw [report_of_neg h, readReport?_message, evaluate_of_neg h]

theorem report_injective : Function.Injective report := by
  intro m n h
  have hm := readReport?_report m
  rw [h, readReport?_report n] at hm
  exact (Prod.mk.inj (Option.some.inj hm)).1.symm

/-- A report reads as a line exactly for the indices that have one, and as no other line. -/
theorem read?_report_eq_some_iff (n : Int32) (l : Line) :
    Line.read? (report n) = some l ↔
      0 ≤ n ∧ l.index = n ∧ l.value.toInt ≡ Nat.fib n.toNatClampNeg [ZMOD 2 ^ 32] := by
  by_cases h : 0 ≤ n
  · rw [report_of_nonneg h, (Line.read?_eq_some_iff _ _).mpr rfl, term_eq_ofNat_fib n h,
      ← ofNat_eq_iff_modEq, Option.some.injEq]
    constructor
    · rintro rfl
      exact ⟨h, rfl, rfl⟩
    · rintro ⟨-, rfl, hValue⟩
      rw [hValue]
  · rw [report_of_neg h, line_read?_message]
    simp [h]

/-- A report reads as a message exactly for the negative indices, and as no other message. -/
theorem indexError_read?_report_eq_some_iff (m n : Int32) :
    IndexError.read? (report n) = some (.invalid m) ↔ m = n ∧ m < 0 := by
  by_cases h : 0 ≤ n
  · rw [report_of_nonneg h, indexError_read?_render]
    refine iff_of_false nofun ?_
    rintro ⟨rfl, hneg⟩
    exact Int32.not_lt.mpr h hneg
  · rw [report_of_neg h, (IndexError.read?_eq_some_iff _ _).mpr rfl, Option.some.injEq,
      IndexError.invalid.injEq, eq_comm]
    constructor
    · rintro rfl
      exact ⟨rfl, Int32.not_le.mp h⟩
    · exact fun hm => hm.1

/-- **Reports lose nothing.** From the report on an index both the index and its outcome are read
back, so that no two indices have one report, although two indices may have one value. No line is a
message. A report reads as a line only for an index that is not negative, and then as this index
with the unbounded term reduced to a word; it reads as a message only for a negative index, and then
with this index. -/
theorem report_readable :
    (∀ n, readReport? (report n) = some (n, evaluate n)) ∧
    Function.Injective report ∧
    (∃ m n v, m ≠ n ∧ evaluate m = .ok v ∧ evaluate n = .ok v) ∧
    (∀ (l : Line) (e : IndexError), l.render ≠ e.message) ∧
    (∀ (n : Int32) (l : Line), Line.read? (report n) = some l ↔
      0 ≤ n ∧ l.index = n ∧ l.value.toInt ≡ Nat.fib n.toNatClampNeg [ZMOD 2 ^ 32]) ∧
    (∀ m n : Int32, IndexError.read? (report n) = some (.invalid m) ↔ m = n ∧ m < 0) := by
  refine ⟨readReport?_report, report_injective, ?_, render_ne_message, read?_report_eq_some_iff,
    indexError_read?_report_eq_some_iff⟩
  have htwo : (2 : Int32).toInt = (2 : Nat) := by decide
  exact ⟨1, 2, 1, by decide, evaluate_of_toInt_eq toInt_one_eq, evaluate_of_toInt_eq htwo⟩

example : readReport? "fib: index must be non-negative, got -3"
    = some (-3, .error (.invalid (-3))) := by
  decide

end Fibonacci
