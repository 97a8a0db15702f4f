import Fibonacci.Line
import Fibonacci.Proofs.Numerals

set_option autoImplicit false

/-! # Lines are read as they are rendered

`Line.Grammatical` is the grammar of lines: two numerals of 32-bit integers in a fixed text. No
numeral holds a bracket, so the first closing bracket of a line is the one behind the index, and a
line can be cut in one way only. Reading a line therefore accepts what rendering gives and nothing
else (`Line.read?_eq_some_iff`), and the grammar has the rendered lines and nothing else.
-/

namespace Fibonacci.Line

/-! ## The grammar -/

/-- The text is `fib(D) is D` with two numerals of 32-bit integers. -/
def Grammatical (s : String) : Prop :=
  ∃ d e : String, Decimal.WordNumeral d.toList ∧ Decimal.WordNumeral e.toList ∧
    s = "fib(" ++ d ++ ") is " ++ e

theorem toList_render (l : Line) :
    l.render.toList = "fib(".toList ++ (Decimal.chars l.index.toInt ++
      (") is ".toList ++ Decimal.chars l.value.toInt)) := by
  rw [render, String.toList_append, String.toList_append, String.toList_append,
    Decimal.toList_write, Decimal.toList_write, List.append_assoc, List.append_assoc]

theorem grammatical_iff (s : String) : Grammatical s ↔ ∃ l : Line, l.render = s := by
  constructor
  · rintro ⟨d, e, hd, he, rfl⟩
    obtain ⟨n, hn⟩ := (Decimal.wordNumeral_iff _).mp hd
    obtain ⟨v, hv⟩ := (Decimal.wordNumeral_iff _).mp he
    refine ⟨⟨n, v⟩, ?_⟩
    rw [render, Decimal.write, Decimal.write, ← hn, ← hv, String.ofList_toList,
      String.ofList_toList]
  · rintro ⟨l, rfl⟩
    refine ⟨Decimal.write l.index, Decimal.write l.value, ?_, ?_, rfl⟩
    · exact (Decimal.wordNumeral_iff _).mpr ⟨l.index, Decimal.toList_write l.index⟩
    · exact (Decimal.wordNumeral_iff _).mpr ⟨l.value, Decimal.toList_write l.value⟩

/-! ## Reading -/

/-- The first closing bracket ends the numeral before it. -/
theorem cut_at_bracket (v : Int) (rest : List Char) :
    (Decimal.chars v ++ (')' :: rest)).takeWhile (· != ')') = Decimal.chars v ∧
      (Decimal.chars v ++ (')' :: rest)).dropWhile (· != ')') = ')' :: rest := by
  have hall : ∀ c ∈ Decimal.chars v, (c != ')') = true := by
    intro c hc
    rw [bne_iff_ne]
    rintro rfl
    exact Decimal.not_mem_chars (by decide) (by decide) v hc
  rw [List.takeWhile_append_of_pos hall, List.dropWhile_append_of_pos hall,
    List.takeWhile_cons_of_neg (by decide), List.dropWhile_cons_of_neg (by decide),
    List.append_nil]
  exact ⟨rfl, rfl⟩

/-- Reading accepts what rendering gives, and nothing else. -/
theorem read?_eq_some_iff (s : String) (l : Line) : read? s = some l ↔ l.render = s := by
  rw [← String.toList_inj, toList_render, read?]
  simp only [Option.bind_eq_bind, Option.bind_eq_some_iff, List.isPrefixOf?_eq_some_iff_append_eq,
    Decimal.word?_eq_some_iff]
  constructor
  · rintro ⟨rest, hrest, n, hn, rest', hrest', v, rfl, h⟩
    obtain rfl := Option.some.inj h
    rw [← hrest, ← hn, hrest', List.takeWhile_append_dropWhile]
  · intro h
    obtain ⟨htake, hdrop⟩ := cut_at_bracket l.index.toInt
      (" is ".toList ++ Decimal.chars l.value.toInt)
    exact ⟨_, h, l.index, htake, _, hdrop.symm, l.value, rfl, rfl⟩

theorem render_injective {l m : Line} (h : l.render = m.render) : l = m :=
  injective_of_read read?_eq_some_iff h

/-- **Lines have an exact inverse.** Reading a text gives a line exactly if the text is the rendering
of this line. The texts of the grammar, and no other texts, are rendered lines, each of one line
only: no two lines are rendered alike, whatever 32-bit integers they hold. -/
theorem render_has_exact_inverse :
    (∀ (s : String) (l : Line), read? s = some l ↔ l.render = s) ∧
    (∀ s : String, Grammatical s ↔ ∃! l : Line, l.render = s) ∧
    Function.Injective render := by
  refine ⟨read?_eq_some_iff, fun s => ?_, fun l m h => render_injective h⟩
  rw [grammatical_iff]
  constructor
  · rintro ⟨l, rfl⟩
    exact ⟨l, rfl, fun m hm => render_injective hm⟩
  · rintro ⟨l, hl, -⟩
    exact ⟨l, hl⟩

example : read? "fib(-2147483648) is -2147483648" = some ⟨Int32.minValue, Int32.minValue⟩ := by
  decide

end Fibonacci.Line
