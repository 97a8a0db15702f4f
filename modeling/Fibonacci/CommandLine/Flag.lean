import Fibonacci.Similarity

set_option autoImplicit false

/-! # The flags of the command

The command has two flags, and neither takes a value. Each has a long name, written after `--`,
and a short name, a single character written after `-`.

A long name that belongs to no flag may be a misspelling of one that does. `Flag.tip?` gives the
flag to offer instead: among those whose name is at least `7/10` similar, the most similar one.
Of two equally similar flags, the one with fewer transpositions is offered, and if these agree
too, the one listed later.

The rule is "above `0.7`, the more similar flag, the later one of two that are equal", for the
similarity computed in 64-bit floating point. Here the similarity is an exact fraction, and the
border and the ties stand for what rounding does to it: `Near` and `Supersedes` say where.
-/

namespace Fibonacci.CommandLine

/-- A flag of the command. -/
inductive Flag where
  | help
  | version
  deriving DecidableEq, Repr

namespace Flag

/-- The flags in the order in which they are listed. -/
def all : List Flag := [.help, .version]

/-- The long name. -/
def name : Flag → String
  | .help => "help"
  | .version => "version"

/-- The short name. -/
def letter : Flag → Char
  | .help => 'h'
  | .version => 'V'

/-- How the flag is written with its long name. -/
def long (f : Flag) : String := "--" ++ f.name

/-- The flag with the given long name. -/
def ofName? (name : List Char) : Option Flag := all.find? fun f => decide (f.name.toList = name)

/-- The flag with the given short name. -/
def ofLetter? (c : Char) : Option Flag := all.find? fun f => decide (f.letter = c)

theorem mem_all (f : Flag) : f ∈ all := by
  cases f <;> decide

theorem length_name_help : help.name.toList.length = 4 := rfl

theorem length_name_version : version.name.toList.length = 7 := rfl

theorem name_ne_empty (f : Flag) : f.name ≠ "" := by
  cases f <;> decide

theorem name_toList_ne_nil (f : Flag) : f.name.toList ≠ [] := by
  cases f <;> decide

/-- What holds of the two flags either way round holds of any two flags. -/
@[elab_as_elim]
theorem of_ne {motive : Flag → Flag → Prop} (hHelp : motive .help .version)
    (hVersion : motive .version .help) {f g : Flag} (hne : g ≠ f) : motive f g := by
  cases f with
  | help =>
      cases g with
      | help => exact absurd rfl hne
      | version => exact hHelp
  | version =>
      cases g with
      | help => exact hVersion
      | version => exact absurd rfl hne

theorem injective_of_ne {α : Type} {key : Flag → α} (h : key .help ≠ key .version) :
    Function.Injective key := by
  intro f g hfg
  cases f with
  | help =>
      cases g with
      | help => rfl
      | version => exact absurd hfg h
  | version =>
      cases g with
      | help => exact absurd hfg.symm h
      | version => rfl

theorem injective_option_of_ne {α : Type} {key : Option Flag → α}
    (hHelp : key none ≠ key (some .help)) (hVersion : key none ≠ key (some .version))
    (h : key (some .help) ≠ key (some .version)) : Function.Injective key := by
  intro s t hst
  cases s with
  | none =>
      cases t with
      | none => rfl
      | some g => cases g <;> contradiction
  | some f =>
      cases t with
      | none => cases f <;> exact absurd hst.symm (by assumption)
      | some g =>
          have hInj : Function.Injective fun f => key (some f) := injective_of_ne h
          rw [hInj hst]

/-- A search by a key that tells the flags apart finds the flag with that key. -/
theorem find?_all_eq_some_iff {α : Type} [DecidableEq α] {key : Flag → α}
    (hkey : Function.Injective key) (a : α) (f : Flag) :
    (all.find? fun g => decide (key g = a)) = some f ↔ key f = a := by
  constructor
  · intro h
    have hf := List.find?_some h
    exact of_decide_eq_true hf
  · rintro rfl
    have hsome : (all.find? fun g => decide (key g = key f)).isSome = true := by
      rw [List.find?_isSome]
      exact ⟨f, mem_all f, decide_eq_true rfl⟩
    obtain ⟨g, hg⟩ := Option.isSome_iff_exists.mp hsome
    have hgf := List.find?_some hg
    rw [hg, hkey (of_decide_eq_true hgf)]

theorem ofName?_eq_some_iff (name : List Char) (f : Flag) :
    ofName? name = some f ↔ f.name.toList = name := by
  apply find?_all_eq_some_iff
  exact injective_of_ne (by decide)

theorem ofLetter?_eq_some_iff (c : Char) (f : Flag) : ofLetter? c = some f ↔ f.letter = c := by
  apply find?_all_eq_some_iff
  exact injective_of_ne (by decide)

theorem ofName?_eq_none_iff (name : List Char) :
    ofName? name = none ↔ ∀ f : Flag, f.name.toList ≠ name := by
  simp only [Option.eq_none_iff_forall_ne_some, ne_eq, ofName?_eq_some_iff]

theorem ofName?_toList_eq_none_iff (name : String) :
    ofName? name.toList = none ↔ name ≠ "help" ∧ name ≠ "version" := by
  rw [ofName?_eq_none_iff]
  constructor
  · intro h
    refine ⟨?_, ?_⟩
    · rintro rfl
      exact h .help rfl
    · rintro rfl
      exact h .version rfl
  · rintro ⟨hHelp, hVersion⟩ f hf
    have hName : name = f.name := (String.toList_inj.mp hf).symm
    cases f with
    | help => exact hHelp hName
    | version => exact hVersion hName

theorem ofLetter?_eq_none_iff (c : Char) : ofLetter? c = none ↔ ∀ f : Flag, f.letter ≠ c := by
  simp only [Option.eq_none_iff_forall_ne_some, ne_eq, ofLetter?_eq_some_iff]

theorem toList_mark_append (name : String) :
    ("--" ++ name).toList = '-' :: '-' :: name.toList := by
  rw [String.toList_append]
  rfl

theorem toList_mark_append_value (name value : String) :
    ("--" ++ name ++ "=" ++ value).toList
      = '-' :: '-' :: (name.toList ++ '=' :: value.toList) := by
  rw [String.toList_append, String.toList_append, toList_mark_append]
  simp

theorem toList_long (f : Flag) : f.long.toList = '-' :: '-' :: f.name.toList :=
  toList_mark_append f.name

/-! ## Tips -/

/-- The given name is similar enough to the flag's for the flag to be offered. The border itself is
near enough. A similarity of exactly `7/10` comes from names of 40 characters with `help` (4 matched
in order) and of 70 with `version` (7 matched in order), and rounded to 64 bits it is above
`0.7`. -/
def Near (name : List Char) (f : Flag) : Prop := 7 / 10 ≤ similarity name f.name.toList

instance (name : List Char) (f : Flag) : Decidable (Near name f) :=
  inferInstanceAs (Decidable (_ ≤ _))

/-- With both flags near the given name and `f` listed before `g`, it is `g` that is offered.
Rounding to 64 bits keeps the order of two different similarities. Equal ones come from names of 14
characters, without transpositions for either flag, and rounded they are equal still; and from names
of 21 characters, with one transposition for `version` and none for `help`, and rounded the one
without is greater. -/
def Supersedes (name : List Char) (g f : Flag) : Prop :=
  similarity name f.name.toList < similarity name g.name.toList ∨
    similarity name f.name.toList = similarity name g.name.toList ∧
      Similarity.transpositions name g.name.toList ≤ Similarity.transpositions name f.name.toList

instance (name : List Char) (g f : Flag) : Decidable (Supersedes name g f) :=
  inferInstanceAs (Decidable (_ ∨ _ ∧ _))

/-- The flag to offer, of the one chosen so far, if there is one, and the next one listed. -/
def better (name : List Char) : Option Flag → Flag → Option Flag
  | none, g => some g
  | some f, g => if Supersedes name g f then some g else some f

/-- The flag to offer for a name that belongs to none. -/
def tip? (name : List Char) : Option Flag :=
  (all.filter fun f => decide (Near name f)).foldl (better name) none

theorem better_eq_or (name : List Char) (best : Option Flag) (g : Flag) :
    better name best g = best ∨ better name best g = some g := by
  cases best with
  | none => exact .inr rfl
  | some f =>
      simp only [better]
      split
      · exact .inr rfl
      · exact .inl rfl

theorem better_ne_none (name : List Char) (best : Option Flag) (g : Flag) :
    better name best g ≠ none := by
  cases best with
  | none => exact Option.some_ne_none g
  | some f =>
      simp only [better]
      split <;> exact Option.some_ne_none _

/-- The choice is the one made so far or a flag of the list. -/
theorem foldl_better_mem {name : List Char} {flags : List Flag} {best : Option Flag} {f : Flag}
    (h : flags.foldl (better name) best = some f) : best = some f ∨ f ∈ flags := by
  induction flags generalizing best with
  | nil => exact .inl h
  | cons g rest ih =>
      rcases ih h with hbest | hrest
      · rcases better_eq_or name best g with heq | heq
        · exact .inl (heq ▸ hbest)
        · rw [heq] at hbest
          exact .inr (Option.some.inj hbest ▸ List.mem_cons_self)
      · exact .inr (List.mem_cons_of_mem g hrest)

theorem foldl_better_eq_none_iff (name : List Char) (flags : List Flag) (best : Option Flag) :
    flags.foldl (better name) best = none ↔ best = none ∧ flags = [] := by
  induction flags generalizing best with
  | nil => simp
  | cons g rest ih => simp [ih, better_ne_none]

theorem near_of_tip? {name : List Char} {f : Flag} (h : tip? name = some f) : Near name f := by
  rcases foldl_better_mem h with hnone | hmem
  · cases hnone
  · exact of_decide_eq_true (List.mem_filter.mp hmem).2

theorem tip?_eq_none_iff (name : List Char) : tip? name = none ↔ ∀ f : Flag, ¬ Near name f := by
  simp [tip?, foldl_better_eq_none_iff, mem_all]

theorem tip?_nil : tip? [] = none := by
  decide +kernel

/-- The flag listed last is the tip if it is near and supersedes the other one. -/
theorem tip?_eq_version {name : List Char} (hNear : Near name .version)
    (h : Supersedes name .version .help) : tip? name = some .version := by
  by_cases hHelp : Near name .help
  · simp [tip?, all, better, hHelp, hNear, h]
  · simp [tip?, all, better, hHelp, hNear]

/-- If a single flag is near, it is the tip. -/
theorem tip?_eq_some_of_near_iff {name : List Char} {f : Flag} (h : ∀ g, Near name g ↔ g = f) :
    tip? name = some f := by
  cases hTip : tip? name with
  | none => exact absurd ((h f).mpr rfl) ((tip?_eq_none_iff name).mp hTip f)
  | some g => rw [(h g).mp (near_of_tip? hTip)]

end Flag

end Fibonacci.CommandLine
