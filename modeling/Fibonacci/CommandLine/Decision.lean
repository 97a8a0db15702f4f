import Fibonacci.CommandLine.Flag

set_option autoImplicit false

/-! # What the arguments decide

The command takes no argument besides its flags, and the first argument decides alone. The mark
`--` takes the place of the first argument only to say that the next one is to be read
literally; later marks have no such meaning. If no argument is left to decide, there is no
decision, and the command does its work.

* An argument that starts with `--` is a long name. The first `=` ends the name, and what
  follows is a value. A flag refuses every value, also an empty one. A name that belongs to no
  flag is refused without its value, with a tip if it is near the name of a flag.
* An argument that starts with `-` and goes on is a short name: its second character. The rest
  is not looked at.
* Every other argument, `-` and the empty one included, is refused as it stands.
-/

namespace Fibonacci.CommandLine

/-- What is decided from the arguments alone. -/
inductive Decision where
  /-- A flag is obeyed. -/
  | obeyed (flag : Flag)
  /-- A flag was given a value. -/
  | unexpectedValue (flag : Flag) (value : String)
  /-- An argument is refused. The shown text is the part of it that was read. -/
  | unexpectedArgument (shown : String) (tip : Option Flag)
  deriving DecidableEq, Repr

namespace Decision

/-- The decision for a long name and its value, written after `--`. -/
def ofLong (s : List Char) : Decision :=
  let name := s.takeWhile (· != '=')
  match Flag.ofName? name, s.dropWhile (· != '=') with
  | some f, [] => .obeyed f
  | some f, _ :: value => .unexpectedValue f (String.ofList value)
  | none, _ => .unexpectedArgument (String.ofList ('-' :: '-' :: name)) (Flag.tip? name)

/-- The decision for a short name, written after `-`. -/
def ofShort (c : Char) : Decision :=
  match Flag.ofLetter? c with
  | some f => .obeyed f
  | none => .unexpectedArgument (String.ofList ['-', c]) none

/-- The decision for an argument that is read literally. -/
def ofLiteral (arg : String) : Decision := .unexpectedArgument arg none

/-- The decision for an argument other than the mark `--`. -/
def ofArgument (arg : String) : Decision :=
  match arg.toList with
  | c :: d :: s => if c = '-' then if d = '-' then ofLong s else ofShort d else ofLiteral arg
  | _ => ofLiteral arg

/-- How the arguments that are left are read. -/
inductive Mode where
  /-- As flags, where they are written as flags, until the mark. -/
  | flags
  /-- Literally, after the mark. -/
  | literal
  deriving DecidableEq, Repr

/-- The decision for the arguments that are left, if there is one. They are read in order, and
the first one that is not passed over as the mark decides. -/
def ofRemaining? : Mode → List String → Option Decision
  | _, [] => none
  | .flags, arg :: rest =>
    if arg = "--" then ofRemaining? .literal rest else some (ofArgument arg)
  | .literal, arg :: _ => some (ofLiteral arg)

/-- The decision for a list of arguments, if there is one. -/
def ofArguments? (args : List String) : Option Decision := ofRemaining? .flags args

/-! ## Long names, with and without a value -/

theorem long_cases (s : List Char) :
    ∃ name, '=' ∉ name ∧ (s = name ∨ ∃ value, s = name ++ '=' :: value) := by
  by_cases h : '=' ∈ s
  · obtain ⟨name, value, hs, hname⟩ := List.eq_append_cons_of_mem h
    exact ⟨name, hname, .inr ⟨value, hs⟩⟩
  · exact ⟨s, h, .inl rfl⟩

theorem takeWhile_name_append {name : List Char} (h : '=' ∉ name) (rest : List Char) :
    (name ++ rest).takeWhile (· != '=') = name ++ rest.takeWhile (· != '=') := by
  apply List.takeWhile_append_of_pos
  intro c hc
  rw [bne_iff_ne]
  rintro rfl
  exact h hc

theorem ofLong_flag (f : Flag) : ofLong f.name.toList = .obeyed f := by
  cases f <;> rfl

theorem ofLong_flag_value (f : Flag) (value : List Char) :
    ofLong (f.name.toList ++ '=' :: value) = .unexpectedValue f (String.ofList value) := by
  cases f <;> rfl

theorem ofLong_unknown {name : List Char} (h : '=' ∉ name) (hName : Flag.ofName? name = none) :
    ofLong name = .unexpectedArgument (String.ofList ('-' :: '-' :: name)) (Flag.tip? name) := by
  have hcut := takeWhile_name_append h []
  rw [List.append_nil, List.takeWhile_nil, List.append_nil] at hcut
  simp only [ofLong, hcut, hName]

theorem ofLong_unknown_value {name : List Char} (h : '=' ∉ name)
    (hName : Flag.ofName? name = none) (value : List Char) :
    ofLong (name ++ '=' :: value)
      = .unexpectedArgument (String.ofList ('-' :: '-' :: name)) (Flag.tip? name) := by
  have hcut := takeWhile_name_append h ('=' :: value)
  rw [List.takeWhile_cons_of_neg (by decide), List.append_nil] at hcut
  simp only [ofLong, hcut, hName]

/-- A long name is obeyed, refused for its value, or refused without what follows it. -/
theorem ofLong_cases (s : List Char) :
    (∃ f : Flag, s = f.name.toList ∧ ofLong s = .obeyed f) ∨
    (∃ (f : Flag) (value : List Char), s = f.name.toList ++ '=' :: value ∧
      ofLong s = .unexpectedValue f (String.ofList value)) ∨
    (∃ name dropped, '=' ∉ name ∧ Flag.ofName? name = none ∧
      (dropped = [] ∨ ∃ value, dropped = '=' :: value) ∧ s = name ++ dropped ∧
      ofLong s = .unexpectedArgument (String.ofList ('-' :: '-' :: name)) (Flag.tip? name)) := by
  obtain ⟨name, hEq, hs⟩ := long_cases s
  cases hName : Flag.ofName? name with
  | some f =>
      obtain rfl := (Flag.ofName?_eq_some_iff name f).mp hName
      rcases hs with rfl | ⟨value, rfl⟩
      · exact .inl ⟨f, rfl, ofLong_flag f⟩
      · exact .inr (.inl ⟨f, value, rfl, ofLong_flag_value f value⟩)
  | none =>
      rcases hs with rfl | ⟨value, rfl⟩
      · exact .inr (.inr ⟨s, [], hEq, hName, .inl rfl, (List.append_nil s).symm,
          ofLong_unknown hEq hName⟩)
      · exact .inr (.inr ⟨name, '=' :: value, hEq, hName, .inr ⟨value, rfl⟩, rfl,
          ofLong_unknown_value hEq hName value⟩)

/-- A short name is obeyed or refused. -/
theorem ofShort_cases (c : Char) :
    (∃ f : Flag, f.letter = c ∧ ofShort c = .obeyed f) ∨
    ((∀ f : Flag, f.letter ≠ c) ∧
      ofShort c = .unexpectedArgument (String.ofList ['-', c]) none) := by
  cases hLetter : Flag.ofLetter? c with
  | some f =>
      exact .inl ⟨f, (Flag.ofLetter?_eq_some_iff c f).mp hLetter, by simp [ofShort, hLetter]⟩
  | none => exact .inr ⟨(Flag.ofLetter?_eq_none_iff c).mp hLetter, by simp [ofShort, hLetter]⟩

theorem ofLong_eq_unexpectedArgument {s : List Char} {shown : String} {tip : Option Flag}
    (h : ofLong s = .unexpectedArgument shown tip) :
    ∃ name dropped, '=' ∉ name ∧ Flag.ofName? name = none ∧
      (dropped = [] ∨ ∃ value, dropped = '=' :: value) ∧ s = name ++ dropped ∧
      shown.toList = '-' :: '-' :: name ∧ tip = Flag.tip? name := by
  rcases ofLong_cases s with
    ⟨f, -, hLong⟩ | ⟨f, value, -, hLong⟩ | ⟨name, dropped, hEq, hNone, hValue, hs, hLong⟩
  · rw [hLong] at h
    cases h
  · rw [hLong] at h
    cases h
  · rw [hLong] at h
    obtain ⟨rfl, rfl⟩ := Decision.unexpectedArgument.inj h
    exact ⟨name, dropped, hEq, hNone, hValue, hs, String.toList_ofList, rfl⟩

theorem ofShort_eq_unexpectedArgument {c : Char} {shown : String} {tip : Option Flag}
    (h : ofShort c = .unexpectedArgument shown tip) :
    (∀ f : Flag, f.letter ≠ c) ∧ shown.toList = ['-', c] ∧ tip = none := by
  rcases ofShort_cases c with ⟨f, -, hShort⟩ | ⟨hLetter, hShort⟩
  · rw [hShort] at h
    cases h
  · rw [hShort] at h
    obtain ⟨rfl, rfl⟩ := Decision.unexpectedArgument.inj h
    exact ⟨hLetter, String.toList_ofList, rfl⟩

theorem ofLiteral_eq_unexpectedArgument {arg shown : String} {tip : Option Flag}
    (h : ofLiteral arg = .unexpectedArgument shown tip) : shown = arg ∧ tip = none := by
  obtain ⟨rfl, rfl⟩ := Decision.unexpectedArgument.inj h
  exact ⟨rfl, rfl⟩

/-! ## Arguments by their beginning -/

theorem ofArgument_long {arg : String} {s : List Char} (h : arg.toList = '-' :: '-' :: s) :
    ofArgument arg = ofLong s := by
  simp only [ofArgument, h, if_true]

theorem ofArgument_short {arg : String} {c : Char} {s : List Char}
    (h : arg.toList = '-' :: c :: s) (hc : c ≠ '-') : ofArgument arg = ofShort c := by
  simp only [ofArgument, h, if_true, if_neg hc]

theorem ofArgument_literal {arg : String} (h : ∀ c s, arg.toList ≠ '-' :: c :: s) :
    ofArgument arg = ofLiteral arg := by
  unfold ofArgument
  split
  next c d s hs =>
    have hc : c ≠ '-' := by
      rintro rfl
      exact h d s hs
    exact if_neg hc
  next => rfl

theorem ofArgument_mark_append (name : String) : ofArgument ("--" ++ name) = ofLong name.toList :=
  ofArgument_long (Flag.toList_mark_append name)

theorem mark_append_ne {name : String} (h : name ≠ "") : "--" ++ name ≠ "--" := by
  intro he
  have hEmpty : "--" ++ name = "--" ++ "" := he.trans String.append_empty.symm
  exact h ((String.append_right_inj "--").mp hEmpty)

theorem ofArgument_flag (f : Flag) : ofArgument ("--" ++ f.name) = .obeyed f := by
  rw [ofArgument_mark_append, ofLong_flag]

theorem mark_append_value_ne (name value : String) : "--" ++ name ++ "=" ++ value ≠ "--" := by
  intro h
  have hList := congrArg String.toList h
  rw [Flag.toList_mark_append_value] at hList
  have hNil : name.toList ++ '=' :: value.toList = [] := (List.cons.inj (List.cons.inj hList).2).2
  exact List.append_ne_nil_of_right_ne_nil _ (List.cons_ne_nil _ _) hNil

/-- An argument is a long name, a short name, or neither. -/
theorem argument_cases (arg : String) :
    (∃ s, arg.toList = '-' :: '-' :: s) ∨ (∃ c s, arg.toList = '-' :: c :: s ∧ c ≠ '-') ∨
      ∀ c s, arg.toList ≠ '-' :: c :: s := by
  by_cases h : ∃ c s, arg.toList = '-' :: c :: s
  · obtain ⟨c, s, hs⟩ := h
    by_cases hc : c = '-'
    · exact .inl ⟨s, by rw [hs, hc]⟩
    · exact .inr (.inl ⟨c, s, hs, hc⟩)
  · exact .inr (.inr fun c s hs => h ⟨c, s, hs⟩)

/-! ## Lists of arguments -/

/-- After the mark no further mark is passed over. -/
theorem ofRemaining?_literal (args : List String) :
    ofRemaining? .literal args = args.head?.map ofLiteral := by
  cases args with
  | nil => rfl
  | cons arg rest => rfl

theorem ofArguments?_nil : ofArguments? [] = none := rfl

theorem ofArguments?_mark (rest : List String) :
    ofArguments? ("--" :: rest) = rest.head?.map ofLiteral := by
  rw [ofArguments?, ofRemaining?, if_pos rfl, ofRemaining?_literal]

theorem ofArguments?_cons {arg : String} (h : arg ≠ "--") (rest : List String) :
    ofArguments? (arg :: rest) = some (ofArgument arg) := by
  rw [ofArguments?, ofRemaining?, if_neg h]

theorem ofArguments?_unknown {name : String} (hName : name ≠ "") (hEq : '=' ∉ name.toList)
    (hNone : Flag.ofName? name.toList = none) (rest : List String) :
    ofArguments? (("--" ++ name) :: rest)
      = some (.unexpectedArgument ("--" ++ name) (Flag.tip? name.toList)) := by
  have hShown : String.ofList ('-' :: '-' :: name.toList) = "--" ++ name := by
    rw [← Flag.toList_mark_append, String.ofList_toList]
  rw [ofArguments?_cons (mark_append_ne hName), ofArgument_mark_append, ofLong_unknown hEq hNone,
    hShown]

/-- The argument that leads to a decision: the first one, or the next one after the mark. -/
theorem ofArguments?_eq_some {args : List String} {d : Decision} (h : ofArguments? args = some d) :
    ∃ arg rest, (arg ≠ "--" ∧ args = arg :: rest ∧ d = ofArgument arg) ∨
      (args = "--" :: arg :: rest ∧ d = ofLiteral arg) := by
  cases args with
  | nil => cases h
  | cons arg rest =>
      by_cases hMark : arg = "--"
      · subst hMark
        cases rest with
        | nil => cases h
        | cons next rest =>
            rw [ofArguments?_mark] at h
            exact ⟨next, rest, .inr ⟨rfl, (Option.some.inj h).symm⟩⟩
      · rw [ofArguments?_cons hMark] at h
        exact ⟨arg, rest, .inl ⟨hMark, rfl, (Option.some.inj h).symm⟩⟩

/-- A decision is final: the arguments after it are not read. -/
theorem ofRemaining?_append {mode : Mode} {args : List String} {d : Decision}
    (h : ofRemaining? mode args = some d) (rest : List String) :
    ofRemaining? mode (args ++ rest) = some d := by
  induction args generalizing mode with
  | nil => cases h
  | cons arg args ih =>
      cases mode with
      | flags =>
          rw [List.cons_append, ofRemaining?]
          rw [ofRemaining?] at h
          split at h
          next hmark => rw [if_pos hmark, ih h]
          next hmark => rw [if_neg hmark, h]
      | literal => exact h

theorem ofArguments?_append {args : List String} {d : Decision}
    (h : ofArguments? args = some d) (rest : List String) :
    ofArguments? (args ++ rest) = some d :=
  ofRemaining?_append h rest

end Decision

end Fibonacci.CommandLine
