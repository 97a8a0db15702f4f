import Fibonacci.Proofs.Acceptance
import Fibonacci.Proofs.Unambiguous

set_option autoImplicit false

/-! # Text that is dropped and text that is kept

Not every part of an argument takes part in the decision. Of a long name that belongs to no flag
the value is dropped before a tip is looked for, and of an argument with a short name everything
after that name. What is dropped may be any text, and the reply is the same without it.

The value of a flag is not dropped. It is everything after the first `=`, so it may hold further
ones and may be empty, and the refusal repeats what is visible of it. Two values lead to one reply
only if they have the same visible part.
-/

namespace Fibonacci.CommandLine

namespace Decision

/-! ## Single arguments -/

/-- The value of a name that belongs to no flag is dropped. -/
theorem ofArgument_unknown_value {name : String} (hEq : '=' ∉ name.toList)
    (hNone : Flag.ofName? name.toList = none) (value : String) :
    ofArgument ("--" ++ name ++ "=" ++ value) = ofArgument ("--" ++ name) := by
  rw [ofArgument_long (Flag.toList_mark_append_value name value), ofLong_unknown_value hEq hNone,
    ofArgument_mark_append, ofLong_unknown hEq hNone]

/-- What follows a short name is dropped. -/
theorem ofArgument_short_append {c : Char} (hc : c ≠ '-') (s : String) :
    ofArgument ("-" ++ c.toString ++ s) = ofShort c := by
  have hText : ("-" ++ c.toString ++ s).toList = '-' :: c :: s.toList := by simp
  exact ofArgument_short hText hc

/-- The value of a flag is kept. -/
theorem ofArgument_flag_value (f : Flag) (value : String) :
    ofArgument ("--" ++ f.name ++ "=" ++ value) = .unexpectedValue f value := by
  rw [ofArgument_long (Flag.toList_mark_append_value f.name value), ofLong_flag_value,
    String.ofList_toList]

theorem ofArguments?_flag_value (f : Flag) (value : String) (rest : List String) :
    ofArguments? (("--" ++ f.name ++ "=" ++ value) :: rest) = some (.unexpectedValue f value) := by
  rw [ofArguments?_cons (mark_append_value_ne f.name value), ofArgument_flag_value]

end Decision

/-! ## Replies -/

namespace Reply

/-- The reply to a value that a flag does not take repeats the visible part of the value, and
tells two values apart exactly by this part. -/
theorem ofDecision_unexpectedValue_eq_iff (f : Flag) (value value' : String) :
    ofDecision (.unexpectedValue f value) = ofDecision (.unexpectedValue f value') ↔
      visible value = visible value' := by
  constructor
  · intro h
    exact (visible_eq_of_unexpectedValue h).2
  · intro h
    rw [ofDecision_unexpectedValue, ofDecision_unexpectedValue, h]

end Reply

namespace Invocation

variable (rest rest' : List String) (filter filter' : Option String)

theorem reply_short_append {c : Char} (hc : c ≠ '-') (s : String) :
    (mk (("-" ++ c.toString ++ s) :: rest) filter).reply = .ofDecision (.ofShort c) := by
  rw [← Decision.ofArgument_short_append hc s]
  apply reply_cons
  intro h
  have hList : '-' :: c :: s.toList = ['-', '-'] := by simpa using congrArg String.toList h
  exact hc (List.cons.inj (List.cons.inj hList).2).1

/-- **What is dropped does not matter, and what is kept is shown.** A long name that belongs to
no flag is answered alike with every value and without one, and an argument with a short name is
answered alike whatever follows that name. A flag with a value is refused with the visible part
of the whole value, so that values with different visible parts have different replies, while
the flag alone is obeyed. -/
theorem reply_of_dropped_or_kept :
    (∀ name value : String, '=' ∉ name.toList → name ≠ "" → name ≠ "help" → name ≠ "version" →
      (mk (("--" ++ name ++ "=" ++ value) :: rest) filter).reply
        = (mk (("--" ++ name) :: rest') filter').reply) ∧
    (∀ (c : Char) (s s' : String), c ≠ '-' →
      (mk (("-" ++ c.toString ++ s) :: rest) filter).reply
        = (mk (("-" ++ c.toString ++ s') :: rest') filter').reply) ∧
    (∀ (f : Flag) (value : String),
      Decision.ofArguments? (("--" ++ f.name ++ "=" ++ value) :: rest)
        = some (.unexpectedValue f value) ∧
      (mk (("--" ++ f.name ++ "=" ++ value) :: rest) filter).reply
        = ⟨2, "", "error: unexpected value '" ++ visible value ++ "' for '--" ++ f.name ++
            "' found; no more were expected\n\nUsage: fib --" ++ f.name ++
            "\n\nFor more information, try '--help'.\n"⟩ ∧
      ((∀ c ∈ value.toList, Visible.isShown c = true) → visible value = value) ∧
      (∀ value' : String,
        (mk (("--" ++ f.name ++ "=" ++ value) :: rest) filter).reply
            = (mk (("--" ++ f.name ++ "=" ++ value') :: rest') filter').reply ↔
          visible value = visible value')) ∧
    (∀ f : Flag, (mk (("--" ++ f.name) :: rest) filter).reply = .ofFlag f ∧
      (Reply.ofFlag f).code = 0) := by
  refine ⟨?_, ?_, ?_, ?_⟩
  · intro name value hEq hEmpty hHelp hVersion
    have hNone : Flag.ofName? name.toList = none :=
      (Flag.ofName?_toList_eq_none_iff name).mpr ⟨hHelp, hVersion⟩
    rw [reply_cons (Decision.mark_append_value_ne name value),
      reply_cons (Decision.mark_append_ne hEmpty), Decision.ofArgument_unknown_value hEq hNone]
  · intro c s s' hc
    rw [reply_short_append rest filter hc, reply_short_append rest' filter' hc]
  · intro f value
    have hDecision := Decision.ofArguments?_flag_value f value rest
    refine ⟨hDecision, ?_, visible_eq_self, ?_⟩
    · rw [reply_of_decision hDecision, Reply.ofDecision_unexpectedValue,
        Reply.refusalText_value]
    · intro value'
      have hDecision' := Decision.ofArguments?_flag_value f value' rest'
      rw [reply_of_decision hDecision, reply_of_decision hDecision',
        Reply.ofDecision_unexpectedValue_eq_iff]
  · intro f
    exact ⟨reply_flag f rest filter, (Reply.ofFlag_streams f).1⟩

/-- Of `--help=a=b` the value `a=b` is kept, of `--memo=a=b` it is dropped, and so is what follows
a short name beyond ASCII. -/
theorem reply_second_equals_sign :
    ('=' ∉ "memo".toList ∧ "memo" ≠ "" ∧ "memo" ≠ "help" ∧ "memo" ≠ "version" ∧
      (mk ["--memo=a=b", "--help"] none).reply = (mk ["--memo"] (some "trace")).reply) ∧
    ('é' ≠ '-' ∧ (mk ["-éh", "--help"] none).reply = (mk ["-é"] (some "trace")).reply) ∧
    (∀ c ∈ "a=b".toList, Visible.isShown c = true) ∧
    (mk ["--help=a=b", "--help"] none).reply ≠ (mk ["--help=a"] (some "trace")).reply := by
  have hEq : '=' ∉ "memo".toList := by decide
  have hEmpty : "memo" ≠ "" := by decide
  have hHelp : "memo" ≠ "help" := by decide
  have hVersion : "memo" ≠ "version" := by decide
  have hShort : 'é' ≠ '-' := by decide
  have hShown : ∀ c ∈ "a=b".toList, Visible.isShown c = true := List.all_eq_true.mp (by decide)
  obtain ⟨hName, hLetter, hFlag, -⟩ :=
    reply_of_dropped_or_kept ["--help"] [] none (some "trace")
  obtain ⟨-, -, hVisible, hSame⟩ := hFlag .help "a=b"
  refine ⟨⟨hEq, hEmpty, hHelp, hVersion, hName "memo" "a=b" hEq hEmpty hHelp hVersion⟩,
    ⟨hShort, hLetter 'é' "h" "" hShort⟩, hShown, ?_⟩
  intro h
  have hText : visible "a=b" = visible "a" := (hSame "a").mp h
  rw [hVisible hShown] at hText
  exact absurd hText (by decide)

/-- A bell in the value of a flag is not shown, so that the reply does not tell whether it is
there. -/
theorem reply_value_hidden :
    (mk ["--help=\x07"] none).reply
      ≠ ⟨2, "", "error: unexpected value '\x07' for '--help' found; no more were expected\n\n" ++
          "Usage: fib --help\n\nFor more information, try '--help'.\n"⟩ ∧
    "\x07" ≠ "" ∧ (mk ["--help=\x07"] none).reply = (mk ["--help="] none).reply := by
  decide

end Invocation

end Fibonacci.CommandLine
