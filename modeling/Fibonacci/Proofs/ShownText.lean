import Fibonacci.CommandLine.Invocation
import Fibonacci.Proofs.Unambiguous

set_option autoImplicit false

/-! # Where the text of a refusal comes from

An argument is refused as far as it was read, so what a refusal shows is the beginning of the
argument that decides: all of it, or a long name without its value, or a short name without what
follows. It is cut between characters, and something is left of every argument that is not empty.

A tip is given only for a long name, hence only for the first argument, since nothing is read as
a long name after the mark. The name belongs to no flag, and the flag that is offered is obeyed.
-/

namespace Fibonacci.CommandLine

namespace Decision

/-! ## The argument that decides -/

/-- The argument that decides: the first one, or the second one if the first is the mark. -/
def deciding? : List String → Option String
  | [] => none
  | arg :: rest => if arg = "--" then rest.head? else some arg

/-- The argument is a long name that belongs to no flag, without a value or with one. -/
def UnknownLong (arg : String) : Prop :=
  ∃ name : String, name ≠ "" ∧ '=' ∉ name.toList ∧ name ≠ "help" ∧ name ≠ "version" ∧
    (arg = "--" ++ name ∨ ∃ value : String, arg = "--" ++ name ++ "=" ++ value)

theorem unknownLong_of_cut {arg : String} {name dropped : List Char}
    (harg : arg.toList = '-' :: '-' :: (name ++ dropped)) (hNil : name ≠ []) (hEq : '=' ∉ name)
    (hNone : Flag.ofName? name = none) (hValue : dropped = [] ∨ ∃ value, dropped = '=' :: value) :
    UnknownLong arg := by
  obtain ⟨name, rfl⟩ : ∃ text : String, name = text.toList :=
    ⟨String.ofList name, String.toList_ofList.symm⟩
  obtain ⟨hHelp, hVersion⟩ := (Flag.ofName?_toList_eq_none_iff name).mp hNone
  have hEmpty : name ≠ "" := by
    rintro rfl
    exact hNil rfl
  refine ⟨name, hEmpty, hEq, hHelp, hVersion, ?_⟩
  rcases hValue with rfl | ⟨value, rfl⟩
  · left
    rw [← String.toList_inj, Flag.toList_mark_append, harg, List.append_nil]
  · right
    refine ⟨String.ofList value, ?_⟩
    rw [← String.toList_inj, Flag.toList_mark_append_value, harg, String.toList_ofList]

/-- What is shown of an argument is its beginning, and something of it is shown if it is not
empty. -/
theorem shown_of_ofArgument {arg shown : String} {tip : Option Flag}
    (h : ofArgument arg = .unexpectedArgument shown tip) :
    shown.toList <+: arg.toList ∧ (shown = "" → arg = "") := by
  have hCut : ∀ {c : Char} {s : List Char}, shown.toList = c :: s → shown = "" → arg = "" := by
    rintro c s hShown rfl
    cases hShown
  rcases argument_cases arg with ⟨s, hs⟩ | ⟨c, s, hs, hc⟩ | hs
  · rw [ofArgument_long hs] at h
    obtain ⟨name, dropped, -, -, -, rfl, hShown, -⟩ := ofLong_eq_unexpectedArgument h
    refine ⟨?_, hCut hShown⟩
    rw [hs, hShown]
    exact List.prefix_append ('-' :: '-' :: name) dropped
  · rw [ofArgument_short hs hc] at h
    obtain ⟨-, hShown, -⟩ := ofShort_eq_unexpectedArgument h
    refine ⟨?_, hCut hShown⟩
    rw [hs, hShown]
    exact List.prefix_append ['-', c] s
  · rw [ofArgument_literal hs] at h
    obtain ⟨rfl, -⟩ := ofLiteral_eq_unexpectedArgument h
    exact ⟨List.prefix_rfl, id⟩

/-- Only a long name gets a tip. -/
theorem unknownLong_of_tip {arg shown : String} {f : Flag}
    (h : ofArgument arg = .unexpectedArgument shown (some f)) : UnknownLong arg := by
  rcases argument_cases arg with ⟨s, hs⟩ | ⟨c, s, hs, hc⟩ | hs
  · rw [ofArgument_long hs] at h
    obtain ⟨name, dropped, hEq, hNone, hValue, rfl, -, hTip⟩ := ofLong_eq_unexpectedArgument h
    have hNil : name ≠ [] := by
      rintro rfl
      rw [Flag.tip?_nil] at hTip
      cases hTip
    exact unknownLong_of_cut hs hNil hEq hNone hValue
  · rw [ofArgument_short hs hc] at h
    obtain ⟨-, -, hTip⟩ := ofShort_eq_unexpectedArgument h
    cases hTip
  · rw [ofArgument_literal hs] at h
    obtain ⟨-, hTip⟩ := ofLiteral_eq_unexpectedArgument h
    cases hTip

/-- A refusal shows the beginning of the argument that decides. With a tip, this is the first
argument, and a long name. -/
theorem shown_of_ofArguments? {args : List String} {shown : String} {tip : Option Flag}
    (h : ofArguments? args = some (.unexpectedArgument shown tip)) :
    ∃ arg, deciding? args = some arg ∧ shown.toList <+: arg.toList ∧ (shown = "" → arg = "") ∧
      (tip ≠ none → args.head? = some arg ∧ UnknownLong arg) := by
  obtain ⟨arg, rest, ⟨hMark, rfl, hArg⟩ | ⟨rfl, hArg⟩⟩ := ofArguments?_eq_some h
  · obtain ⟨hBeginning, hEmpty⟩ := shown_of_ofArgument hArg.symm
    refine ⟨arg, if_neg hMark, hBeginning, hEmpty, ?_⟩
    intro hTip
    obtain ⟨f, rfl⟩ := Option.ne_none_iff_exists'.mp hTip
    exact ⟨rfl, unknownLong_of_tip hArg.symm⟩
  · obtain ⟨rfl, rfl⟩ := ofLiteral_eq_unexpectedArgument hArg.symm
    exact ⟨shown, rfl, List.prefix_rfl, id, fun hTip => absurd rfl hTip⟩

end Decision

/-! ## Replies -/

namespace Reply

theorem refusalText_ne_empty (fault : String) (tip shown : Option Flag) :
    refusalText fault tip shown ≠ "" := by
  rw [refusalText_eq]
  intro h
  have hList := congrArg String.toList h
  rw [String.toList_append] at hList
  cases hList

/-- The error for an index is no refusal. -/
theorem ofIndex_stderr_ne_refusalText (n : Int32) (fault : String) (tip shown : Option Flag) :
    (ofIndex n).stderr ≠ refusalText fault tip shown := by
  unfold ofIndex
  split
  next => exact (refusalText_ne_empty fault tip shown).symm
  next e _ =>
    intro h
    rw [refusalText_eq] at h
    have hList := congrArg String.toList h
    simp only [String.toList_append] at hList
    have hFirst : (some 'E' : Option Char) = some 'e' := congrArg List.head? hList
    exact absurd hFirst (by decide)

theorem ofDecision_stderr_eq_refusalText {d : Decision} {shown : String} {tip used : Option Flag}
    (h : (ofDecision d).stderr = refusalText ("argument '" ++ shown ++ "' found") tip used) :
    used = tip ∧ ∃ text, d = .unexpectedArgument text tip ∧ visible text = shown := by
  cases d with
  | obeyed f =>
      have hStderr : (ofFlag f).stderr = "" := by cases f <;> rfl
      exact absurd (h.symm.trans hStderr) (refusalText_ne_empty _ _ _)
  | unexpectedValue f value =>
      rw [ofDecision_unexpectedValue] at h
      simp only [String.append_assoc] at h
      exact absurd h refusalText_value_ne_argument
  | unexpectedArgument text tip' =>
      rw [ofDecision_unexpectedArgument] at h
      obtain ⟨hText, rfl, rfl⟩ := refusalText_argument_inj h
      exact ⟨rfl, text, rfl, hText⟩

end Reply

namespace Invocation

/-- A reply that reads as the refusal of an argument is one, with that text and that tip. -/
theorem ofArguments?_of_stderr {i : Invocation} {shown : String} {tip used : Option Flag}
    (h : i.reply.stderr = Reply.refusalText ("argument '" ++ shown ++ "' found") tip used) :
    used = tip ∧ ∃ text, Decision.ofArguments? i.arguments = some (.unexpectedArgument text tip) ∧
      visible text = shown := by
  cases hDecision : Decision.ofArguments? i.arguments with
  | none =>
      have hReply : i.reply = .ofIndex evaluatedIndex := by
        simp only [reply, course, hDecision, Course.reply]
      rw [hReply] at h
      exact absurd h (Reply.ofIndex_stderr_ne_refusalText _ _ _ _)
  | some d =>
      rw [reply_of_decision hDecision] at h
      obtain ⟨hUsed, text, rfl, hText⟩ := Reply.ofDecision_stderr_eq_refusalText h
      exact ⟨hUsed, text, rfl, hText⟩

/-- **What a refusal shows.** Whenever the error text of a reply reads as the refusal of an
argument, the shown text is the visible part of a beginning of the argument that decides, and
this beginning is empty only if the argument is. With a tip, the argument that decides is the
first one and a long name that belongs to no flag, the line of use shows the flag that the tip
offers, and this flag alone is obeyed. -/
theorem reply_shown_text {i : Invocation} {shown : String} {tip used : Option Flag}
    (h : i.reply.stderr = Reply.refusalText ("argument '" ++ shown ++ "' found") tip used) :
    (∃ arg text : String, Decision.deciding? i.arguments = some arg ∧
      Decision.ofArguments? i.arguments = some (.unexpectedArgument text tip) ∧
      text.toList <+: arg.toList ∧ (text = "" → arg = "") ∧ shown = visible text ∧
      ((∀ c ∈ arg.toList, Visible.isShown c = true) → shown = text) ∧
      (tip ≠ none → i.arguments.head? = some arg ∧ Decision.UnknownLong arg)) ∧
    used = tip ∧
    (∀ f, tip = some f → ∀ filter, (mk ["--" ++ f.name] filter).reply.code = 0) := by
  obtain ⟨hUsed, text, hDecision, hText⟩ := ofArguments?_of_stderr h
  obtain ⟨arg, hDeciding, hBeginning, hEmpty, hTip⟩ := Decision.shown_of_ofArguments? hDecision
  refine ⟨⟨arg, text, hDeciding, hDecision, hBeginning, hEmpty, hText.symm, ?_, hTip⟩, hUsed, ?_⟩
  · intro hShown
    rw [← hText]
    exact visible_eq_self fun c hc => hShown c (hBeginning.subset hc)
  · intro f _ filter
    rw [reply_flag]
    cases f <;> rfl

/-- A value is dropped from the shown text, and the flag that the tip offers is obeyed. -/
theorem reply_shown_hepl :
    (mk ["--hepl=x", "--", "-h"] none).reply.stderr
      = Reply.refusalText ("argument '" ++ "--hepl" ++ "' found") (some .help) (some .help) ∧
    Decision.UnknownLong "--hepl=x" ∧ (mk ["--help"] none).reply.code = 0 := by
  have h : (mk ["--hepl=x", "--", "-h"] none).reply.stderr
      = Reply.refusalText ("argument '" ++ "--hepl" ++ "' found") (some .help) (some .help) := by
    decide +kernel
  obtain ⟨⟨arg, -, -, -, -, -, -, -, hTip⟩, -, hCode⟩ := reply_shown_text h
  obtain ⟨hHead, hLong⟩ := hTip (Option.some_ne_none _)
  obtain rfl : "--hepl=x" = arg := Option.some.inj hHead
  exact ⟨h, hLong, hCode .help rfl none⟩

/-- A bell is not shown, so that the shown text is not always the beginning of the argument, and
may be empty although the argument is not. -/
theorem reply_shown_text_hidden :
    ((mk ["a\x07b"] none).reply.stderr
        = Reply.refusalText ("argument '" ++ "ab" ++ "' found") none none ∧
      Decision.deciding? ["a\x07b"] = some "a\x07b" ∧ ¬ "ab".toList <+: "a\x07b".toList) ∧
    (mk ["\x07"] none).reply.stderr
        = Reply.refusalText ("argument '" ++ "" ++ "' found") none none ∧
      Decision.deciding? ["\x07"] = some "\x07" ∧ "\x07" ≠ "" := by
  decide

end Invocation

end Fibonacci.CommandLine
