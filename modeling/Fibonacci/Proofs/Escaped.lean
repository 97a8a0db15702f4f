import Fibonacci.Proofs.Unambiguous
import Fibonacci.CommandLine.Invocation

set_option autoImplicit false

/-! # Arguments after the mark

After the mark `--` every argument is refused literally: the whole of it is shown, as far as it
is visible, and no flag is offered. Without the mark the same argument may be read as a flag. The
two replies agree exactly if the argument is refused without a tip either way, and what a
reading as a flag leaves out of it is not visible. An argument is left out in part only if a
value follows a long name, or anything follows a short one.
-/

namespace Fibonacci

/-! ## Beginnings of visible texts -/

/-- Of a text of shown characters every part is visible. -/
theorem visible_ofList_append_iff {s t : List Char}
    (h : ∀ c ∈ s ++ t, Visible.isShown c = true) :
    visible (String.ofList s) = visible (String.ofList (s ++ t)) ↔ t = [] := by
  have hPart : visible (String.ofList s) = String.ofList s := by
    apply visible_eq_self
    intro c hc
    rw [String.toList_ofList] at hc
    exact h c (List.mem_append_left t hc)
  have hWhole : visible (String.ofList (s ++ t)) = String.ofList (s ++ t) := by
    apply visible_eq_self
    rwa [String.toList_ofList]
  rw [hPart, hWhole, String.ofList_inj, List.self_eq_append_right]

namespace CommandLine

/-! ## Refusals without a tip -/

/-- The name belongs to no flag and is less than `7/10` similar to the name of any. -/
def Flag.Unlike (name : List Char) : Prop :=
  ∀ f : Flag, name ≠ f.name.toList ∧ similarity name f.name.toList < 7 / 10

theorem Flag.unlike_iff (name : List Char) :
    Flag.Unlike name ↔ Flag.ofName? name = none ∧ Flag.tip? name = none := by
  rw [Flag.ofName?_eq_none_iff, Flag.tip?_eq_none_iff, ← forall_and]
  apply forall_congr'
  intro f
  rw [Flag.Near, Rat.not_le, ne_comm]

namespace Decision

/-- The argument that begins with `shown` and goes on with `dropped` is refused without a tip,
and only its beginning is shown. -/
inductive Untipped : List Char → List Char → Prop where
  /-- It is not written as a flag, and nothing is dropped. -/
  | literal {shown : List Char} (h : ∀ c s, shown ≠ '-' :: c :: s) : Untipped shown []
  /-- It is a long name, and a value may follow, which is dropped. -/
  | long {name dropped : List Char} (hEq : '=' ∉ name) (hName : Flag.Unlike name)
      (hValue : dropped = [] ∨ ∃ value, dropped = '=' :: value) :
      Untipped ('-' :: '-' :: name) dropped
  /-- It is a short name, and anything may follow, which is dropped. -/
  | short {c : Char} (hc : c ≠ '-') (hLetter : ∀ f : Flag, f.letter ≠ c) (dropped : List Char) :
      Untipped ['-', c] dropped

/-- The argument is refused without a tip, and what is dropped of it is not visible. -/
def RefusedInFull (arg : String) : Prop :=
  ∃ shown dropped, arg.toList = shown ++ dropped ∧ Untipped shown dropped ∧
    Fibonacci.visible (String.ofList shown) = Fibonacci.visible arg

theorem Untipped.ofArgument_eq {arg : String} {shown dropped : List Char}
    (h : Untipped shown dropped) (harg : arg.toList = shown ++ dropped) :
    ofArgument arg = .unexpectedArgument (String.ofList shown) none := by
  cases h with
  | literal h =>
      rw [List.append_nil] at harg
      subst harg
      rw [String.ofList_toList]
      exact ofArgument_literal h
  | @long name _ hEq hName hValue =>
      have hLong : ofArgument arg = ofLong (name ++ dropped) := ofArgument_long harg
      obtain ⟨hNone, hTip⟩ := (Flag.unlike_iff name).mp hName
      rcases hValue with rfl | ⟨value, rfl⟩
      · rw [hLong, List.append_nil, ofLong_unknown hEq hNone, hTip]
      · rw [hLong, ofLong_unknown_value hEq hNone, hTip]
  | @short c hc hLetter =>
      have hShort : ofArgument arg = ofShort c := ofArgument_short harg hc
      rw [hShort, ofShort, (Flag.ofLetter?_eq_none_iff c).mpr hLetter]

theorem exists_untipped_of_ofArgument {arg shown : String}
    (h : ofArgument arg = .unexpectedArgument shown none) :
    ∃ dropped, arg.toList = shown.toList ++ dropped ∧ Untipped shown.toList dropped := by
  rcases argument_cases arg with ⟨s, hs⟩ | ⟨c, s, hs, hc⟩ | hs
  · rw [ofArgument_long hs] at h
    obtain ⟨name, dropped, hEq, hNone, hValue, rfl, hShown, hTip⟩ := ofLong_eq_unexpectedArgument h
    have hName : Flag.Unlike name := (Flag.unlike_iff name).mpr ⟨hNone, hTip.symm⟩
    rw [hs, hShown]
    exact ⟨dropped, rfl, .long hEq hName hValue⟩
  · rw [ofArgument_short hs hc] at h
    obtain ⟨hLetter, hShown, -⟩ := ofShort_eq_unexpectedArgument h
    rw [hs, hShown]
    exact ⟨s, rfl, .short hc hLetter s⟩
  · rw [ofArgument_literal hs] at h
    obtain ⟨rfl, -⟩ := ofLiteral_eq_unexpectedArgument h
    exact ⟨[], (List.append_nil _).symm, .literal hs⟩

end Decision

/-! ## The two readings -/

namespace Reply

theorem ofDecision_ofLiteral_eq_iff (arg : String) (d : Decision) :
    ofDecision (.ofLiteral arg) = ofDecision d ↔
      ∃ shown, d = .unexpectedArgument shown none ∧ visible shown = visible arg := by
  constructor
  · intro h
    have hVisible := visible_eq_of_ofDecision_eq h
    cases d with
    | obeyed f => cases hVisible
    | unexpectedValue f value => cases hVisible
    | unexpectedArgument shown tip =>
        obtain ⟨hText, rfl⟩ := Decision.unexpectedArgument.inj hVisible
        exact ⟨shown, rfl, hText.symm⟩
  · rintro ⟨shown, rfl, hText⟩
    rw [Decision.ofLiteral, ofDecision_unexpectedArgument, ofDecision_unexpectedArgument, hText]

/-- The two replies agree exactly if the argument is refused in full either way. -/
theorem ofDecision_ofLiteral_eq_ofArgument_iff (arg : String) :
    ofDecision (.ofLiteral arg) = ofDecision (.ofArgument arg) ↔ Decision.RefusedInFull arg := by
  rw [ofDecision_ofLiteral_eq_iff]
  constructor
  · rintro ⟨shown, hDecision, hText⟩
    obtain ⟨dropped, harg, h⟩ := Decision.exists_untipped_of_ofArgument hDecision
    rw [← String.ofList_toList (s := shown)] at hText
    exact ⟨shown.toList, dropped, harg, h, hText⟩
  · rintro ⟨shown, dropped, harg, h, hText⟩
    exact ⟨String.ofList shown, h.ofArgument_eq harg, hText⟩

end Reply

namespace Decision

/-- Of an argument of shown characters nothing may be dropped. -/
theorem refusedInFull_iff_untipped_nil {arg : String}
    (h : ∀ c ∈ arg.toList, Visible.isShown c = true) :
    RefusedInFull arg ↔ Untipped arg.toList [] := by
  constructor
  · rintro ⟨shown, dropped, harg, hUntipped, hText⟩
    rw [harg] at h
    obtain rfl : dropped = [] := by
      rw [← visible_ofList_append_iff h, hText, ← harg, String.ofList_toList]
    rwa [harg, List.append_nil]
  · intro hUntipped
    exact ⟨arg.toList, [], (List.append_nil _).symm, hUntipped, by rw [String.ofList_toList]⟩

/-- The arguments that are refused without a tip and of which nothing is dropped. -/
theorem untipped_nil_iff {arg : String} (hMark : arg ≠ "--") :
    Untipped arg.toList [] ↔
      ¬ "-".toList <+: arg.toList ∨ arg = "-" ∨
      (∃ name, name ≠ [] ∧ '=' ∉ name ∧ Flag.Unlike name ∧ arg.toList = "--".toList ++ name) ∨
      (∃ c, c ≠ '-' ∧ c ≠ 'h' ∧ c ≠ 'V' ∧ arg.toList = ['-', c]) := by
  rw [ne_eq, ← String.toList_inj] at hMark
  rw [← String.toList_inj]
  generalize arg.toList = s at hMark
  constructor
  · intro h
    cases h with
    | literal h =>
        by_cases hDash : "-".toList <+: s
        · obtain ⟨t, rfl⟩ := hDash
          cases t with
          | nil => exact .inr (.inl rfl)
          | cons c t => exact absurd rfl (h c t)
        · exact .inl hDash
    | @long name _ hEq hName _ =>
        refine .inr (.inr (.inl ⟨name, ?_, hEq, hName, rfl⟩))
        rintro rfl
        exact hMark rfl
    | @short c hc hLetter =>
        exact .inr (.inr (.inr ⟨c, hc, (hLetter .help).symm, (hLetter .version).symm, rfl⟩))
  · rintro (hDash | rfl | ⟨name, -, hEq, hName, rfl⟩ | ⟨c, hc, hh, hV, rfl⟩)
    · refine .literal ?_
      rintro c t rfl
      exact hDash ⟨c :: t, rfl⟩
    · exact .literal (fun c t h => by cases h)
    · exact .long hEq hName (.inl rfl)
    · refine .short hc ?_ []
      intro f
      cases f with
      | help => exact hh.symm
      | version => exact hV.symm

end Decision

namespace Invocation

/-- **After the mark everything is literal.** The argument after the mark is refused, with the
visible part of the whole of it, and without a tip. Without the mark the reply is the same
exactly if the argument is refused without a tip and what is dropped of it is not visible. For
an argument of shown characters this means that it is not written as a flag, or is a long name
without a value that belongs to no flag and is near to none, or a short name of no flag and
nothing else. -/
theorem reply_after_mark (arg : String) (rest : List String) (filter : Option String) :
    (mk ("--" :: arg :: rest) filter).reply
      = ⟨2, "", "error: unexpected argument '" ++ visible arg ++
          "' found\n\nUsage: fib\n\nFor more information, try '--help'.\n"⟩ ∧
    (arg ≠ "--" →
      ((mk ("--" :: arg :: rest) filter).reply = (mk (arg :: rest) filter).reply ↔
        Decision.RefusedInFull arg)) ∧
    ((∀ c ∈ arg.toList, Visible.isShown c = true) →
      visible arg = arg ∧
      (arg ≠ "--" →
        ((mk ("--" :: arg :: rest) filter).reply = (mk (arg :: rest) filter).reply ↔
          ¬ "-".toList <+: arg.toList ∨ arg = "-" ∨
          (∃ name, name ≠ [] ∧ '=' ∉ name ∧ Flag.Unlike name ∧
            arg.toList = "--".toList ++ name) ∨
          (∃ c, c ≠ '-' ∧ c ≠ 'h' ∧ c ≠ 'V' ∧ arg.toList = ['-', c])))) := by
  have hSame : arg ≠ "--" →
      ((mk ("--" :: arg :: rest) filter).reply = (mk (arg :: rest) filter).reply ↔
        Decision.RefusedInFull arg) := by
    intro h
    rw [reply_mark_cons, reply_cons h, Reply.ofDecision_ofLiteral_eq_ofArgument_iff]
  refine ⟨?_, hSame, ?_⟩
  · rw [reply_mark_cons, Decision.ofLiteral, Reply.ofDecision_unexpectedArgument,
      Reply.refusalText_argument]
  · intro hShown
    refine ⟨visible_eq_self hShown, ?_⟩
    intro h
    rw [hSame h, Decision.refusedInFull_iff_untipped_nil hShown, Decision.untipped_nil_iff h]

/-- A long name that is near to no flag is refused alike with and without the mark. -/
theorem reply_after_mark_memo :
    (∀ c ∈ "--memo".toList, Visible.isShown c = true) ∧ "--memo" ≠ "--" ∧
    (mk ["--", "--memo", "--help"] none).reply = (mk ["--memo", "--help"] none).reply := by
  have hShown : ∀ c ∈ "--memo".toList, Visible.isShown c = true :=
    List.all_eq_true.mp (by decide)
  have hMark : "--memo" ≠ "--" := by decide
  have hName : Flag.Unlike "memo".toList := by
    intro f
    cases f <;> decide +kernel
  have hSame := ((reply_after_mark "--memo" ["--help"] none).2.2 hShown).2 hMark
  exact ⟨hShown, hMark,
    hSame.mpr (.inr (.inr (.inl ⟨"memo".toList, by decide, by decide, hName, by decide⟩)))⟩

/-- A bell after a short name is not shown after the mark and is dropped without it, so that
the replies agree although something follows the short name. A name exactly `7/10` similar gets a
tip without the mark, so that they differ although no flag is more similar than that. -/
theorem reply_after_mark_hidden_or_border :
    ((mk ["--", "-x\x07"] none).reply
        ≠ ⟨2, "", "error: unexpected argument '-x\x07' found\n\n" ++
            "Usage: fib\n\nFor more information, try '--help'.\n"⟩ ∧
      (mk ["--", "-x\x07"] none).reply = (mk ["-x\x07"] none).reply ∧
      "-".toList <+: "-x\x07".toList ∧ "-x\x07" ≠ "-" ∧ ¬ "--".toList <+: "-x\x07".toList ∧
      ∀ c, "-x\x07".toList ≠ ['-', c]) ∧
    (mk ["--", "--helpxxxxxxxxxxxxxxxxxxxxxxxxxxxxxxxxxxxx"] none).reply
        ≠ (mk ["--helpxxxxxxxxxxxxxxxxxxxxxxxxxxxxxxxxxxxx"] none).reply ∧
      '=' ∉ "helpxxxxxxxxxxxxxxxxxxxxxxxxxxxxxxxxxxxx".toList ∧
      ∀ f : Flag, "helpxxxxxxxxxxxxxxxxxxxxxxxxxxxxxxxxxxxx".toList ≠ f.name.toList ∧
        ¬ 7 / 10 < similarity "helpxxxxxxxxxxxxxxxxxxxxxxxxxxxxxxxxxxxx".toList f.name.toList := by
  refine ⟨⟨by decide, by decide, by decide, by decide, by decide, ?_⟩, ?_, by decide, ?_⟩
  · intro c h
    have hlength : "-x\x07".toList.length = 2 := congrArg List.length h
    exact absurd hlength (by decide)
  · decide +kernel
  · intro f
    cases f <;> decide +kernel

end Invocation

end CommandLine

end Fibonacci
