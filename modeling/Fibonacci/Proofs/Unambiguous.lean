import Fibonacci.CommandLine.Reply

set_option autoImplicit false

/-! # What a reply tells about the decision

Text of the caller stands unescaped in the error texts, and may hold a copy of any part of
them. It still cannot be taken for another decision: an error text is read from both ends, where
the caller has no say. Its line of use ends in the flag that is shown, or in none
(`refusalText_shown`), its beginning names the kind of fault
(`refusalText_value_ne_argument`), and between these two ends stands the visible part of the
caller's text and nothing else (`refusalText_fault`).

A reply determines the decision up to what is not visible of that text, and no further: two
decisions have one reply exactly if their visible forms agree.
-/

namespace Fibonacci.CommandLine

namespace Decision

/-- The text of the caller that a decision holds. -/
def text : Decision → String
  | .obeyed _ => ""
  | .unexpectedValue _ value => value
  | .unexpectedArgument shown _ => shown

/-- The decision with only the visible part of its text. -/
def visible : Decision → Decision
  | .obeyed f => .obeyed f
  | .unexpectedValue f value => .unexpectedValue f (Fibonacci.visible value)
  | .unexpectedArgument shown tip => .unexpectedArgument (Fibonacci.visible shown) tip

/-- The text has no ASCII control characters, delete among them, but those that lay it out. -/
def Printable (d : Decision) : Prop := ∀ c ∈ d.text.toList, Visible.isShown c = true

instance (d : Decision) : Decidable d.Printable :=
  List.decidableBAll (fun c => Visible.isShown c = true) d.text.toList

theorem visible_eq_self {d : Decision} (h : d.Printable) : d.visible = d := by
  cases d with
  | obeyed f => rfl
  | unexpectedValue f value =>
      have hValue : Fibonacci.visible value = value := Fibonacci.visible_eq_self h
      rw [visible, hValue]
  | unexpectedArgument shown tip =>
      have hShown : Fibonacci.visible shown = shown := Fibonacci.visible_eq_self h
      rw [visible, hShown]

end Decision

namespace Reply

/-! ## Both ends of an error text -/

/-- Texts end alike only if they have the same ending, once the last letters tell the endings
apart. -/
theorem append_ending_inj {ending : Option Flag → String} {k : Nat}
    (hlength : ∀ t, k ≤ (ending t).toList.reverse.length)
    (hInj : Function.Injective fun t => (ending t).toList.reverse.take k)
    {x y : String} {s t : Option Flag} (h : x ++ ending s = y ++ ending t) : s = t := by
  have hTake : ∀ (z : String) (u : Option Flag),
      (z ++ ending u).toList.reverse.take k = (ending u).toList.reverse.take k := by
    intro z u
    rw [String.toList_append, List.reverse_append, List.take_append_of_le_length (hlength u)]
  have hLast : (ending s).toList.reverse.take k = (ending t).toList.reverse.take k := by
    rw [← hTake x, h, hTake]
  exact hInj hLast

/-- The last letter tells the three usage lines apart. -/
theorem append_usage_inj {x y : String} {s t : Option Flag} (h : x ++ usage s = y ++ usage t) :
    s = t := by
  have hlength : ∀ t, 1 ≤ (usage t).toList.reverse.length := by
    rintro (_ | _ | _) <;> decide
  exact append_ending_inj hlength
    (Flag.injective_option_of_ne (by decide) (by decide) (by decide)) h

theorem refusalText_shown {fault fault' : String} {tip tip' shown shown' : Option Flag}
    (h : refusalText fault tip shown = refusalText fault' tip' shown') : shown = shown' := by
  unfold refusalText at h
  -- the last line is the same in every error text
  rw [String.append_left_inj, String.append_left_inj] at h
  exact append_usage_inj h

theorem refusalText_fault {fault fault' : String} {tip shown : Option Flag}
    (h : refusalText fault tip shown = refusalText fault' tip shown) : fault = fault' := by
  rw [refusalText_eq, refusalText_eq, String.append_right_inj, String.append_left_inj] at h
  exact h

/-- What follows the text of the caller, up to the line of use, if an argument is refused. -/
def argumentEnd (tip : Option Flag) : String := "' found" ++ ("\n\n" ++ tipText tip)

/-- Four letters before the line of use tell the three apart. -/
theorem append_argumentEnd_inj {x y : String} {s t : Option Flag}
    (h : x ++ argumentEnd s = y ++ argumentEnd t) : s = t := by
  have hlength : ∀ t, 4 ≤ (argumentEnd t).toList.reverse.length := by
    rintro (_ | _ | _) <;> decide
  exact append_ending_inj hlength
    (Flag.injective_option_of_ne (by decide) (by decide) (by decide)) h

theorem refusalText_argument_eq (x : String) (tip shown : Option Flag) :
    refusalText ("argument '" ++ x ++ "' found") tip shown
      = "error: unexpected " ++ "argument '" ++ (x ++ argumentEnd tip) ++
          (usage shown ++ "\n\n" ++ "For more information, try '--help'.\n") := by
  unfold refusalText argumentEnd
  simp only [String.append_assoc]

/-- An error text for an argument is read in one way only, whatever the argument holds. -/
theorem refusalText_argument_inj {x y : String} {tip tip' shown shown' : Option Flag}
    (h : refusalText ("argument '" ++ x ++ "' found") tip shown
      = refusalText ("argument '" ++ y ++ "' found") tip' shown') :
    x = y ∧ tip = tip' ∧ shown = shown' := by
  obtain rfl := refusalText_shown h
  have hEnd : x ++ argumentEnd tip = y ++ argumentEnd tip' := by
    rw [refusalText_argument_eq, refusalText_argument_eq, String.append_left_inj,
      String.append_right_inj] at h
    exact h
  obtain rfl := append_argumentEnd_inj hEnd
  exact ⟨(String.append_left_inj _).mp hEnd, rfl, rfl⟩

/-- The first letter tells the two kinds of fault apart. -/
theorem refusalText_value_ne_argument {x y : String} {tip tip' shown shown' : Option Flag} :
    refusalText ("value '" ++ x) tip shown ≠ refusalText ("argument '" ++ y) tip' shown' := by
  intro h
  rw [refusalText_eq, refusalText_eq, String.append_right_inj] at h
  have hList := congrArg String.toList h
  simp only [String.toList_append, List.append_assoc] at hList
  have hFirst : (some 'v' : Option Char) = some 'a' := congrArg List.head? hList
  exact absurd hFirst (by decide)

theorem ofFlag_injective : Function.Injective ofFlag := Flag.injective_of_ne (by decide)

/-! ## Decisions from replies -/

theorem ofDecision_visible (d : Decision) : ofDecision d.visible = ofDecision d := by
  cases d with
  | obeyed f => rfl
  | unexpectedValue f value =>
      rw [Decision.visible, ofDecision_unexpectedValue, ofDecision_unexpectedValue,
        visible_visible]
  | unexpectedArgument shown tip =>
      rw [Decision.visible, ofDecision_unexpectedArgument, ofDecision_unexpectedArgument,
        visible_visible]

theorem ofFlag_ne_refusal (f : Flag) (stderr : String) : ofFlag f ≠ ⟨2, "", stderr⟩ := by
  intro h
  have hCode : (ofFlag f).code = 2 := congrArg Reply.code h
  cases f <;> exact absurd hCode (by decide)

theorem visible_eq_of_unexpectedValue {f g : Flag} {v w : String}
    (h : ofDecision (.unexpectedValue f v) = ofDecision (.unexpectedValue g w)) :
    f = g ∧ visible v = visible w := by
  rw [ofDecision_unexpectedValue, ofDecision_unexpectedValue] at h
  have hText := congrArg Reply.stderr h
  -- once the flags agree, all that stands around the two texts is the same
  obtain rfl : f = g := Option.some.inj (refusalText_shown hText)
  have hFault := refusalText_fault hText
  rw [String.append_left_inj, String.append_left_inj, String.append_left_inj,
    String.append_right_inj] at hFault
  exact ⟨rfl, hFault⟩

theorem visible_eq_of_unexpectedArgument {s t : Option Flag} {v w : String}
    (h : ofDecision (.unexpectedArgument v s) = ofDecision (.unexpectedArgument w t)) :
    s = t ∧ visible v = visible w := by
  rw [ofDecision_unexpectedArgument, ofDecision_unexpectedArgument] at h
  obtain ⟨hText, hTip, -⟩ := refusalText_argument_inj (congrArg Reply.stderr h)
  exact ⟨hTip, hText⟩

theorem ofDecision_value_ne_argument (f : Flag) (v w : String) (t : Option Flag) :
    ofDecision (.unexpectedValue f v) ≠ ofDecision (.unexpectedArgument w t) := by
  rw [ofDecision_unexpectedValue, ofDecision_unexpectedArgument]
  intro h
  have hText := congrArg Reply.stderr h
  simp only [String.append_assoc] at hText
  exact refusalText_value_ne_argument hText

theorem visible_eq_of_ofDecision_eq {d e : Decision} (h : ofDecision d = ofDecision e) :
    d.visible = e.visible := by
  cases d with
  | obeyed f =>
      cases e with
      | obeyed g => rw [ofFlag_injective h]
      | unexpectedValue g w => exact absurd h (ofFlag_ne_refusal f _)
      | unexpectedArgument w t => exact absurd h (ofFlag_ne_refusal f _)
  | unexpectedValue f v =>
      cases e with
      | obeyed g => exact absurd h.symm (ofFlag_ne_refusal g _)
      | unexpectedValue g w =>
          obtain ⟨rfl, hText⟩ := visible_eq_of_unexpectedValue h
          rw [Decision.visible, Decision.visible, hText]
      | unexpectedArgument w t => exact absurd h (ofDecision_value_ne_argument f v w t)
  | unexpectedArgument v s =>
      cases e with
      | obeyed g => exact absurd h.symm (ofFlag_ne_refusal g _)
      | unexpectedValue g w => exact absurd h.symm (ofDecision_value_ne_argument g w v s)
      | unexpectedArgument w t =>
          obtain ⟨rfl, hText⟩ := visible_eq_of_unexpectedArgument h
          rw [Decision.visible, Decision.visible, hText]

/-- **Unambiguous replies.** Two decisions have one reply exactly if they agree in all that is
visible of them. Without characters that are not visible they have one reply only if they are
the same decision. -/
theorem ofDecision_eq_iff_visible (d e : Decision) :
    (ofDecision d = ofDecision e ↔ d.visible = e.visible) ∧
    (d.Printable → e.Printable → (ofDecision d = ofDecision e ↔ d = e)) := by
  have hIff : ofDecision d = ofDecision e ↔ d.visible = e.visible := by
    constructor
    · exact visible_eq_of_ofDecision_eq
    · intro h
      rw [← ofDecision_visible d, h, ofDecision_visible e]
  refine ⟨hIff, ?_⟩
  intro hd he
  rw [hIff, Decision.visible_eq_self hd, Decision.visible_eq_self he]

/-- A shown text that imitates a tip is not taken for one. -/
theorem ofDecision_imitated_tip :
    (Decision.unexpectedArgument
      "--hel' found\n\n  tip: a similar argument exists: '--help" none).Printable ∧
    (Decision.unexpectedArgument "--hel" (some .help)).Printable ∧
    ofDecision (.unexpectedArgument
      "--hel' found\n\n  tip: a similar argument exists: '--help" none)
        ≠ ofDecision (.unexpectedArgument "--hel" (some .help)) := by
  have hd : (Decision.unexpectedArgument
      "--hel' found\n\n  tip: a similar argument exists: '--help" none).Printable := by decide
  have he : (Decision.unexpectedArgument "--hel" (some .help)).Printable := by decide
  refine ⟨hd, he, ?_⟩
  intro h
  exact absurd (((ofDecision_eq_iff_visible _ _).2 hd he).mp h) (by decide)

/-- A bell in the text is not visible, so the reply does not tell whether it is there. -/
theorem ofDecision_not_injective :
    ¬ (ofDecision (.unexpectedArgument "a\x07b" none) = ofDecision (.unexpectedArgument "ab" none) ↔
      Decision.unexpectedArgument "a\x07b" none = Decision.unexpectedArgument "ab" none) := by
  decide

end Reply

end Fibonacci.CommandLine
