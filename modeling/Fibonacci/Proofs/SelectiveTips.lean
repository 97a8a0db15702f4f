import Fibonacci.Proofs.MatchedPositions
import Fibonacci.Proofs.ShownText
import Fibonacci.Proofs.SimilarityBounds

set_option autoImplicit false

/-! # Which names get a tip

A flag has few letters, and no letter of it is matched twice, so a long name is near to it only
as far as these letters weigh against the length of the name. A name that is near is at most ten
times as long as the flag's. If a letter of the flag is missing from the name, there is one match
less, and the name has to be shorter still: of the names with nine characters or more, only those
with all letters of `help` get it as their tip, and of those with twenty-five or more, only those
with all letters of `version`.
-/

namespace Fibonacci.CommandLine

namespace Flag

open Similarity

variable {name : List Char} {f : Flag}

/-- Without one of the flag's letters there is a match less. -/
theorem length_matching_lt_length {c : Char} (hc : c ∈ f.name.toList) (hMissing : c ∉ name) :
    (matching name f.name.toList).length < f.name.toList.length :=
  calc (matching name f.name.toList).length
      ≤ f.name.toList.countP fun d => decide (d ∈ name) :=
        (isMatching_matching name f.name.toList).length_le_right
    _ < f.name.toList.length :=
        List.countP_lt_length_iff.mpr ⟨c, hc, decide_eq_false hMissing⟩

theorem length_le_of_near (h : Near name f) : name.length ≤ 10 * f.name.toList.length := by
  have hle := length_mul_length_le h (length_matching_le_length name f.name.toList)
  have hpos : 0 < f.name.toList.length := List.length_pos_of_ne_nil f.name_toList_ne_nil
  apply Nat.le_of_mul_le_mul_right _ hpos
  linarith

/-- A near name that is too long for a missing letter has all letters of the flag. -/
theorem mem_of_near (h : Near name f)
    (hLong : 10 * ((f.name.toList.length - 1) * (name.length + f.name.toList.length))
      < 11 * (name.length * f.name.toList.length))
    {c : Char} (hc : c ∈ f.name.toList) : c ∈ name := by
  by_contra hMissing
  have hm := length_matching_lt_length hc hMissing
  have hle := length_mul_length_le h (Nat.le_sub_one_of_lt hm)
  exact absurd hLong (Nat.not_lt.mpr hle)

end Flag

namespace Decision

/-- The tip of a refused long name is the one for the name alone. -/
theorem tip?_of_ofArgument {arg shown : String} {name dropped : List Char} {tip : Option Flag}
    (h : ofArgument arg = .unexpectedArgument shown tip)
    (harg : arg.toList = '-' :: '-' :: (name ++ dropped)) (hEq : '=' ∉ name)
    (hValue : dropped = [] ∨ ∃ value, dropped = '=' :: value) : Flag.tip? name = tip := by
  rw [ofArgument_long harg] at h
  cases hName : Flag.ofName? name with
  | some f =>
      obtain rfl := (Flag.ofName?_eq_some_iff name f).mp hName
      rcases hValue with rfl | ⟨value, rfl⟩
      · rw [List.append_nil, ofLong_flag] at h
        cases h
      · rw [ofLong_flag_value] at h
        cases h
  | none =>
      rcases hValue with rfl | ⟨value, rfl⟩
      · rw [List.append_nil, ofLong_unknown hEq hName] at h
        exact (Decision.unexpectedArgument.inj h).2
      · rw [ofLong_unknown_value hEq hName] at h
        exact (Decision.unexpectedArgument.inj h).2

end Decision

namespace Invocation

/-- The flag that a reply to a long name offers is the tip for this name. -/
theorem tip?_of_stderr {name arg shown : String} {f : Flag} {used : Option Flag}
    (hEq : '=' ∉ name.toList)
    (harg : arg = "--" ++ name ∨ ∃ value, arg = "--" ++ name ++ "=" ++ value)
    {rest : List String} {filter : Option String}
    (h : (mk (arg :: rest) filter).reply.stderr
      = Reply.refusalText ("argument '" ++ shown ++ "' found") (some f) used) :
    Flag.tip? name.toList = some f := by
  obtain ⟨-, text, hDecision, -⟩ := ofArguments?_of_stderr h
  obtain ⟨arg', rest', ⟨-, hargs, hArgument⟩ | ⟨-, hLiteral⟩⟩ :=
    Decision.ofArguments?_eq_some hDecision
  · obtain ⟨rfl, rfl⟩ := List.cons.inj hargs
    rcases harg with rfl | ⟨value, rfl⟩
    · refine Decision.tip?_of_ofArgument hArgument.symm ?_ hEq (.inl rfl)
      rw [Flag.toList_mark_append, List.append_nil]
    · exact Decision.tip?_of_ofArgument hArgument.symm (Flag.toList_mark_append_value name value)
        hEq (.inr ⟨_, rfl⟩)
  · obtain ⟨-, hTip⟩ := Decision.ofLiteral_eq_unexpectedArgument hLiteral.symm
    cases hTip

/-- **Tips are selective.** A name that gets a tip has at most seventy characters. If the tip is
`help`, the name has at most forty, and from nine characters on it holds all letters of `help`.
If the tip is `version`, from twenty-five characters on it holds all letters of `version`. A
value may follow the name. -/
theorem reply_tip_selective {name arg shown : String} {f : Flag} {used : Option Flag}
    (hEq : '=' ∉ name.toList)
    (harg : arg = "--" ++ name ∨ ∃ value, arg = "--" ++ name ++ "=" ++ value)
    (rest : List String) (filter : Option String)
    (h : (mk (arg :: rest) filter).reply.stderr
      = Reply.refusalText ("argument '" ++ shown ++ "' found") (some f) used) :
    name.length ≤ 70 ∧
    (f = .help → name.length ≤ 40 ∧
      (9 ≤ name.length → ∀ c ∈ "help".toList, c ∈ name.toList)) ∧
    (f = .version → 25 ≤ name.length → ∀ c ∈ "version".toList, c ∈ name.toList) := by
  have hNear : Flag.Near name.toList f := Flag.near_of_tip? (tip?_of_stderr hEq harg h)
  have hlength := Flag.length_le_of_near hNear
  rw [← String.length_toList]
  cases f with
  | help =>
      rw [Flag.length_name_help] at hlength
      refine ⟨by omega, ?_, nofun⟩
      intro _
      refine ⟨hlength, fun hNine c hc => ?_⟩
      apply Flag.mem_of_near hNear ?_ hc
      rw [Flag.length_name_help]
      omega
  | version =>
      rw [Flag.length_name_version] at hlength
      refine ⟨hlength, nofun, ?_⟩
      intro _ hTwentyFive c hc
      apply Flag.mem_of_near hNear ?_ hc
      rw [Flag.length_name_version]
      omega

/-- The letters of `help` may stand apart in a name of ten characters. -/
theorem reply_tip_scattered :
    '=' ∉ "hxexlxpxxx".toList ∧
    (mk ["--hxexlxpxxx=1"] none).reply.stderr
      = Reply.refusalText ("argument '" ++ "--hxexlxpxxx" ++ "' found") (some .help)
          (some .help) ∧
    "hxexlxpxxx".length ≤ 40 ∧ ∀ c ∈ "help".toList, c ∈ "hxexlxpxxx".toList := by
  have hEq : '=' ∉ "hxexlxpxxx".toList := by decide
  have h : (mk ["--hxexlxpxxx=1"] none).reply.stderr
      = Reply.refusalText ("argument '" ++ "--hxexlxpxxx" ++ "' found") (some .help)
          (some .help) := by
    decide +kernel
  have hArg : "--hxexlxpxxx=1" = "--" ++ "hxexlxpxxx" ++ "=" ++ "1" := by decide
  obtain ⟨-, hHelp, -⟩ := reply_tip_selective hEq (.inr ⟨"1", hArg⟩) [] none h
  obtain ⟨hlength, hLetters⟩ := hHelp rfl
  exact ⟨hEq, h, hlength, hLetters (by decide)⟩

end Invocation

end Fibonacci.CommandLine
