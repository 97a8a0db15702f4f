import Fibonacci.CommandLine.Invocation
import Fibonacci.Proofs.ContinuedWord
import Fibonacci.Proofs.SimilarityBounds

set_option autoImplicit false

/-! # Names that go on after a flag's

The name of a flag with more characters after it belongs to no flag, since no flag's name goes on
after another's. It is near to the flag exactly if at most nine characters follow for each letter of
the name (`Flag.near_name_append_iff`), whatever these characters are. After `version` no letters
make `help` the better tip: the four letters of `help` weigh less against the length than the
seven of `version`, all of them in place.
-/

namespace Fibonacci.CommandLine

namespace Flag

open Similarity

/-! ## Tips for continued names -/

theorem not_name_prefix {f g : Flag} (hne : g ≠ f) : ¬ f.name.toList <+: g.name.toList := by
  refine of_ne ?_ ?_ hne
  · decide
  · decide

theorem ofName?_name_append (f : Flag) {s : List Char} (hs : s ≠ []) :
    ofName? (f.name.toList ++ s) = none := by
  rw [ofName?_eq_none_iff]
  intro g hg
  by_cases hne : g = f
  · subst hne
    exact hs (List.self_eq_append_right.mp hg)
  · exact not_name_prefix hne ⟨s, hg.symm⟩

theorem near_name_append_iff (f : Flag) (s : List Char) :
    Near (f.name.toList ++ s) f ↔ s.length ≤ 9 * f.name.toList.length :=
  seven_tenths_le_similarity_append_self_iff f.name_toList_ne_nil s

/-- After `version`, the name stays more similar to `version` than to `help`. -/
theorem supersedes_version_append (s : List Char) :
    Supersedes (version.name.toList ++ s) .version .help := by
  left
  have hpos : (0 : Rat) < version.name.toList.length + s.length := by
    rw [length_name_version]
    positivity
  have hHelp := similarity_le
    (length_matching_le_length (version.name.toList ++ s) help.name.toList)
  rw [similarity_append_self version.name_toList_ne_nil]
  rw [List.length_append, Nat.cast_add, length_name_help] at hHelp
  refine lt_of_le_of_lt hHelp ?_
  have hlt : (4 : Rat) / (version.name.toList.length + s.length)
      < version.name.toList.length / (version.name.toList.length + s.length) := by
    apply div_lt_div_of_pos_right _ hpos
    rw [length_name_version]
    norm_num
  push_cast
  linarith

theorem tip?_version_append {s : List Char} (h : s.length ≤ 63) :
    tip? (version.name.toList ++ s) = some .version :=
  tip?_eq_version ((near_name_append_iff .version s).mpr h) (supersedes_version_append s)

theorem exists_tip?_help_append {s : List Char} (h : s.length ≤ 36) :
    ∃ f, tip? (help.name.toList ++ s) = some f := by
  have hNear : Near (help.name.toList ++ s) .help := (near_name_append_iff .help s).mpr h
  rw [← Option.ne_none_iff_exists']
  intro hNone
  exact (tip?_eq_none_iff _).mp hNone .help hNear

end Flag

/-! ## Replies to continued names -/

theorem Decision.ofArguments?_long_append (f : Flag) {s : String} (hs : s ≠ "")
    (hEq : '=' ∉ s.toList) (rest : List String) :
    ofArguments? ((f.long ++ s) :: rest)
      = some (.unexpectedArgument (f.long ++ s) (Flag.tip? (f.name.toList ++ s.toList))) := by
  have hName : f.name ++ s ≠ "" := fun h => f.name_ne_empty (String.append_eq_empty_iff.mp h).1
  have hNameEq : '=' ∉ (f.name ++ s).toList := by
    have hFlag : '=' ∉ f.name.toList := by cases f <;> decide
    rw [String.toList_append, List.mem_append]
    exact not_or.mpr ⟨hFlag, hEq⟩
  have hNone : Flag.ofName? (f.name ++ s).toList = none := by
    rw [String.toList_append]
    apply Flag.ofName?_name_append
    rwa [ne_eq, String.toList_eq_nil_iff]
  rw [Flag.long, String.append_assoc, ofArguments?_unknown hName hNameEq hNone,
    String.toList_append]

theorem visible_long_append (f : Flag) {s : String}
    (h : ∀ c ∈ s.toList, Visible.isShown c = true) : visible (f.long ++ s) = f.long ++ s := by
  have hName : f.name.toList.all Visible.isShown = true := by cases f <;> decide
  rw [Flag.long, String.append_assoc]
  apply visible_mark_append
  rw [String.toList_append, List.forall_mem_append]
  exact ⟨List.all_eq_true.mp hName, h⟩

namespace Invocation

/-- **Names that go on after a flag's.** After `--version` up to sixty-two characters may follow,
whatever they are, and the argument is refused with `version` as the tip. After `--help` up to
thirty-five may follow, and there is a tip. The whole argument is shown, as far as it is
visible. -/
theorem reply_continued_name {s : String} (hs : s ≠ "") (hEq : '=' ∉ s.toList)
    (rest : List String) (filter : Option String) :
    (s.length ≤ 62 →
      Decision.ofArguments? (("--version" ++ s) :: rest)
        = some (.unexpectedArgument ("--version" ++ s) (some .version)) ∧
      (mk (("--version" ++ s) :: rest) filter).reply
        = ⟨2, "", "error: unexpected argument '" ++ visible ("--version" ++ s) ++
            "' found\n\n  tip: a similar argument exists: '--version'\n\n" ++
            "Usage: fib --version\n\nFor more information, try '--help'.\n"⟩) ∧
    (s.length ≤ 35 → ∃ f : Flag,
      Decision.ofArguments? (("--help" ++ s) :: rest)
        = some (.unexpectedArgument ("--help" ++ s) (some f)) ∧
      (mk (("--help" ++ s) :: rest) filter).reply
        = ⟨2, "", "error: unexpected argument '" ++ visible ("--help" ++ s) ++
            "' found\n\n  tip: a similar argument exists: '--" ++ f.name ++
            "'\n\nUsage: fib --" ++ f.name ++ "\n\nFor more information, try '--help'.\n"⟩) ∧
    ((∀ c ∈ s.toList, Visible.isShown c = true) →
      visible ("--version" ++ s) = "--version" ++ s ∧ visible ("--help" ++ s) = "--help" ++ s) := by
  have hHelp : Flag.help.long = "--help" := by decide
  have hVersion : Flag.version.long = "--version" := by decide
  rw [← String.length_toList]
  refine ⟨?_, ?_, ?_⟩
  · intro hlength
    have hDecision := Decision.ofArguments?_long_append .version hs hEq rest
    rw [Flag.tip?_version_append (by omega), hVersion] at hDecision
    have hReply := reply_of_tip (i := mk (("--version" ++ s) :: rest) filter) hDecision
    have hText : "' found\n\n  tip: a similar argument exists: '--" ++ (Flag.version.name ++
        ("'\n\nUsage: fib --" ++ (Flag.version.name ++
          "\n\nFor more information, try '--help'.\n")))
        = "' found\n\n  tip: a similar argument exists: '--version'\n\n" ++
          "Usage: fib --version\n\nFor more information, try '--help'.\n" := by decide
    simp only [String.append_assoc, hText] at hReply ⊢
    exact ⟨hDecision, hReply⟩
  · intro hlength
    obtain ⟨f, hTip⟩ := Flag.exists_tip?_help_append (s := s.toList) (by omega)
    have hDecision := Decision.ofArguments?_long_append .help hs hEq rest
    rw [hTip, hHelp] at hDecision
    have hReply := reply_of_tip (i := mk (("--help" ++ s) :: rest) filter) hDecision
    exact ⟨f, hDecision, hReply⟩
  · intro hShown
    have hVersionText := visible_long_append .version hShown
    have hHelpText := visible_long_append .help hShown
    rw [hVersion] at hVersionText
    rw [hHelp] at hHelpText
    exact ⟨hVersionText, hHelpText⟩

/-- One flag's name after the other's gets the first one as its tip. -/
theorem reply_continued_versionhelp :
    "help" ≠ "" ∧ '=' ∉ "help".toList ∧ "help".length ≤ 35 ∧
    (∀ c ∈ "help".toList, Visible.isShown c = true) ∧
    Decision.ofArguments? ["--versionhelp", "--version"]
      = some (.unexpectedArgument "--versionhelp" (some .version)) ∧
    visible "--versionhelp" = "--versionhelp" ∧
    ∃ f : Flag, Decision.ofArguments? ["--helphelp", "--version"]
      = some (.unexpectedArgument "--helphelp" (some f)) := by
  have hs : "help" ≠ "" := by decide
  have hEq : '=' ∉ "help".toList := by decide
  have hlength : "help".length ≤ 35 := by decide
  have hShown : ∀ c ∈ "help".toList, Visible.isShown c = true := List.all_eq_true.mp (by decide)
  obtain ⟨hVersion, hHelp, hVisible⟩ := reply_continued_name hs hEq ["--version"] none
  obtain ⟨f, hTip, -⟩ := hHelp hlength
  exact ⟨hs, hEq, hlength, hShown, (hVersion (by decide)).1, (hVisible hShown).1, f, hTip⟩

/-- A bell after the name of a flag is not shown. -/
theorem reply_continued_hidden :
    "\x07" ≠ "" ∧ '=' ∉ "\x07".toList ∧ "\x07".length ≤ 35 ∧
    (mk ["--version\x07"] none).reply
      ≠ ⟨2, "", "error: unexpected argument '--version\x07' found\n\n" ++
          "  tip: a similar argument exists: '--version'\n\n" ++
          "Usage: fib --version\n\nFor more information, try '--help'.\n"⟩ := by
  refine ⟨by decide, by decide, by decide, ?_⟩
  decide +kernel

end Invocation

end Fibonacci.CommandLine
