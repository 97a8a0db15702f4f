import Fibonacci.CommandLine.Invocation
import Fibonacci.Proofs.AlikeLetters

set_option autoImplicit false

/-! # Where the letters of the flags stand

The tip for a name depends on the length of the name and on where it holds letters of the flags,
and on nothing else. At any other place a character is only one that no flag has, so two names that
agree in the letters of the flags are alike to each flag (`SameLetters.forall₂_alike`). They are
equally similar to it, with the same transpositions, and the choice of the tip looks at nothing but
these two numbers (`tip?_congr`).

Places and lengths count characters. How many octets the other characters take makes no difference.
-/

namespace Fibonacci.CommandLine

namespace Flag

open Similarity

/-- The names are equally long and hold the same letters of the flags at the same positions. -/
structure SameLetters (name name' : List Char) : Prop where
  length_eq : name.length = name'.length
  letter : ∀ i < name.length, ∀ c ∈ "help".toList ++ "version".toList,
    name[i]? = some c ↔ name'[i]? = some c

variable {name name' : List Char}

theorem mem_letters {f : Flag} {c : Char} (h : c ∈ f.name.toList) :
    c ∈ "help".toList ++ "version".toList := by
  cases f with
  | help => exact List.mem_append_left _ h
  | version => exact List.mem_append_right _ h

/-- To a flag, the characters of the two names are alike place by place. -/
theorem SameLetters.forall₂_alike (h : SameLetters name name') (f : Flag) :
    List.Forall₂ (Alike f.name.toList) name name' := by
  rw [List.forall₂_iff_get]
  refine ⟨h.length_eq, fun i hi hi' c hc => ?_⟩
  have hletter := h.letter i hi c (mem_letters hc)
  rw [List.getElem?_eq_getElem hi, List.getElem?_eq_getElem hi', Option.some_inj,
    Option.some_inj] at hletter
  exact hletter

/-! ## The choice of the tip -/

theorem near_congr (h : SameLetters name name') (f : Flag) : Near name f ↔ Near name' f := by
  unfold Near
  rw [similarity_congr (h.forall₂_alike f)]

theorem supersedes_congr (h : SameLetters name name') (g f : Flag) :
    Supersedes name g f ↔ Supersedes name' g f := by
  unfold Supersedes
  rw [similarity_congr (h.forall₂_alike f), similarity_congr (h.forall₂_alike g),
    transpositions_congr (h.forall₂_alike f), transpositions_congr (h.forall₂_alike g)]

theorem better_congr (h : SameLetters name name') : better name = better name' := by
  funext best g
  cases best with
  | none => rfl
  | some f => simp only [better, supersedes_congr h]

/-- Names with the same letters of the flags at the same positions have the same tip. -/
theorem tip?_congr (h : SameLetters name name') : tip? name = tip? name' := by
  simp only [tip?, near_congr h, better_congr h]

end Flag

/-- The text may stand after `--` as a name that belongs to no flag. -/
structure UnknownName (name : String) : Prop where
  ne_empty : name ≠ ""
  not_cut : '=' ∉ name.toList
  ne_help : name ≠ "help"
  ne_version : name ≠ "version"

/-- An unknown name is refused with its tip. -/
theorem UnknownName.ofArguments? {name : String} (h : UnknownName name) (rest : List String) :
    Decision.ofArguments? (("--" ++ name) :: rest)
      = some (.unexpectedArgument ("--" ++ name) (Flag.tip? name.toList)) :=
  Decision.ofArguments?_unknown h.ne_empty h.not_cut
    ((Flag.ofName?_toList_eq_none_iff name).mpr ⟨h.ne_help, h.ne_version⟩) rest

namespace Invocation

/-- **The tip depends only on where the letters of the flags stand.** Two unknown names of equally
many characters, with the same letters of `help` and `version` at the same positions, are refused
with the same tip, or both without one if they are near to no flag. Their other characters, the
arguments that follow and the filters that are set make no difference. -/
theorem reply_same_tip {name name' : String} (hName : UnknownName name)
    (hName' : UnknownName name') (hLetters : Flag.SameLetters name.toList name'.toList)
    (rest rest' : List String) (filter filter' : Option String) :
    ∃ tip : Option Flag,
      (tip = none ↔ ∀ f : Flag, ¬ Flag.Near name.toList f) ∧
      (Decision.ofArguments? (("--" ++ name) :: rest)
          = some (.unexpectedArgument ("--" ++ name) tip) ∧
        (mk (("--" ++ name) :: rest) filter).reply
          = ⟨2, "", Reply.refusalText ("argument '" ++ visible ("--" ++ name) ++ "' found")
              tip tip⟩) ∧
      Decision.ofArguments? (("--" ++ name') :: rest')
          = some (.unexpectedArgument ("--" ++ name') tip) ∧
        (mk (("--" ++ name') :: rest') filter').reply
          = ⟨2, "", Reply.refusalText ("argument '" ++ visible ("--" ++ name') ++ "' found")
              tip tip⟩ := by
  have hDecision := hName.ofArguments? rest
  have hDecision' := hName'.ofArguments? rest'
  rw [← Flag.tip?_congr hLetters] at hDecision'
  exact ⟨Flag.tip? name.toList, Flag.tip?_eq_none_iff name.toList,
    ⟨hDecision, reply_of_decision (i := mk _ filter) hDecision⟩,
    hDecision', reply_of_decision (i := mk _ filter') hDecision'⟩

/-- A character of one octet and one of four in the place of the second letter of `help`. -/
theorem reply_same_tip_wide :
    UnknownName "h?lp" ∧ UnknownName "h😀lp" ∧
    Flag.SameLetters "h?lp".toList "h😀lp".toList ∧
    Decision.ofArguments? ["--h?lp"] = some (.unexpectedArgument "--h?lp" (some .help)) ∧
    Decision.ofArguments? ["--h😀lp", "-V"]
      = some (.unexpectedArgument "--h😀lp" (some .help)) := by
  have hName : UnknownName "h?lp" := ⟨by decide, by decide, by decide, by decide⟩
  have hName' : UnknownName "h😀lp" := ⟨by decide, by decide, by decide, by decide⟩
  have hPlaces : ∀ i < "h?lp".toList.length, (("help".toList ++ "version".toList).all fun c =>
      decide ("h?lp".toList[i]? = some c ↔ "h😀lp".toList[i]? = some c)) = true := by decide
  have hLetters : Flag.SameLetters "h?lp".toList "h😀lp".toList :=
    ⟨by decide, fun i hi c hc => of_decide_eq_true (List.all_eq_true.mp (hPlaces i hi) c hc)⟩
  have hNarrow : Decision.ofArguments? ["--h?lp"]
      = some (.unexpectedArgument "--h?lp" (some .help)) := by
    decide +kernel
  obtain ⟨tip, -, ⟨hDecision, -⟩, hWide, -⟩ :=
    reply_same_tip hName hName' hLetters [] ["-V"] none (some "trace")
  obtain rfl : some .help = tip :=
    (Decision.unexpectedArgument.inj (Option.some.inj (hNarrow.symm.trans hDecision))).2
  exact ⟨hName, hName', hLetters, hNarrow, hWide⟩

end Invocation

end Fibonacci.CommandLine
