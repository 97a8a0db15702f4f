import Fibonacci.CommandLine.Invocation
import Fibonacci.Proofs.AlikeLetters
import Fibonacci.Proofs.MatchedPositions
import Fibonacci.Proofs.SimilarityBounds

set_option autoImplicit false

/-! # Misspelt flags

A long name with one slip in it (`Typo`) is refused with the flag that was meant as the tip. Two
bounds show this, on either side of the similarity from which a flag is near.

* The slip may bring in any character, but to the similarity with the name that was meant all
  characters that are not in the name are one (`Similarity.fold`). What is left are finitely many
  words (`variants`), all of them at least `5/6` similar.
* The names of two flags have one letter in common, and the slip adds at most one more, so no more
  than two letters are matched in the name of the other flag.
-/

namespace Fibonacci.CommandLine

/-! ## Typos -/

/-- `Typo t s`: the word `s` is `t` with one slip. -/
inductive Typo : List Char → List Char → Prop where
  /-- A character too many. -/
  | inserted (u v : List Char) (c : Char) : Typo (u ++ v) (u ++ c :: v)
  /-- A character missing. -/
  | deleted (u v : List Char) (c : Char) : Typo (u ++ c :: v) (u ++ v)
  /-- A character in the place of another one. -/
  | replaced (u v : List Char) {c d : Char} (h : d ≠ c) : Typo (u ++ c :: v) (u ++ d :: v)
  /-- Two neighbours the wrong way round. -/
  | swapped (u v : List Char) (c d : Char) : Typo (u ++ c :: d :: v) (u ++ d :: c :: v)

/-- Changing characters in both words leaves a typo, as long as nothing becomes a character of
the first word that was another one before. -/
theorem Typo.map {t s : List Char} (h : Typo t s) {g : Char → Char}
    (hg : ∀ c ∈ t, ∀ d, g d = g c → d = c) : Typo (t.map g) (s.map g) := by
  cases h with
  | inserted u v c =>
      simp only [List.map_append, List.map_cons]
      exact .inserted (u.map g) (v.map g) (g c)
  | deleted u v c =>
      simp only [List.map_append, List.map_cons]
      exact .deleted (u.map g) (v.map g) (g c)
  | @replaced u v c d hne =>
      have hmem : c ∈ u ++ c :: v := List.mem_append_right u List.mem_cons_self
      simp only [List.map_append, List.map_cons]
      exact .replaced (u.map g) (v.map g) fun he => hne (hg c hmem d he)
  | swapped u v c d =>
      simp only [List.map_append, List.map_cons]
      exact .swapped (u.map g) (v.map g) (g c) (g d)

/-- The words with one slip, at the first place or later, that brings in a character of an
alphabet or none. -/
def variants (alphabet : List Char) : List Char → List (List Char)
  | [] => alphabet.map fun d => [d]
  | c :: t =>
    (alphabet.map fun d => d :: c :: t) ++ [t]
      ++ ((alphabet.filter fun d => decide (d ≠ c)).map fun d => d :: t)
      ++ (match t with
          | [] => []
          | d :: v => [d :: c :: v])
      ++ (variants alphabet t).map fun s => c :: s

theorem append_mem_variants {alphabet t s : List Char} (h : s ∈ variants alphabet t)
    (u : List Char) : u ++ s ∈ variants alphabet (u ++ t) := by
  induction u with
  | nil => exact h
  | cons c u ih => exact List.mem_append_right _ (List.mem_map_of_mem ih)

theorem Typo.mem_variants {alphabet t s : List Char} (h : Typo t s) (hs : s ⊆ alphabet) :
    s ∈ variants alphabet t := by
  -- in every case the two words part after `u`, so the slip is at the first place of the rest
  cases h with
  | inserted u v c =>
      have hc : c ∈ alphabet := hs (List.mem_append_right u List.mem_cons_self)
      apply append_mem_variants
      cases v with
      | nil => exact List.mem_map.mpr ⟨c, hc, rfl⟩
      | cons d v => simp [variants, hc]
  | deleted u v c =>
      apply append_mem_variants
      simp [variants]
  | @replaced u v c d hne =>
      have hd : d ∈ alphabet := hs (List.mem_append_right u List.mem_cons_self)
      apply append_mem_variants
      simp [variants, hd, hne]
  | swapped u v c d =>
      apply append_mem_variants
      simp [variants]

/-! ## What a slip leaves -/

/-- One slip adds at most one character of any kind. -/
theorem Typo.countP_le {t s : List Char} (h : Typo t s) (p : Char → Bool) :
    s.countP p ≤ t.countP p + 1 := by
  cases h <;> simp only [List.countP_append, List.countP_cons] <;> split_ifs <;> omega

theorem Typo.length_le {t s : List Char} (h : Typo t s) : t.length ≤ s.length + 1 := by
  cases h <;> simp only [List.length_append, List.length_cons] <;> omega

/-- A slip is noticed in a word without repeated characters. -/
theorem Typo.ne {t s : List Char} (h : Typo t s) (ht : t.Nodup) : s ≠ t := by
  intro he
  cases h with
  | inserted u v c => simp at he
  | deleted u v c => simp at he
  | @replaced u v c d hne => simp [hne] at he
  | swapped u v c d =>
      obtain ⟨rfl, -⟩ : d = c ∧ c = d := by simpa using he
      simp [List.nodup_append] at ht

/-! ## Tips for typos -/

namespace Flag

theorem nodup_name (f : Flag) : f.name.toList.Nodup := by
  cases f <;> decide

theorem question_not_mem_name (f : Flag) : '?' ∉ f.name.toList := by
  cases f <;> decide

/-- Over the letters of the name and one other character, all typos are similar to the name. -/
theorem similarity_variants : ∀ f ∈ all, ∀ s ∈ variants ('?' :: f.name.toList) f.name.toList,
    5 / 6 ≤ similarity s f.name.toList := by
  decide +kernel

theorem similarity_of_typo {f : Flag} {s : List Char} (h : Typo f.name.toList s) :
    5 / 6 ≤ similarity s f.name.toList := by
  -- folding leaves the name as it is, so that the folded word is a typo of it again
  have hfold : Typo f.name.toList (s.map (Similarity.fold f.name.toList)) := by
    have hmap := h.map (g := Similarity.fold f.name.toList) fun c hc d he => by
      rwa [Similarity.fold_of_mem hc,
        Similarity.fold_eq_iff (question_not_mem_name f) hc] at he
    rwa [Similarity.map_fold_self] at hmap
  have hsub : s.map (Similarity.fold f.name.toList) ⊆ '?' :: f.name.toList := by
    intro c hc
    obtain ⟨d, -, rfl⟩ := List.mem_map.mp hc
    exact Similarity.fold_mem f.name.toList d
  rw [← Similarity.similarity_map_fold (question_not_mem_name f)]
  exact similarity_variants f (mem_all f) _ (hfold.mem_variants hsub)

theorem one_lt_length_name (f : Flag) : 1 < f.name.toList.length := by
  cases f <;> decide

theorem common_letters {f g : Flag} (hne : g ≠ f) :
    (f.name.toList.countP fun c => decide (c ∈ g.name.toList)) = 1 := by
  refine of_ne ?_ ?_ hne
  · decide
  · decide

theorem near_of_typo {f : Flag} {s : List Char} (h : Typo f.name.toList s) : Near s f := by
  have hself := similarity_of_typo h
  unfold Near
  linarith

theorem not_near_of_typo {f g : Flag} {s : List Char} (h : Typo f.name.toList s) (hne : g ≠ f) :
    ¬ Near s g := by
  -- what can be matched is the common letter, and the character that the slip brings in
  have hmatching : (Similarity.matching s g.name.toList).length ≤ 2 := by
    calc (Similarity.matching s g.name.toList).length
        ≤ s.countP fun c => decide (c ∈ g.name.toList) :=
          (Similarity.isMatching_matching s g.name.toList).length_le_left
      _ ≤ (f.name.toList.countP fun c => decide (c ∈ g.name.toList)) + 1 := h.countP_le _
      _ = 2 := by rw [common_letters hne]
  intro hnear
  have hle := Similarity.length_mul_length_le hnear hmatching
  have hlength := h.length_le
  -- two letters are too few, even in a word with a character missing
  revert hle hlength
  refine of_ne ?_ ?_ hne
  · rw [length_name_help, length_name_version]
    omega
  · rw [length_name_help, length_name_version]
    omega

/-- A typo is near to the flag that was meant and to no other. -/
theorem near_typo_iff {f : Flag} {s : List Char} (h : Typo f.name.toList s) (g : Flag) :
    Near s g ↔ g = f := by
  constructor
  · intro hnear
    by_contra hne
    exact not_near_of_typo h hne hnear
  · rintro rfl
    exact near_of_typo h

/-- A typo of a flag's name is the name of no flag. -/
theorem ofName?_typo {f : Flag} {s : List Char} (h : Typo f.name.toList s) : ofName? s = none := by
  rw [ofName?_eq_none_iff]
  rintro g rfl
  by_cases hne : g = f
  · subst hne
    exact h.ne (nodup_name g) rfl
  · have hself : Near g.name.toList g := by
      cases g <;> decide +kernel
    exact not_near_of_typo h hne hself

end Flag

/-! ## Replies to typos -/

theorem Decision.ofArguments?_typo {f : Flag} {name : String} (hEq : '=' ∉ name.toList)
    (h : Typo f.name.toList name.toList) (rest : List String) :
    ofArguments? (("--" ++ name) :: rest)
      = some (.unexpectedArgument ("--" ++ name) (some f)) := by
  have hName : name ≠ "" := by
    rintro rfl
    have hshort : f.name.toList.length ≤ 1 := h.length_le
    exact absurd (Flag.one_lt_length_name f) (Nat.not_lt.mpr hshort)
  rw [ofArguments?_unknown hName hEq (Flag.ofName?_typo h),
    Flag.tip?_eq_some_of_near_iff (Flag.near_typo_iff h)]

namespace Invocation

/-- **Tips for misspelt flags.** A long name with one slip, and without a value, is refused with
the flag that was meant as the tip and in the line of use, whatever arguments follow. The whole
name is shown, as far as it is visible. -/
theorem reply_misspelt (f : Flag) (name : String) (hEq : '=' ∉ name.toList)
    (h : Typo f.name.toList name.toList) (rest : List String) (filter : Option String) :
    Decision.ofArguments? (("--" ++ name) :: rest)
      = some (.unexpectedArgument ("--" ++ name) (some f)) ∧
    (mk (("--" ++ name) :: rest) filter).reply
      = ⟨2, "", "error: unexpected argument '" ++ visible ("--" ++ name) ++
          "' found\n\n  tip: a similar argument exists: '--" ++ f.name ++
          "'\n\nUsage: fib --" ++ f.name ++ "\n\nFor more information, try '--help'.\n"⟩ ∧
    ((∀ c ∈ name.toList, Visible.isShown c = true) → visible ("--" ++ name) = "--" ++ name) := by
  have hDecision := Decision.ofArguments?_typo hEq h rest
  refine ⟨hDecision, ?_, ?_⟩
  · rw [reply_of_decision hDecision, Reply.ofDecision_unexpectedArgument,
      Reply.refusalText_argument_tip]
  · intro hShown
    apply visible_eq_self
    rw [Flag.toList_mark_append]
    intro c hc
    rcases List.mem_cons.mp hc with rfl | hc
    · decide
    rcases List.mem_cons.mp hc with rfl | hc
    · decide
    · exact hShown c hc

/-- Two letters the wrong way round. -/
theorem reply_misspelt_hepl :
    '=' ∉ "hepl".toList ∧ Typo Flag.help.name.toList "hepl".toList ∧
    (mk ["--hepl", "--help"] none).reply
      = ⟨2, "", "error: unexpected argument '--hepl' found\n\n" ++
          "  tip: a similar argument exists: '--help'\n\n" ++
          "Usage: fib --help\n\nFor more information, try '--help'.\n"⟩ := by
  have hEq : '=' ∉ "hepl".toList := by decide
  have h : Typo Flag.help.name.toList "hepl".toList := .swapped ['h', 'e'] [] 'l' 'p'
  have hShown : ∀ c ∈ "hepl".toList, Visible.isShown c = true := List.all_eq_true.mp (by decide)
  obtain ⟨-, hReply, hVisible⟩ := reply_misspelt .help "hepl" hEq h ["--help"] none
  rw [hVisible hShown] at hReply
  exact ⟨hEq, h, hReply⟩

/-- A character too many is not shown if it is not visible. -/
theorem reply_misspelt_hidden :
    '=' ∉ "he\x07lp".toList ∧ Typo Flag.help.name.toList "he\x07lp".toList ∧
    (mk ["--he\x07lp"] none).reply
      ≠ ⟨2, "", "error: unexpected argument '--he\x07lp' found\n\n" ++
          "  tip: a similar argument exists: '--help'\n\n" ++
          "Usage: fib --help\n\nFor more information, try '--help'.\n"⟩ := by
  refine ⟨by decide, .inserted ['h', 'e'] ['l', 'p'] '\x07', ?_⟩
  decide +kernel

end Invocation

end Fibonacci.CommandLine
