import Fibonacci.Proofs.MatchedPositions

set_option autoImplicit false

/-! # The matching is as large as possible

Taking the first free partner for each position of the first word loses no pair: no matching within
the window has more pairs than the run finds (`length_le_matchFrom`).

The bound goes along the run. After a step that matches `i` to `j`, a matching of the positions that
were free before has to do without `i` and `j`. It may have given both of them to other positions,
but these come later in either word, the window moves on with the position, and all four hold the
same character. So the two other positions are matchable with each other (`Matchable.cross`), only
one pair is lost (`exists_rest`), and the step has found one.
-/

namespace Fibonacci

namespace Similarity

variable {w : Nat} {a b : List Char} {pairs : List (Nat × Nat)}

/-! ## Matchings pair by pair -/

theorem IsMatching.of_perm {pairs' : List (Nat × Nat)} (h : IsMatching w a b pairs)
    (hperm : pairs.Perm pairs') : IsMatching w a b pairs' where
  nodup_left := (hperm.map Prod.fst).nodup_iff.mp h.nodup_left
  nodup_right := (hperm.map Prod.snd).nodup_iff.mp h.nodup_right
  equal := fun p hp => h.equal p (hperm.mem_iff.mpr hp)
  near := fun p hp => h.near p (hperm.mem_iff.mpr hp)

theorem isMatching_cons_iff {i j : Nat} :
    IsMatching w a b ((i, j) :: pairs) ↔
      Matchable w a b i j ∧ (∀ p ∈ pairs, p.1 ≠ i ∧ p.2 ≠ j) ∧ IsMatching w a b pairs := by
  constructor
  · intro h
    obtain ⟨hLeft, hnodupLeft⟩ := List.nodup_cons.mp h.nodup_left
    obtain ⟨hRight, hnodupRight⟩ := List.nodup_cons.mp h.nodup_right
    refine ⟨h.matchable List.mem_cons_self, ?_, hnodupLeft, hnodupRight, ?_, ?_⟩
    · intro p hp
      exact ⟨fun hpi => hLeft (List.mem_map.mpr ⟨p, hp, hpi⟩),
        fun hpj => hRight (List.mem_map.mpr ⟨p, hp, hpj⟩)⟩
    · exact fun p hp => h.equal p (List.mem_cons_of_mem _ hp)
    · exact fun p hp => h.near p (List.mem_cons_of_mem _ hp)
  · rintro ⟨hij, hne, h⟩
    refine ⟨?_, ?_, ?_, ?_⟩
    · refine List.nodup_cons.mpr ⟨?_, h.nodup_left⟩
      intro hmem
      obtain ⟨p, hp, hpi⟩ := List.mem_map.mp hmem
      exact (hne p hp).1 hpi
    · refine List.nodup_cons.mpr ⟨?_, h.nodup_right⟩
      intro hmem
      obtain ⟨p, hp, hpj⟩ := List.mem_map.mp hmem
      exact (hne p hp).2 hpj
    · exact List.forall_mem_cons.mpr ⟨hij.1, h.equal⟩
    · exact List.forall_mem_cons.mpr ⟨hij.2, h.near⟩

/-- No pair of a matching has a property, or one that has it can be set apart. -/
theorem IsMatching.pair_cases (h : IsMatching w a b pairs) (q : Nat × Nat → Prop) :
    (∀ p ∈ pairs, ¬ q p) ∨
    ∃ i j rest, q (i, j) ∧ pairs.Perm ((i, j) :: rest) ∧ IsMatching w a b ((i, j) :: rest) := by
  by_cases hq : ∃ p ∈ pairs, q p
  · obtain ⟨⟨i, j⟩, hp, hqp⟩ := hq
    have hperm := List.perm_cons_erase hp
    exact .inr ⟨i, j, pairs.erase (i, j), hqp, hperm, h.of_perm hperm⟩
  · exact .inl fun p hp hqp => hq ⟨p, hp, hqp⟩

/-! ## Exchange -/

/-- Positions `i'` and `j'` are matchable if earlier positions `i` and `j` with one character are
matchable with `j'` and with `i'`. -/
theorem Matchable.cross {i i' j j' : Nat} {c : Char} (hi : Matchable w a b i j')
    (hj : Matchable w a b i' j) (hai : a[i]? = some c) (hbj : b[j]? = some c) (hii' : i ≤ i')
    (hjj' : j ≤ j') : Matchable w a b i' j' := by
  -- all four positions hold the same character
  have hbj' := hi.getElem?_right hai
  have hai' := (matchable_comm.mp hj).getElem?_right hbj
  obtain ⟨-, -, hnear⟩ := hi
  obtain ⟨-, hnear', -⟩ := hj
  exact ⟨⟨c, hai', hbj'⟩, by omega, by omega⟩

/-- If `j` is the first free partner of `i`, what a matching of free positions gives to `i` and to
`j` instead is matchable. -/
theorem Matchable.cross_of_partner? {i i' j j' : Nat} {c : Char} {taken : List Nat}
    (hPartner : partner? w b taken i c = some j) (hletter : a[i]? = some c)
    (hi : Matchable w a b i j') (hfree : j' ∉ taken) (hj : Matchable w a b i' j)
    (hii' : i ≤ i') : Matchable w a b i' j' := by
  obtain ⟨hRight, -, -⟩ := partner?_eq_some hPartner
  obtain ⟨k, hk, hfirst⟩ := exists_partner?_le hi hletter hfree
  obtain rfl : j = k := Option.some.inj (hPartner.symm.trans hfirst)
  exact hi.cross hj hletter hRight hii' hk

/-- Two pairs of a matching may be replaced by the pair of their outer positions. -/
theorem IsMatching.join {i i' j j' : Nat} (h : IsMatching w a b ((i, j') :: (i', j) :: pairs))
    (hcross : Matchable w a b i' j') : IsMatching w a b ((i', j') :: pairs) := by
  obtain ⟨-, hne, h'⟩ := isMatching_cons_iff.mp h
  obtain ⟨-, hne', hrest⟩ := isMatching_cons_iff.mp h'
  refine isMatching_cons_iff.mpr ⟨hcross, ?_, hrest⟩
  exact fun p hp => ⟨(hne' p hp).1, (hne p (List.mem_cons_of_mem _ hp)).2⟩

/-- The pairs hold positions from `i` on, and positions that are not taken. -/
def AllFree (i : Nat) (taken : List Nat) (pairs : List (Nat × Nat)) : Prop :=
  ∀ p ∈ pairs, i ≤ p.1 ∧ p.2 ∉ taken

theorem allFree_cons_iff {i : Nat} {taken : List Nat} {p : Nat × Nat} :
    AllFree i taken (p :: pairs) ↔ (i ≤ p.1 ∧ p.2 ∉ taken) ∧ AllFree i taken pairs :=
  List.forall_mem_cons

theorem AllFree.of_perm {i : Nat} {taken : List Nat} {pairs' : List (Nat × Nat)}
    (h : AllFree i taken pairs) (hperm : pairs.Perm pairs') : AllFree i taken pairs' :=
  fun p hp => h p (hperm.mem_iff.mpr hp)

theorem AllFree.step {i j : Nat} {taken : List Nat} (h : AllFree i taken pairs)
    (hi : ∀ p ∈ pairs, p.1 ≠ i) (hj : ∀ p ∈ pairs, p.2 ≠ j) :
    AllFree (i + 1) (j :: taken) pairs := by
  intro p hp
  obtain ⟨hle, hfree⟩ := h p hp
  have hne := hi p hp
  exact ⟨by omega, List.not_mem_cons_of_ne_of_not_mem (hj p hp) hfree⟩

/-- If both the position and its first free partner have other partners, these are matched with each
other instead. -/
theorem exists_rest_of_both {i i' j j' : Nat} {c : Char} {taken : List Nat}
    (h : IsMatching w a b ((i, j') :: (i', j) :: pairs))
    (hFree : AllFree i taken ((i, j') :: (i', j) :: pairs)) (hletter : a[i]? = some c)
    (hPartner : partner? w b taken i c = some j) :
    ∃ rest, IsMatching w a b rest ∧ AllFree (i + 1) (j :: taken) rest ∧
      pairs.length + 2 ≤ rest.length + 1 := by
  obtain ⟨hij', hne, h'⟩ := isMatching_cons_iff.mp h
  obtain ⟨hi'j, hne', -⟩ := isMatching_cons_iff.mp h'
  obtain ⟨⟨hi', hj'⟩, hneRest⟩ := List.forall_mem_cons.mp hne
  obtain ⟨⟨-, hfree'⟩, hFree'⟩ := allFree_cons_iff.mp hFree
  obtain ⟨⟨hle, -⟩, hFreeRest⟩ := allFree_cons_iff.mp hFree'
  have hcross := Matchable.cross_of_partner? hPartner hletter hij' hfree' hi'j hle
  have hFreeJoin : AllFree i taken ((i', j') :: pairs) :=
    allFree_cons_iff.mpr ⟨⟨hle, hfree'⟩, hFreeRest⟩
  refine ⟨(i', j') :: pairs, h.join hcross, hFreeJoin.step ?_ ?_, Nat.le_refl _⟩
  · exact List.forall_mem_cons.mpr ⟨hi', fun p hp => (hneRest p hp).1⟩
  · exact List.forall_mem_cons.mpr ⟨hj'.symm, fun p hp => (hne' p hp).2⟩

/-- When a position is matched to its first free partner, a matching among what was free before
keeps all but one of its pairs among what is free after. -/
theorem exists_rest {i j : Nat} {c : Char} {taken : List Nat} (h : IsMatching w a b pairs)
    (hFree : AllFree i taken pairs) (hletter : a[i]? = some c)
    (hPartner : partner? w b taken i c = some j) :
    ∃ rest, IsMatching w a b rest ∧ AllFree (i + 1) (j :: taken) rest ∧
      pairs.length ≤ rest.length + 1 := by
  rcases h.pair_cases (·.1 = i) with hi | ⟨k, j', rest, hk, hperm, h'⟩
  · rcases h.pair_cases (·.2 = j) with hj | ⟨i', k, rest, hk, hperm, h'⟩
    · exact ⟨pairs, h, hFree.step hi hj, Nat.le_succ _⟩
    · -- only the partner has a pair, which is given up
      obtain rfl : j = k := hk.symm
      obtain ⟨-, hne, hrest⟩ := isMatching_cons_iff.mp h'
      obtain ⟨-, hFreeRest⟩ := allFree_cons_iff.mp (hFree.of_perm hperm)
      obtain ⟨-, hi'⟩ := List.forall_mem_cons.mp fun p hp => hi p (hperm.mem_iff.mpr hp)
      exact ⟨rest, hrest, hFreeRest.step hi' fun p hp => (hne p hp).2,
        Nat.le_of_eq hperm.length_eq⟩
  · obtain rfl : i = k := hk.symm
    obtain ⟨-, hne, hrest⟩ := isMatching_cons_iff.mp h'
    rcases hrest.pair_cases (·.2 = j) with hj | ⟨i', k, rest', hk, hperm', -⟩
    · -- only the position has a pair, which is given up
      obtain ⟨-, hFreeRest⟩ := allFree_cons_iff.mp (hFree.of_perm hperm)
      exact ⟨rest, hrest, hFreeRest.step (fun p hp => (hne p hp).1) hj,
        Nat.le_of_eq hperm.length_eq⟩
    · obtain rfl : j = k := hk.symm
      have hboth := hperm.trans (hperm'.cons _)
      rw [hboth.length_eq]
      exact exists_rest_of_both (h.of_perm hboth) (hFree.of_perm hboth) hletter hPartner

/-! ## The run -/

/-- No matching among what is free has more pairs than the rest of the run finds. -/
theorem length_le_matchFrom {i : Nat} {taken : List Nat} {rest : List Char}
    (hrest : a.drop i = rest) (h : IsMatching w a b pairs) (hFree : AllFree i taken pairs) :
    pairs.length ≤ (matchFrom w b i taken rest).length := by
  induction rest generalizing i taken pairs with
  | nil =>
      cases pairs with
      | nil => exact Nat.zero_le _
      | cons p pairs =>
          have hend := List.drop_eq_nil_iff.mp hrest
          have hlt := (h.matchable List.mem_cons_self).lt_length
          have hle := (hFree p List.mem_cons_self).1
          omega
  | cons c rest ih =>
      obtain ⟨hletter, htail⟩ := of_drop_eq_cons hrest
      cases hPartner : partner? w b taken i c with
      | none =>
          rw [matchFrom_cons_of_none hPartner]
          refine ih htail h fun p hp => ?_
          obtain ⟨hle, hfree⟩ := hFree p hp
          have hne : p.1 ≠ i := by
            rintro rfl
            -- the position would have found the partner that the matching gives it
            obtain ⟨k, -, hsome⟩ := exists_partner?_le (h.matchable hp) hletter hfree
            rw [hPartner] at hsome
            cases hsome
          exact ⟨by omega, hfree⟩
      | some j =>
          rw [matchFrom_cons_of_some hPartner, List.length_cons]
          obtain ⟨pairs', h', hFree', hlength⟩ := exists_rest h hFree hletter hPartner
          have hle := ih htail h' hFree'
          omega

/-- Two positions are matched exactly if, read in the order of the first word, the second is the
first free partner of the first. -/
theorem mem_matching_iff (a b : List Char) (i j : Nat) :
    (i, j) ∈ matching a b ↔
      Matchable (window a b) a b i j ∧ (∀ i' < i, (i', j) ∉ matching a b) ∧
      ∀ j' < j, Matchable (window a b) a b i j' → ∃ i' < i, (i', j') ∈ matching a b := by
  have h := isMatching_matching a b
  constructor
  · intro hmem
    refine ⟨h.matchable hmem, ?_, ?_⟩
    · intro i' hi' hmem'
      exact absurd (h.left_unique hmem' hmem) (Nat.ne_of_lt hi')
    · intro j' hj' hm
      rcases exists_mem_matching hm with ⟨k, hk, hmem'⟩ | htaken
      · have := h.right_unique hmem hmem'
        omega
      · exact htaken
  · rintro ⟨hm, hfree, hfirst⟩
    rcases exists_mem_matching hm with ⟨k, hk, hmem⟩ | ⟨k, hk, hmem⟩
    · rcases Nat.eq_or_lt_of_le hk with rfl | hlt
      · exact hmem
      · obtain ⟨i', hi', hmem'⟩ := hfirst k hlt (h.matchable hmem)
        exact absurd (h.left_unique hmem' hmem) (Nat.ne_of_lt hi')
    · exact absurd hmem (hfree k hk)

/-- **The matching is a largest one.** The run takes the positions of the first word in order and
gives each the first free position of the second word that it may be matched to. The pairs that it
finds are a matching within the window, and no matching within the window has more pairs. -/
theorem matching_isLargest (a b : List Char) :
    (∀ i j, (i, j) ∈ matching a b ↔
      Matchable (window a b) a b i j ∧ (∀ i' < i, (i', j) ∉ matching a b) ∧
      ∀ j' < j, Matchable (window a b) a b i j' → ∃ i' < i, (i', j') ∈ matching a b) ∧
    IsMatching (window a b) a b (matching a b) ∧
    ∀ pairs, IsMatching (window a b) a b pairs → pairs.length ≤ (matching a b).length := by
  refine ⟨mem_matching_iff a b, isMatching_matching a b, ?_⟩
  intro pairs h
  exact length_le_matchFrom List.drop_zero h fun _ _ => ⟨Nat.zero_le _, List.not_mem_nil⟩

/-- A matching that crosses the two pairs of a repeated letter. -/
theorem matching_isLargest_crossed :
    IsMatching (window ['a', 'a', 'b', 'c'] ['a', 'a', 'c', 'b']) ['a', 'a', 'b', 'c']
      ['a', 'a', 'c', 'b'] [(0, 1), (1, 0), (2, 3), (3, 2)] ∧
    4 ≤ (matching ['a', 'a', 'b', 'c'] ['a', 'a', 'c', 'b']).length := by
  have h : IsMatching (window ['a', 'a', 'b', 'c'] ['a', 'a', 'c', 'b']) ['a', 'a', 'b', 'c']
      ['a', 'a', 'c', 'b'] [(0, 1), (1, 0), (2, 3), (3, 2)] := by
    refine ⟨by decide, by decide, ?_, by decide⟩
    simp only [List.forall_mem_cons]
    exact ⟨⟨'a', rfl, rfl⟩, ⟨'a', rfl, rfl⟩, ⟨'b', rfl, rfl⟩, ⟨'c', rfl, rfl⟩, nofun⟩
  exact ⟨h, (matching_isLargest _ _).2.2 _ h⟩

end Similarity

end Fibonacci
