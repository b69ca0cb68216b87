import HanabiBot.HGroup.Connections
import HanabiBot.Lib.Sorting

/-!
# Occam's razor

`isSimpler` and `occams_razor` of
`src/conventions/h-group/clue-interpretation/connection-helper.js`: of the identities
that a clued card may have, those are kept that are no harder to explain than the easiest
one that the player cannot rule out.

`isSimpler` compares keys (`complexity`): the connections known to one side only, whether
the first unknown connection is on the player, and then its bluffs, finesses and prompts.
So it is a total preorder, and what is kept does not depend on the order of the list
(`occamsRazor_downSet`).
-/

namespace HanabiBot.HGroup

/-- A connection that only one side may know of. -/
structure FocusConnection extends Connection where
  asymmetric : Bool := false
  deriving DecidableEq

/-- An identity that a clued card may have, and the cards that have to play before it. -/
structure Possibility where
  suitIndex : ℕ
  rank : ℕ
  connections : List FocusConnection
  deriving DecidableEq

/-- A game, with what we know to have been rewound. -/
structure RazorGame extends ConnGame where
  /-- `me.thoughts[order].rewinded`. -/
  rewinded : ℕ → Bool := fun _ => false

section

variable (game : RazorGame) (playerIndex : ℕ)

/-- The connections from the first unknown one on. -/
def unknownFrom (conns : List FocusConnection) : List FocusConnection :=
  match conns.findIdx? fun conn => conn.type != .known && conn.type != .playable with
  | none => []
  | some index => conns.drop index

/-- Whether the first unknown connection is on the player. -/
def onSelf (conns : List FocusConnection) : Bool :=
  (unknownFrom conns).head?.any fun conn => conn.reacting == playerIndex

/-- Whether no connection is a bluff that has not been rewound. -/
def isTruth (conns : List FocusConnection) : Bool :=
  (unknownFrom conns).all fun conn => game.rewinded conn.order || !conn.bluff

/-- How many of the player's cards connect in a given way. -/
def ownCount (type : ConnectionType) (conns : List FocusConnection) : ℕ :=
  ((unknownFrom conns).filter fun conn => conn.reacting == playerIndex && conn.type == type).length

/-- How many connections only one side knows of. -/
def asymmetricCount (conns : List FocusConnection) : ℕ :=
  (conns.filter fun conn => conn.asymmetric).length

/-- `isSimpler`. -/
def isSimpler (fp1 fp2 : Possibility) : ℤ :=
  let conns1 := fp1.connections
  let conns2 := fp2.connections
  if asymmetricCount conns1 ≠ asymmetricCount conns2 then
    asymmetricCount conns1 - asymmetricCount conns2
  else if onSelf playerIndex conns1 ≠ onSelf playerIndex conns2 then
    if onSelf playerIndex conns1 then 1 else -1
  -- both have the first unknown connection on someone other than self
  else if !onSelf playerIndex conns1 then 0
  else if isTruth game conns1 ≠ isTruth game conns2 then
    if isTruth game conns1 then -1 else 1
  else if ownCount playerIndex .finesse conns1 ≠ ownCount playerIndex .finesse conns2 then
    ownCount playerIndex .finesse conns1 - ownCount playerIndex .finesse conns2
  else ownCount playerIndex .prompt conns1 - ownCount playerIndex .prompt conns2

/-- Whether the player cannot rule out the identity for the focused card. -/
def isPossibleFor (focusedOrder : ℕ) (fp : Possibility) : Bool :=
  ((game.players playerIndex).possible focusedOrder).has ⟨fp.suitIndex, fp.rank⟩

/-- `occams_razor`. -/
def occamsRazor (focusPossibilities : List Possibility) (focusedOrder : ℕ) : List Possibility :=
  let sorted := focusPossibilities.mergeSort fun a b =>
    decide (isSimpler game playerIndex a b ≤ 0)
  match sorted.findIdx? (isPossibleFor game playerIndex focusedOrder) with
  | none => sorted
  | some i =>
    (sorted.zipIdx.filter fun (fp, j) => decide (j ≤ i) ||
      sorted[i]?.any fun simplest => isSimpler game playerIndex simplest fp == 0).map Prod.fst

/-! ## Keys -/

/-- What `isSimpler` compares, in this order; connections on other players count alike. -/
def complexity (fp : Possibility) : ℕ ×ₗ Bool ×ₗ Bool ×ₗ ℕ ×ₗ ℕ :=
  let conns := fp.connections
  let self := onSelf playerIndex conns
  toLex (asymmetricCount conns, toLex (self, toLex (self && !isTruth game conns,
    toLex (if self then ownCount playerIndex .finesse conns else 0,
      if self then ownCount playerIndex .prompt conns else 0))))

/-- Both comparisons of two possibilities are those of their keys. -/
theorem isSimpler_iff (a b : Possibility) :
    (isSimpler game playerIndex a b ≤ 0 ↔
        complexity game playerIndex a ≤ complexity game playerIndex b) ∧
      (isSimpler game playerIndex a b < 0 ↔
        complexity game playerIndex a < complexity game playerIndex b) := by
  simp only [complexity, Prod.Lex.toLex_le_toLex, Prod.Lex.toLex_lt_toLex, isSimpler]
  by_cases hasym : asymmetricCount a.connections = asymmetricCount b.connections
  · rw [hasym]
    -- the first of the other keys that differ decides
    cases onSelf playerIndex a.connections <;> cases onSelf playerIndex b.connections <;>
      cases isTruth game a.connections <;> cases isTruth game b.connections <;> simp <;>
      split_ifs <;> omega
  · simp only [ne_eq, hasym, not_false_eq_true, if_true]
    constructor <;> simp only [false_and, or_false] <;> omega

theorem isSimpler_eq_zero_iff (a b : Possibility) :
    isSimpler game playerIndex a b = 0 ↔
      complexity game playerIndex a = complexity game playerIndex b := by
  obtain ⟨hle, hlt⟩ := isSimpler_iff game playerIndex a b
  rw [eq_iff_le_not_lt, eq_iff_le_not_lt, hle, hlt]

/-- The list that is cut: the possibilities sorted by their keys. -/
theorem sorted_eq (fps : List Possibility) :
    (fps.mergeSort fun a b => decide (isSimpler game playerIndex a b ≤ 0)) =
      fps.mergeSort (Sorting.keyLE (complexity game playerIndex)) := by
  congr 1
  funext a b
  exact decide_eq_decide.2 (isSimpler_iff game playerIndex a b).1

/-! ## The cut -/

/-- A simplest possibility of those that the player cannot rule out. -/
structure Simplest (focusedOrder : ℕ) (fps : List Possibility) (fp : Possibility) : Prop where
  mem : fp ∈ fps
  possible : isPossibleFor game playerIndex focusedOrder fp = true
  simplest : ∀ fp' ∈ fps, isPossibleFor game playerIndex focusedOrder fp' = true →
    isSimpler game playerIndex fp fp' ≤ 0

/-- The simplest possibilities are equally complex. -/
theorem Simplest.complexity_eq {focusedOrder : ℕ} {fps : List Possibility} {a b : Possibility}
    (ha : Simplest game playerIndex focusedOrder fps a)
    (hb : Simplest game playerIndex focusedOrder fps b) :
    complexity game playerIndex a = complexity game playerIndex b :=
  le_antisymm ((isSimpler_iff game playerIndex a b).1.1 (ha.simplest b hb.mem hb.possible))
    ((isSimpler_iff game playerIndex b a).1.1 (hb.simplest a ha.mem ha.possible))

/-- The first possible one of a sorted list is a simplest. -/
theorem simplest_of_sorted {focusedOrder : ℕ} {fps : List Possibility} {i : ℕ} {fp : Possibility}
    (hi : (fps.mergeSort (Sorting.keyLE (complexity game playerIndex))).findIdx?
      (isPossibleFor game playerIndex focusedOrder) = some i)
    (hfp : (fps.mergeSort (Sorting.keyLE (complexity game playerIndex)))[i]? = some fp) :
    Simplest game playerIndex focusedOrder fps fp := by
  obtain ⟨hlt, hpossible, hbefore⟩ := List.findIdx?_eq_some_iff_getElem.1 hi
  obtain ⟨hlt', rfl⟩ := List.getElem?_eq_some_iff.1 hfp
  refine ⟨List.mem_mergeSort.1 (List.getElem_mem hlt), hpossible, fun fp' hmem hfp' => ?_⟩
  have hsorted : fp' ∈ fps.mergeSort (Sorting.keyLE (complexity game playerIndex)) :=
    List.mem_mergeSort.2 hmem
  obtain ⟨j, hj, rfl⟩ := List.getElem_of_mem hsorted
  have hij : i ≤ j := not_lt.1 fun hji => hbefore j hji hfp'
  rw [(isSimpler_iff game playerIndex _ _).1]
  exact (Sorting.pairwise_keyLE (complexity game playerIndex) fps).rel_get_of_le hij

/-- Without a possible one, all are kept. -/
theorem occamsRazor_of_none {focusedOrder : ℕ} {fps : List Possibility}
    (hnone : ∀ fp ∈ fps, isPossibleFor game playerIndex focusedOrder fp = false) :
    occamsRazor game playerIndex fps focusedOrder =
      fps.mergeSort (Sorting.keyLE (complexity game playerIndex)) := by
  have hi : (fps.mergeSort (Sorting.keyLE (complexity game playerIndex))).findIdx?
      (isPossibleFor game playerIndex focusedOrder) = none :=
    List.findIdx?_eq_none_iff.2 fun fp hfp => hnone fp (List.mem_mergeSort.1 hfp)
  simp only [occamsRazor, sorted_eq, hi]

/-- Everything up to the first possible one and its equals: that is, what is no more complex. -/
theorem occamsRazor_of_simplest {focusedOrder : ℕ} {fps : List Possibility}
    {simplest : Possibility} (hsimplest : Simplest game playerIndex focusedOrder fps simplest) :
    occamsRazor game playerIndex fps focusedOrder =
      (fps.mergeSort (Sorting.keyLE (complexity game playerIndex))).filter fun fp =>
        decide (isSimpler game playerIndex fp simplest ≤ 0) := by
  simp only [occamsRazor, sorted_eq]
  have hpair := Sorting.pairwise_keyLE (complexity game playerIndex) fps
  cases hi : (fps.mergeSort (Sorting.keyLE (complexity game playerIndex))).findIdx?
      (isPossibleFor game playerIndex focusedOrder) with
  | none =>
    have hfalse := List.findIdx?_eq_none_iff.1 hi simplest (List.mem_mergeSort.2 hsimplest.mem)
    exact absurd (hfalse.symm.trans hsimplest.possible) (by decide)
  | some i =>
    have hlt := (List.findIdx?_eq_some_iff_getElem.1 hi).1
    have hfirst := simplest_of_sorted game playerIndex hi (List.getElem?_eq_getElem hlt)
    have hkey := hfirst.complexity_eq game playerIndex hsimplest
    revert hi hlt hfirst hkey hpair
    generalize fps.mergeSort (Sorting.keyLE (complexity game playerIndex)) = sorted
    intro hpair hi hlt hfirst hkey
    have hcut : ∀ fp j, (fp, j) ∈ sorted.zipIdx →
        (decide (j ≤ i) || sorted[i]?.any fun first => isSimpler game playerIndex first fp == 0) =
          decide (isSimpler game playerIndex fp simplest ≤ 0) := by
      intro fp j hmem
      have hget : sorted[j]? = some fp := List.mem_zipIdx_iff_getElem?.1 hmem
      obtain ⟨hj, rfl⟩ := List.getElem?_eq_some_iff.1 hget
      rw [Bool.eq_iff_iff]
      simp only [List.getElem?_eq_getElem hlt, Option.any_some, Bool.or_eq_true,
        decide_eq_true_eq, beq_iff_eq, isSimpler_eq_zero_iff, (isSimpler_iff game playerIndex _ _).1,
        ← hkey]
      constructor
      · rintro (hji | heq)
        · exact hpair.rel_get_of_le (a := ⟨j, hj⟩) (b := ⟨i, hlt⟩) hji
        · exact heq.ge
      · intro hle
        refine (le_or_gt j i).imp_right fun hij => le_antisymm ?_ hle
        exact hpair.rel_get_of_le (a := ⟨i, hlt⟩) (b := ⟨j, hj⟩) hij.le
    refine (congrArg (List.map Prod.fst) (List.filter_congr fun x hx => hcut x.1 x.2 hx)).trans ?_
    conv_rhs => rw [← List.zipIdx_map_fst 0 sorted, List.filter_map]
    rfl

/-- Among possibilities of which some are possible, one of them is simplest. -/
theorem exists_simplest {focusedOrder : ℕ} {fps : List Possibility}
    (hsome : ¬ ∀ fp ∈ fps, isPossibleFor game playerIndex focusedOrder fp = false) :
    ∃ simplest, Simplest game playerIndex focusedOrder fps simplest := by
  cases hi : (fps.mergeSort (Sorting.keyLE (complexity game playerIndex))).findIdx?
      (isPossibleFor game playerIndex focusedOrder) with
  | none =>
    exact absurd (fun fp hfp => List.findIdx?_eq_none_iff.1 hi fp (List.mem_mergeSort.2 hfp)) hsome
  | some i =>
    have hlt := (List.findIdx?_eq_some_iff_getElem.1 hi).1
    exact ⟨_, simplest_of_sorted game playerIndex hi (List.getElem?_eq_getElem hlt)⟩

theorem mem_occamsRazor {fps : List Possibility} {focusedOrder : ℕ} {fp : Possibility} :
    fp ∈ occamsRazor game playerIndex fps focusedOrder ↔
      fp ∈ fps ∧ ((∀ fp' ∈ fps, isPossibleFor game playerIndex focusedOrder fp' = false) ∨
        ∃ simplest, Simplest game playerIndex focusedOrder fps simplest ∧
          isSimpler game playerIndex fp simplest ≤ 0) := by
  by_cases hnone : ∀ fp ∈ fps, isPossibleFor game playerIndex focusedOrder fp = false
  · rw [occamsRazor_of_none game playerIndex hnone, List.mem_mergeSort]
    exact (and_iff_left (.inl hnone)).symm
  · obtain ⟨s, hs⟩ := exists_simplest game playerIndex hnone
    rw [occamsRazor_of_simplest game playerIndex hs, List.mem_filter, List.mem_mergeSort,
      decide_eq_true_eq, or_iff_right hnone]
    refine and_congr_right fun _ => ⟨fun hle => ⟨s, hs, hle⟩, fun ⟨s', hs', hle⟩ => ?_⟩
    rw [(isSimpler_iff game playerIndex _ _).1] at hle ⊢
    exact hle.trans (hs'.complexity_eq game playerIndex hs).le

/-- What is kept does not depend on the order of the list. -/
theorem occamsRazor_perm {fps fps' : List Possibility} (hperm : fps.Perm fps')
    (focusedOrder : ℕ) :
    (occamsRazor game playerIndex fps focusedOrder).Perm
      (occamsRazor game playerIndex fps' focusedOrder) := by
  have hsorted : (fps.mergeSort (Sorting.keyLE (complexity game playerIndex))).Perm
      (fps'.mergeSort (Sorting.keyLE (complexity game playerIndex))) :=
    (List.mergeSort_perm fps _).trans (hperm.trans (List.mergeSort_perm fps' _).symm)
  by_cases hnone : ∀ fp ∈ fps, isPossibleFor game playerIndex focusedOrder fp = false
  · rw [occamsRazor_of_none game playerIndex hnone,
      occamsRazor_of_none game playerIndex fun fp hfp => hnone fp (hperm.mem_iff.2 hfp)]
    exact hsorted
  · obtain ⟨s, hs⟩ := exists_simplest game playerIndex hnone
    have hs' : Simplest game playerIndex focusedOrder fps' s :=
      ⟨hperm.mem_iff.1 hs.mem, hs.possible, fun fp hfp => hs.simplest fp (hperm.mem_iff.2 hfp)⟩
    rw [occamsRazor_of_simplest game playerIndex hs, occamsRazor_of_simplest game playerIndex hs']
    exact hsorted.filter _

/-- `isSimpler` is a total preorder, and what is kept are the possibilities that are no more
complex than a simplest possible one, or all if none is possible. -/
theorem occamsRazor_downSet :
    ((∀ a b, (isSimpler game playerIndex a b < 0 ↔ 0 < isSimpler game playerIndex b a) ∧
        (isSimpler game playerIndex a b = 0 ↔ isSimpler game playerIndex b a = 0)) ∧
      ∀ a b c, isSimpler game playerIndex a b ≤ 0 → isSimpler game playerIndex b c ≤ 0 →
        isSimpler game playerIndex a c ≤ 0) ∧
    ∀ (fps : List Possibility) (focusedOrder : ℕ),
      (∀ fp, fp ∈ occamsRazor game playerIndex fps focusedOrder ↔
        fp ∈ fps ∧ ((∀ fp' ∈ fps, isPossibleFor game playerIndex focusedOrder fp' = false) ∨
          ∃ simplest, Simplest game playerIndex focusedOrder fps simplest ∧
            isSimpler game playerIndex fp simplest ≤ 0)) ∧
      ∀ fps', fps.Perm fps' →
        (occamsRazor game playerIndex fps focusedOrder).Perm
          (occamsRazor game playerIndex fps' focusedOrder) := by
  refine ⟨⟨fun a b => ⟨?_, ?_⟩, fun a b c => ?_⟩, fun fps focusedOrder =>
    ⟨fun fp => mem_occamsRazor game playerIndex, fun fps' hperm =>
      occamsRazor_perm game playerIndex hperm focusedOrder⟩⟩
  · rw [(isSimpler_iff game playerIndex a b).2, ← not_le (b := (0 : ℤ)),
      (isSimpler_iff game playerIndex b a).1, not_le]
  · rw [isSimpler_eq_zero_iff, isSimpler_eq_zero_iff, eq_comm]
  · simp only [(isSimpler_iff game playerIndex _ _).1]
    exact le_trans

end

end HanabiBot.HGroup
