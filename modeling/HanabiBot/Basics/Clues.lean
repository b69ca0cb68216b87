import HanabiBot.Basics.State

/-!
# The clues that can be given

`allValidClues` of `src/basics/State.js` lists the clues to a player that touch a card,
`direct_clues` of `src/variants.js` those that touch a given card.  On colours they agree.
On ranks they leave out different ones: the first those of a special rank that no rank
clue touches in the usual way (`uncluable`), the second those that are not among the
variant's `clueRanks`.

* `allValidClues_iff` — they list the same clues if and only if they leave out the same
  ranks, but for ranks that touch nothing;
* `muteVariant_disagrees` — a variant without rank clues.
-/

namespace HanabiBot

/-- `JSONVariant`, with the rank clues that can be given. -/
structure JSONVariant extends Variant where
  clueRanks : Option (List ℕ) := none

/-- The options of `direct_clues`. -/
structure DirectOptions where
  excludeColour : Bool := false
  excludeRank : Bool := false

namespace JSONVariant

variable (v : JSONVariant)

/-- `variant.clueRanks?.includes(rank) ?? true`. -/
def cluesRank (rank : ℕ) : Bool := v.clueRanks.all fun ranks => ranks.contains rank

/-- `direct_clues`. -/
def directClues (target : ℕ) (card : Identity) (options : DirectOptions) : List Clue :=
  let colours : List Clue :=
    (List.range v.colourableSuits.length).map fun suitIndex => ⟨⟨.colour, suitIndex⟩, target⟩
  let ranks : List Clue := (List.range' 1 5).map fun rank => ⟨⟨.rank, rank⟩, target⟩
  (if options.excludeColour then []
    else colours.filter fun clue => v.cardTouched card clue.toBaseClue) ++
  (if options.excludeRank then []
    else ranks.filter fun clue =>
      v.cluesRank clue.value && v.cardTouched card clue.toBaseClue)

end JSONVariant

namespace Variant

/-- `uncluable`: the rank is special, and rank clues do not touch it in the usual way. -/
def uncluable (v : Variant) (rank : ℕ) : Bool :=
  v.specialRank == some rank &&
    (v.specialRankNoClueRanks || v.specialRankAllClueRanks || v.specialRankDeceptive)

/-- A rank from 1 to 5, or the index of a colourable suit. -/
def IsClue (v : Variant) (clue : BaseClue) : Prop :=
  match clue.type with
  | .rank => 1 ≤ clue.value ∧ clue.value ≤ 5
  | .colour => clue.value < v.colourableSuits.length

end Variant

namespace State

variable (st : State)

/-- `clueTouched`. -/
def clueTouched (orders : List ℕ) (clue : BaseClue) : List ℕ :=
  orders.filter fun o => (st.identityOf o).any fun card => st.variant.cardTouched card clue

/-- `allValidClues`. -/
def allValidClues (target : ℕ) : List Clue :=
  let ranks : List Clue := ((List.range' 1 5).filter fun rank => !st.variant.uncluable rank).map
    fun rank => ⟨⟨.rank, rank⟩, target⟩
  let colours : List Clue := (List.range st.variant.colourableSuits.length).map
    fun suitIndex => ⟨⟨.colour, suitIndex⟩, target⟩
  (ranks ++ colours).filter fun clue =>
    decide (0 < (st.clueTouched (st.hands target) clue.toBaseClue).length)

/-- A card of the player is touched by the clue. -/
def Touches (target : ℕ) (clue : BaseClue) : Prop :=
  ∃ o ∈ st.hands target, ∃ card, st.identityOf o = some card ∧
    st.variant.cardTouched card clue = true

theorem clueTouched_pos_iff (target : ℕ) (clue : BaseClue) :
    0 < (st.clueTouched (st.hands target) clue).length ↔ st.Touches target clue := by
  rw [List.length_pos_iff_exists_mem]
  simp only [clueTouched, List.mem_filter, Option.any_eq_true, Touches]

variable {st}

theorem mem_allValidClues {target : ℕ} {clue : Clue} :
    clue ∈ st.allValidClues target ↔ clue.target = target ∧
      st.variant.IsClue clue.toBaseClue ∧
      (clue.type = .rank → st.variant.uncluable clue.value = false) ∧
      st.Touches target clue.toBaseClue := by
  obtain ⟨⟨type, value⟩, target'⟩ := clue
  simp only [allValidClues, List.mem_filter, List.mem_append, List.mem_map, decide_eq_true_eq,
    clueTouched_pos_iff]
  cases type with
  | rank => simp [Variant.IsClue]; grind
  | colour => simp [Variant.IsClue]; grind

end State

namespace JSONVariant

variable {v : JSONVariant}

theorem mem_directClues {target : ℕ} {card : Identity} {clue : Clue} :
    clue ∈ v.directClues target card {} ↔ clue.target = target ∧
      v.IsClue clue.toBaseClue ∧ (clue.type = .rank → v.cluesRank clue.value = true) ∧
      v.cardTouched card clue.toBaseClue = true := by
  obtain ⟨⟨type, value⟩, target'⟩ := clue
  simp only [directClues, List.mem_filter, List.mem_append, List.mem_map, Bool.false_eq_true,
    if_false]
  cases type with
  | rank => simp [Variant.IsClue]; grind
  | colour => simp [Variant.IsClue]; grind

end JSONVariant

/-- The two enumerations agree on a hand if and only if every rank that one of them leaves out
and the other does not touches no card of it. -/
theorem State.allValidClues_iff (st : State) (clueRanks : Option (List ℕ)) (target : ℕ) :
    (∀ clue : Clue, st.variant.IsClue clue.toBaseClue →
      (clue ∈ st.allValidClues target ↔ ∃ o ∈ st.hands target, ∃ card,
        st.identityOf o = some card ∧
          clue ∈ (JSONVariant.mk st.variant clueRanks).directClues target card {})) ↔
    ∀ rank, 1 ≤ rank → rank ≤ 5 →
      st.variant.uncluable rank = (JSONVariant.mk st.variant clueRanks).cluesRank rank →
      ¬ st.Touches target ⟨.rank, rank⟩ := by
  set v : JSONVariant := ⟨st.variant, clueRanks⟩ with hv
  have hdirect : ∀ clue : Clue, (∃ o ∈ st.hands target, ∃ card, st.identityOf o = some card ∧
      clue ∈ v.directClues target card {}) ↔ clue.target = target ∧
        st.variant.IsClue clue.toBaseClue ∧ (clue.type = .rank → v.cluesRank clue.value = true) ∧
        st.Touches target clue.toBaseClue := by
    intro clue
    simp only [JSONVariant.mem_directClues, Touches]
    constructor
    · rintro ⟨o, ho, card, hcard, htarget, hclue, hrank, htouched⟩
      exact ⟨htarget, hclue, hrank, o, ho, card, hcard, htouched⟩
    · rintro ⟨htarget, hclue, hrank, o, ho, card, hcard, htouched⟩
      exact ⟨o, ho, card, hcard, htarget, hclue, hrank, htouched⟩
  simp only [mem_allValidClues, hdirect]
  constructor
  · intro h rank hpos hle heq htouches
    have hiff := h ⟨⟨.rank, rank⟩, target⟩ ⟨hpos, hle⟩
    have hclue : st.variant.IsClue ⟨.rank, rank⟩ := ⟨hpos, hle⟩
    simp only [hclue, htouches, true_and, and_true, forall_const] at hiff
    cases huncluable : st.variant.uncluable rank <;> simp_all
  · rintro h ⟨⟨type, value⟩, target'⟩ hclue
    refine and_congr_right fun _ => and_congr_right fun _ => and_congr_left fun htouches => ?_
    cases type with
    | colour => simp
    | rank =>
      have hne := mt (h value hclue.1 hclue.2) (not_not.2 htouches)
      cases huncluable : st.variant.uncluable value <;> cases hcan : v.cluesRank value <;>
        simp_all

/-! ## A variant without rank clues -/

/-- One player's hand is a red 1. -/
def oneCardState : State where
  variant := noVariant
  numPlayers := 2
  hands := fun p => if p = 1 then [0] else []
  deck := ⟨1, fun o => if o = 0 then some ⟨some ⟨0, 1⟩⟩ else none⟩
  cardsLeft := 49

/-- No rank clues can be given, but 1 counts as a valid clue. -/
theorem muteVariant_disagrees :
    (⟨⟨.rank, 1⟩, 1⟩ : Clue) ∈ oneCardState.allValidClues 1 ∧
      ∀ card, (⟨⟨.rank, 1⟩, 1⟩ : Clue) ∉
        (JSONVariant.mk noVariant (some [])).directClues 1 card {} := by
  refine ⟨by decide +kernel, fun card hmem => ?_⟩
  have hrank := (JSONVariant.mem_directClues.1 hmem).2.2.1 rfl
  exact absurd hrank (by decide)

end HanabiBot
