import HanabiBot.Basics.NextPlayable
import HanabiBot.Basics.Refer
import HanabiBot.HGroup.Hypo

/-!
# Referential plays

The part of `interpret_clue` of `src/conventions/playful-sieve/interpret-clue.js`
that reads a colour clue, or a trash push, as a call to play the card to the right
of what it touches.  Everything before it (the elimination after the clue, fixes,
new safe actions) has led to the common player it starts from.

* `refer_eq_walk` — the search for the card to the right is the loop of `refer`;
* `refer_of_newlyClued` — it ends;
* `referentialPlay_onStacks_iff` — what it writes on an unloaded player's card.
-/

namespace HanabiBot

namespace PlayfulSieve

open HGroup (HState HypoPlayer)

/-- A waiting connection through one unknown play. -/
structure RefConnection where
  giver : ℕ
  target : ℕ
  order : ℕ
  identity : Identity
  focus : ℕ
  inference : Identity
  turn : ℕ
  deriving DecidableEq

/-- The common player. -/
structure Common extends HypoPlayer where
  newlyClued : ℕ → Bool := fun _ => false
  waitingConnections : List RefConnection := []

/-- How a referential play clue was read. -/
inductive RefOutcome
  | lock
  | refPlay (targetIndex : ℕ)
  | fillIn
  deriving DecidableEq

namespace Common

/-- `updateThoughts`. -/
def updateThoughts (common : Common) (order : ℕ) (f : Card → Card) : Common :=
  { common with thoughts := common.thoughts.modify order f }

def inferred (common : Common) (order : ℕ) : IdentitySet :=
  ((common.thoughts.get order).map fun card => card.inferred).getD ⟨0, 0⟩

/-- `thinksLoaded`, of a `Player` that is not an `HGroup_Player`. -/
def thinksLoaded (common : Common) (st : HState) (playerIndex : ℕ) : Bool :=
  !(common.toPlayer.thinksPlayables st.toState playerIndex).isEmpty ||
    !(common.thinksTrash st playerIndex).isEmpty

/-- `refer('right', hand, hand[index])`, as an index: the search goes round the hand,
past what was touched before. It is `none` if it never ends. -/
def refer (common : Common) (hand : List ℕ) (index : ℕ) : Option ℕ :=
  ((List.range hand.length).map fun i => (index + 1 + i) % hand.length).find? fun i =>
    hand[i]?.any fun o =>
      !((common.thoughts.get o).any Card.touched && !common.newlyClued o)

/-- The indices of the newly clued cards. -/
def newlyTouched (common : Common) (hand : List ℕ) : List ℕ :=
  (List.range hand.length).filter fun i => hand[i]?.any common.newlyClued

/-- The index that a referential play calls to play. -/
def refTarget (common : Common) (hand : List ℕ) : Option ℕ :=
  (common.newlyTouched hand).mapM (common.refer hand) >>= List.max?

/-- The identities a loaded player's card could be: next on the hypo stacks, or one
more than an unknown play. -/
def loadedPossibilities (common : Common) (numSuits : ℕ) (unknownPlays : List ℕ) :
    List Identity :=
  nextIdentities numSuits common.hypoStacks ++ unknownPlays.flatMap fun o =>
    (common.inferred o).array.map fun inf => ⟨inf.suitIndex, inf.rank + 1⟩

/-- The waiting connections through the unknown plays. -/
def refConnections (common : Common) (st : HState) (giver target focus : ℕ)
    (unknownPlays : List ℕ) : List RefConnection :=
  unknownPlays.flatMap fun unk => (common.inferred unk).array.map fun inf =>
    { giver, target, focus, order := unk, identity := inf
      inference := ⟨inf.suitIndex, inf.rank + 1⟩, turn := st.turnCount }

end Common

/-- What is written on the card that is called to play. -/
def callToPlay (playables : List Identity) (card : Card) : Card :=
  { card.updateStatus .calledToPlay with
    oldInferred := some card.inferred
    focused := true
    inferred := card.inferred.intersect (IdentitySet.identitiesToMask playables) }

/-- The branch of `interpret_clue` for a colour clue or a trash push. -/
def referentialPlay (common : Common) (st : HState) (giver target : ℕ) :
    Option (Common × RefOutcome) :=
  let hand := st.hands target
  let numSuits := st.variant.suits.length
  match common.newlyTouched hand with
  | [] =>
    -- fill-in (anti-finesse)
    hand.head?.map fun o =>
      (common.updateThoughts o (·.updateStatus .calledToDc), .fillIn)
  | _ :: _ => do
    let targetIndex ← common.refTarget hand
    let order ← hand[targetIndex]?
    if targetIndex = 0 ∧ common.thinksLoaded st target = false then
      -- telling chop to play while not loaded: lock
      let unclued := hand.filter fun o => !(st.marks o).clued
      some (unclued.foldl (fun c o => c.updateThoughts o (·.updateStatus .cm)) common, .lock)
    else if common.thinksLoaded st target then
      let unknownPlays := common.unknownPlays.filter hand.contains
      let connections := common.refConnections st giver target order unknownPlays
      let waiting := { common with
        waitingConnections := common.waitingConnections ++ connections }
      some (waiting.updateThoughts order
        (callToPlay (common.loadedPossibilities numSuits unknownPlays)), .refPlay targetIndex)
    else
      some (common.updateThoughts order
        (callToPlay (nextIdentities numSuits st.playStacks)), .refPlay targetIndex)

/-! ## Results -/

@[simp] theorem Common.get_updateThoughts_self (common : Common) (order : ℕ) (f : Card → Card) :
    (common.updateThoughts order f).thoughts.get order = (common.thoughts.get order).map f := by
  simp [Common.updateThoughts]

/-- The search finds the index of the card that the loop of `refer` ends with. -/
theorem Common.refer_eq_walk {common : Common} {thoughts : ℕ → MarkedCard} {hand : List ℕ}
    {index order : ℕ} (hnodup : hand.Nodup) (hget : hand[index]? = some order)
    (hthoughts : ∀ o ∈ hand, common.thoughts.get o = some (thoughts o).toCard ∧
      common.newlyClued o = (thoughts o).newlyClued) :
    (common.refer hand index).bind (fun i => hand[i]?) =
      (walk hand order .right).find? fun o => (thoughts o).isReferent := by
  obtain ⟨hlt, rfl⟩ := List.getElem?_eq_some_iff.1 hget
  have hpos : 0 < hand.length := by omega
  have hwalk : walk hand hand[index] .right =
      ((List.range hand.length).map fun i => (index + 1 + i) % hand.length).filterMap
        fun i => hand[i]? := by
    rw [walk, hnodup.idxOf_getElem, List.filterMap_map]
    have hsome : ∀ i ∈ List.range hand.length,
        ((fun i => hand[i]?) ∘ fun i => (index + 1 + i) % hand.length) i =
          (some ∘ fun i => (hand.rotate (index + 1)).getD i 0) i := by
      intro i hi
      have hi' : i < hand.length := List.mem_range.1 hi
      show hand[(index + 1 + i) % hand.length]? = some ((hand.rotate (index + 1)).getD i 0)
      rw [List.getElem?_eq_getElem (Nat.mod_lt _ hpos), List.getD_eq_getElem _ _ (by simpa using hi'),
        List.getElem_rotate]
      simp only [Nat.add_comm i]
    rw [List.filterMap_congr hsome, List.filterMap_eq_map]
    refine List.ext_getElem (by simp) fun i hi _ => ?_
    rw [List.getElem_map, List.getElem_range, List.getD_eq_getElem]
  have hlegal : ∀ i : ℕ, hand[i]?.any (fun o =>
      !((common.thoughts.get o).any Card.touched && !common.newlyClued o)) =
        hand[i]?.any fun o => (thoughts o).isReferent := by
    intro i
    cases hi : hand[i]? with
    | none => rfl
    | some o =>
      obtain ⟨hcard, hnew⟩ := hthoughts o (List.mem_of_getElem? hi)
      simp [hcard, hnew, MarkedCard.isReferent]
  rw [hwalk, List.find?_filterMap]
  simp only [Common.refer, hlegal]

/-- The search from a newly clued card ends: at the latest when it comes back to it. -/
theorem Common.refer_of_newlyClued {common : Common} {hand : List ℕ} {index : ℕ}
    (h : index ∈ common.newlyTouched hand) :
    ∃ i < hand.length, common.refer hand index = some i := by
  simp only [newlyTouched, List.mem_filter, List.mem_range] at h
  obtain ⟨hlt, hnew⟩ := h
  have hback : (index + 1 + (hand.length - 1)) % hand.length = index := by
    have : index + 1 + (hand.length - 1) = index + hand.length := by omega
    rw [this, Nat.add_mod_right, Nat.mod_eq_of_lt hlt]
  have hsome : (common.refer hand index).isSome := by
    rw [refer, List.find?_isSome]
    refine ⟨index, List.mem_map.2 ⟨hand.length - 1, List.mem_range.2 (by omega), hback⟩, ?_⟩
    rw [List.getElem?_eq_getElem hlt] at hnew ⊢
    simp only [Option.any_some] at hnew ⊢
    simp [hnew]
  obtain ⟨i, hi⟩ := Option.isSome_iff_exists.1 hsome
  refine ⟨i, ?_, hi⟩
  obtain ⟨k, -, rfl⟩ := List.mem_map.1 (List.mem_of_find?_eq_some hi)
  exact Nat.mod_lt _ (by omega)

/-- With a card newly clued, some card is called to play. -/
theorem Common.refTarget_isSome {common : Common} {hand : List ℕ}
    (h : common.newlyTouched hand ≠ []) : ∃ i < hand.length, common.refTarget hand = some i := by
  have hmap : ∀ l : List ℕ, (∀ index ∈ l, index ∈ common.newlyTouched hand) →
      ∃ referred : List ℕ, l.mapM (common.refer hand) = some referred ∧
        referred.length = l.length ∧ ∀ i ∈ referred, i < hand.length := by
    intro l
    induction l with
    | nil => exact fun _ => ⟨[], by simp, rfl, by simp⟩
    | cons index l ih =>
      intro hl
      obtain ⟨i, hi, href⟩ := refer_of_newlyClued (hl index List.mem_cons_self)
      obtain ⟨referred, hrest, hlen, hlt⟩ := ih fun j hj => hl j (List.mem_cons_of_mem index hj)
      refine ⟨i :: referred, ?_, by simp [hlen], ?_⟩
      · simp [List.mapM_cons, href, hrest]
      · intro j hj
        obtain rfl | hj := List.mem_cons.1 hj
        · exact hi
        · exact hlt j hj
  obtain ⟨referred, hrun, hlen, hlt⟩ := hmap _ fun _ h => h
  have hne : referred ≠ [] := by
    intro hnil
    rw [hnil] at hlen
    exact h (List.eq_nil_of_length_eq_zero hlen.symm)
  refine ⟨referred.max hne, hlt _ (List.max_mem hne), ?_⟩
  show (common.newlyTouched hand).mapM (common.refer hand) >>= List.max? = _
  rw [hrun]
  exact List.max?_eq_some_max hne

/-- The card called to play in an unloaded hand keeps what is next on the stacks alone,
unless it was thought to be a 1 that is played, behind a completed suit. -/
theorem referentialPlay_onStacks_iff {common common' : Common} {st : HState}
    {giver target i order : ℕ} {card : Card} (hloaded : common.thinksLoaded st target = false)
    (hrun : referentialPlay common st giver target = some (common', .refPlay i))
    (ho : (st.hands target)[i]? = some order) (hcard : common.thoughts.get order = some card)
    (hsuits : card.inferred.numSuits = st.variant.suits.length)
    (hst : ∀ s < st.variant.suits.length, st.playStacks s ≤ 5) :
    ∃ card', common'.thoughts.get order = some card' ∧
      (card'.inferred.OnStacks st.playStacks ↔ ∀ s, ¬WrapsOnto st.playStacks card.inferred s) := by
  have hwritten : common' = common.updateThoughts order
      (callToPlay (nextIdentities st.variant.suits.length st.playStacks)) := by
    unfold referentialPlay at hrun
    simp only [hloaded] at hrun
    cases hnew : common.newlyTouched (st.hands target) with
    | nil => simp [hnew] at hrun
    | cons index l =>
      simp only [hnew] at hrun
      cases htarget : common.refTarget (st.hands target) with
      | none => simp [htarget] at hrun
      | some j =>
        simp only [htarget, Option.bind_eq_bind, Option.bind_some] at hrun
        cases hget : (st.hands target)[j]? with
        | none => simp [hget] at hrun
        | some o =>
          by_cases hj : j = 0
          · subst hj
            simp [hget] at hrun
          · simp only [hget, hj, Option.bind_some, false_and, if_false, Bool.false_eq_true,
              Option.some.injEq, Prod.mk.injEq, RefOutcome.refPlay.injEq] at hrun
            obtain ⟨hrun, rfl⟩ := hrun
            rw [ho, Option.some.injEq] at hget
            rw [← hrun, hget]
  refine ⟨_, by rw [hwritten, Common.get_updateThoughts_self, hcard]; rfl, ?_⟩
  rw [← hsuits] at hst
  show (card.inferred.intersect _).OnStacks _ ↔ _
  rw [← hsuits]
  exact IdentitySet.intersect_nextIdentities_onStacks_iff hst

end PlayfulSieve

end HanabiBot
