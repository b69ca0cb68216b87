import HanabiBot.Lib.Counting
import HanabiBot.Lib.SparseArray
import HanabiBot.Basics.Identity

/-!
# The board: `State` and the board half of the handlers

`State` is the class of `src/basics/State.js`, with the fields that the rules
and the endgame solver read.  Each of `onClue`, `onDiscard`, `onDraw` and
`onPlay` of `src/basics.js` first computes a new state from the old one and then
updates what the players think; `Basics.onClue` … `Basics.afterPlay` below are the
first halves, which never look at a player.

An unknown identity (`suitIndex` and `rank` both `-1`) is `none`.  The stacks
and hands are functions of the suit or player index; `discardStacks id` is
`discard_stacks[suitIndex][rank - 1]`.
-/

namespace HanabiBot

/-- A card of `state.deck`: its identity, as far as the board knows it. -/
structure ActualCard where
  identity : Option Identity
  deriving DecidableEq, Repr

/-- The actions a game handles (`Action.ts`); the identity of a drawn, played or
discarded card is `none` when it is hidden. -/
inductive Action
  | clue (giver target : ℕ) (list : List ℕ) (clue : BaseClue)
  | draw (order playerIndex : ℕ) (identity : Option Identity)
  | play (order playerIndex : ℕ) (identity : Option Identity)
  | discard (order playerIndex : ℕ) (identity : Option Identity) (failed : Bool)
  | turn (num currentPlayerIndex : ℕ)
  deriving DecidableEq, Repr

namespace Action

def isClue : Action → Bool
  | .clue .. => true
  | _ => false

def isPlayOrDiscard : Action → Bool
  | .play .. | .discard .. => true
  | _ => false

def isDraw : Action → Bool
  | .draw .. => true
  | _ => false

end Action

/-- `TableOptions`, the two that change the hand size. -/
structure TableOptions where
  oneLessCard : Bool := false
  oneExtraCard : Bool := false

structure State where
  variant : Variant
  numPlayers : ℕ
  ourPlayerIndex : ℕ := 0
  options : TableOptions := {}
  turnCount : ℕ := 0
  clueTokens : ℤ := 8
  strikes : ℕ := 0
  hands : ℕ → List ℕ := fun _ => []
  deck : SparseArray ActualCard := .empty
  /-- `actionList[turn]`, the actions handled on that turn. -/
  actionList : SparseArray (List Action) := .empty
  playStacks : ℕ → ℕ := fun _ => 0
  discardStacks : Identity → ℕ := fun _ => 0
  maxRanks : ℕ → ℕ := fun _ => 5
  cardsLeft : ℤ
  /-- The order of the most recently drawn card. -/
  cardOrder : ℤ := -1
  endgameTurns : ℤ := -1

/-- `HAND_SIZE` of `src/constants.js`. -/
def HAND_SIZE : List ℤ := [-1, -1, 5, 5, 4, 4, 3]

namespace State

/-- The `State` constructor. -/
def fresh (variant : Variant) (numPlayers ourPlayerIndex : ℕ) (options : TableOptions) : State :=
  { variant, numPlayers, ourPlayerIndex, options, cardsLeft := variant.deckSize }

def handSize (st : State) : ℤ :=
  HAND_SIZE.getD st.numPlayers 0 +
    if st.options.oneLessCard then -1 else if st.options.oneExtraCard then 1 else 0

def score (st : State) : ℕ := ∑ s ∈ Finset.range st.variant.suits.length, st.playStacks s

def maxScore (st : State) : ℕ := ∑ s ∈ Finset.range st.variant.suits.length, st.maxRanks s

/-- Current score + cards left + number of players - max score. -/
def pace (st : State) : ℤ := st.score + st.cardsLeft + st.numPlayers - st.maxScore

def ended (st : State) : Bool := st.endgameTurns == 0

def nextPlayerIndex (st : State) (playerIndex : ℕ) : ℕ := (playerIndex + 1) % st.numPlayers

/-- `state.hands.flat()`. -/
def allOrders (st : State) : List ℕ := (List.range st.numPlayers).flatMap st.hands

/-- `state.deck[order].identity()`. -/
def identityOf (st : State) (order : ℕ) : Option Identity :=
  (st.deck.get order).bind ActualCard.identity

/-- The number of copies of an identity on the play and discard stacks. -/
def baseCount (st : State) (id : Identity) : ℕ :=
  (if id.rank ≤ st.playStacks id.suitIndex then 1 else 0) + st.discardStacks id

def cardCount (st : State) (id : Identity) : ℕ := st.variant.cardCount id

/-- Whether the identity has been played already or can never be played. -/
def isBasicTrash (st : State) (id : Identity) : Bool :=
  decide (id.rank ≤ st.playStacks id.suitIndex) || decide (st.maxRanks id.suitIndex < id.rank)

/-- `isBasicTrash` on a card that may have no identity, for which it is `false`. -/
def isBasicTrashCard (st : State) : Option Identity → Bool
  | none => false
  | some id => st.isBasicTrash id

def isCritical (st : State) (id : Identity) : Bool :=
  !st.isBasicTrash id && st.discardStacks id + 1 == st.variant.cardCount id

def isPlayable (st : State) (id : Identity) : Bool := id.rank == st.playStacks id.suitIndex + 1

/-- `isPlayable` on a card that may have no identity, for which it is `false`. -/
def isPlayableCard (st : State) : Option Identity → Bool
  | none => false
  | some id => st.isPlayable id

end State

/-- `hand.splice(hand.indexOf(order), 1)`: an order that is not in the hand has
index `-1`, which removes the last card. -/
def spliceOut (hand : List ℕ) (order : ℕ) : List ℕ :=
  if order ∈ hand then hand.erase order else hand.dropLast

namespace Basics

/-- `hands` after taking a card out of a hand. -/
def removeCard (hands : ℕ → List ℕ) (playerIndex order : ℕ) : ℕ → List ℕ :=
  Function.update hands playerIndex (spliceOut (hands playerIndex) order)

/-- `deck` after writing a revealed identity on a card. -/
def revealCard (deck : SparseArray ActualCard) (order : ℕ) :
    Option Identity → SparseArray ActualCard
  | some id => deck.set order ⟨some id⟩
  | none => deck

/-- `endgameTurns` after a turn: it only counts once the final round has started. -/
def tick (endgameTurns : ℤ) : ℤ := if endgameTurns ≠ -1 then endgameTurns - 1 else endgameTurns

/-- The board half of `onClue`. -/
def onClue (st : State) : State :=
  { st with
    endgameTurns := tick st.endgameTurns
    clueTokens := st.clueTokens - 1 }

/-- The new state of `onDiscard`, where it returns one. -/
def afterDiscard (st : State) (order playerIndex : ℕ) (identity : Option Identity) (failed : Bool) :
    State :=
  { st with
    hands := removeCard st.hands playerIndex order
    deck := revealCard st.deck order identity
    discardStacks := match identity with
      | some id => Function.update st.discardStacks id (st.discardStacks id + 1)
      | none => st.discardStacks
    -- all copies discarded: the new max rank is (discarded rank - 1) if not already lower
    maxRanks := match identity with
      | some id =>
        if st.discardStacks id + 1 = st.cardCount id then
          Function.update st.maxRanks id.suitIndex (min (st.maxRanks id.suitIndex) (id.rank - 1))
        else st.maxRanks
      | none => st.maxRanks
    endgameTurns := tick st.endgameTurns
    strikes := if failed then st.strikes + 1 else st.strikes
    -- bombs count as discards, but they don't give a clue token
    clueTokens := if failed then st.clueTokens else min (st.clueTokens + 1) 8 }

/-- The board half of `onDraw`; `deckId` is `game.deck_ids[order]`. -/
def onDraw (st : State) (deckId : Option Identity) (order playerIndex : ℕ)
    (identity : Option Identity) : State :=
  { st with
    hands := Function.update st.hands playerIndex (order :: st.hands playerIndex)
    deck := st.deck.set order ⟨deckId.or identity⟩
    cardOrder := order
    cardsLeft := st.cardsLeft - 1
    endgameTurns := if st.cardsLeft - 1 = 0 then st.numPlayers else st.endgameTurns }

/-- The new state of `onPlay`, where it returns one. -/
def afterPlay (st : State) (order playerIndex : ℕ) (identity : Option Identity) : State :=
  { st with
    hands := removeCard st.hands playerIndex order
    deck := revealCard st.deck order identity
    playStacks := match identity with
      | some id => Function.update st.playStacks id.suitIndex id.rank
      | none => st.playStacks
    endgameTurns := tick st.endgameTurns
    -- get a clue token back for playing a 5
    clueTokens :=
      if identity.map Identity.rank = some 5 ∧ st.clueTokens < 8 then st.clueTokens + 1
      else st.clueTokens }

/-- The action takes the only card of a hand. A hand is a draft whose target is an array that holds
the state of the draft; `splice` deletes the last index of the hand in the target, which has no
trap for it, and for one card that is the state itself: setting `length` then throws. -/
def TakesOnlyCard (st : State) : Action → Prop
  | .play _ playerIndex _ | .discard _ playerIndex _ _ => (st.hands playerIndex).length = 1
  | _ => False

instance (st : State) (a : Action) : Decidable (TakesOnlyCard st a) :=
  Action.casesOn (motive := fun a => Decidable (TakesOnlyCard st a)) a
    (fun _ _ _ _ => inferInstanceAs (Decidable False))
    (fun _ _ _ => inferInstanceAs (Decidable False))
    (fun _ playerIndex _ => inferInstanceAs (Decidable ((st.hands playerIndex).length = 1)))
    (fun _ playerIndex _ _ => inferInstanceAs (Decidable ((st.hands playerIndex).length = 1)))
    fun _ _ => inferInstanceAs (Decidable False)

/-- The board half of `onDiscard`. -/
def onDiscard (st : State) (order playerIndex : ℕ) (identity : Option Identity) (failed : Bool) :
    Option State :=
  if TakesOnlyCard st (.discard order playerIndex identity failed) then none
  else some (afterDiscard st order playerIndex identity failed)

/-- The board half of `onPlay`. -/
def onPlay (st : State) (order playerIndex : ℕ) (identity : Option Identity) : Option State :=
  if TakesOnlyCard st (.play order playerIndex identity) then none
  else some (afterPlay st order playerIndex identity)

/-- The board after an action, by the rules. -/
def after (st : State) (deckIds : SparseArray Identity) : Action → State
  | .clue .. => onClue st
  | .draw order playerIndex identity => onDraw st (deckIds.get order) order playerIndex identity
  | .play order playerIndex identity => afterPlay st order playerIndex identity
  | .discard order playerIndex identity failed => afterDiscard st order playerIndex identity failed
  | .turn .. => st

/-- The board half of the handler of an action. -/
def onAction (st : State) (deckIds : SparseArray Identity) : Action → Option State
  | .clue .. => some (onClue st)
  | .draw order playerIndex identity =>
      some (onDraw st (deckIds.get order) order playerIndex identity)
  | .play order playerIndex identity => onPlay st order playerIndex identity
  | .discard order playerIndex identity failed => onDiscard st order playerIndex identity failed
  | .turn .. => some st

/-- The handler follows the rules, where it does not throw. -/
theorem onAction_eq_some_iff {st st' : State} {deckIds : SparseArray Identity} {a : Action} :
    onAction st deckIds a = some st' ↔ ¬ TakesOnlyCard st a ∧ after st deckIds a = st' := by
  cases a with
  | clue | draw | turn => exact ⟨fun h => ⟨not_false, Option.some.inj h⟩, fun h => congrArg some h.2⟩
  | play => rw [onAction, onPlay, Option.ite_none_left_eq_some, Option.some.injEq]; rfl
  | discard => rw [onAction, onDiscard, Option.ite_none_left_eq_some, Option.some.injEq]; rfl

theorem onAction_of_not_takesOnlyCard {st : State} {a : Action} (h : ¬ TakesOnlyCard st a)
    (deckIds : SparseArray Identity) : onAction st deckIds a = some (after st deckIds a) :=
  onAction_eq_some_iff.2 ⟨h, rfl⟩

theorem tick_neg_one : tick (-1) = -1 := rfl

theorem tick_of_ne {e : ℤ} (h : e ≠ -1) : tick e = e - 1 := if_pos h

/-! ## The cards in hand after an action -/

theorem spliceOut_of_mem {hand : List ℕ} {order : ℕ} (h : order ∈ hand) :
    spliceOut hand order = hand.erase order := if_pos h

theorem mem_spliceOut {hand : List ℕ} {o order : ℕ} (h : o ∈ spliceOut hand order) : o ∈ hand := by
  unfold spliceOut at h
  split at h
  · exact List.mem_of_mem_erase h
  · exact List.mem_of_mem_dropLast h

@[simp] theorem removeCard_self (hands : ℕ → List ℕ) (p order : ℕ) :
    removeCard hands p order p = spliceOut (hands p) order := by
  simp [removeCard]

theorem removeCard_of_ne (hands : ℕ → List ℕ) {p q : ℕ} (h : q ≠ p) (order : ℕ) :
    removeCard hands p order q = hands q := by
  simp [removeCard, h]

theorem mem_removeCard {hands : ℕ → List ℕ} {p q order o : ℕ} (h : o ∈ removeCard hands p order q) :
    o ∈ hands q := by
  by_cases hqp : q = p
  · subst hqp
    rw [removeCard_self] at h
    exact mem_spliceOut h
  · rwa [removeCard_of_ne _ hqp] at h

/-- Taking a card out of a hand takes exactly that card away. -/
theorem flatMap_removeCard {n p order : ℕ} {hands : ℕ → List ℕ} (hp : p < n)
    (ho : order ∈ hands p) :
    ((List.range n).flatMap hands).Perm
      (order :: (List.range n).flatMap (removeCard hands p order)) := by
  have hpn : p ∈ List.range n := List.mem_range.2 hp
  have h1 := Counting.flatMap_perm hpn hands
  have h2 := Counting.flatMap_update_perm hpn List.nodup_range hands (spliceOut (hands p) order)
  rw [spliceOut_of_mem ho] at h2
  have h3 : (hands p).Perm (order :: (hands p).erase order) := List.perm_cons_erase ho
  refine h1.trans ((h3.append_right _).trans ?_)
  rw [List.cons_append, removeCard, spliceOut_of_mem ho]
  exact h2.symm.cons order

theorem allOrders_afterPlay {st : State} {order p : ℕ} (hp : p < st.numPlayers)
    (ho : order ∈ st.hands p) (identity : Option Identity) :
    st.allOrders.Perm (order :: (afterPlay st order p identity).allOrders) :=
  flatMap_removeCard hp ho

theorem allOrders_afterDiscard {st : State} {order p : ℕ} (hp : p < st.numPlayers)
    (ho : order ∈ st.hands p) (identity : Option Identity) (failed : Bool) :
    st.allOrders.Perm (order :: (afterDiscard st order p identity failed).allOrders) :=
  flatMap_removeCard hp ho

theorem allOrders_onDraw {st : State} {p : ℕ} (hp : p < st.numPlayers) (deckId : Option Identity)
    (order : ℕ) (identity : Option Identity) :
    (onDraw st deckId order p identity).allOrders.Perm (order :: st.allOrders) := by
  have hpn : p ∈ List.range st.numPlayers := List.mem_range.2 hp
  refine (Counting.flatMap_update_perm hpn List.nodup_range st.hands _).trans ?_
  rw [List.cons_append]
  exact (Counting.flatMap_perm hpn st.hands).symm.cons order

end Basics

namespace State

theorem mem_allOrders {st : State} {o : ℕ} :
    o ∈ st.allOrders ↔ ∃ p < st.numPlayers, o ∈ st.hands p := by
  simp [allOrders]

end State

end HanabiBot
