import HanabiBot.Basics.IdentitySet
import HanabiBot.Basics.State

/-!
# Cards and players

`Card` of `src/basics/Card.js` is what a player thinks of a card: its identity
if it is seen, the identities that are `possible` by empathy, and what the
conventions add on top (`Inference`).  `Player` of `src/basics/Player.js` holds
one for every card drawn.
-/

namespace HanabiBot

/-- `CARD_STATUS`. -/
inductive CardStatus
  | clued | finessed | bluffed | maybeF | maybeBluffed | fMaybeBluff | cm | calledToPlay
  | calledToDc | gd
  deriving DecidableEq, Repr

/-- What the conventions think of a card. -/
structure Inference where
  /-- All inferences of the card (from conventions). -/
  inferred : IdentitySet
  oldInferred : Option IdentitySet := none
  /-- The identities that are locked onto the card. -/
  infoLock : Option IdentitySet := none
  status : Option CardStatus := none
  lastStatus : Option CardStatus := none
  focused : Bool := false
  /-- Whether the card has previously lost all inferences. -/
  reset : Bool := false
  hidden : Bool := false
  assumePlayable : Bool := false
  trash : Bool := false
  known : Bool := false
  deriving DecidableEq

/-- `Card`; an identity that is not seen is `none`. -/
structure Card extends Inference where
  id : Option Identity
  /-- All possibilities of the card (from positive and negative information). -/
  possible : IdentitySet
  order : ℕ
  clued : Bool := false
  rewindIds : Option IdentitySet := none
  deriving DecidableEq

/-- `MatchOptions`. -/
structure MatchOptions where
  infer : Bool := false
  symmetric : Bool := false
  assume : Bool := false

/-- The one member of a set that has just one. -/
def IdentitySet.only? (s : IdentitySet) : Option Identity :=
  if s.length = 1 then s.array.head? else none

namespace Card

/-- The identity of the card, if known or inferred. -/
def identity (card : Card) (options : MatchOptions) : Option Identity :=
  if card.possible.length = 1 then card.possible.array.head?
  else if card.id.isSome && !options.symmetric then card.id
  else if (card.rewindIds.any fun ids => ids.length == 1) && !options.symmetric then
    card.rewindIds.bind fun ids => ids.array.head?
  else if options.infer then
    (card.infoLock.bind IdentitySet.only?).or card.inferred.only?
  else none

/-- Whether the card matches the identity. -/
def matchesId (card : Card) (identity : Identity) (options : MatchOptions) : Bool :=
  match card.identity options with
  | none => options.assume
  | some id => id == identity

/-- The sets and the identity of a card are of the variant. -/
structure OfVariant (v : Variant) (card : Card) : Prop where
  possible : card.possible.numSuits = v.suits.length
  inferred : card.inferred.numSuits = v.suits.length
  infoLock : ∀ lock, card.infoLock = some lock → lock.numSuits = v.suits.length
  rewindIds : ∀ ids, card.rewindIds = some ids → ids.numSuits = v.suits.length
  id : ∀ id, card.id = some id → id.Valid v

theorem OfVariant.identity_valid {v : Variant} {card : Card} (h : card.OfVariant v)
    {options : MatchOptions} {id : Identity} (hid : card.identity options = some id) :
    id.Valid v := by
  have honly : ∀ s : IdentitySet, s.numSuits = v.suits.length → s.only? = some id → id.Valid v := by
    intro s hs honly
    simp only [IdentitySet.only?, Option.ite_none_right_eq_some] at honly
    exact IdentitySet.array_valid hs (List.mem_of_head? honly.2)
  unfold identity at hid
  split at hid
  · exact IdentitySet.array_valid h.possible (List.mem_of_head? hid)
  · split at hid
    · exact h.id id hid
    · split at hid
      · obtain ⟨ids, hids, hhead⟩ := Option.bind_eq_some_iff.1 hid
        exact IdentitySet.array_valid (h.rewindIds ids hids) (List.mem_of_head? hhead)
      · split at hid
        · rw [Option.or_eq_some_iff] at hid
          obtain hlock | ⟨-, hinf⟩ := hid
          · obtain ⟨lock, hlock, hid⟩ := Option.bind_eq_some_iff.1 hlock
            exact honly lock (h.infoLock lock hlock) hid
          · exact honly _ h.inferred hinf
        · cases hid

def possibilities (card : Card) : IdentitySet :=
  if card.inferred.length = 0 then card.possible else card.inferred

/-- Whether the card has been touched, i.e. clued or finessed. -/
def touched (card : Card) : Bool :=
  card.known || match card.status with
    | some .clued | some .finessed | some .bluffed | some .fMaybeBluff | some .calledToPlay
    | some .gd => true
    | _ => false

/-- Whether the card has been saved, i.e. clued, finessed or chop moved. -/
def saved (card : Card) : Bool := card.touched || card.status == some .cm

def blindPlaying (card : Card) : Bool :=
  match card.status with
  | some .finessed | some .bluffed | some .calledToPlay => true
  | _ => false

/-- `updateStatus`. -/
def updateStatus (card : Card) (status : CardStatus) : Card :=
  { card with
    lastStatus := card.status
    status := some status }

/-- `revertStatus`. -/
def revertStatus (card : Card) : Card :=
  { card with
    status := if card.clued then some .clued else card.lastStatus
    lastStatus := none }

/-- `reset_inferences`. -/
def resetInferences (card : Card) : Card :=
  let brokeInfoLock := card.infoLock.any fun lock =>
    (lock.intersect card.possible.value).length == 0
  let draft := { card with
    reset := true
    known := false
    infoLock := if brokeInfoLock then none else card.infoLock }
  if card.status = some .finessed then
    { draft.revertStatus with
      hidden := false
      inferred :=
        match draft.infoLock, card.oldInferred with
        | some lock, _ => lock
        | none, some old => old.intersect card.possible.value
        | none, none => card.possible }
  else if brokeInfoLock then { draft with inferred := card.possible }
  else
    let newInferred := match draft.infoLock with
      | some lock => lock.intersect card.possible.value
      | none => card.possible
    { draft with infoLock := some newInferred, inferred := newInferred }

end Card

/-- A set of cards that hold some identities between them. -/
structure Link where
  orders : List ℕ
  identities : List Identity
  promised : Bool := false
  deriving DecidableEq

/-- `Player`, the fields that the modelled functions read. The common player has
no index. -/
structure Player where
  playerIndex : Option ℕ
  thoughts : SparseArray Card := .empty
  links : List Link := []
  allPossible : IdentitySet
  allInferred : IdentitySet

namespace Player

/-- Whether a card of the player's thoughts matches the identity. -/
def orderMatches (player : Player) (order : ℕ) (identity : Identity) : Bool :=
  (player.thoughts.get order).any (·.matchesId identity {})

/-- `unknownIdentities`: the cards still unknown that could be this identity. -/
def unknownIdentities (state : State) (player : Player) (identity : Identity) : ℤ :=
  state.cardCount identity - state.baseCount identity -
    (state.allOrders.filter (player.orderMatches · identity)).length

/-- The orders in links that are not yet resolved. -/
def linkedOrders (player : Player) (state : State) : List ℕ :=
  (player.links.filter fun link =>
    decide ((link.orders.length : ℤ) > (link.identities.map (unknownIdentities state player)).sum)
    ).flatMap Link.orders

end Player

namespace State

/-- Whether one of the card's inferences matches its actual identity. -/
def hasConsistentInferences (state : State) (card : Card) : Bool :=
  match state.identityOf card.order with
  | none => true
  | some id => card.possible.length == 1 || card.inferred.has id

end State

namespace Player

/-- Whether a card in hand is thought to be playable, with the default options. -/
def thinksPlayable (state : State) (linkedOrders : List ℕ) (o : ℕ) (card : Card) : Bool :=
  if card.trash && !(card.possible.array.all fun p => !state.isBasicTrash p) then false
  else if card.assumePlayable && card.possible.array.any state.isPlayable then true
  else
    let unsafeLinked := linkedOrders.contains o &&
      (state.strikes == 2 || state.endgameTurns != -1 ||
        (card.possible.array.any fun p => decide (state.playStacks p.suitIndex + 1 < p.rank) &&
          decide (p.rank ≤ state.maxRanks p.suitIndex)) ||
        linkedOrders.any fun o2 => card.focused && o2 != o)
    if unsafeLinked then false
    else
      -- chop moved cards can ignore trash ids
      (card.possibilities.array.all fun p =>
        (card.status == some .cm && state.isBasicTrash p) || state.isPlayable p) &&
      card.possibilities.array.any state.isPlayable &&
      state.hasConsistentInferences card

/-- `thinksPlayables`: the playables in a hand, according to this player. -/
def thinksPlayables (player : Player) (state : State) (playerIndex : ℕ) : List ℕ :=
  let linkedOrders := player.linkedOrders state
  (state.hands playerIndex).filter fun o =>
    (player.thoughts.get o).any (thinksPlayable state linkedOrders o)

end Player

end HanabiBot
