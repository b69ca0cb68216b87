import HanabiBot.HGroup.Focus

/-!
# Players that look ahead

`HGroup_Player` with what `update_hypo_stacks` leaves: the stacks as they will be once
all the cards known to play have played, and these cards.  `HypoGame` is a game of such
players, and `isTrashAs` is `isTrash` with any options for matching a thought.
-/

namespace HanabiBot.HGroup

/-- A player with the hypothetical stacks. -/
structure HypoPlayer extends HGroupPlayer where
  hypoStacks : ℕ → ℕ
  /-- The cards that are going to play. -/
  hypoPlays : List ℕ := []
  /-- Those among them whose identity is not known. -/
  unknownPlays : List ℕ := []

/-- `find_finesse`: the first card of the hand that is neither touched nor connected; none
if that card is to be ignored. -/
def HGroupPlayer.findFinesse (player : HGroupPlayer) (st : HState) (playerIndex : ℕ)
    (connected ignoreOrders : List ℕ) : Option ℕ :=
  ((st.hands playerIndex).find? fun o =>
    !((player.thoughts.get o).any Card.touched) && !connected.contains o).filter
      fun o => !ignoreOrders.contains o

/-- A game as one player keeps it. -/
structure HypoGame where
  level : ℕ
  state : HState
  common : HypoPlayer
  players : ℕ → HypoPlayer

namespace HypoGame

/-- `game.me`. -/
def me (game : HypoGame) : HypoPlayer := game.players game.state.ourPlayerIndex

end HypoGame

/-- `inEndgame`. -/
def HState.inEndgame (st : HState) : Bool := decide (st.pace < st.numPlayers)

/-- `visibleFind`: the cards in everyone's hands that match an identity. Inferences are
used if asked to, or for our own player. -/
def visibleFind (infer : Bool) (st : HState) (player : HGroupPlayer) (identity : Identity) :
    List ℕ :=
  (List.range st.numPlayers).flatMap fun index => (st.hands index).filter fun o =>
    (player.thoughts.get o).any fun card => card.matchesId identity
      { infer := infer || player.playerIndex == some st.ourPlayerIndex
        symmetric := player.playerIndex == some index }

/-- `isSaved`: the identity is already saved in someone's hand. -/
def isSavedAs (options : MatchOptions) (st : HState) (player : HGroupPlayer) (identity : Identity)
    (order : ℕ) : Bool :=
  st.allOrders.any fun o => (player.thoughts.get o).any fun card =>
    st.deckMatches o identity && card.matchesId identity options && o != order &&
      !(player.links.any fun link => link.identities.any fun i =>
        i == identity && link.orders.contains order) &&
      (card.touched || card.status == some .cm)

/-- `isTrash`. -/
def isTrashAs (options : MatchOptions) (st : HState) (player : HGroupPlayer) (identity : Identity)
    (order : ℕ) : Bool :=
  st.isBasicTrash identity || isSavedAs options st player identity order

end HanabiBot.HGroup
