import HanabiBot.Basics.Card

/-!
# Updating a game in place

`onPlay` and `onDiscard` of `src/basics.js` return a new game.  The H-Group
convention keeps working on the old one and copies the parts back with `mutate`.

A `TeamGame` is a game with what each player and the common player think.  How the
players eliminate is left open: `Elims` are any functions of a player and a state.

* `mutate_agrees_iff` — after a play or a discard with a known identity the two
  games agree if and only if `deck_ids` held that identity before, since
  `deck_ids` is the one part that is not copied back;
* `mutate_loses_deckId` — a game in which it is lost: the card is drawn again
  without its identity.
-/

namespace HanabiBot

/-- What players do with what they learn. -/
structure Elims where
  cardElim : Player → State → Player
  goodTouchElim : Player → State → Player
  refreshLinks : Player → State → Player
  updateHypoStacks : Player → State → Player
  /-- A player takes over what the common player learned. -/
  takeOver : (common player : Player) → Player
  /-- The common player forgets what was changed. -/
  clearPatches : Player → Player

/-- `Game`, with the players; everything else is its `data`. -/
structure TeamGame (δ : Type) where
  state : State
  players : ℕ → Player
  common : Player
  deckIds : SparseArray Identity
  goodTouch : Bool
  base : State × (ℕ → Player) × Player
  data : δ

namespace TeamGame

variable {δ : Type}

/-- `team_elimP`. -/
def teamElimP (el : Elims) (game : TeamGame δ) : TeamGame δ :=
  let newPlayer := fun player =>
    let eliminated := el.cardElim (el.takeOver game.common player) game.state
    let touched := if game.goodTouch then el.goodTouchElim eliminated game.state else eliminated
    el.updateHypoStacks (el.refreshLinks touched game.state) game.state
  { game with
    players := fun i => newPlayer (game.players i)
    common := el.clearPatches game.common }

/-- What the common player thinks of a card that is turned over. -/
def turnOver (card : Card) (identity : Identity) : Card :=
  { card with
    id := some identity
    oldInferred := some card.inferred
    possible := card.possible.intersect (IdentitySet.toMask identity)
    inferred := card.inferred.intersect (IdentitySet.toMask identity) }

/-- The common player after a card is turned over. -/
def revealTo (el : Elims) (game : TeamGame δ) (newState : State) (order : ℕ)
    (identity : Identity) : Player :=
  let thoughts := match game.common.thoughts.get order with
    | some card => game.common.thoughts.set order (turnOver card identity)
    | none => game.common.thoughts
  let eliminated := el.cardElim { game.common with thoughts } newState
  let touched := if game.goodTouch then el.goodTouchElim eliminated newState else eliminated
  el.refreshLinks touched newState

/-- The part that `onPlay` and `onDiscard` have in common: the card leaves the hand for
`newState`. -/
def turnUp (el : Elims) (game : TeamGame δ) (newState : State) (order : ℕ) :
    Option Identity → TeamGame δ
  | some identity =>
    teamElimP el
      { game with
        deckIds := game.deckIds.set order identity
        common := revealTo el game newState order identity
        state := newState }
  | none => teamElimP el { game with state := newState }

/-- `onPlay`. -/
def onPlay (el : Elims) (game : TeamGame δ) (order playerIndex : ℕ) (identity : Option Identity) :
    Option (TeamGame δ) :=
  (Basics.onPlay game.state order playerIndex identity).map fun newState =>
    turnUp el game newState order identity

/-- `onDiscard`. -/
def onDiscard (el : Elims) (game : TeamGame δ) (order playerIndex : ℕ)
    (identity : Option Identity) (failed : Bool) : Option (TeamGame δ) :=
  (Basics.onDiscard game.state order playerIndex identity failed).map fun newState =>
    turnUp el game newState order identity

/-- `mutate`: what `game` is afterwards. -/
def mutate (game newGame : TeamGame δ) : TeamGame δ :=
  { game with
    state := newGame.state
    common := newGame.common
    players := fun i =>
      if i < newGame.state.numPlayers then newGame.players i else game.players i }

/-- `createBlank`. -/
def createBlank (game : TeamGame δ) : TeamGame δ :=
  { game with
    state := game.base.1
    players := game.base.2.1
    common := game.base.2.2 }

/-- The state after `onDraw`. -/
def drawn (game : TeamGame δ) (order playerIndex : ℕ) (identity : Option Identity) : State :=
  Basics.onDraw game.state (game.deckIds.get order) order playerIndex identity

/-- The game is as the new one in all that a handler writes, and a replay draws the card with the
identity it has turned out to have, whatever the action of the draw says. -/
structure Agrees (game newGame : TeamGame δ) (order : ℕ) (identity : Identity) : Prop where
  state : game.state = newGame.state
  common : game.common = newGame.common
  players : ∀ i < newGame.state.numPlayers, game.players i = newGame.players i
  deckIds : ∀ o, game.deckIds.get o = newGame.deckIds.get o
  revealed : game.deckIds.get order = some identity
  replay : ∀ playerIndex recorded,
    (game.createBlank.drawn order playerIndex recorded).identityOf order = some identity

@[simp] theorem deckIds_turnUp (el : Elims) (game : TeamGame δ) (newState : State) (order : ℕ)
    (identity : Identity) :
    (turnUp el game newState order (some identity)).deckIds = game.deckIds.set order identity := rfl

theorem identityOf_drawn {game : TeamGame δ} {order : ℕ} {identity : Identity}
    (h : game.deckIds.get order = some identity) (playerIndex : ℕ) (recorded : Option Identity) :
    (game.createBlank.drawn order playerIndex recorded).identityOf order = some identity := by
  have hids : game.createBlank.deckIds = game.deckIds := rfl
  simp [drawn, Basics.onDraw, State.identityOf, hids, h]

/-- All is copied back but `deck_ids`. -/
theorem mutate_turnUp_agrees_iff (el : Elims) (game : TeamGame δ) (newState : State) (order : ℕ)
    (identity : Identity) :
    Agrees (mutate game (turnUp el game newState order (some identity)))
        (turnUp el game newState order (some identity)) order identity ↔
      game.deckIds.get order = some identity := by
  constructor
  · intro h
    exact h.revealed
  · intro h
    refine ⟨rfl, rfl, ?_, ?_, h, ?_⟩
    · intro i hi
      exact if_pos hi
    · intro o
      show game.deckIds.get o = _
      rw [deckIds_turnUp, SparseArray.get_set]
      split
      · next ho => rw [ho, h]
      · rfl
    · exact identityOf_drawn h

/-- After a play or a discard with a known identity the game updated in place agrees with the new
one exactly if `deck_ids` held the identity before. -/
theorem mutate_agrees_iff (el : Elims) {game newGame : TeamGame δ} {order playerIndex : ℕ}
    {identity : Identity}
    (h : onPlay el game order playerIndex (some identity) = some newGame ∨
      ∃ failed, onDiscard el game order playerIndex (some identity) failed = some newGame) :
    Agrees (mutate game newGame) newGame order identity ↔
      game.deckIds.get order = some identity := by
  have hturned : ∃ newState, turnUp el game newState order (some identity) = newGame := by
    obtain hplay | ⟨failed, hdiscard⟩ := h
    · obtain ⟨newState, -, heq⟩ := Option.map_eq_some_iff.1 hplay
      exact ⟨newState, heq⟩
    · obtain ⟨newState, -, heq⟩ := Option.map_eq_some_iff.1 hdiscard
      exact ⟨newState, heq⟩
  obtain ⟨newState, rfl⟩ := hturned
  exact mutate_turnUp_agrees_iff el game newState order identity

/-- Nobody eliminates anything. -/
def keepAll : Elims where
  cardElim player _ := player
  goodTouchElim player _ := player
  refreshLinks player _ := player
  updateHypoStacks player _ := player
  takeOver _ player := player
  clearPatches common := common

/-- Two players are dealt five cards each, none of which is known to the deck. -/
def unseenFirst : TeamGame Unit :=
  let state : State := .fresh noVariant 2 0 {}
  let player : Player := ⟨none, .empty, [], .full 5, .full 5⟩
  { state := (List.range 10).foldl (fun st o => Basics.onDraw st none o (o / 5) none) state
    players := fun _ => player
    common := player
    deckIds := .empty
    goodTouch := false
    base := (state, fun _ => player, player)
    data := () }

/-- The first card is played as red 1. -/
def firstPlayed : TeamGame Unit :=
  turnUp keepAll unseenFirst (Basics.afterPlay unseenFirst.state 0 0 (some ⟨0, 1⟩)) 0
    (some ⟨0, 1⟩)

theorem onPlay_unseenFirst : onPlay keepAll unseenFirst 0 0 (some ⟨0, 1⟩) = some firstPlayed := by
  have hreturns : ¬ Basics.TakesOnlyCard unseenFirst.state (.play 0 0 (some ⟨0, 1⟩)) := by
    decide +kernel
  rw [onPlay, Basics.onPlay, if_neg hreturns]
  rfl

/-- Nothing is lost of a card that the deck knew. -/
theorem mutate_agrees_seenFirst :
    ∃ newGame, onPlay keepAll { unseenFirst with deckIds := SparseArray.empty.set 0 ⟨0, 1⟩ } 0 0
        (some ⟨0, 1⟩) = some newGame ∧
      Agrees (mutate { unseenFirst with deckIds := SparseArray.empty.set 0 ⟨0, 1⟩ } newGame)
        newGame 0 ⟨0, 1⟩ := by
  have hreturns : ¬ Basics.TakesOnlyCard unseenFirst.state (.play 0 0 (some ⟨0, 1⟩)) := by
    decide +kernel
  have hplay : onPlay keepAll { unseenFirst with deckIds := SparseArray.empty.set 0 ⟨0, 1⟩ } 0 0
      (some ⟨0, 1⟩) = some (turnUp keepAll
        { unseenFirst with deckIds := SparseArray.empty.set 0 ⟨0, 1⟩ }
        (Basics.afterPlay unseenFirst.state 0 0 (some ⟨0, 1⟩)) 0 (some ⟨0, 1⟩)) := by
    rw [onPlay, Basics.onPlay, if_neg hreturns]
    rfl
  exact ⟨_, hplay, (mutate_agrees_iff keepAll (.inl hplay)).2 rfl⟩

/-- The new game knows the card in `deck_ids` and the updated one does not: a replay draws it
without an identity. -/
theorem mutate_loses_deckId :
    onPlay keepAll unseenFirst 0 0 (some ⟨0, 1⟩) = some firstPlayed ∧
      ¬ Agrees (mutate unseenFirst firstPlayed) firstPlayed 0 ⟨0, 1⟩ ∧
      ((mutate unseenFirst firstPlayed).createBlank.drawn 0 0 none).identityOf 0 = none ∧
      (firstPlayed.createBlank.drawn 0 0 none).identityOf 0 = some ⟨0, 1⟩ := by
  refine ⟨onPlay_unseenFirst, ?_, by decide, by decide⟩
  intro h
  exact absurd h.revealed (by decide)

end TeamGame

end HanabiBot
