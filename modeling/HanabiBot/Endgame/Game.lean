import HanabiBot.Basics.Card
import HanabiBot.Endgame.Simpler

/-!
# The game that the solver works on

A `Game` is the state together with what the players think.  How a convention
updates their thoughts is left open: a `Convention` is any `simulate_action`,
`thinksPlayables`, `find_clues` and `find_discards`.

`find_remaining_identities` and `trivially_winnable` are the solver's readings of
a game that need no search.
-/

namespace HanabiBot

namespace State

/-- What the rules read and write: all but the record of the past. -/
def board (st : State) : State := { st with turnCount := 0, actionList := .empty }

end State

/-- `Game`; what a convention keeps besides is its `data`. -/
structure Game (κ : Type) where
  state : State
  players : ℕ → Player
  common : Player
  /-- The identities of the cards of the deck, as far as they are known. -/
  deckIds : SparseArray Identity
  data : κ

/-- `{ misplay, order }`, a card to get rid of. -/
structure Discard where
  misplay : Bool
  order : ℕ
  deriving DecidableEq, Repr

namespace Game

variable {κ : Type}

/-- The player we are. -/
def me (g : Game κ) : Player := g.players g.state.ourPlayerIndex

def allPlayers (g : Game κ) : List Player :=
  (List.range g.state.numPlayers).map g.players ++ [g.common]

/-- Every card in a hand has an entry in the deck and in the thoughts of each player;
reading one that has none throws. -/
def dealt (g : Game κ) : Bool :=
  Endgame.dealtState g.state && g.state.allOrders.all fun o =>
    (List.range g.state.numPlayers).all fun q => ((g.players q).thoughts.get o).isSome

/-- The board after `simulate_action`: the handler of the action, and the next card for
whoever played or discarded. -/
def simulateBoard (g : Game κ) (act : Action) : Option State := do
  let new ← Basics.onAction g.state g.deckIds act
  match act with
  | .play _ playerIndex _ | .discard _ playerIndex _ _ =>
    Endgame.drawNext new g.deckIds playerIndex (g.deckIds.get (g.state.cardOrder + 1).toNat)
  | _ => some new

end Game

/-- A convention, as far as the solver uses one. `simulate_action` may throw. -/
structure Convention (κ : Type) where
  simulateAction : Game κ → Action → Option (Game κ)
  /-- `game.players[playerIndex].thinksPlayables(state, playerIndex)`. -/
  thinksPlayables : Game κ → ℕ → List ℕ
  findClues : Game κ → ℕ → List Clue
  findDiscards : Game κ → ℕ → List Discard

namespace Endgame

variable {κ : Type}

/-! ## Keys -/

/-- The thoughts of a player in a key: the inferences of each card. -/
def hashThoughts (v : Variant) (player : Player) : Key :=
  join <| (player.thoughts.toList.filterMap id).flatMap fun c =>
    join (c.inferred.array.map fun id => .card (v.logCard id))

/-- `game.hash`. -/
def hash (g : Game κ) : Key :=
  join (g.state.allOrders.map fun o => .num o) ++
    g.allPlayers.flatMap (hashThoughts g.state.variant) ++
    join (g.state.deck.toList.map (logCard g.state.variant)) ++
    [.actions (g.state.actionList.toList.getLast?.join), .num g.state.clueTokens,
      .num g.state.turnCount]

/-! ## Winning without a search -/

/-- The loop of `trivially_winnable`: over the turns that are left, with the stacks and the
first action. -/
def playKnown (conv : Convention κ) (g : Game κ) (playerTurn : ℕ) :
    List ℕ → (ℕ → ℕ) → Option PerformAction → Option ((ℕ → ℕ) × Option PerformAction)
  | [], playStacks, action => some (playStacks, action)
  | i :: turns, playStacks, action =>
    let playerIndex := (playerTurn + i) % g.state.numPlayers
    match conv.thinksPlayables g playerIndex with
    | [] => playKnown conv g playerTurn turns playStacks action
    | [o] =>
      match g.state.identityOf o with
      | none => none
      | some id =>
        if playStacks id.suitIndex + 1 ≠ id.rank then none
        else
          playKnown conv g playerTurn turns (Function.update playStacks id.suitIndex id.rank)
            (if i = 0 then some (.play playerTurn o) else action)
    | _ :: _ :: _ => none

/-- `trivially_winnable`: the action, if everyone playing what they know wins. -/
def triviallyWinnable (conv : Convention κ) (g : Game κ) (playerTurn : ℕ) :
    Option (Option PerformAction) :=
  let st := g.state
  if st.score = st.maxScore then some none
  else if st.endgameTurns ≠ -1 ∧ (st.maxScore : ℤ) - st.score ≤ st.endgameTurns then
    let action := (st.hands playerTurn).getLast?.map (.discard playerTurn)
    match playKnown conv g playerTurn (List.range st.endgameTurns.toNat) st.playStacks action with
    | none => none
    | some (playStacks, action) =>
      if ∑ s ∈ Finset.range st.variant.suits.length, playStacks s = st.maxScore then some action
      else none
  else none

/-! ## The identities that are left -/

/-- One of our own cards, and its identity if we know it. -/
structure OwnId where
  order : ℕ
  id : Option Identity
  deriving DecidableEq

/-- The identity of a card in our eyes. -/
def seenAs (g : Game κ) (options : MatchOptions) (o : ℕ) : Option Identity :=
  (g.me.thoughts.get o).bind (·.identity options)

/-- `infer_ids`: the cards of our own that we only infer, by the names of their identities. -/
def inferIds (g : Game κ) : List (Variant.CardName × List ℕ) :=
  let inferred := (g.state.hands g.state.ourPlayerIndex).filterMap fun o =>
    if (seenAs g {} o).isSome then none
    else (seenAs g { infer := true } o).map fun id => (g.state.variant.logCard id, o)
  (Utils.groupBy inferred Prod.fst).map fun (name, group) => (name, group.map Prod.snd)

/-- `seen_ids`, before the inferred copies: the cards in the hands that we see to have the name. -/
def seenCount (g : Game κ) (name : Variant.CardName) : ℕ :=
  g.state.allOrders.countP fun o => (seenAs g {} o).map g.state.variant.logCard == some name

/-- There cannot be as many copies as we infer. -/
def tooMany (g : Game κ) (name : Variant.CardName) (orders : List ℕ) : Bool :=
  let id := g.state.variant.expandShort name
  decide (g.state.cardCount id < seenCount g name + orders.length + g.state.baseCount id)

/-- `own_ids`: first the cards that we know or know nothing of, then those we infer. -/
def ownIds (g : Game κ) : List OwnId :=
  let direct := (g.state.hands g.state.ourPlayerIndex).filterMap fun o =>
    match seenAs g {} o with
    | some id => some ⟨o, some id⟩
    | none => if (seenAs g { infer := true } o).isSome then none else some ⟨o, none⟩
  direct ++ (inferIds g).flatMap fun (name, orders) =>
    orders.map fun o =>
      ⟨o, if tooMany g name orders then none else some (g.state.variant.expandShort name)⟩

/-- `seen_ids` at the end, with the copies that we infer. -/
def seenIds (g : Game κ) (name : Variant.CardName) : ℕ :=
  seenCount g name + ((inferIds g).map fun (inferName, orders) =>
    if inferName = name ∧ tooMany g name orders = false then orders.length else 0).sum

/-- `remaining_ids`: the identities of which copies are missing. -/
def remainingIds (g : Game κ) : RemainingSet :=
  g.state.variant.allIdentities.filterMap fun id =>
    let total := g.state.cardCount id
    let missing := total - (g.state.baseCount id + seenIds g (g.state.variant.logCard id))
    if 0 < missing then some { id, missing, all := missing == total } else none

end Endgame

end HanabiBot
