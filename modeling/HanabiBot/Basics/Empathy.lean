import HanabiBot.Basics.Board
import HanabiBot.Elim.CardElim
import HanabiBot.Elim.Links

/-!
# The handlers and what the players know

The other halves of `onClue`, `onDiscard`, `onDraw` and `onPlay` of `src/basics.js`: what
the common player learns from an action, and how `team_elimP` of `src/basics/helper.js`
tells it to the players.

The common player keeps the writes to a card as patches (`withThoughts`).  A player takes
over all of them but those of `possible` and `inferred`, which are intersected with what the
player thought before.

What `good_touch_elim` infers along the way is any `Inferrer`: a function of a player and the
state that leaves what is possible, what is seen and the links alone.  `update_hypo_stacks` only
writes the stacks, which nothing here reads.
-/

namespace HanabiBot

open CardElim (ElimError cardElim)

/-! ## Patches -/

/-- A field of a card that is written, with its new value. -/
inductive CardPatch
  | id (identity : Identity)
  | clued (clued : Bool)
  | status (status : Option CardStatus)
  | lastStatus (status : Option CardStatus)
  | possible (ids : IdentitySet)
  | inferred (ids : IdentitySet)
  | oldInferred (ids : IdentitySet)
  deriving DecidableEq

namespace CardPatch

def apply (card : Card) : CardPatch → Card
  | .id identity => { card with id := some identity }
  | .clued b => { card with clued := b }
  | .status st => { card with status := st }
  | .lastStatus st => { card with lastStatus := st }
  | .possible ids => { card with possible := ids }
  | .inferred ids => { card with inferred := ids }
  | .oldInferred ids => { card with oldInferred := some ids }

/-- Whether a write is a change; a set is always a new object. -/
def changes (card : Card) : CardPatch → Bool
  | .id identity => card.id != some identity
  | .clued b => card.clued != b
  | .status st => card.status != st
  | .lastStatus st => card.lastStatus != st
  | .possible _ | .inferred _ | .oldInferred _ => true

/-- Whether the path starts with `possible` or `inferred`. -/
def isThought : CardPatch → Bool
  | .possible _ | .inferred _ => true
  | _ => false

/-- The patches of a producer that makes these writes: all from the first change on. -/
def record (card : Card) (writes : List CardPatch) : List CardPatch :=
  writes.dropWhile fun p => !p.changes card

end CardPatch

/-- Why a handler does not return. -/
inductive HandleError
  | elim (error : ElimError)
  | promise (error : PromiseError)
  /-- A card has no thought (a `TypeError`). -/
  | missing (order : ℕ)
  /-- `drew card when hand was <hand>! max size <handSize>`. -/
  | drewCard (hand : List ℕ) (handSize : ℤ)
  /-- The card is the only one of its hand (a `TypeError` of the draft of the hand). -/
  | onlyCard (order : ℕ)
  deriving DecidableEq, Repr

/-- The common player, with the patches of the cards by their orders. -/
structure CommonPlayer extends Mind where
  patches : List (ℕ × List CardPatch) := []

/-- `(patches.get(order) ?? []).concat(written)`. -/
def addPatches (patches : List (ℕ × List CardPatch)) (order : ℕ) (written : List CardPatch) :
    List (ℕ × List CardPatch) :=
  if patches.any (·.1 == order) then
    patches.map fun e => if e.1 = order then (e.1, e.2 ++ written) else e
  else patches ++ [(order, written)]

/-- `withThoughts` of the common player, for a producer that makes these writes. -/
def CommonPlayer.withThoughts (common : CommonPlayer) (order : ℕ)
    (writes : Card → List CardPatch) : Except HandleError CommonPlayer :=
  match common.thoughts.get order with
  | none => .error (.missing order)
  | some card =>
    let written := CardPatch.record card (writes card)
    .ok { common with
      thoughts := common.thoughts.set order ((writes card).foldl CardPatch.apply card)
      patches := if written.isEmpty then common.patches else
        addPatches common.patches order written }

/-! ## What the conventions infer -/

/-- A function that infers something, learns nothing and promises nothing. -/
structure Inferrer where
  infer : Mind → State → Mind
  same : ∀ mind state, Links.SameKnowledge mind (infer mind state)
  links : ∀ mind state, (infer mind state).links = mind.links

/-- `Game`, as far as the handlers write it. -/
structure MindGame where
  state : State
  common : CommonPlayer
  players : List Mind
  deckIds : SparseArray Identity := .empty
  goodTouch : Bool := false

namespace MindGame

variable (goodTouchElim : Bool → Inferrer) (fuel : ℕ)

/-- `card_elim`. -/
def elim (player : Mind) (state : State) : Except HandleError Mind :=
  match cardElim player.toPlayer state fuel with
  | .ok r => .ok { player with
      thoughts := r.1.thoughts
      allPossible := r.1.allPossible
      allInferred := r.1.allInferred }
  | .error error => .error (.elim error)

/-- `good_touch_elim`, in a game that plays with it. -/
def touchElim (game : MindGame) (onlySelf : Bool) (player : Mind) (state : State) : Mind :=
  if game.goodTouch then (goodTouchElim onlySelf).infer player state else player

/-- `refresh_links`. -/
def refresh (player : Mind) (state : State) : Except HandleError Mind :=
  match Links.refreshLinks player state with
  | .ok player => .ok player
  | .error error => .error (.promise error)

/-- What a player takes over from the common player about a card. -/
def takeOverCard (common : CommonPlayer) (player : Mind) (entry : ℕ × List CardPatch) :
    Except HandleError Mind :=
  match common.thoughts.get entry.1, player.thoughts.get entry.1 with
  | some known, some card =>
    let patched := (entry.2.filter fun p => !p.isThought).foldl CardPatch.apply card
    .ok { player with
      thoughts := player.thoughts.set entry.1
        { patched with
          possible := known.possible.intersect card.possible.value
          inferred := known.inferred.intersect card.possible.value } }
  | _, _ => .error (.missing entry.1)

/-- What a player takes over. -/
def takeOver (common : CommonPlayer) (player : Mind) : Except HandleError Mind :=
  common.patches.foldlM (takeOverCard common) player

/-- `team_elimP`. -/
def teamElimP (game : MindGame) : Except HandleError MindGame :=
  (game.players.mapM fun player =>
    (takeOver game.common player).bind fun player =>
      (elim fuel player game.state).bind fun player =>
        refresh (game.touchElim goodTouchElim (game.state.numPlayers == 2) player game.state)
          game.state).map
    fun players => { game with players, common := { game.common with patches := [] } }

/-- The common player is told something; then the players are. -/
def tell (game : MindGame) (state newState : State) (common : CommonPlayer)
    (deckIds : SparseArray Identity) : Except HandleError MindGame :=
  (elim fuel common.toMind state).bind fun player =>
    (refresh (game.touchElim goodTouchElim false player state) newState).bind fun player =>
      teamElimP goodTouchElim fuel { game with
        state := newState
        common := { common with toMind := player }
        deckIds }

/-- The writes of a clue to a card of the target. -/
def clueWrites (v : Variant) (clue : BaseClue) (list : List ℕ) (order : ℕ) (card : Card) :
    List CardPatch :=
  let newPossible := IdentitySet.identitiesToMask (v.findPossibilities clue)
  if list.contains order then
    (if card.clued then []
      else [.lastStatus card.status, .status (some .clued), .clued true]) ++
    [.possible (card.possible.intersect newPossible), .inferred (card.inferred.intersect newPossible)]
  else
    [.possible (card.possible.subtract newPossible), .inferred (card.inferred.subtract newPossible)]

/-- `onClue`. -/
def onClue (game : MindGame) (target : ℕ) (list : List ℕ) (clue : BaseClue) :
    Except HandleError MindGame :=
  ((game.state.hands target).foldlM (fun (common : CommonPlayer) order =>
      common.withThoughts order (clueWrites game.state.variant clue list order)) game.common).bind
    fun common =>
      tell goodTouchElim fuel game game.state (Basics.onClue game.state) common game.deckIds

/-- The writes to a card that is turned over; `old_possible` is not read. -/
def revealWrites (identity : Identity) (card : Card) : List CardPatch :=
  [.id identity, .oldInferred card.inferred,
    .possible (card.possible.intersect (IdentitySet.toMask identity)),
    .inferred (card.inferred.intersect (IdentitySet.toMask identity))]

/-- What `onPlay` and `onDiscard` have in common, after the new state. -/
def turnUp (game : MindGame) (newState : State) (order : ℕ) :
    Option Identity → Except HandleError MindGame
  | some identity =>
    (game.common.withThoughts order (revealWrites identity)).bind fun common =>
      tell goodTouchElim fuel game newState newState common (game.deckIds.set order identity)
  | none => teamElimP goodTouchElim fuel { game with state := newState }

/-- `onPlay`. -/
def onPlay (game : MindGame) (order playerIndex : ℕ) (identity : Option Identity) :
    Except HandleError MindGame :=
  match Basics.onPlay game.state order playerIndex identity with
  | some newState => turnUp goodTouchElim fuel game newState order identity
  | none => .error (.onlyCard order)

/-- `onDiscard`. -/
def onDiscard (game : MindGame) (order playerIndex : ℕ) (identity : Option Identity)
    (failed : Bool) : Except HandleError MindGame :=
  match Basics.onDiscard game.state order playerIndex identity failed with
  | some newState => turnUp goodTouchElim fuel game newState order identity
  | none => .error (.onlyCard order)

/-- The thought of a card that is drawn. -/
def drawnCard (player : Mind) (order : ℕ) (identity : Option Identity) : Card :=
  { id := identity, possible := player.allPossible, inferred := player.allPossible, order }

/-- A player sees a card that is drawn. -/
def seeDraw (player : Mind) (order : ℕ) (identity : Option Identity) : Mind :=
  { player with thoughts := player.thoughts.set order (drawnCard player order identity) }

/-- `onDraw`. -/
def onDraw (game : MindGame) (order playerIndex : ℕ) (identity : Option Identity) :
    Except HandleError MindGame :=
  let state := game.state
  if state.handSize < (state.hands playerIndex).length then
    .error (.drewCard (state.hands playerIndex) state.handSize)
  else
    let newState := Basics.onDraw state (game.deckIds.get order) order playerIndex identity
    (game.players.zipIdx.mapM fun entry =>
        let sees := entry.2 != playerIndex || entry.2 == state.ourPlayerIndex
        (elim fuel (seeDraw entry.1 order (if sees then identity else none)) newState).bind
          fun player => refresh player newState).bind fun players =>
      (elim fuel (seeDraw game.common.toMind order none) newState).bind fun player =>
        (refresh (game.touchElim goodTouchElim false player state) newState).map fun player =>
          { game with
            state := newState
            players
            common := { game.common with toMind := player }
            deckIds := match identity with
              | some id => game.deckIds.set order id
              | none => game.deckIds }

/-- The handler of an action. -/
def handle (game : MindGame) : Action → Except HandleError MindGame
  | .clue _ target list clue => onClue goodTouchElim fuel game target list clue
  | .draw order playerIndex identity => onDraw goodTouchElim fuel game order playerIndex identity
  | .play order playerIndex identity => onPlay goodTouchElim fuel game order playerIndex identity
  | .discard order playerIndex identity failed =>
    onDiscard goodTouchElim fuel game order playerIndex identity failed
  | .turn .. => .ok game

end MindGame

end HanabiBot
