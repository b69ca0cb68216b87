import HanabiBot.Basics.Clues
import HanabiBot.HGroup.Connections
import HanabiBot.HGroup.OrderChopMove
import HanabiBot.Lib.Loop

/-!
# Looking for connecting cards

`find_connecting` of `src/conventions/h-group/clue-interpretation/connecting-cards.js`
looks for cards that have to play before one of a given identity can: cards known to
play, then prompts and finesses of the other players, then unknown playables of ours.

A prompt or a finesse may be hidden behind other cards of the same player.  To find the
cards behind it, the search plays it on `state.play_stacks` and looks again.
`PlayStacks` keeps apart the array that `state.play_stacks` is when the search begins and
the copies that it works on.

* `findUnknownConnecting_isNew` — a card that is found is one of the player's that has not
  been connected yet, so that both loops end;
* `findConnecting_returns` — what is found is not all hidden;
* `findConnecting_leaves_no_trace` — however the search ends, the stacks are as they were.
-/

namespace HanabiBot.HGroup

/-- `LEVEL.BLUFFS`. -/
def BLUFFS : ℕ := 11

/-- `ClueAction`. -/
structure ClueAction where
  giver : ℕ
  target : ℕ
  /-- The cards touched. -/
  list : List ℕ
  clue : BaseClue

/-- A game, with what the search reads on top. -/
structure SearchGame extends ConnGame where
  /-- `state.deck[order].newly_clued`. -/
  newlyClued : ℕ → Bool := fun _ => false
  /-- `common.thoughts[order].newly_clued`. -/
  thoughtNewlyClued : ℕ → Bool := fun _ => false
  /-- `me.thoughts[order].finesse_ids`, which is written wherever `uncertain` is. -/
  finesseIds : ℕ → Option IdentitySet := fun _ => none

/-- A connection, with the marks that the search puts on it. -/
structure FoundConnection extends Connection where
  possiblyBluff : Bool := false
  layered : Bool := false
  deriving DecidableEq

/-- What the search comes to: a connection, or one of type 'terminate', a wrong prompt. -/
inductive UnknownConnecting
  | connection (conn : FoundConnection)
  | terminate (reacting order : ℕ) (identities : List Identity)
  deriving DecidableEq

namespace UnknownConnecting

def order : UnknownConnecting → ℕ
  | .connection conn => conn.order
  | .terminate _ order _ => order

end UnknownConnecting

/-! ## The cards of a player -/

section

variable (game : SearchGame) (playerIndex : ℕ) (identity : Identity)
  (connected ignoreOrders : List ℕ)

def cluesOn (o : ℕ) : List BaseClue :=
  (game.state.marks o).clues.map fun clue => clue.toBaseClue

/-- A clued card that could be the identity: what `find_clued` and `find_prompt` both ask. -/
def isCluedAs (o : ℕ) : Bool :=
  (game.common.thoughts.get o).any fun card =>
    !connected.contains o && (game.state.marks o).clued && !game.newlyClued o &&
      card.possible.has identity && (card.infoLock.all fun lock => lock.has identity) &&
      -- must not be information-locked on a different identity
      (card.inferred.length != 1 || card.inferred.array.head?.any (· == identity)) &&
      (cluesOn game o).any fun clue => game.state.variant.cardTouched identity clue

/-- `find_clued`. -/
def findClued : List ℕ :=
  (game.state.hands playerIndex).filter fun o =>
    isCluedAs game identity connected o && !ignoreOrders.contains o

/-- Whether the rank clues on a card allow a pink identity. -/
def pinkMatch (forcePink : Bool) (o : ℕ) : Bool :=
  let variant := game.state.variant
  !variantRegexes.pinkish (variant.suit identity.suitIndex) || forcePink ||
    ((game.common.possible o).array.all fun p =>
      variantRegexes.pinkish (variant.suit p.suitIndex)) ||
    !pinkMismatch (cluesOn game o) identity.rank

/-- `find_prompt`: none if the prompted card is to be ignored. -/
def findPrompt (forcePink : Bool) : Option ℕ :=
  ((game.state.hands playerIndex).find? fun o =>
    isCluedAs game identity connected o && pinkMatch game identity forcePink o).filter
      fun o => !ignoreOrders.contains o

/-- `common.find_finesse`. -/
def findFinesse : Option ℕ :=
  game.common.findFinesse game.state playerIndex connected ignoreOrders

end

/-! ## What can be prompted and finessed -/

section

variable (game : SearchGame) (action : ClueAction)

/-- `knownAs`. -/
def knownAs (o : ℕ) (regex : String → Bool) : Bool :=
  (game.common.possible o).array.all fun i => regex (game.state.variant.suit i.suitIndex)

/-- Whether a clued card is rainbow, as far as we know. -/
def looksRainbow (o : ℕ) : Bool :=
  let st := game.state
  if action.target = st.ourPlayerIndex then
    (game.me.possible o).array.all fun c => variantRegexes.rainbowish (st.variant.suit c.suitIndex)
  else (st.identityOf o).any fun c => variantRegexes.rainbowish (st.variant.suit c.suitIndex)

/-- `rainbowMismatch`: a colour that matches the prompt could have been clued, and was not. -/
def rainbowMismatch (identity : Identity) (prompt : ℕ) : Bool :=
  let st := game.state
  if action.clue.type != .colour || !variantRegexes.rainbowish (st.variant.suit identity.suitIndex)
  then false
  else if knownAs game prompt variantRegexes.rainbowish then false
  else
    -- the clues that touch the same cards
    let freeChoiceClues := (st.allValidClues action.target).filter fun clue =>
      (st.clueTouched (st.hands action.target) clue.toBaseClue).isPerm action.list
    let matchingClues := freeChoiceClues.filter fun cl =>
      (cluesOn game prompt).any fun clu =>
        cl.type == .colour && clu.type == .colour && cl.value == clu.value
    action.list.all (looksRainbow game action) && !matchingClues.isEmpty &&
      !matchingClues.any fun cl => cl.value == action.clue.value

/-- `valid_bluff`. -/
def validBluff (blind truth : Identity) (reacting : ℕ) (connected : List ℕ) : Bool :=
  let st := game.state
  let nextCard : Identity := ⟨blind.suitIndex, blind.rank + 1⟩
  decide (BLUFFS ≤ game.level) &&
    -- must be bluff seat
    st.nextPlayerIndex action.giver == reacting &&
    -- must not be delayed
    connected.length == 1 &&
    -- must disconnect
    ((action.clue.type == .rank && action.clue.value != nextCard.rank) || blind.rank == 5 ||
      !(connected.head?.any fun o => (game.common.possible o).has nextCard)) &&
    -- must not be self-colour bluff
    !(action.clue.type == .colour && reacting == action.target) &&
    -- must not be confused with an existing finesse
    !(st.hands reacting).any fun o => ((game.players reacting).thoughts.get o).any fun card =>
      (card.blindPlaying ||
        (card.status == some .gd && ((game.players reacting).marks o).maybeLayered)) &&
        card.possible.has truth

/-- `dependentConnections`. -/
def dependentConnections (order : ℕ) : List WaitingConnection :=
  game.common.waitingConnections.filter fun wc =>
    (wc.connections.drop wc.connIndex).any fun conn => conn.order == order

/-- `order_touched`. -/
def orderTouched (order : ℕ) : Bool :=
  ((game.common.thoughts.get order).any Card.touched) && !game.thoughtNewlyClued order &&
    ((game.state.identityOf order).isSome || (dependentConnections game order).all fun wc =>
      !wc.symmetric && game.state.deckMatches wc.focus wc.inference)

/-- Whether a card is already clued in the hand of somebody else than the giver. -/
def cluedElsewhere (id : Identity) : Bool :=
  (List.range game.state.numPlayers).any fun index => index != action.giver &&
    (game.state.hands index).any fun o => orderTouched game o && game.state.isIdentity o id

/-- `likely_duplicated`: a card of the giver's may well be the one bluffed. -/
def likelyDuplicated (id : Identity) : Bool :=
  let multiPossible := (game.state.hands action.giver).filter fun o =>
    (game.me.thoughts.get o).any fun card => card.touched && card.inferred.has id
  decide (2 ≤ multiPossible.length) || multiPossible.any fun o =>
    (game.me.thoughts.get o).any fun card => decide (card.inferred.length ≤ 2)

/-- `possibly_duplicated`. -/
def possiblyDuplicated (identity : Identity) : Bool :=
  (game.state.hands action.giver).any fun o =>
    (game.me.thoughts.get o).any fun card => card.touched && card.inferred.has identity

end

/-! ## Unknown cards -/

/-- The options of `find_unknown_connecting`. -/
structure UnknownOptions where
  assumeTruth : Bool := false
  noLayer : Bool := false
  bluffed : Bool := false

section

variable (game : SearchGame) (action : ClueAction) (reacting : ℕ) (identity : Identity)
  (connected ignoreOrders : List ℕ)

/-- A clued card that could be the identity, if a bluff has been made. -/
def bluffedConnecting : Option UnknownConnecting :=
  let orders := findClued game reacting identity connected ignoreOrders
  (orders.find? fun o => game.state.isIdentity o identity).map fun order => .connection
    { type := .playable, reacting, order, linked := some orders, identities := [identity] }

/-- `try_prompt`: `none` is `{ tried: false }`. -/
def tryPrompt (prompt : Option ℕ) : Option (Option UnknownConnecting) :=
  let st := game.state
  prompt.bind fun order => (st.identityOf order).bind fun id =>
    if rainbowMismatch game action identity order then none
    else if id = identity then
      some <| some <| .connection { type := .prompt, reacting, order, identities := [identity] }
    -- the prompted card is delayed playable
    else if INTERMEDIATE_FINESSES ≤ game.level ∧ st.playStacks id.suitIndex + 1 = id.rank then
      -- it could be duplicated in the giver's hand: disallow hidden prompt
      if couldBeDuplicated game.toConnGame action.giver identity then some none
      else some <| some <| .connection
        { type := .prompt, reacting, order, hidden := true, identities := [id] }
    else some <| some <| .terminate reacting order [identity]

/-- A prompt on a wrongly-ranked pink card. -/
def tryPinkPrompt (prompt finesse : Option ℕ) : Option (Option UnknownConnecting) :=
  let st := game.state
  if (finesse.all fun o => decide (game.level < BLUFFS) ||
        !(game.common.possible o).array.any st.isPlayable) &&
      st.includesVariant variantRegexes.pinkish then
    let pinkPrompt := findPrompt game reacting identity connected ignoreOrders true
    if pinkPrompt = prompt then none else tryPrompt game action reacting identity pinkPrompt
  else none

/-- Whether a card of the giver's, who is us, may be the one that a finesse needs. -/
def duplicatedWithUs (bluff : Bool) (id : Identity) : Bool :=
  action.giver == game.state.ourPlayerIndex &&
    if bluff then likelyDuplicated game action id else possiblyDuplicated game action identity

/-- The connection through a finessed card of a known identity. -/
def finesseConnecting (options : UnknownOptions) (order : ℕ) (id : Identity) :
    Option UnknownConnecting :=
  let st := game.state
  -- the card is already clued elsewhere
  if cluedElsewhere game action id then none
  else
    let possiblyBluff := !options.assumeTruth && validBluff game action id identity reacting connected
    if id = identity then
      -- at level 1, only forward finesses are allowed
      if game.level = 1 ∧ inBetween st.numPlayers reacting action.giver action.target = false then
        none
      else some <| .connection
        { type := .finesse, reacting, order, possiblyBluff, identities := [identity] }
    -- the finessed card is delayed playable
    else if options.noLayer = false ∧ INTERMEDIATE_FINESSES ≤ game.level ∧
        st.playStacks id.suitIndex + 1 = id.rank then
      if duplicatedWithUs game action identity possiblyBluff id then none
      else some <| .connection
        { type := .finesse, reacting, order, hidden := !possiblyBluff, bluff := possiblyBluff
          possiblyBluff, identities := [id] }
    else none

/-- `find_unknown_connecting`. -/
def findUnknownConnecting (options : UnknownOptions) : Option UnknownConnecting :=
  if options.bluffed then bluffedConnecting game reacting identity connected ignoreOrders
  else
    let prompt := findPrompt game reacting identity connected ignoreOrders false
    let finesse := findFinesse game reacting connected ignoreOrders
    match tryPrompt game action reacting identity prompt with
    | some conn => conn
    | none =>
      match tryPinkPrompt game action reacting identity connected ignoreOrders prompt finesse with
      | some conn => conn
      | none => finesse.bind fun order => (game.state.identityOf order).bind <|
          finesseConnecting game action reacting identity connected options order

end

/-! ## The play stacks during the search -/

/-- What `state.play_stacks` is during the search. -/
structure PlayStacks where
  /-- `old_play_stacks`: the array that it was at first. -/
  old : ℕ → ℕ
  /-- The array that it is now, if it is another one. -/
  copy : Option (ℕ → ℕ) := none

namespace PlayStacks

variable (play : PlayStacks)

/-- What `state.play_stacks` holds. -/
def current : ℕ → ℕ := play.copy.getD play.old

/-- `state.play_stacks = old_play_stacks.slice()`. -/
def slice : PlayStacks := { play with copy := some play.old }

/-- `state.play_stacks = old_play_stacks`. -/
def restore : PlayStacks := { play with copy := none }

/-- `state.play_stacks[suitIndex]++`, on the array that it is now. -/
def advance (suitIndex : ℕ) : PlayStacks :=
  let advanced := Function.update play.current suitIndex (play.current suitIndex + 1)
  match play.copy with
  | some _ => { play with copy := some advanced }
  | none => { play with old := advanced }

@[simp] theorem current_slice : play.slice.current = play.old := rfl

@[simp] theorem current_restore : play.restore.current = play.old := rfl

@[simp] theorem old_slice : play.slice.old = play.old := rfl

@[simp] theorem old_restore : play.restore.old = play.old := rfl

end PlayStacks

/-- The game with the stacks as they are now. -/
def SearchGame.withStacks (game : SearchGame) (play : PlayStacks) : SearchGame :=
  { game with state := { game.state with playStacks := play.current } }

/-! ## The search -/

/-- The options of `find_connecting`. -/
structure ConnectingOptions extends KnownOptions where
  assumeTruth : Bool := false
  bluffed : Bool := false
  immediate : Bool := false

/-- The variables of the loop over layered prompts. -/
structure LayerVars where
  prompt : Option ℕ
  connected : List ℕ
  playStacks : ℕ → ℕ

/-- The variables of the loop over hidden connections. -/
structure HiddenVars where
  connecting : Option UnknownConnecting
  connections : List FoundConnection := []
  /-- `already_connected`. -/
  connected : List ℕ
  play : PlayStacks

/-- The variables of the loop over the players. -/
structure PlayersVars where
  wrongPrompts : List UnknownConnecting := []
  play : PlayStacks

/-- What `find_connecting` returns, and what it leaves in `state.play_stacks`. -/
structure Searched where
  connections : List UnknownConnecting
  play : PlayStacks

/-- What a round of the loop over the players comes to: going on, or returning. -/
inductive PlayerRound
  | next (vars : PlayersVars)
  | found (result : Searched)

section

variable (game : SearchGame) (action : ClueAction) (identity : Identity)
  (connected ignoreOrders : List ℕ)

/-- A round of the loop over the prompts in front of the card `copy`. -/
def layerRound (playerIndex copy : ℕ) (vars : LayerVars) : Loop.Outcome LayerVars :=
  match vars.prompt with
  | none => .stop vars
  | some prompt =>
    if prompt = copy then .stop vars
    else
      match game.state.identityOf prompt with
      | none => .stop vars
      | some id =>
        -- layered prompt is not possible
        if vars.playStacks id.suitIndex + 1 ≠ id.rank then .stop vars
        else
          let connected := vars.connected ++ [prompt]
          .next
            { prompt := findPrompt game playerIndex identity connected ignoreOrders true
              connected
              playStacks := Function.update vars.playStacks id.suitIndex id.rank }

/-- The clued copy of the card in a hand. -/
def cluedCopy (playerIndex : ℕ) : Option ℕ :=
  (game.state.hands playerIndex).find? fun o => game.state.isIdentity o identity &&
    (game.state.marks o).clued && !game.newlyClued o && !connected.contains o &&
      !ignoreOrders.contains o

/-- Whether the card is clued in a player's hand, but not in prompt position. -/
def nonPromptIn (fuel playerIndex : ℕ) : Option Bool :=
  match cluedCopy game identity connected ignoreOrders playerIndex with
  | none => some false
  | some copy =>
    (Loop.loop (layerRound game identity ignoreOrders playerIndex copy) fuel
      { prompt := findPrompt game playerIndex identity connected ignoreOrders true
        connected
        playStacks := game.state.playStacks }).map fun vars => vars.prompt != some copy

/-- `non_prompt_copy`. -/
def nonPromptCopy (fuel : ℕ) : Option Bool :=
  (List.range game.state.numPlayers).foldlM (fun found i =>
    if found || i == action.giver then some found
    else nonPromptIn game identity connected ignoreOrders fuel i) false

/-- `conn_player_order`. -/
def connPlayerOrder (options : ConnectingOptions) : List ℕ :=
  let n := game.state.numPlayers
  options.playerOrder.getD <| action.target ::
    (((List.range n).map fun i => (n + action.giver - i - 1) % n).filter fun i =>
      i != action.target) ++ [action.target]

/-- Whether a player is not asked for prompts and finesses. -/
def isSkipped (looksDirect : Bool) (thinksStall : List ℕ) (options : ConnectingOptions)
    (playerIndex : ℕ) : Bool :=
  let our := game.state.ourPlayerIndex
  playerIndex == action.giver || options.knownOnly.contains playerIndex ||
    ((action.giver == our || action.target == our) && playerIndex == action.target &&
      looksDirect) ||
    thinksStall.contains playerIndex ||
    -- they may need to prove a finesse to us
    (action.giver == our && game.common.waitingConnections.any fun wc =>
      wc.target == our && (wc.connections.drop wc.connIndex).any fun conn =>
        conn.type == .finesse && conn.reacting == playerIndex &&
          (game.common.marks conn.order).uncertain)

/-- A round of the loop over hidden connections: the card is played, and the player has to
have the next one. -/
def hiddenRound (playerIndex : ℕ) (options : UnknownOptions) (vars : HiddenVars) :
    Loop.Outcome HiddenVars :=
  match vars.connecting with
  | some (.connection conn) =>
    if conn.hidden then
      let connected := vars.connected ++ [conn.order]
      let play := match game.state.identityOf conn.order with
        | some id => vars.play.advance id.suitIndex
        -- a card without identity is not hidden
        | none => vars.play
      .next
        { connecting := findUnknownConnecting (game.withStacks play) action playerIndex identity
            connected ignoreOrders options
          connections := vars.connections ++ [conn]
          connected
          play }
    else .stop vars
  | _ => .stop vars

/-- What the loop over hidden connections leaves to a player's round. -/
def afterHidden (looksDirect : Bool) (playerIndex : ℕ) (wrongPrompts : List UnknownConnecting)
    (vars : HiddenVars) : PlayerRound :=
  match vars.connecting with
  | some (.connection conn) =>
    -- the final card is not hidden
    let trusted := !(playerIndex == action.target && looksDirect &&
      playerIndex == game.state.ourPlayerIndex)
    .found
      { connections := if trusted then (vars.connections ++ [conn]).map .connection else []
        play := vars.play.slice }
  | some wrongPrompt => .next { wrongPrompts := wrongPrompts ++ [wrongPrompt], play := vars.play }
  | none => .next { wrongPrompts, play := vars.play }

/-- Whether the connection would not be immediate. -/
def notImmediate (playerIndex : ℕ) : Option UnknownConnecting → Bool
  | some (.connection conn) =>
    ((game.state.hands playerIndex).any fun o =>
      (game.common.thoughts.get o).any Card.blindPlaying) || conn.hidden
  | _ => (game.state.hands playerIndex).any fun o =>
      (game.common.thoughts.get o).any Card.blindPlaying

/-- A player's round. -/
def playerRound (fuel : ℕ) (looksDirect : Bool) (thinksStall : List ℕ)
    (options : ConnectingOptions) (vars : PlayersVars) (i playerIndex : ℕ) : Option PlayerRound :=
  if isSkipped game action looksDirect thinksStall options playerIndex then some (.next vars)
  else
    let play := vars.play.slice
    let unkOptions : UnknownOptions :=
      { assumeTruth := options.assumeTruth
        noLayer := options.playerOrder.isSome || i == 0
        bluffed := options.bluffed }
    let connecting := findUnknownConnecting (game.withStacks play) action playerIndex identity
      connected ignoreOrders unkOptions
    match connecting with
    | some (.terminate reacting order identities) =>
      some <| .next
        { wrongPrompts := vars.wrongPrompts ++ [.terminate reacting order identities], play }
    | _ =>
      if options.immediate && notImmediate game playerIndex connecting then
        some (.next { vars with play })
      else
        (Loop.loop (hiddenRound game action identity ignoreOrders playerIndex unkOptions) fuel
          { connecting, connected, play }).map
          (afterHidden game action looksDirect playerIndex vars.wrongPrompts)

/-- The loop over the players. -/
def searchPlayers (fuel : ℕ) (looksDirect : Bool) (thinksStall : List ℕ)
    (options : ConnectingOptions) (vars : PlayersVars) : Option PlayerRound :=
  (connPlayerOrder game action options).zipIdx.foldlM (fun round player =>
    match round with
    | .found result => some (.found result)
    | .next vars => playerRound game action identity connected ignoreOrders fuel looksDirect
        thinksStall options vars player.2 player.1) (.next vars)

/-- `playable_conns`, those that have to be layered apart. -/
def playableConns (layered : Bool) : List ℕ :=
  let st := game.state
  (st.hands st.ourPlayerIndex).filter fun order => (game.me.thoughts.get order).any fun card =>
    !ignoreOrders.contains order && !connected.contains order &&
      card.matchesId identity { assume := true } &&
      ((card.inferred.array.all st.isPlayable && card.clued) || card.blindPlaying) &&
      (card.inferred.has identity || (layered && (game.me.marks order).uncertain &&
        card.possible.has identity && (game.finesseIds order).any fun ids => ids.has identity))

/-- The connection through the unknown playables in our hand. -/
def ownPlayable (playables : List ℕ) (layered : Bool) : FoundConnection :=
  let st := game.state
  let leftmost := playables.foldl max 0
  let unsafeLink := (game.me.linkedOrders st.toState).contains leftmost &&
    (game.common.possible leftmost).array.any fun p =>
      decide (st.playStacks p.suitIndex + 1 < p.rank) && decide (p.rank ≤ st.maxRanks p.suitIndex)
  -- we won't play normally
  if unsafeLink then
    { type := .prompt, reacting := st.ourPlayerIndex, order := leftmost, identities := [identity] }
  else
    let last := playables.getLastD 0
    -- if necessary, reorder to oldest 1 to avoid prompting; order 0 counts as no card
    let order := if identity.rank = 1 then
        match (orderUnknown1s st game.common.toHGroupPlayer playables).head? with
        | some (order + 1) => order + 1
        | _ => last
      else last
    { type := .playable, reacting := st.ourPlayerIndex, order, linked := some playables
      identities := [identity], layered }

/-- What is left when no other player has a connection. -/
def ownConnecting (options : ConnectingOptions) (wrongPrompts : List UnknownConnecting) :
    List UnknownConnecting :=
  let our := game.state.ourPlayerIndex
  let playables := playableConns game identity connected ignoreOrders true
  if action.giver != our && !options.knownOnly.contains our &&
      options.playerOrder.all (fun order => order.contains our) && !playables.isEmpty then
    let layered := decide (playableConns game identity connected ignoreOrders false ≠ playables)
    [.connection (ownPlayable game identity playables layered)]
  else wrongPrompts

/-- `find_connecting`. -/
def findConnecting (fuel : ℕ) (looksDirect : Bool) (thinksStall : List ℕ)
    (options : ConnectingOptions) : Option Searched :=
  let st := game.state
  let play : PlayStacks := { old := st.playStacks }
  -- all copies are in the trash
  if st.discardStacks identity = st.cardCount identity then some { connections := [], play }
  else
    match findKnownConnecting game.toConnGame action.giver identity (connected ++ ignoreOrders)
      options.toKnownOptions with
    | some .terminate => some { connections := [], play }
    | some (.connection conn) => some { connections := [.connection { toConnection := conn }], play }
    | none => (nonPromptCopy game action identity connected ignoreOrders fuel).bind fun copy =>
      if !options.bluffed && copy then some { connections := [], play }
      else (searchPlayers game action identity connected ignoreOrders fuel looksDirect thinksStall
        options { play }).map fun round =>
        match round with
        | .found result => result
        | .next vars =>
          let play := vars.play.restore
          { connections := ownConnecting (game.withStacks play) action identity connected
              ignoreOrders options vars.wrongPrompts
            play }

end

/-! ## The cards that are found -/

/-- A card of a player that is not connected yet. -/
def IsNew (game : SearchGame) (playerIndex : ℕ) (connected : List ℕ) (o : ℕ) : Prop :=
  o ∈ game.state.hands playerIndex ∧ o ∉ connected

/-- How many cards of a hand are not connected yet. -/
def unconnected (hand connected : List ℕ) : ℕ :=
  (hand.filter fun o => !connected.contains o).length

/-- The cards of a hand that are left once more are connected. -/
theorem filter_unconnected (hand connected orders : List ℕ) :
    hand.filter (fun o => !(connected ++ orders).contains o) =
      (hand.filter fun o => !connected.contains o).filter fun o => !orders.contains o := by
  rw [List.filter_filter]
  refine List.filter_congr fun o _ => ?_
  rw [Bool.eq_iff_iff]
  simp [and_comm]

theorem unconnected_append_le (hand connected orders : List ℕ) :
    unconnected hand (connected ++ orders) ≤ unconnected hand connected := by
  unfold unconnected
  rw [filter_unconnected]
  exact List.length_filter_le _ _

theorem unconnected_append_lt {hand connected orders : List ℕ} {o : ℕ} (ho : o ∈ hand)
    (hnew : o ∉ connected) (horders : o ∈ orders) :
    unconnected hand (connected ++ orders) < unconnected hand connected := by
  unfold unconnected
  rw [filter_unconnected, List.length_filter_lt_length_iff_exists]
  exact ⟨o, by simp [ho, hnew], by simp [horders]⟩

theorem unconnected_lt {hand connected : List ℕ} {o : ℕ} (ho : o ∈ hand) (hnew : o ∉ connected) :
    unconnected hand (connected ++ [o]) < unconnected hand connected :=
  unconnected_append_lt ho hnew (List.mem_singleton_self o)

section

variable {game : SearchGame} {action : ClueAction} {reacting : ℕ} {identity : Identity}
  {connected ignoreOrders : List ℕ}

theorem not_connected_of_isCluedAs {o : ℕ} (h : isCluedAs game identity connected o = true) :
    o ∉ connected := by
  rw [isCluedAs, Option.any_eq_true] at h
  obtain ⟨card, -, h⟩ := h
  simp only [Bool.and_eq_true, Bool.not_eq_true', List.contains_eq_mem,
    decide_eq_false_iff_not] at h
  exact h.1.1.1.1.1.1

theorem findPrompt_isNew {forcePink : Bool} {o : ℕ}
    (h : findPrompt game reacting identity connected ignoreOrders forcePink = some o) :
    IsNew game reacting connected o := by
  rw [findPrompt, Option.filter_eq_some_iff] at h
  have hfind := List.find?_some h.1
  rw [Bool.and_eq_true] at hfind
  exact ⟨List.mem_of_find?_eq_some h.1, not_connected_of_isCluedAs hfind.1⟩

theorem findFinesse_isNew {o : ℕ}
    (h : findFinesse game reacting connected ignoreOrders = some o) :
    IsNew game reacting connected o := by
  rw [findFinesse, HGroupPlayer.findFinesse, Option.filter_eq_some_iff] at h
  have hfind := List.find?_some h.1
  simp only [Bool.and_eq_true, Bool.not_eq_true', List.contains_eq_mem,
    decide_eq_false_iff_not] at hfind
  exact ⟨List.mem_of_find?_eq_some h.1, hfind.2⟩

theorem bluffedConnecting_isNew {conn : UnknownConnecting}
    (h : bluffedConnecting game reacting identity connected ignoreOrders = some conn) :
    IsNew game reacting connected conn.order := by
  obtain ⟨o, ho, rfl⟩ := Option.map_eq_some_iff.1 h
  have hmem := List.mem_of_find?_eq_some ho
  rw [findClued, List.mem_filter, Bool.and_eq_true] at hmem
  exact ⟨hmem.1, not_connected_of_isCluedAs hmem.2.1⟩

/-- A prompt is on the card that is prompted. -/
theorem tryPrompt_order {prompt : Option ℕ} {conn : UnknownConnecting}
    (h : tryPrompt game action reacting identity prompt = some (some conn)) :
    prompt = some conn.order := by
  rw [tryPrompt, Option.bind_eq_some_iff] at h
  obtain ⟨order, rfl, h⟩ := h
  obtain ⟨id, -, h⟩ := Option.bind_eq_some_iff.1 h
  split_ifs at h <;> simp only [Option.some.injEq, reduceCtorEq] at h <;> subst h <;> rfl

theorem tryPinkPrompt_isNew {prompt finesse : Option ℕ} {conn : UnknownConnecting}
    (h : tryPinkPrompt game action reacting identity connected ignoreOrders prompt finesse =
      some (some conn)) : IsNew game reacting connected conn.order := by
  simp only [tryPinkPrompt] at h
  split_ifs at h
  exact findPrompt_isNew (tryPrompt_order h)

/-- A finesse is on the card that is finessed. -/
theorem finesseConnecting_order {options : UnknownOptions} {order : ℕ} {id : Identity}
    {conn : UnknownConnecting}
    (h : finesseConnecting game action reacting identity connected options order id = some conn) :
    conn.order = order := by
  simp only [finesseConnecting] at h
  split_ifs at h <;> simp only [Option.some.injEq] at h <;> subst h <;> rfl

/-- The search for unknown cards finds a card of the player's that is not connected yet. -/
theorem findUnknownConnecting_isNew {options : UnknownOptions} {conn : UnknownConnecting}
    (h : findUnknownConnecting game action reacting identity connected ignoreOrders options =
      some conn) : IsNew game reacting connected conn.order := by
  unfold findUnknownConnecting at h
  split at h
  · exact bluffedConnecting_isNew h
  · simp only at h
    split at h
    next htry =>
      subst h
      exact findPrompt_isNew (tryPrompt_order htry)
    next =>
      split at h
      next htry =>
        subst h
        exact tryPinkPrompt_isNew htry
      next =>
        obtain ⟨order, horder, h⟩ := Option.bind_eq_some_iff.1 h
        obtain ⟨id, -, h⟩ := Option.bind_eq_some_iff.1 h
        rw [finesseConnecting_order h]
        exact findFinesse_isNew horder

/-! ## The loops end -/

/-- The prompt that a round of the loop over layered prompts starts with is new. -/
def LayerVars.PromptsNew (game : SearchGame) (playerIndex : ℕ) (vars : LayerVars) : Prop :=
  ∀ o, vars.prompt = some o → IsNew game playerIndex vars.connected o

theorem layerRound_next {playerIndex copy : ℕ} {vars vars' : LayerVars}
    (hnew : vars.PromptsNew game playerIndex)
    (h : layerRound game identity ignoreOrders playerIndex copy vars = .next vars') :
    vars'.PromptsNew game playerIndex ∧
      unconnected (game.state.hands playerIndex) vars'.connected <
        unconnected (game.state.hands playerIndex) vars.connected := by
  unfold layerRound at h
  split at h
  · cases h
  next prompt hprompt =>
    split_ifs at h
    split at h
    · cases h
    next id _ =>
      split_ifs at h
      simp only [Loop.Outcome.next.injEq] at h
      subst h
      obtain ⟨hmem, hnot⟩ := hnew prompt hprompt
      exact ⟨fun o ho => findPrompt_isNew ho, unconnected_lt hmem hnot⟩

theorem nonPromptIn_returns (playerIndex : ℕ) :
    Fuel.Returns (fun fuel => nonPromptIn game identity connected ignoreOrders fuel playerIndex)
      fun _ => True := by
  unfold nonPromptIn
  split
  · exact .pure trivial
  next copy _ =>
    set start : LayerVars :=
      { prompt := findPrompt game playerIndex identity connected ignoreOrders true
        connected
        playStacks := game.state.playStacks }
    have hstart : start.PromptsNew game playerIndex := fun o ho => findPrompt_isNew ho
    have hloop := Loop.returns_of_measure
      (fun vars : LayerVars => unconnected (game.state.hands playerIndex) vars.connected)
      (fun _ _ => @layerRound_next game identity ignoreOrders playerIndex copy _ _) hstart
    exact hloop.map fun _ _ => trivial

theorem nonPromptCopy_returns :
    Fuel.Returns (fun fuel => nonPromptCopy game action identity connected ignoreOrders fuel)
      fun _ => True := by
  refine Fuel.Returns.foldlM (fun i _ found _ => ?_) trivial
  split_ifs
  · exact .pure trivial
  · exact nonPromptIn_returns i

/-! ## The stacks are left alone -/

/-- What holds whenever a round of the loop over hidden connections starts. -/
structure HiddenInv (game : SearchGame) (playerIndex : ℕ) (old : ℕ → ℕ) (vars : HiddenVars) :
    Prop where
  isNew : ∀ conn, vars.connecting = some conn → IsNew game playerIndex vars.connected conn.order
  old : vars.play.old = old
  /-- The plays are made on a copy. -/
  copy : vars.play.copy.isSome

theorem PlayStacks.old_advance {play : PlayStacks} (h : play.copy.isSome) (suitIndex : ℕ) :
    (play.advance suitIndex).old = play.old ∧ (play.advance suitIndex).copy.isSome := by
  obtain ⟨copy, hcopy⟩ := Option.isSome_iff_exists.1 h
  simp [advance, hcopy]

theorem hiddenRound_next {playerIndex : ℕ} {options : UnknownOptions} {old : ℕ → ℕ}
    {vars vars' : HiddenVars} (hinv : HiddenInv game playerIndex old vars)
    (h : hiddenRound game action identity ignoreOrders playerIndex options vars = .next vars') :
    HiddenInv game playerIndex old vars' ∧
      unconnected (game.state.hands playerIndex) vars'.connected <
        unconnected (game.state.hands playerIndex) vars.connected := by
  unfold hiddenRound at h
  split at h
  next conn hconn =>
    split_ifs at h
    simp only [Loop.Outcome.next.injEq] at h
    subst h
    obtain ⟨hmem, hnot⟩ := hinv.isNew _ hconn
    refine ⟨⟨fun conn' hconn' => ?_, ?_, ?_⟩, unconnected_lt hmem hnot⟩
    · -- the hands are the same whatever is on the stacks
      exact @findUnknownConnecting_isNew (game.withStacks _) action playerIndex identity _
        ignoreOrders options conn' hconn'
    · simp only
      split
      · exact (PlayStacks.old_advance hinv.copy _).1.trans hinv.old
      · exact hinv.old
    · simp only
      split
      · exact (PlayStacks.old_advance hinv.copy _).2
      · exact hinv.copy
  · cases h

/-- What the search for connecting cards comes to: wrong prompts, or a card that is not hidden. -/
def Settled (conns : List UnknownConnecting) : Prop :=
  (∀ conn ∈ conns, ∀ c, conn ≠ .connection c) ∨
    ∃ conn, .connection conn ∈ conns ∧ conn.hidden = false

/-- What a round of the loop over the players comes to, and leaves of the stacks. -/
def PlayerRound.Keeps (old : ℕ → ℕ) : PlayerRound → Prop
  | .next vars => vars.play.old = old ∧ ∀ conn ∈ vars.wrongPrompts, ∀ c, conn ≠ .connection c
  | .found result =>
    (result.play.old = old ∧ result.play.current = old) ∧ Settled result.connections

/-- The loop over hidden connections is left with a connection that is not hidden, or none. -/
def HiddenVars.Left (old : ℕ → ℕ) (vars : HiddenVars) : Prop :=
  vars.play.old = old ∧ ∀ conn, vars.connecting = some (.connection conn) → conn.hidden = false

theorem afterHidden_keeps {looksDirect : Bool} {playerIndex : ℕ}
    {wrongPrompts : List UnknownConnecting} {old : ℕ → ℕ} {vars : HiddenVars}
    (hwrong : ∀ conn ∈ wrongPrompts, ∀ c, conn ≠ .connection c) (hleft : vars.Left old) :
    (afterHidden game action looksDirect playerIndex wrongPrompts vars).Keeps old := by
  unfold afterHidden
  split
  next conn hconn =>
    refine ⟨⟨hleft.1, hleft.1⟩, ?_⟩
    simp only
    split
    · exact .inr ⟨conn, by simp, hleft.2 conn hconn⟩
    · exact .inl (by simp)
  next wrongPrompt hprompt _ =>
    refine ⟨hleft.1, fun conn hconn => ?_⟩
    obtain hconn | hconn := List.mem_append.1 hconn
    · exact hwrong conn hconn
    · rw [List.mem_singleton.1 hconn]
      exact hprompt
  · exact ⟨hleft.1, hwrong⟩

theorem hiddenRound_stop {playerIndex : ℕ} {options : UnknownOptions} {vars result : HiddenVars}
    (h : hiddenRound game action identity ignoreOrders playerIndex options vars = .stop result) :
    result = vars ∧ ∀ conn, vars.connecting = some (.connection conn) → conn.hidden = false := by
  unfold hiddenRound at h
  split at h
  next conn hconn =>
    split_ifs at h with hhidden
    refine ⟨(Loop.Outcome.stop.inj h).symm, fun conn' hconn' => ?_⟩
    rw [hconn, Option.some.injEq, UnknownConnecting.connection.injEq] at hconn'
    subst hconn'
    exact Bool.eq_false_iff.2 hhidden
  next hconn => exact ⟨(Loop.Outcome.stop.inj h).symm, fun conn hconn' => absurd hconn' (hconn conn)⟩

/-- The loop over hidden connections ends, and leaves the first array alone. -/
theorem hiddenLoop_returns {playerIndex : ℕ} {options : UnknownOptions} {old : ℕ → ℕ}
    {start : HiddenVars} (hstart : HiddenInv game playerIndex old start) :
    Fuel.Returns (fun fuel =>
      Loop.loop (hiddenRound game action identity ignoreOrders playerIndex options) fuel start)
      (HiddenVars.Left old) := by
  have hloop := Loop.returns_invariant
    (fun vars : HiddenVars => unconnected (game.state.hands playerIndex) vars.connected)
    (fun _ _ => @hiddenRound_next game action identity ignoreOrders playerIndex options old _ _)
    hstart
  refine hloop.mono ?_
  rintro result ⟨vars, hinv, hstop⟩
  obtain ⟨rfl, hconn⟩ := hiddenRound_stop hstop
  exact ⟨hinv.old, hconn⟩

/-- A player's round ends, and returns with the stacks as they were. -/
theorem playerRound_returns {looksDirect : Bool} {thinksStall : List ℕ}
    {options : ConnectingOptions} {old : ℕ → ℕ} {vars : PlayersVars}
    (hvars : (PlayerRound.next vars).Keeps old) (i playerIndex : ℕ) :
    Fuel.Returns (fun fuel => playerRound game action identity connected ignoreOrders fuel
      looksDirect thinksStall options vars i playerIndex) (PlayerRound.Keeps old) := by
  unfold playerRound
  split
  · exact .pure hvars
  · simp only
    split
    · refine .pure ⟨hvars.1, fun conn hconn => ?_⟩
      obtain hconn | hconn := List.mem_append.1 hconn
      · exact hvars.2 conn hconn
      · rw [List.mem_singleton.1 hconn]
        exact fun c => UnknownConnecting.noConfusion
    · split
      · exact .pure hvars
      · apply Fuel.Returns.map
        · apply hiddenLoop_returns
          refine ⟨fun conn hconn => ?_, hvars.1, rfl⟩
          exact @findUnknownConnecting_isNew (game.withStacks _) action playerIndex identity _
            ignoreOrders _ conn hconn
        · exact fun _ hleft => afterHidden_keeps hvars.2 hleft

theorem searchPlayers_returns {looksDirect : Bool} {thinksStall : List ℕ}
    {options : ConnectingOptions} {old : ℕ → ℕ} {vars : PlayersVars}
    (hvars : (PlayerRound.next vars).Keeps old) :
    Fuel.Returns (fun fuel => searchPlayers game action identity connected ignoreOrders fuel
      looksDirect thinksStall options vars) (PlayerRound.Keeps old) := by
  refine Fuel.Returns.foldlM (fun player _ round hround => ?_) hvars
  cases round with
  | found result => exact .pure hround
  | next vars => exact playerRound_returns hround player.2 player.1

theorem ownPlayable_hidden {playables : List ℕ} {layered : Bool} :
    (ownPlayable game identity playables layered).hidden = false := by
  simp only [ownPlayable]
  split_ifs <;> rfl

theorem ownConnecting_settled {options : ConnectingOptions} {wrongPrompts : List UnknownConnecting}
    (hwrong : ∀ conn ∈ wrongPrompts, ∀ c, conn ≠ .connection c) :
    Settled (ownConnecting game action identity connected ignoreOrders options wrongPrompts) := by
  simp only [ownConnecting]
  split_ifs
  · exact .inr ⟨_, List.mem_singleton_self _, ownPlayable_hidden⟩
  · exact .inl hwrong

end

/-- The search for connecting cards ends; what it finds is not all hidden, and the stacks are as
they were. -/
theorem findConnecting_returns (game : SearchGame) (action : ClueAction) (identity : Identity)
    (connected ignoreOrders : List ℕ) (looksDirect : Bool) (thinksStall : List ℕ)
    (options : ConnectingOptions) :
    Fuel.Returns (fun fuel => findConnecting game action identity connected ignoreOrders fuel
      looksDirect thinksStall options) fun result =>
        (result.play.old = game.state.playStacks ∧ result.play.current = game.state.playStacks) ∧
          Settled result.connections := by
  have hnone : Settled [] := .inl (by simp)
  unfold findConnecting
  simp only
  split
  · exact .pure ⟨⟨rfl, rfl⟩, hnone⟩
  · split
    · exact .pure ⟨⟨rfl, rfl⟩, hnone⟩
    next conn hconn =>
      refine .pure ⟨⟨rfl, rfl⟩, .inr ⟨{ toConnection := conn }, List.mem_singleton_self _, ?_⟩⟩
      exact findKnownConnecting_hidden hconn
    · refine nonPromptCopy_returns.bind fun copy _ => ?_
      split
      · exact .pure ⟨⟨rfl, rfl⟩, hnone⟩
      · refine (searchPlayers_returns ⟨rfl, by simp⟩).map fun round hround => ?_
        cases round with
        | found result => exact hround
        | next vars => exact ⟨⟨hround.1, hround.1⟩, ownConnecting_settled hround.2⟩

/-- The search for connecting cards ends, and however it ends, `state.play_stacks` holds what it
held at first; nor has anything been written to the array that it was. -/
theorem findConnecting_leaves_no_trace (game : SearchGame) (action : ClueAction)
    (identity : Identity) (connected ignoreOrders : List ℕ) (looksDirect : Bool)
    (thinksStall : List ℕ) (options : ConnectingOptions) :
    Fuel.Returns (fun fuel => findConnecting game action identity connected ignoreOrders fuel
      looksDirect thinksStall options) fun result =>
        result.play.current = game.state.playStacks ∧ result.play.old = game.state.playStacks :=
  (findConnecting_returns game action identity connected ignoreOrders looksDirect thinksStall
    options).mono fun _ h => h.1.symm

end HanabiBot.HGroup
