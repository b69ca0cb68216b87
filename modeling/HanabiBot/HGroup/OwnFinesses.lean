import HanabiBot.Elim.Conservative
import HanabiBot.HGroup.FindConnecting
import HanabiBot.HGroup.LayeredFinesse

/-!
# Own finesses

`find_own_finesses` of `src/conventions/h-group/clue-interpretation/own-finesses.js` looks for the
cards that have to play before the clued one can, rank by rank, and takes prompts and finesses on
our own hand (or on that of the ignored player) where nobody else has the next card.  What it
finds is played on a hypothetical board (`HypoBoard`), on which it goes on.

A rank is looked for again as long as all that is found for it is hidden, a prompt that fails is
tried again as a finesse, a finesse may be hidden behind others, and a bluff that does not
connect is tried once more as a true finesse.

* `findSelfFinesse_returns` — the recursion through hidden cards ends;
* `connect_returns` — what is found for a rank is not all hidden, or has a card of our hand that
  has not been connected before;
* `findOwnFinesses_returns` — so the search ends, by returning or by throwing.
-/

namespace HanabiBot.HGroup

/-- `LEVEL.INTERMEDIATE_BLUFFS`. -/
def INTERMEDIATE_BLUFFS : ℕ := 13

/-! ## The data -/

/-- What only the Good Touch elimination reads of a thought. -/
structure TouchMarks where
  clues : List Elim.Touch := []
  firstTouch : Option Elim.Touch := none
  certainFinessed : Bool := false

/-- An entry of `next_ignore`. -/
structure IgnoredCard where
  order : ℕ
  inference : Option Identity := none

/-- A game, with what the search for own finesses reads on top. -/
structure OwnGame extends SearchGame where
  /-- `next_finesse`. -/
  nextFinesse : List QueuedClue := []
  /-- `next_ignore`. -/
  nextIgnore : List (List IgnoredCard) := []
  /-- `me.thoughts[order].rewinded`. -/
  rewinded : ℕ → Bool := fun _ => false
  /-- On `common.thoughts[order]`. -/
  touchMarks : ℕ → TouchMarks := fun _ => {}
  /-- `common.elims`. -/
  elims : Variant.CardName → List ℕ := fun _ => []
  /-- On `state.deck[order].clues`. -/
  deckTouches : ℕ → List Elim.Touch := fun _ => []
  /-- No card is in two hands. -/
  nodup : state.allOrders.Nodup
  our_lt : state.ourPlayerIndex < state.numPlayers

/-- A connection, with the marks that only own finesses have. -/
structure OwnConnection extends FoundConnection where
  certain : Bool := false
  asymmetric : Bool := false
  deriving DecidableEq

/-- `IllegalInterpretation`, with what its message is about. -/
inductive OwnError
  | finesseOurselves
  | alreadyHas (identity : Identity) (connection : Connection)
  | unableToConnect (identity : Identity)
  | promptAndFinesse
  | hiddenFinesse
  | doubleFinesse
  | noFinesseSlot (ignoreOrders : List ℕ)
  | layeredFinesse (level : ℕ)
  | selfFinesseBlocked (finesses : ℕ)
  | selfFinesseNotFound (identity : Identity)
  | impossibleLayer (e : Illegal)
  deriving DecidableEq

def OwnError.message (logCard : Identity → String) (logConnection : Connection → String) :
    OwnError → String
  | finesseOurselves => "cannot finesse ourselves."
  | alreadyHas identity connection => "won't find own finesses for " ++ logCard identity ++
    " when someone already has [" ++ logConnection connection ++ "]"
  | unableToConnect identity => "unable to connect to " ++ logCard identity
  | promptAndFinesse => "blocked prompt + finesse at level 1"
  | hiddenFinesse => "blocked hidden finesse at level 1"
  | doubleFinesse => "blocked double finesse at level 1"
  | noFinesseSlot ignoreOrders => "no finesse slot on self" ++
    if ignoreOrders = [] then "" else
      "(ignoring " ++ ",".intercalate (ignoreOrders.map toString) ++ ")"
  | layeredFinesse level => "blocked layered finesse at level " ++ toString level
  | selfFinesseBlocked finesses =>
    "blocked " ++ (if 1 ≤ finesses then "double finesse" else "prompt + finesse") ++ " at level 1"
  | selfFinesseNotFound identity => "self-finesse not found for " ++ logCard identity
  | impossibleLayer e => e.message

/-- Whether the message starts with 'no finesse slot' or 'self-finesse not found'. -/
def OwnError.isNoSelfFinesse : OwnError → Bool
  | noFinesseSlot _ | selfFinesseNotFound _ => true
  | _ => false

/-- What a search comes to: connections, or an error. -/
abbrev Search := Except OwnError (List OwnConnection)

/-! ## The hypothetical board -/

/-- What changes while the search goes on: the stacks and the common player. -/
structure HypoBoard where
  playStacks : ℕ → ℕ
  common : ConnPlayer
  touchMarks : ℕ → TouchMarks
  elims : Variant.CardName → List ℕ

namespace OwnGame

/-- The board as it is. -/
def board (game : OwnGame) : HypoBoard where
  playStacks := game.state.playStacks
  common := game.common
  touchMarks := game.touchMarks
  elims := game.elims

/-- `hypo_game`: the game on a hypothetical board. -/
def withBoard (game : OwnGame) (board : HypoBoard) : OwnGame where
  toSearchGame :=
    { game.toSearchGame with
      state := { game.state with playStacks := board.playStacks }
      common := board.common }
  nextFinesse := game.nextFinesse
  nextIgnore := game.nextIgnore
  rewinded := game.rewinded
  touchMarks := board.touchMarks
  elims := board.elims
  deckTouches := game.deckTouches
  nodup := game.nodup
  our_lt := game.our_lt

/-- Our hand. -/
def ourHand (game : OwnGame) : List ℕ := game.state.hands game.state.ourPlayerIndex

/-- `me.find_clued` reads our own thoughts. -/
def asMe (game : OwnGame) : SearchGame := { game.toSearchGame with common := game.me }

/-- `getIgnoreOrders`. -/
def getIgnoreOrders (game : OwnGame) (index suitIndex : ℕ) : List ℕ :=
  (((game.nextIgnore[index]?).getD []).filter fun i =>
    i.inference.all fun inference => inference.suitIndex == suitIndex).map IgnoredCard.order

/-- The common player for the Good Touch elimination. -/
def observer (game : OwnGame) : Elim.Observer where
  playerIndex := game.common.playerIndex
  thoughts o :=
    { toCard := (game.common.thoughts.get o).getD
        { id := none, possible := ⟨0, 0⟩, inferred := ⟨0, 0⟩, order := o }
      clues := (game.touchMarks o).clues
      firstTouch := (game.touchMarks o).firstTouch
      certainFinessed := (game.touchMarks o).certainFinessed
      finesseIndex := (game.common.marks o).finesseIndex
      uncertain := (game.common.marks o).uncertain }
  elims := game.elims

/-- The state for the Good Touch elimination. -/
def table (game : OwnGame) : Elim.Table where
  toState := game.state.toState
  clues := game.deckTouches
  nodup := game.nodup

/-- The board with the thoughts that the elimination leaves. Only cards in hand are changed. -/
def eliminated (game : OwnGame) (observer : Elim.Observer) : HypoBoard where
  playStacks := game.state.playStacks
  common :=
    { game.common with
      thoughts := game.state.allOrders.foldl
        (fun thoughts o => thoughts.modify o fun _ => (observer.thoughts o).toCard)
        game.common.thoughts }
  touchMarks o :=
    { game.touchMarks o with certainFinessed := (observer.thoughts o).certainFinessed }
  elims := observer.elims

/-- `Object.assign(hypo_common, hypo_common.good_touch_elim(hypo_state))`. -/
def goodTouchElim (game : OwnGame) (fuel : ℕ) : Option HypoBoard :=
  (Elim.goodTouchElim game.observer game.table false fuel).map fun r => game.eliminated r.1

/-- The game with layers through our hand. -/
def layered (game : OwnGame) : LayeredGame where
  toHypoGame := game.toConnGame.toHypoGame
  nextFinesse := game.nextFinesse

end OwnGame

/-! ## Prompts and finesses on us -/

section

variable (game : OwnGame) (action : ClueAction)

/-- `is_intermediate_bluff_target`. -/
def isIntermediateBluffTarget (identity : Identity) (focus : ℕ) : Bool :=
  (decide (INTERMEDIATE_BLUFFS ≤ game.level) && identity.rank == 3) ||
    (action.clue.type == .colour && identity.rank == 4 && game.thoughtNewlyClued focus &&
      game.state.isCritical identity)

/-- The top card of a stack. On an empty stack it has rank 0, and the bit that `toMask` makes of
it is the one before the suit's. -/
def stackTop (playStacks : ℕ → ℕ) (suitIndex : ℕ) : Identity :=
  if playStacks suitIndex = 0 then if suitIndex = 0 then ⟨6, 2⟩ else ⟨suitIndex - 1, 5⟩
  else ⟨suitIndex, playStacks suitIndex⟩

/-- `get_bluffable_ids`. -/
def getBluffableIds (inferred : List Identity) (connected : List ℕ) (reacting : ℕ) :
    List Identity :=
  inferred.filter fun id => game.state.isPlayable id && validBluff game.toSearchGame action id
    (stackTop game.state.playStacks id.suitIndex) reacting connected

/-- A card of the hand that is clued as the identity. -/
def isCluedCopy (identity : Identity) (o : ℕ) : Bool :=
  game.state.isIdentity o identity && (game.state.marks o).clued

/-- `own_prompt`. -/
def ownPrompt (finesses prompt : ℕ) (identity : Identity) : Search :=
  let our := game.state.ourPlayerIndex
  if game.level = 1 ∧ 1 ≤ finesses then .error .promptAndFinesse
  else
    match (game.state.identityOf prompt).filter fun id => game.rewinded prompt &&
        identity.suitIndex != id.suitIndex && game.state.isPlayable id with
    | some id =>
      if game.level < INTERMEDIATE_FINESSES then .error .hiddenFinesse
      else .ok [{ type := .prompt, reacting := our, order := prompt, hidden := true, self := true
                  identities := [id] }]
    | none =>
      if (game.me.thoughts.get prompt).any fun card =>
          card.matchesId identity { assume := true } && card.possible.has identity then
        .ok [{ type := .prompt, reacting := our, order := prompt, self := true
               identities := [identity] }]
      else .ok []

/-- The connections of `resolve_layered_finesse`. -/
def layeredConnections (identity : Identity) (run : Run) : Search :=
  match run.connections identity with
  | .error e => .error (.impossibleLayer e)
  | .ok conns => .ok <| conns.map fun conn =>
    { type := .finesse, reacting := game.state.ourPlayerIndex, order := conn.order
      hidden := conn.hidden, self := true, identities := conn.identities }

/-- `find_self_finesse`; the game changes with each hidden card. -/
def findSelfFinesse (action : ClueAction) (identity : Identity) (ignoreOrders : List ℕ)
    (assumeTruth : Bool) : ℕ → OwnGame → List ℕ → ℕ → Option Search
  | 0, _, _, _ => none
  | fuel + 1, game, connected, finesses =>
    let st := game.state
    let our := st.ourPlayerIndex
    match findFinesse game.toSearchGame our connected ignoreOrders with
    | none => some (.error (.noFinesseSlot ignoreOrders))
    | some finesse =>
      let card := game.me.thoughts.get finesse
      let inferred := (card.map fun c => c.inferred.array).getD []
      let canBe := card.any fun c => c.possible.has identity
      let actual := st.identityOf finesse
      let bluffableIds := getBluffableIds game action
        ((actual.map fun id => [id]).getD inferred) connected our
      -- the list never includes the object that `identity()` has just made
      let possiblyBluff := !assumeTruth && connected.length == 1 && !bluffableIds.isEmpty &&
        canBe && actual.isNone
      if game.rewinded finesse ∧ game.level < INTERMEDIATE_FINESSES then
        some (.error (.layeredFinesse game.level))
      else
        match actual.filter fun id => game.rewinded finesse && id.suitIndex != identity.suitIndex &&
            st.isPlayable id with
        | some id =>
          let board := { game.board with
            playStacks := Function.update st.playStacks id.suitIndex id.rank }
          -- the card must be playable for the layer to work, so look behind it
          (findSelfFinesse action identity ignoreOrders assumeTruth fuel (game.withBoard board)
            (connected ++ [finesse]) (finesses + 1)).map fun search => search.map fun conns =>
              { type := .finesse, reacting := our, order := finesse, hidden := true, self := true
                bluff := possiblyBluff, identities := [id] } :: conns
        | none =>
          let trueFinesse := card.any fun c =>
            c.inferred.has identity && c.matchesId identity { assume := true }
          if trueFinesse || !bluffableIds.isEmpty then
            if game.level = 1 ∧ 1 < connected.length then
              some (.error (.selfFinesseBlocked finesses))
            -- we have some information about the next finesse
            else if game.nextFinesse ≠ [] then
              (game.layered.resolveLayeredFinesse identity connected ignoreOrders fuel).map
                (layeredConnections game identity)
            else
              let certain := [action.giver, action.target].any fun i =>
                (st.hands i).any (isCluedCopy game identity)
              some <| .ok [
                { type := .finesse, reacting := our, order := finesse, self := true
                  bluff := !assumeTruth && !canBe, possiblyBluff
                  identities := if trueFinesse then [identity] else bluffableIds, certain }]
          else some (.error (.selfFinesseNotFound identity))

/-! ## One rank -/

/-- The options of `connect`. -/
structure ConnectOptions where
  assumeTruth : Bool := false
  bluffed : Bool := false

/-- A clued card that could be the identity, after a bluff: all of `connect` that is left. -/
def bluffedPlayable (searched : SearchGame) (matched : ℕ → Bool) (player reacting : ℕ)
    (identity : Identity) (connected ignoreOrders : List ℕ) : List OwnConnection :=
  let orders := findClued searched player identity connected ignoreOrders
  ((orders.find? matched).map fun order =>
    { type := .playable, reacting, order, linked := some orders
      identities := [identity] : OwnConnection }).toList

section

variable (identity : Identity) (connected ignoreOrders : List ℕ)

/-- A card of the giver's that they know to be playable; order 0 counts as no card. -/
def duplicatedInOwn : List OwnConnection :=
  match (game.state.hands action.giver).find? fun o =>
      game.state.isIdentity o identity && game.common.unknownPlays.contains o with
  | some (order + 1) =>
    if ((game.players action.giver).thoughts.get (order + 1)).any fun card =>
        card.matchesId identity { infer := true } then
      [{ type := .known, reacting := action.giver, order := order + 1, identities := [identity] }]
    else []
  | _ => []

/-- The guess that the giver knows about their own card; order 0 counts as no card. -/
def asymmetricOwn : List OwnConnection :=
  match (game.state.hands action.giver).find? (isCluedCopy game identity) with
  | some (order + 1) => [{ type := .known, reacting := action.giver, order := order + 1
                           identities := [identity], asymmetric := true }]
  | _ => []

/-- `self_allowed`. -/
def selfAllowed (looksDirect : Bool) : Bool :=
  let our := game.state.ourPlayerIndex
  action.giver != our && !(action.target == our && looksDirect &&
    connected.head?.any fun focus => (game.me.possible focus).has identity)

/-- What is tried after a self-finesse has failed: a prompt on a wrongly-ranked pink card. -/
def pinkPromptUs (finesses : ℕ) (prompt : Option ℕ) (e : OwnError) : Search :=
  if e.isNoSelfFinesse then
    match findPrompt game.toSearchGame game.state.ourPlayerIndex identity connected ignoreOrders
        true with
    | some pinkPrompt =>
      if some pinkPrompt = prompt then .ok [] else ownPrompt game finesses pinkPrompt identity
    | none => .ok []
  else .ok []

/-- Whether our card is prompted: not for the identity of the focus, since the giver would be bad
touching. -/
def isPrompted (prompt : ℕ) : Bool :=
  !rainbowMismatch game.toSearchGame action identity prompt &&
    !connected.head?.any fun focus => game.state.isIdentity focus identity

/-- Our own hand: a prompt, else a finesse. -/
def connectOurs (selfRanks : List ℕ) (finesses : ℕ) (assumeTruth : Bool) (fuel : ℕ) :
    Option Search :=
  let prompt := findPrompt game.toSearchGame game.state.ourPlayerIndex identity connected
    ignoreOrders false
  match prompt.filter (isPrompted game action identity connected) with
  | some order => some (ownPrompt game finesses order identity)
  | none =>
    if selfRanks.contains identity.rank then some (.ok [])
    else (findSelfFinesse action identity ignoreOrders assumeTruth fuel game connected
      finesses).map fun search =>
        match search with
        | .ok conns => .ok conns
        | .error e => pinkPromptUs game identity connected ignoreOrders finesses prompt e

/-- The hand of the ignored player: a prompt, else a finesse; order 0 counts as no card. -/
def connectIgnored (player finesses : ℕ) : Search :=
  match findPrompt game.toSearchGame player identity connected ignoreOrders false with
  | some prompt =>
    if game.level = 1 ∧ 1 ≤ finesses then .error .doubleFinesse
    else if (game.common.thoughts.get prompt).any fun card =>
        card.matchesId identity { assume := true } then
      .ok [{ type := .prompt, reacting := action.target, order := prompt, self := true
             identities := [identity] }]
    else .ok []
  | none =>
    match findFinesse game.toSearchGame player connected ignoreOrders with
    | some (order + 1) =>
      if (game.common.thoughts.get (order + 1)).any fun card =>
          card.inferred.has identity && card.matchesId identity { assume := true } then
        if game.level = 1 ∧ 1 ≤ connected.length then .error .doubleFinesse
        else .ok [{ type := .finesse, reacting := action.target, order := order + 1, self := true
                    identities := [identity] }]
      else .ok []
    | _ => .ok []

/-- Goes on with the next way to connect if the last one has not found anything. -/
def orElse (search : Search) (next : ℕ → Option Search) (fuel : ℕ) : Option Search :=
  match search with
  | .ok [] => next fuel
  | found => some found

/-- The end of `connect`, with the ignored player's hand. -/
def connectOthers (selfRanks : List ℕ) (finesses : ℕ) (ignorePlayer : Option ℕ) (allowed : Bool)
    (options : ConnectOptions) (fuel : ℕ) : Option Search :=
  let asymmetric : Search := .ok (asymmetricOwn game action identity)
  match ignorePlayer with
  | none => some asymmetric
  | some player =>
    if options.bluffed then
      some <| .ok <| bluffedPlayable game.toSearchGame
        (fun o => (game.common.thoughts.get o).any fun card =>
          card.matchesId identity { assume := true })
        player action.target identity connected ignoreOrders
    else
      orElse (connectIgnored game action identity connected ignoreOrders player finesses)
        (fun fuel =>
          -- our own hand again, if it was skipped to prefer the ignored player
          if allowed && selfRanks.contains identity.rank then
            (findSelfFinesse action identity ignoreOrders options.assumeTruth fuel game connected
              finesses).map fun search =>
                match search with
                | .ok conns => .ok conns
                | .error _ => asymmetric
          else some asymmetric) fuel

/-- `connect`. -/
def connect (looksDirect : Bool) (ignorePlayer : Option ℕ) (selfRanks : List ℕ) (finesses : ℕ)
    (options : ConnectOptions) (fuel : ℕ) : Option Search :=
  let our := game.state.ourPlayerIndex
  -- first, see if someone else has the connecting card; the search leaves the stacks as they were
  (findConnecting game.toSearchGame action identity connected ignoreOrders fuel looksDirect []
      { assumeTruth := options.assumeTruth, bluffed := options.bluffed }).bind fun others =>
    match others.connections with
    | .connection conn :: conns =>
      some <| .ok <| (UnknownConnecting.connection conn :: conns).filterMap fun c =>
        match c with
        | .connection conn => some { toFoundConnection := conn }
        | .terminate .. => none
    | _ =>
      orElse (.ok (duplicatedInOwn game action identity)) (fun fuel =>
        let allowed := selfAllowed game action identity connected looksDirect
        if allowed && options.bluffed then
          some <| .ok <| bluffedPlayable game.asMe (fun o => game.state.deckMatches o identity) our our
            identity connected ignoreOrders
        else
          (if allowed then connectOurs game action identity connected ignoreOrders selfRanks finesses
              options.assumeTruth fuel
            else some (.ok [])).bind fun search =>
              orElse search (connectOthers game action identity connected ignoreOrders selfRanks
                finesses ignorePlayer allowed options) fuel) fuel

end

end

/-! ## The search -/

/-- The variables of `find_own_finesses`. -/
structure OwnVars where
  nextRank : ℕ
  board : HypoBoard
  connections : List OwnConnection := []
  /-- `already_connected`. -/
  connected : List ℕ
  finesses : ℕ := 0
  direct : Bool
  bluffed : Bool := false
  possibleIntermediateBluff : Bool := false

section

variable (game : OwnGame) (action : ClueAction) (focus : ℕ) (identity : Identity)

/-- What a connection of type 'finesse' changes. -/
def OwnVars.addFinesse (vars : OwnVars) (conn : OwnConnection) (assumeTruth : Bool) : OwnVars :=
  if conn.type = .finesse then
    { vars with
      finesses := vars.finesses + 1
      -- somebody else playing into a finesse reveals that it's not direct
      direct := vars.direct && !(!conn.hidden && conn.reacting != action.target &&
        action.clue.type != .colour)
      possibleIntermediateBluff := vars.possibleIntermediateBluff ||
        (vars.connections.length == 1 && isIntermediateBluffTarget game action identity focus &&
          (conn.possiblyBluff || conn.bluff) && !assumeTruth)
      bluffed := vars.bluffed || conn.bluff }
  else vars

/-- The board once a card is assumed to play. -/
def playConnection (board : HypoBoard) (nextIdentity : Identity) (conn : OwnConnection) (fuel : ℕ) :
    Option HypoBoard :=
  if conn.hidden then
    match game.state.identityOf conn.order with
    | none => some board
    | some id =>
      let suit := id.suitIndex
      some { board with
        playStacks := Function.update board.playStacks suit (board.playStacks suit + 1)
        -- everyone knows this card is playing
        common := { board.common with
          hypoStacks := Function.update board.common.hypoStacks suit
            (board.common.hypoStacks suit + 1) } }
  else
    -- assume this is actually the card
    (game.withBoard { board with
      common := { board.common with
        thoughts := board.common.thoughts.modify conn.order fun card =>
          { card with inferred :=
              card.inferred.intersect (IdentitySet.toMask nextIdentity) } } }).goodTouchElim fuel

/-- The loop over the connections found for a rank. -/
def addConnection (assumeTruth : Bool) (nextIdentity : Identity) (vars : OwnVars)
    (conn : OwnConnection) (fuel : ℕ) : Option OwnVars :=
  let vars := { vars with connections := vars.connections ++ [conn] }
  let vars := vars.addFinesse game action focus identity conn assumeTruth
  (playConnection game vars.board nextIdentity conn fuel).map fun board =>
    { vars with
      board
      connected := vars.connected ++ [conn.order] }

/-- Goes on with the next rank, or with the same one if all that was found is hidden. -/
def OwnVars.advance (vars : OwnVars) (suitIndex : ℕ) (allHidden : Bool) : OwnVars :=
  if allHidden then vars
  else
    { vars with
      nextRank := vars.nextRank + 1
      board := { vars.board with
        playStacks := Function.update vars.board.playStacks suitIndex
          (vars.board.playStacks suitIndex + 1) } }

/-- Whether the loop over the ranks is left: after a possible intermediate bluff by rank, further
blind plays are not allowed. -/
def isBlocked (vars : OwnVars) (conns : List OwnConnection) : Bool :=
  conns.isEmpty || (vars.possibleIntermediateBluff && action.clue.type == .rank &&
    conns.getLast?.any fun conn => conn.type == .finesse)

variable (ignorePlayer : Option ℕ) (selfRanks : List ℕ)

/-- The loop over the ranks. -/
def connectRanks (assumeTruth : Bool) : ℕ → OwnVars → Option (Except OwnError OwnVars)
  | 0, _ => none
  | fuel + 1, vars =>
    if vars.nextRank < identity.rank then
      let nextIdentity : Identity := ⟨identity.suitIndex, vars.nextRank⟩
      let ignoreOrders := game.getIgnoreOrders
        (vars.nextRank - game.state.playStacks identity.suitIndex - 1) identity.suitIndex
      (connect (game.withBoard vars.board) action nextIdentity vars.connected ignoreOrders
        vars.direct ignorePlayer selfRanks vars.finesses
        { assumeTruth, bluffed := vars.bluffed } fuel).bind fun search =>
          match search with
          | .error e => some (.error e)
          | .ok conns =>
            if isBlocked action vars conns then some (.ok vars)
            else
              (conns.foldlM (fun vars conn => addConnection game action focus identity assumeTruth
                nextIdentity vars conn fuel) vars).bind fun vars =>
                  connectRanks assumeTruth fuel
                    (vars.advance identity.suitIndex (conns.all fun conn => conn.hidden))
    else some (.ok vars)

/-- What is thrown before the search starts. -/
def ownFinessesBlocked : Option OwnError :=
  let our := game.state.ourPlayerIndex
  if action.giver = our ∧ ignorePlayer = none then some .finesseOurselves
  else if action.target = ignorePlayer.getD our then
    match findKnownConnecting game.toConnGame action.giver identity
        (game.getIgnoreOrders 0 identity.suitIndex) {} with
    | some (.connection conn) =>
      if conn.order = focus then none else some (.alreadyHas identity conn)
    | _ => none
  else none

/-- `find_own_finesses`. -/
def findOwnFinesses (looksDirect : Bool) : ℕ → Bool → Option Search
  | 0, _ => none
  | fuel + 1, assumeTruth =>
    match ownFinessesBlocked game action focus identity ignorePlayer with
    | some e => some (.error e)
    | none =>
      (connectRanks game action focus identity ignorePlayer selfRanks assumeTruth fuel
        { nextRank := game.state.playStacks identity.suitIndex + 1
          board := game.board
          connected := [focus]
          direct := looksDirect }).bind fun result =>
        match result with
        | .error e => some (.error e)
        | .ok vars =>
          if vars.board.playStacks identity.suitIndex + 1 = identity.rank then
            some (.ok vars.connections)
          else if vars.possibleIntermediateBluff then
            -- assume the intermediate bluff was real
            some <| .ok <| (vars.connections.take 1).map fun conn =>
              { conn with possiblyBluff := false, bluff := true }
          else if BLUFFS ≤ game.level ∧ assumeTruth = false ∧ vars.bluffed = true then
            -- retry with true finesse
            (findOwnFinesses looksDirect fuel true).map fun search =>
              match search with
              | .ok (conn :: conns) => .ok (conn :: conns)
              | _ => .error (.unableToConnect identity)
          else some (.error (.unableToConnect identity))

end

/-! ## A finesse on us -/

/-- What is found is not all hidden. -/
def NotHidden : Search → Prop
  | .error _ => True
  | .ok conns => ∃ conn ∈ conns, conn.hidden = false

/-- What is found for a rank, if anything, is not all hidden, or has a card of ours that has not
been connected before. -/
def Advances (game : OwnGame) (connected : List ℕ) : Search → Prop
  | .error _ => True
  | .ok conns => conns = [] ∨ (∃ conn ∈ conns, conn.hidden = false) ∨
      ∃ conn ∈ conns, IsNew game.toSearchGame game.state.ourPlayerIndex connected conn.order

section

variable {game : OwnGame} {action : ClueAction} {identity : Identity}
  {connected ignoreOrders : List ℕ} {finesses : ℕ}

theorem NotHidden.advances {search : Search} (h : NotHidden search) :
    Advances game connected search := by
  cases search with
  | error e => trivial
  | ok conns => exact .inr (.inl h)

/-- One connection is enough if it is not hidden. -/
theorem notHidden_singleton {conn : OwnConnection} (h : conn.hidden = false) :
    NotHidden (.ok [conn]) :=
  ⟨conn, List.mem_singleton_self conn, h⟩

theorem layeredConnections_notHidden (run : Run) :
    NotHidden (layeredConnections game identity run) := by
  unfold layeredConnections
  split
  · trivial
  next conns hconns =>
    obtain ⟨conn, hconn, hhidden⟩ := LayeredGame.connections_finesse hconns
    exact ⟨_, List.mem_map_of_mem hconn, hhidden⟩

theorem OwnGame.ourHand_nodup (game : OwnGame) : game.ourHand.Nodup :=
  (List.nodup_flatMap.1 game.nodup).1 _ (List.mem_range.2 game.our_lt)

/-- The recursion through hidden cards ends: each of them is a card of ours that has not been
connected before. -/
theorem findSelfFinesse_returns (assumeTruth : Bool) :
    Fuel.Returns (fun fuel => findSelfFinesse action identity ignoreOrders assumeTruth fuel game
      connected finesses) NotHidden := by
  induction hm : unconnected game.ourHand connected using Nat.strong_induction_on
    generalizing game connected finesses with
  | _ m ih =>
    refine Fuel.Returns.step (fun fuel => by rw [findSelfFinesse]) ?_
    dsimp only
    split
    · exact .pure trivial
    next finesse hfinesse =>
      obtain ⟨hmem, hnot⟩ := findFinesse_isNew hfinesse
      split
      · exact .pure trivial
      · split
        next id hid =>
          have hlt : unconnected game.ourHand (connected ++ [finesse]) < m :=
            hm ▸ unconnected_lt hmem hnot
          refine (@ih _ hlt (game.withBoard _) _ _ rfl).map fun search hsearch => ?_
          cases search with
          | error e => trivial
          | ok conns =>
            obtain ⟨conn, hconn, hhidden⟩ := hsearch
            exact ⟨conn, List.mem_cons_of_mem _ hconn, hhidden⟩
        next =>
          split
          · split
            · exact .pure trivial
            · split
              · refine (LayeredGame.resolveLayeredFinesse_returns game.ourHand_nodup).map ?_
                exact fun run _ => layeredConnections_notHidden run
              · exact .pure (notHidden_singleton rfl)
          · exact .pure trivial

/-! ## One rank -/

/-- A single connection that is not hidden, if any. -/
theorem advances_option {found : Option OwnConnection}
    (h : ∀ conn, found = some conn → conn.hidden = false) :
    Advances game connected (.ok found.toList) := by
  cases found with
  | none => exact .inl rfl
  | some conn => exact (notHidden_singleton (h conn rfl)).advances

theorem ownPrompt_advances {prompt : ℕ}
    (hnew : IsNew game.toSearchGame game.state.ourPlayerIndex connected prompt) :
    Advances game connected (ownPrompt game finesses prompt identity) := by
  simp only [ownPrompt]
  split
  · trivial
  · split
    · split
      · trivial
      · -- the prompt is hidden
        exact .inr (.inr ⟨_, List.mem_singleton_self _, hnew⟩)
    · split
      · exact (notHidden_singleton rfl).advances
      · exact .inl rfl

theorem duplicatedInOwn_advances :
    Advances game connected (.ok (duplicatedInOwn game action identity)) := by
  unfold duplicatedInOwn
  split
  · split
    · exact (notHidden_singleton rfl).advances
    · exact .inl rfl
  · exact .inl rfl

theorem asymmetricOwn_advances :
    Advances game connected (.ok (asymmetricOwn game action identity)) := by
  unfold asymmetricOwn
  split
  · exact (notHidden_singleton rfl).advances
  · exact .inl rfl

theorem bluffedPlayable_advances (searched : SearchGame) (matched : ℕ → Bool)
    (player reacting : ℕ) : Advances game connected
      (.ok (bluffedPlayable searched matched player reacting identity connected ignoreOrders)) := by
  refine advances_option fun conn h => ?_
  obtain ⟨order, -, rfl⟩ := Option.map_eq_some_iff.1 h
  rfl

theorem pinkPromptUs_advances {prompt : Option ℕ} {e : OwnError} :
    Advances game connected
      (pinkPromptUs game identity connected ignoreOrders finesses prompt e) := by
  unfold pinkPromptUs
  split
  · split
    next hprompt =>
      split
      · exact .inl rfl
      · exact ownPrompt_advances (findPrompt_isNew hprompt)
    · exact .inl rfl
  · exact .inl rfl

theorem connectOurs_returns (selfRanks : List ℕ) (assumeTruth : Bool) :
    Fuel.Returns (connectOurs game action identity connected ignoreOrders selfRanks finesses
      assumeTruth) (Advances game connected) := by
  unfold connectOurs
  dsimp only
  split
  next order horder =>
    have hprompt := (Option.filter_eq_some_iff.1 horder).1
    exact .pure (ownPrompt_advances (findPrompt_isNew hprompt))
  · split
    · exact .pure (.inl rfl)
    · refine (findSelfFinesse_returns assumeTruth).map fun search hsearch => ?_
      cases search with
      | error e => exact pinkPromptUs_advances
      | ok conns => exact hsearch.advances

theorem connectIgnored_advances (player : ℕ) :
    Advances game connected
      (connectIgnored game action identity connected ignoreOrders player finesses) := by
  unfold connectIgnored
  split
  · split
    · trivial
    · split
      · exact (notHidden_singleton rfl).advances
      · exact .inl rfl
  · split
    · split
      · split
        · trivial
        · exact (notHidden_singleton rfl).advances
      · exact .inl rfl
    · exact .inl rfl

theorem orElse_returns {search : Search} {next : ℕ → Option Search}
    (hsearch : Advances game connected search) (hnext : Fuel.Returns next (Advances game connected)) :
    Fuel.Returns (orElse search next) (Advances game connected) := by
  unfold orElse
  split
  · exact hnext
  · exact .pure hsearch

theorem connectOthers_returns (selfRanks : List ℕ) (ignorePlayer : Option ℕ) (allowed : Bool)
    (options : ConnectOptions) :
    Fuel.Returns (connectOthers game action identity connected ignoreOrders selfRanks finesses
      ignorePlayer allowed options) (Advances game connected) := by
  unfold connectOthers
  dsimp only
  split
  · exact .pure asymmetricOwn_advances
  · split
    · exact .pure (bluffedPlayable_advances _ _ _ _)
    · refine orElse_returns (connectIgnored_advances _) ?_
      split
      · refine (findSelfFinesse_returns options.assumeTruth).map fun search hsearch => ?_
        cases search with
        | error e => exact asymmetricOwn_advances
        | ok conns => exact hsearch.advances
      · exact .pure asymmetricOwn_advances

/-- The search for a rank ends. -/
theorem connect_returns (looksDirect : Bool) (ignorePlayer : Option ℕ) (selfRanks : List ℕ)
    (options : ConnectOptions) :
    Fuel.Returns (connect game action identity connected ignoreOrders looksDirect ignorePlayer
      selfRanks finesses options) (Advances game connected) := by
  unfold connect
  dsimp only
  refine (findConnecting_returns game.toSearchGame action identity connected ignoreOrders
    looksDirect [] _).bind fun others hothers => ?_
  split
  next conn conns hconns =>
    -- it is not all wrong prompts, since the first one is none
    refine .pure (.inr (.inl ?_))
    rw [hconns] at hothers
    obtain hwrong | ⟨found, hfound, hhidden⟩ := hothers.2
    · exact absurd rfl (hwrong _ List.mem_cons_self conn)
    · exact ⟨{ toFoundConnection := found }, List.mem_filterMap.2 ⟨_, hfound, rfl⟩, hhidden⟩
  · refine orElse_returns duplicatedInOwn_advances ?_
    split
    · exact .pure (bluffedPlayable_advances _ _ _ _)
    · refine Fuel.Returns.bind (P := Advances game connected) ?_ fun search hsearch =>
        orElse_returns hsearch (connectOthers_returns selfRanks ignorePlayer _ options)
      split
      · exact connectOurs_returns selfRanks options.assumeTruth
      · exact .pure (.inl rfl)

end

/-! ## The ranks -/

theorem OwnGame.goodTouchElim_returns (game : OwnGame) :
    Fuel.Returns game.goodTouchElim fun _ => True :=
  (Elim.goodTouchElim_returns game.observer game.table false).map fun _ _ => trivial

section

variable {game : OwnGame} {action : ClueAction} {focus : ℕ} {identity nextIdentity : Identity}
  {assumeTruth : Bool}

theorem playConnection_returns (board : HypoBoard) (conn : OwnConnection) :
    Fuel.Returns (playConnection game board nextIdentity conn) fun _ => True := by
  unfold playConnection
  split
  · split <;> exact .pure trivial
  · exact OwnGame.goodTouchElim_returns _

/-- A 'finesse' leaves the rank and the connected cards. -/
theorem OwnVars.addFinesse_keeps (vars : OwnVars) (conn : OwnConnection) :
    (vars.addFinesse game action focus identity conn assumeTruth).nextRank = vars.nextRank ∧
      (vars.addFinesse game action focus identity conn assumeTruth).connected =
        vars.connected := by
  unfold addFinesse
  split <;> exact ⟨rfl, rfl⟩

theorem addConnection_returns (vars : OwnVars) (conn : OwnConnection) :
    Fuel.Returns (addConnection game action focus identity assumeTruth nextIdentity vars conn)
      fun result => result.nextRank = vars.nextRank ∧
        result.connected = vars.connected ++ [conn.order] := by
  unfold addConnection
  dsimp only
  refine (playConnection_returns _ conn).map fun board _ => ?_
  obtain ⟨hrank, hconnected⟩ := OwnVars.addFinesse_keeps
    { vars with connections := vars.connections ++ [conn] } conn
  exact ⟨hrank, congrArg (· ++ [conn.order]) hconnected⟩

/-- The loop over the connections connects each of them. -/
theorem addConnections_returns (conns : List OwnConnection) (vars : OwnVars) :
    Fuel.Returns (fun fuel => conns.foldlM (fun vars conn =>
        addConnection game action focus identity assumeTruth nextIdentity vars conn fuel) vars)
      fun result => result.nextRank = vars.nextRank ∧
        result.connected = vars.connected ++ conns.map fun conn => conn.order := by
  induction conns generalizing vars with
  | nil => exact .pure ⟨rfl, by simp⟩
  | cons conn conns ih =>
    refine ((addConnection_returns vars conn).bind fun next hnext => (ih next).mono
      fun result hresult => ?_).congr fun fuel => List.foldlM_cons ..
    refine ⟨hresult.1.trans hnext.1, ?_⟩
    rw [hresult.2, hnext.2, List.append_assoc]
    rfl

variable {ignorePlayer : Option ℕ} {selfRanks : List ℕ}

/-- The loop over the ranks ends: a round goes on with the next rank, or connects one more card of
ours. -/
theorem connectRanks_returns (vars : OwnVars) :
    Fuel.Returns (fun fuel => connectRanks game action focus identity ignorePlayer selfRanks
      assumeTruth fuel vars) fun _ => True := by
  induction hm : identity.rank - vars.nextRank + unconnected game.ourHand vars.connected using
    Nat.strong_induction_on generalizing vars with
  | _ m ih =>
    refine Fuel.Returns.step (fun fuel => by rw [connectRanks]) ?_
    dsimp only
    split
    next hrank =>
      refine (connect_returns vars.direct ignorePlayer selfRanks _).bind fun search hsearch => ?_
      cases search with
      | error e => exact .pure trivial
      | ok conns =>
        dsimp only
        split
        · exact .pure trivial
        next hblocked =>
          refine (addConnections_returns conns vars).bind fun result hresult => ih _ ?_ _ rfl
          obtain ⟨hnext, hconnected⟩ := hresult
          have hle := unconnected_append_le game.ourHand vars.connected
            (conns.map fun conn => conn.order)
          cases hall : conns.all fun conn => conn.hidden with
          | false =>
            -- the next rank
            show identity.rank - (result.nextRank + 1) +
              unconnected game.ourHand result.connected < m
            rw [hnext, hconnected]
            omega
          | true =>
            -- the same rank again, with one card of ours less
            obtain rfl | ⟨conn, hconn, hhidden⟩ | ⟨conn, hconn, hmem, hnot⟩ := hsearch
            · exact absurd rfl hblocked
            · exact absurd (List.all_eq_true.1 hall conn hconn) (by simp [hhidden])
            · have horder : conn.order ∈ conns.map fun conn => conn.order :=
                List.mem_map.2 ⟨conn, hconn, rfl⟩
              have hlt : unconnected game.ourHand (vars.connected ++ conns.map fun c => c.order) <
                unconnected game.ourHand vars.connected := unconnected_append_lt hmem hnot horder
              show identity.rank - result.nextRank + unconnected game.ourHand result.connected < m
              rw [hnext, hconnected]
              omega
    next => exact .pure trivial

/-- A search that may be tried again, if that ends. -/
theorem findOwnFinesses_retried {looksDirect : Bool}
    (hretry : assumeTruth = false → Fuel.Returns (fun fuel => findOwnFinesses game action focus
      identity ignorePlayer selfRanks looksDirect fuel true) fun _ => True) :
    Fuel.Returns (fun fuel => findOwnFinesses game action focus identity ignorePlayer selfRanks
      looksDirect fuel assumeTruth) fun _ => True := by
  refine Fuel.Returns.step (fun fuel => by rw [findOwnFinesses]) ?_
  split
  · exact .pure trivial
  · refine (connectRanks_returns _).bind fun result _ => ?_
    cases result with
    | error e => exact .pure trivial
    | ok vars =>
      dsimp only
      split
      · exact .pure trivial
      · split
        · exact .pure trivial
        · split
          next hbluffed => exact (hretry hbluffed.2.1).map fun _ _ => trivial
          next => exact .pure trivial

end

/-- The search for own finesses ends, by returning connections or by throwing. -/
theorem findOwnFinesses_returns (game : OwnGame) (action : ClueAction) (focus : ℕ)
    (identity : Identity) (looksDirect : Bool) (ignorePlayer : Option ℕ) (selfRanks : List ℕ)
    (assumeTruth : Bool) :
    Fuel.Returns (fun fuel => findOwnFinesses game action focus identity ignorePlayer selfRanks
      looksDirect fuel assumeTruth) fun _ => True := by
  -- a search that assumes the truth is not tried again
  have htruth : Fuel.Returns (fun fuel => findOwnFinesses game action focus identity ignorePlayer
      selfRanks looksDirect fuel true) fun _ => True := findOwnFinesses_retried (by simp)
  exact findOwnFinesses_retried fun _ => htruth

/-- The cards that Bob and Cathy were dealt. -/
def redTwoCards : List Identity :=
  [⟨1, 3⟩, ⟨2, 4⟩, ⟨0, 2⟩, ⟨3, 3⟩, ⟨4, 4⟩, ⟨1, 4⟩, ⟨2, 3⟩, ⟨0, 4⟩, ⟨3, 5⟩, ⟨4, 3⟩]

/-- What a player thinks of the cards, after Bob's red 2 was clued with its rank. -/
def redTwoPlayer (playerIndex : Option ℕ) : ConnPlayer where
  playerIndex := playerIndex
  thoughts := ⟨15, fun o => if o < 15 then
    let possible := if o = 7 then (IdentitySet.full 5).intersect
      (IdentitySet.identitiesToMask [⟨0, 2⟩, ⟨1, 2⟩, ⟨2, 2⟩, ⟨3, 2⟩, ⟨4, 2⟩]) else .full 5
    some
      { id := if o < 5 ∨ playerIndex.all (o / 5 == ·) then none else redTwoCards[o - 5]?
        possible, inferred := possible, order := o
        clued := o == 7
        status := if o = 7 then some .clued else none }
    else none⟩
  allPossible := .full 5
  allInferred := .full 5
  hypoStacks := fun _ => 0

/-- Three players, nothing played: Cathy (2) clues Bob's (1) red 2. -/
def redTwoGame : OwnGame where
  level := 1
  state := {
    variant := noVariant
    numPlayers := 3
    ourPlayerIndex := 0
    turnCount := 3
    clueTokens := 5
    hands := fun p => if p < 3 then (List.range 5).reverse.map (5 * p + ·) else []
    deck := ⟨15, fun o => if o < 15 then
      some ⟨if o < 5 then none else redTwoCards[o - 5]?⟩ else none⟩
    cardsLeft := 35
    cardOrder := 14
    marks := fun o => { clued := o == 7 } }
  common := redTwoPlayer none
  players := fun p => redTwoPlayer (some p)
  newlyClued := (· == 7)
  thoughtNewlyClued := (· == 7)
  touchMarks o := if o = 7 then { clues := [⟨2, 3⟩], firstTouch := some ⟨2, 3⟩ } else {}
  deckTouches o := if o = 7 then [⟨2, 3⟩] else []
  nodup := by decide
  our_lt := by decide

/-- Cathy's clue. -/
def redTwoClue : ClueAction where
  giver := 2
  target := 1
  list := [7]
  clue := ⟨.rank, 2⟩

/-- The search takes Alice's newest card for the red 1. -/
theorem findOwnFinesses_returns_redTwo :
    Fuel.Returns (fun fuel => findOwnFinesses redTwoGame redTwoClue 7 ⟨0, 2⟩ none [] false fuel
      false) (fun _ => True) ∧
    ((findOwnFinesses redTwoGame redTwoClue 7 ⟨0, 2⟩ none [] false 40 false).bind fun search =>
      search.toOption.map fun conns =>
        conns.map fun conn => (conn.type, conn.reacting, conn.order, conn.identities)) =
      some [(.finesse, 0, 4, [⟨0, 1⟩])] :=
  ⟨findOwnFinesses_returns redTwoGame redTwoClue 7 ⟨0, 2⟩ false none [] false, by decide +kernel⟩

end HanabiBot.HGroup
