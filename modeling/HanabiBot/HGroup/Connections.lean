import HanabiBot.HGroup.Hypo

/-!
# Connections

The cards that have to play before another one can: `Connection` and
`WaitingConnection` of `src/types.js`, and `find_known_connecting` of
`src/conventions/h-group/clue-interpretation/connecting-cards.js`, which looks for a
card that everybody knows will play.

The search goes through the cards known to be the identity, those linked to it, those
that are going to play and match it, and last the giver's own cards.
-/

namespace HanabiBot.HGroup

/-- The type of a connection. -/
inductive ConnectionType
  | known | playable | prompt | finesse | positional
  deriving DecidableEq

/-- `Connection`. -/
structure Connection where
  type : ConnectionType
  reacting : ℕ
  order : ℕ
  identities : List Identity
  self : Bool := false
  hidden : Bool := false
  bluff : Bool := false
  linked : Option (List ℕ) := none
  deriving DecidableEq

/-- `WaitingConnection`. -/
structure WaitingConnection where
  connections : List Connection
  giver : ℕ
  target : ℕ
  connIndex : ℕ := 0
  turn : ℕ
  focus : ℕ
  inference : Identity
  actionIndex : ℕ
  ambiguousPassback : Bool := false
  selfPassback : Bool := false
  symmetric : Bool := false
  rewinded : Bool := false
  deriving DecidableEq

/-- A player with the waiting connections. -/
structure ConnPlayer extends HypoPlayer where
  waitingConnections : List WaitingConnection := []

/-- A game as one player keeps it. -/
structure ConnGame where
  level : ℕ
  state : HState
  common : ConnPlayer
  players : ℕ → ConnPlayer

namespace ConnGame

def me (game : ConnGame) : ConnPlayer := game.players game.state.ourPlayerIndex

def toHypoGame (game : ConnGame) : HypoGame where
  level := game.level
  state := game.state
  common := game.common.toHypoPlayer
  players := fun p => (game.players p).toHypoPlayer

end ConnGame

/-- `state.deck[order].matches(identity)`. -/
def HState.isIdentity (st : HState) (order : ℕ) (identity : Identity) : Bool :=
  st.identityOf order == some identity

/-- `playersBetween`. -/
def playersBetween (numPlayers start finish : ℕ) : List ℕ :=
  (List.range' 1 ((finish + numPlayers - start) % numPlayers - 1)).map fun inc =>
    (start + inc) % numPlayers

/-- `inBetween`. -/
def inBetween (numPlayers playerIndex giver target : ℕ) : Bool :=
  (playersBetween numPlayers giver target).contains playerIndex

/-- Whether all clues on a card are one rank clue of another rank. -/
def pinkMismatch (clues : List BaseClue) (rank : ℕ) : Bool :=
  (clues.all fun c1 => clues.all fun c2 => c1 == c2) &&
    clues.head?.any fun clue => clue.type == .rank && clue.value != rank

/-- What `find_known_connecting` returns: a connection, or the order to look no further. -/
inductive KnownConnecting
  | connection (conn : Connection)
  | terminate
  deriving DecidableEq

/-- The options of `find_known_connecting`. -/
structure KnownOptions where
  knownOnly : List ℕ := []
  playerOrder : Option (List ℕ) := none

section

variable (game : ConnGame) (giver : ℕ) (identity : Identity) (ignoreOrders : List ℕ)

/-- Whether the card is in a waiting connection on us that nobody can be sure of. -/
def mayBeFake (order : ℕ) (wc : WaitingConnection) : Bool :=
  let pending := wc.connections.drop wc.connIndex
  match pending.findIdx? fun conn => conn.order == order with
  | none => false
  | some k => wc.target == game.state.ourPlayerIndex &&
      (pending.take (k + 1)).any fun conn => conn.type == .finesse || conn.type == .prompt

/-- `possibly_fake`. -/
def possiblyFake (order : ℕ) : Bool :=
  giver == game.state.ourPlayerIndex &&
    game.common.waitingConnections.any (mayBeFake game order)

/-- The inferences of a card once those that will be proven false are removed. -/
def inferencesAfter (playerIndex order : ℕ) (card : Card) : IdentitySet :=
  -- the giver can't eliminate from their own hand
  if giver = playerIndex then card.inferred
  else
    let inferences := card.inferred.subtract <| IdentitySet.identitiesToMask <|
      card.inferred.array.filter fun inf =>
        inf.suitIndex == identity.suitIndex && decide (inf.rank < identity.rank)
    -- if a waiting connection will reveal this card, assume it will be known in time
    match game.common.waitingConnections.find? fun conn =>
        !conn.symmetric && conn.focus == order && conn.target != game.state.ourPlayerIndex with
    | some conn => inferences.intersect (IdentitySet.toMask conn.inference)
    | none => inferences

/-- Whether a card is globally known to be the identity. -/
def isGloballyKnown (playerIndex order : ℕ) : Bool :=
  let st := game.state
  (game.common.thoughts.get order).any fun card =>
    !(ignoreOrders.contains order || !card.touched || !st.deckMatches order identity ||
        ((game.common.marks order).uncertain && possiblyFake game giver order) ||
        (game.common.linkedOrders st.toState).contains order) &&
      !(playerIndex == st.ourPlayerIndex && (game.me.linkedOrders st.toState).contains order) &&
      Card.matchesId
        { card with inferred := inferencesAfter game giver identity playerIndex order card }
        identity { infer := true, symmetric := true }

/-- `globally_known`. -/
def globallyKnown (playerIndex : ℕ) : Option ℕ :=
  (game.state.hands playerIndex).find?
    (isGloballyKnown game giver identity ignoreOrders playerIndex)

/-- `known_link`: a link that promises the identity on one of its cards. -/
def knownLink (order : ℕ) : Option Link :=
  game.common.links.find? fun link => link.promised && link.identities.contains identity &&
    link.orders.contains order && decide (link.identities.length ≤ link.orders.length)

/-- The connection through a linked card. -/
def knownLinked (playerIndex : ℕ) : Option Connection :=
  ((game.state.hands playerIndex).find? fun order => !ignoreOrders.contains order &&
    game.state.deckMatches order identity && (knownLink game identity order).isSome).bind
    fun order => (knownLink game identity order).bind fun link =>
      -- the card could be linked for another identity, then we can't build on anything
      if game.common.links.any fun other => other.promised && !other.identities.contains identity &&
          other.orders.contains order then none
      else some { type := .playable, reacting := playerIndex, order, linked := some link.orders
                  identities := [identity] }

/-- The connection to a known card. -/
def knownConnection (playerIndex order : ℕ) : Connection :=
  { type := .known, reacting := playerIndex, order, identities := [identity] }

/-- What a player has for the first loop; order 0 counts as no card. -/
def firstKnown (playerIndex : ℕ) : Option Connection :=
  match globallyKnown game giver identity ignoreOrders playerIndex with
  | some (order + 1) => some (knownConnection identity playerIndex (order + 1))
  | _ => knownLinked game identity ignoreOrders playerIndex

/-- Unknown playables that could match. -/
def unknownPlayables (playerIndex : ℕ) : List ℕ :=
  let st := game.state
  (st.hands playerIndex).filter fun order => (game.common.thoughts.get order).any fun card =>
    !ignoreOrders.contains order && card.touched && card.inferred.has identity &&
      (card.inferred.array.all st.isPlayable || game.common.hypoPlays.contains order ||
        card.blindPlaying) &&
      !(game.common.marks order).uncertain

/-- The giver is us, and a clued card of ours could be the identity. -/
def couldBeDuplicated : Bool :=
  giver == game.state.ourPlayerIndex && (game.state.hands giver).any fun o =>
    (game.state.marks o).clued &&
      ((game.players giver).thoughts.get o).any fun card => card.inferred.has identity

/-- A round of the second loop: `none` goes on with the next player. -/
def visiblePlayable (options : KnownOptions) (playerIndex : ℕ) : Option (Option KnownConnecting) :=
  if options.knownOnly.contains playerIndex then none
  else
    let playables := unknownPlayables game identity ignoreOrders playerIndex
    let found := playables.find? fun o => game.state.isIdentity o identity
    -- it could be duplicated in the giver's hand: disallow hidden delayed play
    if 1 < playables.length ∧ couldBeDuplicated game giver identity = true then
      some (found.map fun _ => .terminate)
    else found.map fun order => some <| .connection
      { type := .playable, reacting := playerIndex, order, linked := some playables
        identities := [identity] }

/-- `missing_ids`: the copies of a card's inferences that the giver cannot see. -/
def missingIds (order : ℕ) (card : Card) : List Identity :=
  let st := game.state
  card.inferred.array.flatMap fun i =>
    let amount : ℤ := st.cardCount i - st.baseCount i -
      (visibleFind false st (game.players giver).toHGroupPlayer i).length -
      (if st.isIdentity order i then 1 else 0)
    List.replicate amount.toNat i

/-- Whether the giver can know about a card of their own. -/
def knownToGiver (order : ℕ) : Bool :=
  !ignoreOrders.contains order && game.state.isIdentity order identity &&
    (game.common.thoughts.get order).any fun card =>
      match missingIds game giver order card with
      | [] => true
      -- we could hold the one card that is missing
      | [missing] => (game.state.hands game.state.ourPlayerIndex).any fun o =>
          !ignoreOrders.contains o && (game.me.possible o).has missing
      | _ => false

/-- `giver_asymmetric`. -/
def giverAsymmetric (options : KnownOptions) : Option ℕ :=
  if options.playerOrder.all fun order => order.contains giver then
    (game.state.hands giver).find? (knownToGiver game giver identity ignoreOrders)
  else none

/-- `known_play_order`. -/
def knownPlayOrder (options : KnownOptions) : List ℕ :=
  options.playerOrder.getD <|
    (List.range game.state.numPlayers).map fun i =>
      (game.state.numPlayers + giver + i) % game.state.numPlayers

/-- `visible_play_order`. -/
def visiblePlayOrder (options : KnownOptions) : List ℕ :=
  options.playerOrder.getD <|
    (List.range' 1 (game.state.numPlayers - 1)).map fun i => (giver + i) % game.state.numPlayers

/-- The search after the first loop. -/
def laterConnecting (options : KnownOptions) : Option KnownConnecting :=
  match (visiblePlayOrder game giver options).findSome?
      (visiblePlayable game giver identity ignoreOrders options) with
  | some result => result
  | none => (giverAsymmetric game giver identity ignoreOrders options).map fun order =>
      .connection (knownConnection identity giver order)

/-- `find_known_connecting`. -/
def findKnownConnecting (options : KnownOptions) : Option KnownConnecting :=
  match (knownPlayOrder game giver options).findSome?
      (firstKnown game giver identity ignoreOrders) with
  | some conn => some (.connection conn)
  | none => laterConnecting game giver identity ignoreOrders options

end

/-! ## Known cards are not hidden -/

section

variable {game : ConnGame} {giver playerIndex : ℕ} {identity : Identity} {ignoreOrders : List ℕ}
  {options : KnownOptions} {conn : Connection}

theorem firstKnown_hidden (h : firstKnown game giver identity ignoreOrders playerIndex = some conn) :
    conn.hidden = false := by
  unfold firstKnown at h
  split at h
  · obtain rfl := Option.some.inj h
    rfl
  · rw [knownLinked] at h
    obtain ⟨order, -, h⟩ := Option.bind_eq_some_iff.1 h
    obtain ⟨link, -, h⟩ := Option.bind_eq_some_iff.1 h
    split_ifs at h
    obtain rfl := Option.some.inj h
    rfl

theorem visiblePlayable_hidden
    (h : visiblePlayable game giver identity ignoreOrders options playerIndex =
      some (some (.connection conn))) : conn.hidden = false := by
  simp only [visiblePlayable] at h
  split_ifs at h
  · obtain ⟨order, -, h⟩ := Option.map_eq_some_iff.1 (Option.some.inj h)
    cases h
  · obtain ⟨order, -, h⟩ := Option.map_eq_some_iff.1 h
    simp only [Option.some.injEq, KnownConnecting.connection.injEq] at h
    subst h
    rfl

theorem findKnownConnecting_hidden
    (h : findKnownConnecting game giver identity ignoreOrders options = some (.connection conn)) :
    conn.hidden = false := by
  unfold findKnownConnecting at h
  split at h
  next found hfound =>
    simp only [Option.some.injEq, KnownConnecting.connection.injEq] at h
    subst h
    obtain ⟨playerIndex, -, hfirst⟩ := List.exists_of_findSome?_eq_some hfound
    exact firstKnown_hidden hfirst
  next =>
    unfold laterConnecting at h
    split at h
    next hvisible =>
      subst h
      obtain ⟨playerIndex, -, hplayable⟩ := List.exists_of_findSome?_eq_some hvisible
      exact visiblePlayable_hidden hplayable
    next =>
      obtain ⟨order, -, h⟩ := Option.map_eq_some_iff.1 h
      simp only [KnownConnecting.connection.injEq] at h
      subst h
      rfl

end

end HanabiBot.HGroup
