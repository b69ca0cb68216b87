import HanabiBot.Basics.Reset

/-!
# Elimination by the Good Touch Principle

`good_touch_elim` of `src/basics/player-elim.js`: an identity that a touched card
is known or inferred to have is taken out of the inferences of the other cards.

* `addToMaps` — the closure that records which cards match an identity;
* `addCandidate`, `initialState` — everything before the first pass;
* `basicElim`, `crossElim` — the two passes;
* `goodTouchElim` — the passes, repeated until neither changes a card.

`newThoughts` is kept as the pair of `thoughts` (what `getThoughts` returns) and
`isNew` (which orders it holds): a card that is already in `newThoughts` is changed
in place, so a reference to it sees the change, and a card of `this.thoughts` is
copied first.  The maps are keyed by the names of the cards.  The loops whose list
grows or shrinks under them, and the rounds, take fuel.
-/

namespace HanabiBot.Elim

/-- What is read of a clue on a card and of its `firstTouch`. -/
structure Touch where
  giver : ℕ
  turn : ℕ
  deriving DecidableEq, Repr

/-- A card of `player.thoughts`, with the fields that only the elimination reads. -/
structure Thought extends Card where
  clues : List Touch := []
  firstTouch : Option Touch := none
  finesseIndex : ℤ := -1
  certainFinessed : Bool := false
  uncertain : Bool := false
  deriving DecidableEq

/-- `reset_inferences`. -/
def Thought.resetInferences (card : Thought) : Thought :=
  { card with toCard := card.toCard.resetInferences }

/-- The player whose thoughts are eliminated; the common player has no index. -/
structure Observer where
  playerIndex : Option ℕ
  thoughts : ℕ → Thought
  elims : Variant.CardName → List ℕ := fun _ => []

/-- The state, with the clues on the cards of its deck. No card is in two hands. -/
structure Table extends State where
  clues : ℕ → List Touch := fun _ => []
  nodup : toState.allOrders.Nodup

/-- `state.hands.findIndex(hand => hand.includes(order))`; `-1` is `none`. -/
def Table.holder (state : Table) (order : ℕ) : Option ℕ :=
  (List.range state.numPlayers).find? fun i => (state.hands i).contains order

/-- An element of `elim_candidates`. -/
structure Candidate where
  order : ℕ
  playerIndex : ℕ
  cm : Bool
  deriving DecidableEq, Repr

/-- The variables that the closures of `good_touch_elim` share. -/
structure ElimState where
  /-- `getThoughts`. -/
  thoughts : ℕ → Thought
  /-- `newThoughts.has`. -/
  isNew : ℕ → Bool := fun _ => false
  /-- `newElims`. -/
  elims : Variant.CardName → List ℕ
  matchMap : Variant.CardName → Option (List ℕ) := fun _ => none
  hardMatchMap : Variant.CardName → Option (List ℕ) := fun _ => none
  /-- The value of a set of inferences, with the orders that have it. -/
  crossMap : List (ℕ × List ℕ) := []
  elimCandidates : List Candidate := []
  identities : IdentitySet
  /-- The calls of `reset_inferences` so far. -/
  resets : List ℕ := []

namespace ElimState

/-- `newThoughts.set(order, card)`. -/
def setThought (s : ElimState) (order : ℕ) (card : Thought) : ElimState :=
  { s with
    thoughts := Function.update s.thoughts order card
    isNew := Function.update s.isNew order true }

/-- `updateThoughts(order, draft => draft.inferred = inferred)`. -/
def setInferred (s : ElimState) (order : ℕ) (inferred : IdentitySet) : ElimState :=
  s.setThought order { s.thoughts order with inferred := inferred }

/-- `newThoughts.set(order, card.reset_inferences())`. -/
def resetThought (s : ElimState) (order : ℕ) (card : Thought) : ElimState :=
  { s.setThought order card.resetInferences with resets := s.resets ++ [order] }

/-- `newElims.set(id_hash, (newElims.get(id_hash) ?? []).concat(order))`. -/
def addElim (s : ElimState) (idHash : Variant.CardName) (order : ℕ) : ElimState :=
  { s with elims := Function.update s.elims idHash (s.elims idHash ++ [order]) }

end ElimState

/-- `(set ?? new Set()).add(order)`. -/
def addOrder (orders : Option (List ℕ)) (order : ℕ) : List ℕ :=
  if order ∈ orders.getD [] then orders.getD [] else orders.getD [] ++ [order]

/-- Adds an order to the entry of `cross_map` for the value; an entry that is
already there keeps its position. -/
def addCross (crossMap : List (ℕ × List ℕ)) (value order : ℕ) : List (ℕ × List ℕ) :=
  if crossMap.any (·.1 == value) then
    crossMap.map fun e => if e.1 = value then (e.1, addOrder (some e.2) order) else e
  else crossMap ++ [(value, addOrder none order)]

section

variable (player : Observer) (state : Table)

/-- `hard_match_map` after an order was added for `id`. When one match too many is
known and one of them is visible, no match is hard. -/
def dropVisible (id : Identity) (softMatches : List ℕ)
    (hardMatchMap : Variant.CardName → Option (List ℕ)) : Variant.CardName → Option (List ℕ) :=
  match hardMatchMap (state.variant.logCard id) with
  | none => hardMatchMap
  | some hardMatches =>
    if state.baseCount id + softMatches.length > state.cardCount id &&
        (softMatches ++ hardMatches).any fun o => state.identityOf o == some id then
      Function.update hardMatchMap (state.variant.logCard id) none
    else hardMatchMap

/-- `addToMaps`. -/
def addToMaps (order : ℕ) (holder : Option ℕ) (s : ElimState) : ElimState :=
  let card := s.thoughts order
  if !card.touched || card.uncertain then s
  else
    match card.identity
        { infer := true
          symmetric := player.playerIndex.isNone || player.playerIndex == holder } with
    | none =>
      if card.inferred.length < 5 && player.playerIndex.isNone then
        { s with crossMap := addCross s.crossMap card.inferred.value order }
      else s
    | some id =>
      let idHash := state.variant.logCard id
      let softMatches := addOrder (s.matchMap idHash) order
      let hardMatchMap :=
        if card.matchesId id {} || card.focused then
          Function.update s.hardMatchMap idHash (some (addOrder (s.hardMatchMap idHash) order))
        else s.hardMatchMap
      { s with
        matchMap := Function.update s.matchMap idHash (some softMatches)
        hardMatchMap := dropVisible state id softMatches hardMatchMap }

/-! ## Before the first pass -/

/-- The inferences of all cards in hand. -/
def handIdentities : IdentitySet :=
  state.allOrders.foldl (fun ids order => ids.union (player.thoughts order).inferred.value)
    ⟨state.variant.suits.length, 0⟩

/-- `trash_ids`. -/
def trashIds : List Identity := (handIdentities player state).array.filter state.isBasicTrash

/-- The body of the loop over the cards of player `i`. -/
def addCandidate (i order : ℕ) (s : ElimState) : ElimState :=
  let s := addToMaps player state order (some i) s
  let card := player.thoughts order
  if card.trash || (card.identity { symmetric := true }).isSome then s
  else if card.inferred.length > 0 && card.possible.array.any (fun p => !state.isBasicTrash p) &&
      !card.certainFinessed && (card.touched || card.status == some .cm) then
    -- touched cards always elim, chop moved cards can asymmetric/visible elim
    let cm := !card.touched && player.playerIndex.isNone
    let s := { s with elimCandidates := s.elimCandidates ++ [⟨order, i, cm⟩] }
    let trash := IdentitySet.identitiesToMask (trashIds player state)
    if (card.inferred.intersect trash).length > 0 then
      if card.status != some .cm && (card.inferred.subtract trash).length == 0 && !card.reset then
        s.resetThought order card
      else s.setInferred order (card.inferred.subtract trash)
    else s
  else s

/-- The variables before the first pass. -/
def initialState (onlySelf : Bool) : ElimState :=
  (List.range state.numPlayers).foldl
    (fun s i =>
      if onlySelf && some i != player.playerIndex then s
      else (state.hands i).foldl (fun s order => addCandidate player state i order s) s)
    { thoughts := player.thoughts
      elims := player.elims
      identities := (handIdentities player state).subtract
        (IdentitySet.identitiesToMask (trashIds player state)) }

/-! ## `basic_elim` -/

/-- The variables of `basic_elim`. -/
structure BasicPass extends ElimState where
  currIdentities : List Identity
  newIdentities : IdentitySet
  changed : Bool := false

/-- Whether none of the matches can be the identity. -/
def badElim (identity : Identity) (matched : List ℕ) : Bool :=
  !matched.isEmpty && matched.all fun order =>
    -- card is visible and doesn't match
    (state.identityOf order).any (· != identity) ||
    -- card cannot match
    state.baseCount identity +
      (state.allOrders.filter fun o => state.identityOf o == some identity && o != order).length ==
        state.cardCount identity

/-- The matches to eliminate an identity with, unless it is skipped. -/
def usableMatches (identity : Identity) (s : ElimState) : Option (List ℕ) :=
  (s.matchMap (state.variant.logCard identity)).bind fun softMatches =>
    let matched := (s.hardMatchMap (state.variant.logCard identity)).getD softMatches
    if badElim state identity matched then none else some matched

/-- `visible_elim`. -/
def visibleElim (identity : Identity) (matched : List ℕ) : Bool :=
  (state.allOrders.any fun o => matched.contains o && (state.identityOf o).all (· == identity)) &&
    decide (state.baseCount identity + matched.length ≥ state.cardCount identity)

/-- `asymmetric_gt`: whether every match was from the clue giver, or vice versa. -/
def asymmetricGt (identity : Identity) (matched : List ℕ) (c : Candidate) (s : ElimState) : Bool :=
  let firstTouch := (s.thoughts c.order).firstTouch
  !state.isCritical identity && !(c.cm && visibleElim state identity matched) &&
    !matched.isEmpty &&
    ((matched.all fun o => (s.thoughts o).firstTouch.any fun touch =>
        touch.giver == c.playerIndex && decide (touch.turn > (firstTouch.map Touch.turn).getD 0)) ||
      firstTouch.any fun touch => matched.all fun o =>
        (state.hands touch.giver).contains o && decide ((s.thoughts o).possibilities.length > 1))

/-- `self_elim`. -/
def selfElim (identity : Identity) (matched : List ℕ) (c : Candidate) (s : ElimState) : Bool :=
  player.playerIndex.isSome && !matched.isEmpty && matched.all fun o =>
    (state.hands c.playerIndex).contains o &&
      (s.thoughts o).identity { infer := true, symmetric := true } != some identity

/-- `elim_candidates.splice(elim_candidates.findIndex(c => c.order === order), 1)`, where
the order is that of a candidate. -/
def BasicPass.dropCandidate (s : BasicPass) (order : ℕ) : BasicPass :=
  { s with elimCandidates := s.elimCandidates.eraseP fun c => c.order == order }

/-- Adds the identity of a newly eliminated card to `curr_identities`. -/
def pushEliminated (oldInferred newInferred : IdentitySet) (s : BasicPass) : BasicPass :=
  match newInferred.only? with
  | some id =>
    if oldInferred.length > 1 && !state.isBasicTrash id then
      { s with currIdentities := s.currIdentities ++ [id] }
    else s
  | none => s

/-- Takes the identity out of the inferences of a candidate. -/
def eliminate (identity : Identity) (c : Candidate) (s : BasicPass) : BasicPass :=
  let oldCard := s.thoughts c.order
  let newInferred := oldCard.inferred.subtract (IdentitySet.toMask identity)
  -- `old_card` is the card that was written to if it was in `newThoughts`
  let oldInferred := if s.isNew c.order then newInferred else oldCard.inferred
  let t : BasicPass :=
    { s with
      toElimState := (s.setInferred c.order newInferred).addElim
        (state.variant.logCard identity) c.order
      newIdentities := s.newIdentities.subtract (IdentitySet.toMask identity)
      changed := true }
  if c.cm then t
  else if newInferred.length == 0 && !oldCard.reset then
    { t with toElimState := t.resetThought c.order (t.thoughts c.order) }
  else pushEliminated state oldInferred newInferred t

/-- The body of the loop over `elim_candidates`. -/
def elimCandidate (identity : Identity) (matched : List ℕ) (c : Candidate) (s : BasicPass) :
    BasicPass :=
  let oldCard := s.thoughts c.order
  if matched.contains c.order || oldCard.inferred.length == 0 || !oldCard.inferred.has identity then s
  else if asymmetricGt state identity matched c s.toElimState then s
  else if selfElim player state identity matched c s.toElimState then s
  -- so that Bob still plays into it
  else if oldCard.blindPlaying && (oldCard.finesseIndex == state.turnCount ||
      oldCard.finesseIndex == (state.turnCount : ℤ) - 1) then
    { s with toElimState := s.setThought c.order { oldCard with certainFinessed := true }
      }.dropCandidate c.order
  else if oldCard.blindPlaying && c.playerIndex == state.ourPlayerIndex &&
      !matched.any fun o => (s.thoughts o).focused then
    s.dropCandidate c.order
  -- can't visible elim on cm card (not visible, or same hand)
  else if c.cm && !visibleElim state identity matched then s
  else eliminate state identity c s

/-- The loop over `elim_candidates`, which may lose elements on the way. -/
def elimCandidates (identity : Identity) (matched : List ℕ) :
    ℕ → ℕ → BasicPass → Option BasicPass
  | 0, _, _ => none
  | fuel + 1, i, s =>
    match s.elimCandidates[i]? with
    | none => some s
    | some c =>
      elimCandidates identity matched fuel (i + 1) (elimCandidate player state identity matched c s)

/-- The loop over `curr_identities`, which may gain elements on the way. -/
def elimIdentities : ℕ → ℕ → BasicPass → Option BasicPass
  | 0, _, _ => none
  | fuel + 1, i, s =>
    match s.currIdentities[i]? with
    | none => some s
    | some identity =>
      match usableMatches state identity s.toElimState with
      | none => elimIdentities fuel (i + 1) s
      | some matched =>
        (elimCandidates player state identity matched fuel 0 s).bind fun s =>
          elimIdentities fuel (i + 1) s

/-- The end of `basic_elim`. -/
def finishBasic (s : BasicPass) : ElimState :=
  { s.elimCandidates.foldl
      (fun s c => addToMaps player state c.order (some c.playerIndex) s) s.toElimState with
    identities := s.newIdentities }

/-- `basic_elim`: whether it changed a card, and the variables after it. -/
def basicElim (fuel : ℕ) (s : ElimState) : Option (Bool × ElimState) :=
  (elimIdentities player state fuel 0
    { s with currIdentities := s.identities.array, newIdentities := s.identities }).bind fun s =>
      some (s.changed, finishBasic player state s)

/-! ## `cross_elim` -/

/-- `asymmetric_gt` of `cross_elim`, for the orders of two cards and what is thought of them. -/
def crossAsymmetricGt (id : Identity) (o o2 : ℕ) (card card2 : Thought) : Bool :=
  let origClue := card.clues.head?
  !state.isCritical id &&
    (((state.clues o2).head?.any fun clue => some clue.giver == state.holder o &&
        decide (clue.turn > (origClue.map Touch.turn).getD 0)) ||
      ((origClue.any fun clue => some clue.giver == state.holder o2) &&
        decide (card2.possibilities.length > 1)))

/-- One pair of cards of the double loop in `cross_elim`. `card` is what `getThoughts`
returned for the first card before the inner loop, and `isNew` whether that is
the card that the loop writes to. -/
def crossPair (isNew : Bool) (card : Thought) (o : ℕ) (r : ElimState × Bool) (o2 : ℕ) :
    ElimState × Bool :=
  match state.identityOf o2 with
  | none => r
  | some id =>
    if crossAsymmetricGt state id o o2 card (r.1.thoughts o2) then r
    else if o != o2 && state.holder o != state.holder o2 &&
        (bif isNew then r.1.thoughts o else card).inferred.has id then
      (r.1.setInferred o ((r.1.thoughts o).inferred.subtract (IdentitySet.toMask id)), true)
    else r

/-- The inner loop of `cross_elim`. -/
def crossCard (orders : List ℕ) (r : ElimState × Bool) (o : ℕ) : ElimState × Bool :=
  orders.foldl (crossPair state (r.1.isNew o) (r.1.thoughts o) o) r

/-- The double loop of `cross_elim`: the variables after it and whether it changed a card. -/
def crossSet (orders : List ℕ) (s : ElimState) : ElimState × Bool :=
  orders.foldl (crossCard state orders) (s, false)

/-- What follows a change in `cross_elim`. -/
def readd (i : ℕ) (orders : List ℕ) (s : ElimState) : ElimState :=
  orders.foldl (fun s order => addToMaps player state order (state.holder order) s)
    { s with crossMap := s.crossMap.eraseIdx i }

/-- The loop over `cross_map`: an entry that is deleted makes room for the next. -/
def crossSets : ℕ → ℕ → Bool → ElimState → Option (Bool × ElimState)
  | 0, _, _, _ => none
  | fuel + 1, i, changed, s =>
    match s.crossMap[i]? with
    | none => some (changed, s)
    | some (idens, orders) =>
      -- there aren't the correct number of cards sharing this set of identities
      if orders.length ≠ (IdentitySet.mk state.variant.suits.length idens).length then
        crossSets fuel (i + 1) changed s
      else if (crossSet state orders s).2 then
        crossSets fuel i true (readd player state i orders (crossSet state orders s).1)
      else crossSets fuel (i + 1) changed (crossSet state orders s).1

/-- `cross_elim`. -/
def crossElim (fuel : ℕ) (s : ElimState) : Option (Bool × ElimState) :=
  crossSets player state fuel 0 false s

/-! ## The rounds -/

/-- `while (basic_changed || cross_changed)`. -/
def elimRounds : ℕ → Bool → Bool → ElimState → Option ElimState
  | 0, _, _, _ => none
  | fuel + 1, basicChanged, crossChanged, s =>
    if basicChanged || crossChanged then
      (basicElim player state fuel s).bind fun r =>
        if r.1 || crossChanged then
          (crossElim player state fuel r.2).bind fun r' => elimRounds fuel r.1 r'.1 r'.2
        else elimRounds fuel r.1 crossChanged r.2
    else some s

/-- `good_touch_elim`: the player with the new thoughts, and the cards that were reset. -/
def goodTouchElim (onlySelf : Bool) (fuel : ℕ) : Option (Observer × List ℕ) :=
  (basicElim player state fuel (initialState player state onlySelf)).bind fun r =>
    (crossElim player state fuel r.2).bind fun r' =>
      (elimRounds player state fuel r.1 r'.1 r'.2).bind fun s =>
        some ({ player with thoughts := s.thoughts, elims := s.elims }, s.resets)

end

end HanabiBot.Elim
