import HanabiBot.Endgame.Game

/-!
# The endgame solver

`solve_game` of `src/conventions/shared/endgame.js` arranges the identities that are
left over our unknown cards in every possible way, finds the best actions of each
arrangement by a search over the draws, and returns the action that is best for the
most likely arrangements.

`winnable` and `optimize` call each other; here `optimize` takes the search it calls
as an argument, and `winnable` passes itself with one unit of fuel less.
-/

namespace HanabiBot.Endgame

variable {κ : Type}

/-! ## The caches -/

/-- `simple_cache.get(hash)`. -/
def lookupSimple (hash : Key) : SolverM (Option (List BestAction)) := do
  let s ← get
  pure (if s.caching then s.simple hash else none)

/-- `simple_cache.set(hash, result)`. -/
def storeSimple (hash : Key) (result : List BestAction) : SolverM PUnit :=
  modify fun s => { s with simple := Function.update s.simple hash (some result) }

/-! ## The actions of a position -/

/-- An action to try, and the draws after which it may still win. -/
structure Offer where
  action : PerformAction
  winnableDraws : Option (List Identity)

/-- The clues given in a row up to now, over the turns from the last one back. -/
def consecutiveClues : List (Option (List Action)) → ℕ
  | [] => 0
  | none :: turns => consecutiveClues turns
  | some actions :: turns =>
    if actions.any Action.isClue then consecutiveClues turns + 1
    else if actions.any Action.isPlayOrDiscard then 0
    else consecutiveClues turns

/-- `winnable_if` with a search deep enough for the state. -/
def winnableIfNow (st : State) (playerTurn : ℕ) (action : PerformAction)
    (remainingIds : RemainingSet) : SolverM WinnableIf :=
  winnableIf (winnableSimpler (depthBound st + 1)) st playerTurn action remainingIds

/-- Offer an action if it may still win. -/
def offerIf (st : State) (playerTurn : ℕ) (remainingIds : RemainingSet) (action : PerformAction) :
    SolverM (Option Offer) := do
  let result ← winnableIfNow st playerTurn action remainingIds
  pure (if result.winnable then some ⟨action, result.winnableDraws⟩ else none)

/-- The discards that `possible_actions` looks at. -/
def discardsOf (conv : Convention κ) (g : Game κ) (playerTurn : ℕ) : List Discard :=
  let notUseful := (g.state.hands playerTurn).find? fun o =>
    g.state.isBasicTrashCard (g.state.identityOf o)
  let discards := conv.findDiscards g playerTurn
  match discards, notUseful with
  | [], some o => [⟨false, o⟩]
  | _, _ => discards

/-- The action of a discard; one that is not a misplay needs a token to gain. -/
def discardAction (st : State) (playerTurn : ℕ) (d : Discard) : Option PerformAction :=
  if d.misplay = false ∧ st.clueTokens = 8 then none
  else some (if d.misplay then .play playerTurn d.order else .discard playerTurn d.order)

/-- `clue_winnable`: a clue may win, unless too many were given in a row. -/
def clueWinnable (st : State) (playerTurn : ℕ) (remainingIds : RemainingSet) : SolverM Bool :=
  if st.numPlayers < consecutiveClues st.actionList.toList.reverse then
    pure false
  else do
    let result ← winnableIfNow st playerTurn (.anyClue playerTurn) remainingIds
    pure result.winnable

/-- The discards that `possible_actions` offers. -/
def offerDiscards (conv : Convention κ) (g : Game κ) (playerTurn : ℕ) (remainingIds : RemainingSet) :
    SolverM (List Offer) :=
  if 0 < g.state.pace then
    ((discardsOf conv g playerTurn).filterMap (discardAction g.state playerTurn)).filterMapM
      (offerIf g.state playerTurn remainingIds)
  else pure []

/-- The clues that `possible_actions` offers, if one may win. -/
def offerClues (conv : Convention κ) (g : Game κ) (playerTurn : ℕ) (winnable : Bool) : List Offer :=
  if 0 < g.state.clueTokens ∧ winnable = true then
    (conv.findClues g playerTurn).map fun c => ⟨.clue playerTurn c.target c.toBaseClue, some []⟩
  else []

/-- Some clue or other, if one may win and none was offered. -/
def offerAnyClue (st : State) (playerTurn : ℕ) (winnable : Bool) (clues : List Offer) :
    List Offer :=
  if 0 < st.clueTokens ∧ winnable = true ∧ clues.isEmpty = true then
    [⟨.anyClue playerTurn, some []⟩]
  else []

/-- The cards that the player knows to be playable. -/
def knownPlayables (conv : Convention κ) (g : Game κ) (playerTurn : ℕ) : List ℕ :=
  (conv.thinksPlayables g playerTurn).filter fun o => (g.state.identityOf o).isSome

/-- `possible_actions`. -/
def possibleActions (conv : Convention κ) (g : Game κ) (playerTurn : ℕ)
    (remainingIds : RemainingSet) : SolverM (List Offer) := do
  if ← timedOut then
    pure []
  else
    let plays ← ((knownPlayables conv g playerTurn).map (.play playerTurn)).filterMapM
      (offerIf g.state playerTurn remainingIds)
    let winnable ← clueWinnable g.state playerTurn remainingIds
    let clues := offerClues conv g playerTurn winnable
    let discards ← offerDiscards conv g playerTurn remainingIds
    pure (plays ++ clues ++ discards ++ offerAnyClue g.state playerTurn winnable clues)

/-! ## The search over the draws -/

/-- A game to go on with, and how likely it is. -/
structure HypoGame (κ : Type) where
  hypoGame : Game κ
  prob : Fraction
  remaining : RemainingSet
  drew : Option Identity := none

/-- The games after a play or discard: one for every identity that may be drawn. -/
def drawnGame (g : Game κ) (remainingIds : RemainingSet) (r : Remaining) :
    SolverM (HypoGame κ) := do
  let order := (g.state.cardOrder + 1).toNat
  let remaining ← Prog.ofOption .typeError (removeRemaining remainingIds r.id)
  pure
    { hypoGame :=
        { g with
          state := { g.state with deck := g.state.deck.set order ⟨some r.id⟩ }
          deckIds := g.deckIds.set order r.id }
      prob := ⟨r.missing, g.state.cardsLeft⟩
      remaining
      drew := some r.id }

/-- `gen_hypo_games`: the games after a clue, and those after a play or discard. -/
def genHypoGames (g : Game κ) (actions : List Offer) (remainingIds : RemainingSet) :
    SolverM (HypoGame κ × List (HypoGame κ)) := do
  let default : HypoGame κ := { hypoGame := g, prob := 1, remaining := remainingIds }
  if actions.all fun o => o.action.isClue then
    pure (default, [])
  else
    let drawn ← remainingIds.mapM (drawnGame g remainingIds)
    pure (default, if drawn.isEmpty then [default] else drawn)

/-- `advance_game`. -/
def advanceGame (conv : Convention κ) (g : Game κ) (action : PerformAction) : SolverM (Game κ) :=
  match action with
  | .anyClue _ =>
    pure
      { g with
        state :=
          { g.state with
            clueTokens := g.state.clueTokens - 1
            turnCount := g.state.turnCount + 1
            endgameTurns := Basics.tick g.state.endgameTurns } }
  | _ => do
    let act ← Prog.ofOption .typeError <|
      performToAction g.state action fun o => (g.state.deck.get o).map ActualCard.identity
    Prog.ofOption .gameError (conv.simulateAction g act)

/-- A search for the best actions of a position. -/
abbrev Search (κ : Type) := Game κ → ℕ → RemainingSet → SolverM (List BestAction)

/-- The drawn card is not among those after which the action may still win. -/
def unwinnableDraw (winnableDraws : Option (List Identity)) (drew : Option Identity) :
    SolverM Bool :=
  match drew, winnableDraws with
  | none, _ => pure false
  | some _, none => throw .typeError
  | some id, some draws => pure (!draws.contains id)

/-- The inner loop of `optimize`: the winrate of an action over the games it leads to, given
up on when it cannot reach `bestWinrate`. There is none if the time runs out. -/
def tryGames (conv : Convention κ) (search : Search κ) (next : ℕ) (offer : Offer)
    (bestWinrate : Fraction) :
    List (HypoGame κ) → Fraction → Fraction → SolverM (Option Fraction)
  | [], allWinrate, _ => pure (some allWinrate)
  | hypo :: hypoGames, allWinrate, remProb => do
    if ← unwinnableDraw offer.winnableDraws hypo.drew then
      tryGames conv search next offer bestWinrate hypoGames allWinrate remProb
    else if ← timedOut then
      throw (.unsolvedGame "timed out")
    else
      let newGame ← advanceGame conv hypo.hypoGame offer.action
      if newGame.state.maxScore < hypo.hypoGame.state.maxScore then
        -- some critical was lost
        tryGames conv search next offer bestWinrate hypoGames allWinrate remProb
      else
        let result ← search newGame next hypo.remaining
        if ← timedOut then
          pure none
        else
          match result with
          | [] => throw .typeError
          | best :: _ =>
            let allWinrate := allWinrate.plus (hypo.prob.multiply best.winrate)
            let remProb := remProb.subtract hypo.prob
            if (allWinrate.plus remProb).lessThan bestWinrate then
              pure (some allWinrate)
            else
              tryGames conv search next offer bestWinrate hypoGames allWinrate remProb

/-- The games that an action may lead to. -/
def gamesFor (hypoGames : HypoGame κ × List (HypoGame κ)) (action : PerformAction) :
    List (HypoGame κ) :=
  if action.isClue then [hypoGames.1] else hypoGames.2

/-- `optimize`, from the best winrate and actions so far. -/
def optimize (conv : Convention κ) (search : Search κ) (next : ℕ)
    (hypoGames : HypoGame κ × List (HypoGame κ)) :
    List Offer → Fraction → List PerformAction → SolverM (Fraction × List PerformAction)
  | [], bestWinrate, bestActions => pure (bestWinrate, bestActions)
  | offer :: offers, bestWinrate, bestActions => do
    match ← tryGames conv search next offer bestWinrate (gamesFor hypoGames offer.action) 0 1 with
    | none => pure (bestWinrate, [])
    | some allWinrate =>
      if allWinrate.equals 1 then
        pure (allWinrate, [offer.action])
      else if bestWinrate.lessThan allWinrate then
        optimize conv search next hypoGames offers allWinrate [offer.action]
      else if allWinrate.equals bestWinrate then
        optimize conv search next hypoGames offers bestWinrate (bestActions ++ [offer.action])
      else
        optimize conv search next hypoGames offers bestWinrate bestActions

/-- `possible_actions`, `gen_hypo_games` and `optimize` in a row. -/
def optimizeFrom (conv : Convention κ) (search : Search κ) (g : Game κ) (playerTurn : ℕ)
    (offers : List Offer) (remaining : RemainingSet) : SolverM (Fraction × List PerformAction) := do
  let hypoGames ← genHypoGames g offers remaining
  optimize conv search (g.state.nextPlayerIndex playerTurn) hypoGames offers 0 []

/-- `FAILURE`. -/
def failure : List BestAction := [⟨none, 0⟩]

/-- All the missing cards are critical, and none is a 5. -/
def bottomDecked (st : State) (remainingIds : RemainingSet) : Bool :=
  !remainingIds.isEmpty && remainingIds.all fun r => st.isCritical r.id && r.id.rank != 5

/-- `winnable`. -/
def winnable (conv : Convention κ) : ℕ → Search κ
  | 0, _, _, _ => throw .outOfFuel
  | fuel + 1, g, playerTurn, remainingIds => do
    let key := hash g ++ [.num playerTurn]
    match ← lookupSimple key with
    | some cachedResult => pure cachedResult
    | none =>
      if g.dealt = false then
        throw .typeError
      else
        match triviallyWinnable conv g playerTurn with
        | some action =>
          storeSimple key [⟨action, 1⟩]
          pure [⟨action, 1⟩]
        | none =>
          if ← timedOut then
            throw (.unsolvedGame "timed out")
          else if unwinnableState g.state playerTurn || bottomDecked g.state remainingIds then
            storeSimple key failure
            pure failure
          else
            let offers ← possibleActions conv g playerTurn remainingIds
            if offers.isEmpty then
              pure failure
            else
              let (bestWinrate, bestActions) ←
                optimizeFrom conv (winnable conv fuel) g playerTurn offers remainingIds
              let result := bestActions.map fun a => ⟨some a, bestWinrate⟩
              storeSimple key result
              pure result

/-! ## The arrangements -/

/-- Identities for our unknown cards, in order. -/
structure Arrangement where
  ids : List Identity
  prob : Fraction
  newRemaining : RemainingSet

/-- `new_remaining.reduce((acc, curr) => acc + curr.missing, 0)`. -/
def totalMissing (rem : RemainingSet) : ℕ := (rem.map Remaining.missing).sum

/-- The position of a game from which `solve_game` arranges the unknown cards. -/
structure Table (κ : Type) where
  game : Game κ
  /-- The state, with the identities of our own cards written on them. -/
  state : State
  unknownOwn : List ℕ

/-- Write identities on our own cards. -/
def writeIds (deck : SparseArray ActualCard) (ids : List OwnId) : SparseArray ActualCard :=
  ids.foldl (fun deck own => match own.id with
    | some id => deck.set own.order ⟨some id⟩
    | none => deck) deck

def table (g : Game κ) : Table κ where
  game := g
  state := { g.state with deck := writeIds g.state.deck (ownIds g) }
  unknownOwn := (ownIds g).filterMap fun own => if own.id.isNone then some own.order else none

/-- All other cards of the link are trash already in the arrangement. -/
def otherwiseTrash (t : Table κ) (ids : List Identity) (order : ℕ) (link : Link) : Bool :=
  link.orders.all fun o => o == order ||
    (t.unknownOwn.zip ids).any fun (o', id) => o' == o && t.state.isBasicTrash id

/-- Whether the next unknown card, `order`, may be `id`. -/
def assignable (t : Table κ) (ids : List Identity) (order : ℕ) (id : Identity) : Bool :=
  let st := t.state
  let possible := ((t.game.me.thoughts.get order).map Card.possible).getD ⟨0, 0⟩
  let matchesDeck := match st.identityOf order with
    | none => true
    | some id' => id' == id
  matchesDeck && possible.has id &&
    !(st.isBasicTrash id && !(possible.array.any st.isBasicTrash) &&
      -- we cannot assign a trash id if it is linked and all other orders are already trash
      (!(t.game.me.linkedOrders t.game.state).contains order ||
        t.game.me.links.all fun link =>
          !link.orders.contains order || otherwiseTrash t ids order link))

/-- `expand_arr`. -/
def expandArr (t : Table κ) (arr : Arrangement) : SolverM (List Arrangement) := do
  let order := t.unknownOwn.getD arr.ids.length 0
  (arr.newRemaining.filter fun r => assignable t arr.ids order r.id).mapM fun r => do
    let newRemaining ← Prog.ofOption .typeError (removeRemaining arr.newRemaining r.id)
    pure
      { ids := arr.ids ++ [r.id]
        prob := (arr.prob.multiply (.ofInt r.missing)).divide (.ofInt (totalMissing arr.newRemaining))
        newRemaining }

/-- The arrangements after some rounds of `expand_arr`. -/
def expandAll (t : Table κ) : ℕ → List Arrangement → SolverM (List Arrangement)
  | 0, arrs => pure arrs
  | n + 1, arrs => do
    let next ← arrs.mapM (expandArr t)
    expandAll t n next.flatten

def sumProb (arrs : List Arrangement) : Fraction := arrs.foldl (fun a c => a.plus c.prob) 0

/-- All arrangements, with their probabilities. -/
def arrange (t : Table κ) (remainingIds : RemainingSet) : SolverM (List Arrangement) := do
  let arrangements ← expandAll t t.unknownOwn.length [⟨[], 1, remainingIds⟩]
  if arrangements.any fun arr => (totalMissing arr.newRemaining : ℤ) != t.state.cardsLeft then
    throw .assertion
  else
    pure (arrangements.map fun arr => { arr with prob := arr.prob.divide (sumProb arrangements) })

/-! ## Sampling -/

/-- The positions of trash in an arrangement, written one after the other. -/
def trashHash (st : State) (arr : Arrangement) : List Char :=
  (Utils.findIndices arr.ids st.isBasicTrash).flatMap (Nat.toDigits 10)

/-- The array index that a property key spells, if it does. -/
def arrayIndex (key : List Char) : Option ℕ :=
  let n := key.foldl (fun n c => 10 * n + (c.toNat - '0'.toNat)) 0
  if Nat.toDigits 10 n = key ∧ n < 2 ^ 32 - 1 then some n else none

/-- `Object.values` and the keys: the array indices in ascending order, then the other keys as
inserted. -/
def objectEntries (groups : List (List Char × List Arrangement)) :
    List (List Char × List Arrangement) :=
  let indices := groups.filterMap fun group => (arrayIndex group.1).map fun n => (n, group)
  let others := groups.filter fun group => (arrayIndex group.1).isNone
  (indices.insertionSort fun a b => a.1 ≤ b.1).map Prod.snd ++ others

/-- At most three arrangements of a group, with the probability of the group between them. -/
def selected (arrs : List Arrangement) : List Arrangement :=
  let amt := min arrs.length 3
  (arrs.take amt).map fun arr => { arr with prob := (sumProb arrs).divide (.ofInt amt) }

/-- Push the selection of a group. The array `arrangements` is itself the group without trash,
so that this group has grown by what was pushed before its turn. -/
def pushSelected (arrangements : List Arrangement) (group : List Char × List Arrangement) :
    List Arrangement :=
  arrangements ++ selected (if group.1 = [] then arrangements else group.2)

/-- The `monte_carlo` step. -/
def sample (st : State) (arrangements : List Arrangement) : List Arrangement :=
  let trashArrs := Utils.groupBy arrangements (trashHash st)
  let trashless := ((trashArrs.find? fun group => group.1 = []).map Prod.snd).getD []
  (objectEntries trashArrs).foldl pushSelected trashless

/-! ## The best action -/

/-- An arrangement as a game. -/
structure ArrangedGame (κ : Type) where
  hypoGame : Game κ
  prob : Fraction
  remaining : RemainingSet

/-- Write the identities of an arrangement on our own cards. -/
def arrangedGame (t : Table κ) (arr : Arrangement) : ArrangedGame κ :=
  let assigned := t.unknownOwn.zip arr.ids
  { hypoGame :=
      { t.game with
        state :=
          { t.state with
            deck := assigned.foldl (fun deck (o, id) => deck.set o ⟨some id⟩) t.state.deck }
        deckIds :=
          assigned.foldl (fun deckIds (o, id) => deckIds.set o id) <|
            (ownIds t.game).foldl (fun deckIds own => match own.id with
              | some id => deckIds.set own.order id
              | none => deckIds) t.game.deckIds }
    prob := arr.prob
    remaining := arr.newRemaining }

/-- `arranged_games`. -/
def arrangedGames (t : Table κ) (arrangements : List Arrangement) : List (ArrangedGame κ) :=
  if arrangements.isEmpty then [⟨t.game, 1, []⟩] else arrangements.map (arrangedGame t)

/-- `best_performs`: the actions in the order in which they were first found, with their
winrates. The `index` of an entry is its position. -/
abbrev Performs := List (PerformAction × Fraction)

/-- Credit an action with a winrate. -/
def Performs.credit : Performs → PerformAction → Fraction → Performs
  | [], action, winrate => [(action, winrate)]
  | entry :: performs, action, winrate =>
    if entry.1 = action then (action, entry.2.plus winrate) :: performs
    else entry :: Performs.credit performs action winrate

/-- The best winrate and actions of an arrangement. -/
def bestOf (conv : Convention κ) (remainingIds : RemainingSet) (playerTurn : ℕ)
    (arr : ArrangedGame κ) : SolverM (Fraction × List PerformAction) := do
  let g := arr.hypoGame
  if ← timedOut then
    throw (.unsolvedGame "timed out")
  else
    let offers ← possibleActions conv g playerTurn remainingIds
    optimizeFrom conv (winnable conv (depthBound g.state + 1)) g playerTurn offers arr.remaining

/-- Credit the best actions of an arrangement, if any wins. -/
def creditAll (performs : Performs) (prob : Fraction) (best : Fraction × List PerformAction) :
    Performs :=
  if best.1.numerator ≠ 0 then
    best.2.foldl (fun performs a => performs.credit a (best.1.multiply prob)) performs
  else performs

/-- The loop over the arrangements. -/
def searchAll (conv : Convention κ) (remainingIds : RemainingSet) (playerTurn : ℕ) :
    List (ArrangedGame κ) → Performs → SolverM Performs
  | [], performs => pure performs
  | arr :: arrs, performs => do
    let best ← bestOf conv remainingIds playerTurn arr
    searchAll conv remainingIds playerTurn arrs (creditAll performs arr.prob best)

/-- `Utils.maxOn`: the first of the elements with the greatest value. -/
def maxOn {α δ : Type} [LinearOrder δ] (valueFunc : α → δ) : List α → Option α
  | [] => none
  | a :: arr =>
    some (arr.foldl (fun max b => if valueFunc max < valueFunc b then b else max) a)

/-- `1000 * winrate - index`. -/
def weight (entry : (PerformAction × Fraction) × ℕ) : Fraction :=
  (entry.1.2.multiply (.ofInt 1000)).subtract (.ofInt entry.2)

/-- `solve_game`. `time` is how often the clock can be read before the timeout that it sets,
and `toDecimal` is the division of floating-point numbers. -/
def solveGame {δ : Type} [LinearOrder δ] (toDecimal : Fraction → δ) (conv : Convention κ)
    (monteCarlo : Bool) (time : Option ℕ) (g : Game κ) (playerTurn : ℕ) : SolverM BestAction := do
  if g.dealt = false then
    throw .typeError
  else
    let remaining := remainingIds g
    if 2 < (remaining.filter fun r => !g.state.isBasicTrash r.id && r.all).length then
      let keys := ",".intercalate ((List.range remaining.length).map toString)
      throw (.unsolvedGame ("couldn't find any " ++ keys ++ "!"))
    else
      let t := table g
      modify fun s => { s with clock := time }
      if t.state.cardsLeft + t.unknownOwn.length = 0 then
        let hypoGame := { g with state := t.state }
        let result ← winnable conv (depthBound t.state + 1) hypoGame playerTurn remaining
        match result with
        | [] => throw .typeError
        | best :: _ =>
          if best.winrate.numerator = 0 then
            throw (.unsolvedGame "couldn't find a winning strategy")
          else
            pure best
      else
        let arrangements ← arrange t remaining
        let searched := if monteCarlo then sample t.state arrangements else arrangements
        let performs ← searchAll conv remaining playerTurn (arrangedGames t searched) []
        if ← timedOut then
          throw (.unsolvedGame "timed out")
        else
          match maxOn (fun entry => toDecimal (weight entry)) performs.zipIdx with
          | none => throw (.unsolvedGame "couldn't find a winning strategy")
          | some ((action, winrate), _) => pure ⟨some action, winrate⟩

end HanabiBot.Endgame
