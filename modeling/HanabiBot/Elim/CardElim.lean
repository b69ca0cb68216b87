import HanabiBot.Basics.Card
import HanabiBot.Tools.Util

/-!
# Elimination by empathy

`card_elim` of `src/basics/player-elim.js`: what is possible of each card, given
what is possible of the others and how many copies there are.

* `updateMap` — takes an identity out of the cards of the players not excluded;
* `basicElim` — does so for the identities whose copies are all known;
* `crossElim` — finds sets of cards that hold all copies of some identities;
* `endgameElim` — with no card left to draw, what the common player can tell.

The closures share `ElimVars`.  The recursion of `basic_elim`, the search for
subsets and the driver loop take fuel.  `losses` is not in the source: it notes
where a consequence of an elimination is dropped and has no effect on the rest.
-/

namespace HanabiBot.CardElim

/-- Why `card_elim` does not return. -/
inductive ElimError
  /-- A card of a hand has no thought (a `TypeError`). -/
  | missing
  /-- `order … has no more possible ids after removing …! <hand> <playerIndex>`. -/
  | noMorePossible (order : ℕ) (id : Identity) (hand : List ℕ) (playerIndex : Option ℕ)
  /-- The fuel is used up. -/
  | fuel
  deriving DecidableEq, Repr

/-- Where a consequence of an elimination is dropped. -/
inductive Loss
  /-- A card that becomes certain is reset instead of being recorded as certain. -/
  | reset
  /-- A card becomes eligible for `cross_elim`, or stops being so, after the candidates were
  collected. -/
  | candidates
  /-- `basic_elim` overwrites the newly certain identities of one removal with those of another. -/
  | overwritten
  /-- `cross_elim` does not follow the newly certain identities of a removal. -/
  | ignored
  /-- `perform_elim` changes a card and does not report it. -/
  | unreported
  /-- The last `endgame_elim` changes a card. -/
  | unfollowed
  deriving DecidableEq, Repr

/-- The variables that the closures of `card_elim` share. -/
structure ElimVars where
  /-- `getThoughts`. -/
  thoughts : ℕ → Card
  /-- For the name of a card, the orders that are certain to have it, each with the players that
  do not know it. -/
  certainMap : Variant.CardName → List (ℕ × List ℕ) := fun _ => []
  /-- Orders with their holders. -/
  crossElimCandidates : List (ℕ × ℕ) := []
  eliminated : IdentitySet
  /-- The number of times a card was written. -/
  writes : ℕ := 0
  losses : List Loss := []

namespace ElimVars

/-- `newThoughts.set(order, card)`. -/
def write (s : ElimVars) (order : ℕ) (card : Card) : ElimVars :=
  { s with
    thoughts := Function.update s.thoughts order card
    writes := s.writes + 1 }

/-- Notes a loss. -/
def note (s : ElimVars) (lost : Bool) (loss : Loss) : ElimVars :=
  { s with losses := if lost then s.losses ++ [loss] else s.losses }

/-- `eliminated = eliminated.union(id)`. -/
def eliminate (s : ElimVars) (id : Identity) : ElimVars :=
  { s with eliminated := s.eliminated.union (IdentitySet.toMask id) }

/-- `Utils.mapInsertMap(certain_map, name, order, unknown_to)`. -/
def certify (s : ElimVars) (name : Variant.CardName) (order : ℕ) (unknownTo : List ℕ) : ElimVars :=
  { s with
    certainMap := Function.update s.certainMap name <|
      if (s.certainMap name).any (·.1 == order) then
        (s.certainMap name).map fun e => if e.1 = order then (order, unknownTo) else e
      else s.certainMap name ++ [(order, unknownTo)] }

end ElimVars

/-- The variables of `update_map`, and of the loop of `basic_elim`. -/
structure UpdateVars where
  vars : ElimVars
  changed : Bool := false
  recursiveIds : List Identity := []
  crossElimRemovals : List ℕ := []

/-- The cards in hand, each with its holder. -/
def handCards (state : State) : List (ℕ × ℕ) :=
  (List.range state.numPlayers).flatMap fun i => (state.hands i).map fun order => (order, i)

/-- Takes an identity out of a card. -/
def removeId (card : Card) (id : Identity) : Card :=
  { card with
    possible := card.possible.subtract (IdentitySet.toMask id)
    inferred := card.inferred.subtract (IdentitySet.toMask id) }

section

variable (player : Player) (state : State)

/-- Whether a card can be a candidate for `cross_elim`. -/
def isCrossCandidate (card : Card) : Bool :=
  card.possible.length > 1 && card.possible.array.any (fun p => !state.isBasicTrash p) &&
    (card.possible.length < 5 || card.clued)

/-! ## `update_map` -/

/-- Writes a card that lost an identity: `card` is the card before, `updated` the one after. -/
def settle (order : ℕ) (card updated : Card) (u : UpdateVars) : UpdateVars :=
  let moved := updated.possible.length > 1 &&
    isCrossCandidate state updated != isCrossCandidate state card
  if updated.inferred.length = 0 ∧ card.reset = false then
    { u with
      vars := ((u.vars.write order updated.resetInferences).note moved .candidates).note
        (updated.possible.length == 1) .reset }
  -- card can be further eliminated
  else if updated.possible.length = 1 then
    match updated.identity {} with
    | some recursiveId =>
      { u with
        vars := (u.vars.write order updated).certify (state.variant.logCard recursiveId) order []
        recursiveIds := u.recursiveIds ++ [recursiveId]
        crossElimRemovals := u.crossElimRemovals ++ [order] }
    | none => { u with vars := u.vars.write order updated }
  else { u with vars := (u.vars.write order updated).note moved .candidates }

/-- `no_elim`: whether a removal passes over a card. -/
def noElim (s : ElimVars) (id : Identity) (exclude : List ℕ) (c : ℕ × ℕ) : Bool :=
  exclude.contains c.2 || !(s.thoughts c.1).possible.has id ||
    (s.certainMap (state.variant.logCard id)).any (·.1 == c.1) ||
    (s.certainMap (state.variant.logCard id)).any (·.2.contains c.2)

/-- The body of the loop of `update_map`. -/
def updateCard (id : Identity) (exclude : List ℕ) (u : UpdateVars) (c : ℕ × ℕ) :
    Except ElimError UpdateVars :=
  let card := u.vars.thoughts c.1
  if noElim state u.vars id exclude c then .ok u
  else
    let updated := removeId card id
    if updated.possible.length = 0 then
      .error (.noMorePossible c.1 id (state.hands c.2) player.playerIndex)
    else .ok (settle state c.1 card updated { u with changed := true })

/-- `cross_elim_candidates.filter(c => !cross_elim_removals.includes(c.order))`. -/
def UpdateVars.dropRemovals (u : UpdateVars) : UpdateVars :=
  { u with
    vars := { u.vars with
      crossElimCandidates :=
        u.vars.crossElimCandidates.filter fun c => !u.crossElimRemovals.contains c.1 } }

/-- `update_map`. -/
def updateMap (id : Identity) (exclude : List ℕ) (s : ElimVars) : Except ElimError UpdateVars :=
  ((handCards state).foldlM (updateCard player state id exclude) { vars := s }).map
    UpdateVars.dropRemovals

/-! ## `basic_elim` -/

/-- `known_count`. -/
def knownCount (s : ElimVars) (id : Identity) : ℕ :=
  state.baseCount id + (s.certainMap (state.variant.logCard id)).length

/-- Whether all copies of the identity are known. -/
def exhausted (s : ElimVars) (id : Identity) : Bool := knownCount state s id == state.cardCount id

/-- The loop of `basic_elim`: each removal overwrites `changed` and `recursive_ids`. -/
def elimLoop : List Identity → UpdateVars → Except ElimError UpdateVars
  | [], u => .ok u
  | id :: rest, u =>
    if exhausted state u.vars id then
      let lost := u.recursiveIds.any fun rid => exhausted state u.vars rid && !(id :: rest).contains rid
      (updateMap player state id [] ((u.vars.note lost .overwritten).eliminate id)).bind
        (elimLoop rest)
    else elimLoop rest u

/-- `basic_elim`: whether the last removal changed a card, and the variables afterwards. -/
def basicElim : ℕ → List Identity → ElimVars → Except ElimError (Bool × ElimVars)
  | 0, _, _ => .error .fuel
  | fuel + 1, identities, s =>
    (elimLoop player state identities { vars := s }).bind fun u =>
      if u.recursiveIds.isEmpty then .ok (u.changed, u.vars)
      else (basicElim fuel u.recursiveIds u.vars).map fun r => (u.changed, r.2)

/-! ## `cross_elim` -/

/-- `total_multiplicity`. -/
def totalMultiplicity (identities : List Identity) : ℤ :=
  (identities.map fun id => (state.cardCount id : ℤ) - state.baseCount id).sum

/-- A removal in `perform_elim`, of an identity of the set or of one that a group holds. -/
def performUpdate (identities : IdentitySet) (id : Identity) (exclude : List ℕ) (u : UpdateVars) :
    Except ElimError UpdateVars :=
  (updateMap player state id exclude u.vars).map fun u =>
    let lost := u.recursiveIds.any fun rid => exhausted state u.vars rid && !identities.has rid
    { u with vars := u.vars.note lost .ignored }

/-- The identities that the entries have, as far as `state.deck` and the thoughts tell. -/
def entryGroups (s : ElimVars) (entries : List (ℕ × ℕ)) : List (Option Identity × List (ℕ × ℕ)) :=
  Utils.groupBy entries fun e => (state.identityOf e.1).or ((s.thoughts e.1).identity {})

/-- The body of the loop over the groups in `perform_elim`. -/
def performGroup (identities : IdentitySet) (u : UpdateVars)
    (group : Option Identity × List (ℕ × ℕ)) : Except ElimError UpdateVars :=
  match group.1 with
  | none => .ok u
  | some id =>
    let certains := (u.vars.certainMap (state.variant.logCard id)).filter fun e =>
      !group.2.any (·.1 == e.1)
    if (group.2.length : ℤ) < totalMultiplicity state [id] - certains.length then .ok u
    else performUpdate player state identities id (group.2.map Prod.snd) u

/-- `perform_elim`: there are N cards for N identities. -/
def performElim (fuel : ℕ) (entries : List (ℕ × ℕ)) (identities : IdentitySet) (s : ElimVars) :
    Except ElimError (Bool × ElimVars) :=
  ((entryGroups state s entries).foldlM (performGroup player state identities) { vars := s }).bind
    fun u =>
      (identities.array.foldlM
        (fun u id => performUpdate player state identities id (entries.map Prod.snd) u) u).bind
        fun u =>
          (basicElim player state fuel identities.array u.vars).map fun r =>
            let changed := r.1 || u.changed
            (changed, r.2.note (!changed && r.2.writes != s.writes) .unreported)

/-- `certains.union(new Set(new_certains)).difference(contained)`. -/
def nextCertains (certains newCertains contained : List ℕ) : List ℕ :=
  (certains ++ newCertains).dedup.filter fun o => !contained.contains o

/-- `gen_subset`. -/
def genSubset : ℕ → List (ℕ × ℕ) → IdentitySet → List ℕ → ℕ → ElimVars →
    Except ElimError (Bool × ElimVars)
  | 0, _, _, _, _, _ => .error .fuel
  | fuel + 1, contained, accIds, certains, nextIndex, s =>
    let multiplicity := totalMultiplicity state accIds.array
    -- impossible to reach multiplicity
    if multiplicity - certains.length >
        contained.length + ((s.crossElimCandidates.length : ℤ) - nextIndex) then .ok (false, s)
    else
      (if contained.length ≥ 2 ∧ multiplicity - certains.length = contained.length then
        performElim player state fuel contained accIds s
      else .ok (false, s)).bind fun r =>
        if r.1 then .ok (true, r.2)
        else
          match r.2.crossElimCandidates[nextIndex]? with
          | none => .ok (false, r.2)
          | some item =>
            let possible := (r.2.thoughts item.1).possible
            let newCertains := (possible.subtract accIds.value).array.flatMap fun id =>
              (r.2.certainMap (state.variant.logCard id)).map Prod.fst
            let nextContained := contained ++ [item]
            -- check all remaining subsets that contain the next item
            (genSubset fuel nextContained (accIds.union possible.value)
              (nextCertains certains newCertains (nextContained.map Prod.fst)) (nextIndex + 1)
              r.2).bind fun r =>
                if r.1 then .ok (true, r.2)
                -- check all remaining subsets that skip the next item
                else genSubset fuel contained accIds certains (nextIndex + 1) r.2

/-- `base_ids`. -/
def baseIds : IdentitySet := ⟨state.variant.suits.length, 0⟩

/-- `cross_elim`. -/
def crossElim (fuel : ℕ) (s : ElimVars) : Except ElimError (Bool × ElimVars) :=
  if s.crossElimCandidates.length ≤ 1 then .ok (false, s)
  else genSubset player state fuel [] (baseIds state) [] 0 s

/-! ## `endgame_elim` -/

/-- Whether the card is known to be the identity, by the deck or by the thoughts. -/
def holdsId (s : ElimVars) (id : Identity) (order : ℕ) : Bool :=
  state.identityOf order == some id || (s.thoughts order).matchesId id {}

/-- The body of the loop of `perform_elim` of `endgame_elim`. -/
def endgameCard (id : Identity) (u : UpdateVars) (order : ℕ) : UpdateVars :=
  let card := u.vars.thoughts order
  if !card.possible.has id || holdsId state u.vars id order then u
  else settle state order card (removeId card id) u

/-- `perform_elim` of `endgame_elim`, for the hand of player `i`. -/
def endgameHand (id : Identity) (s : ElimVars) (i : ℕ) : ElimVars :=
  ((state.hands i).foldl (endgameCard state id) { vars := s }).dropRemovals.vars

/-- Who may hold the identity: the players with a copy and, if not all copies are located, the
players with an unknown card. -/
def holders (s : ElimVars) (id : Identity) : List ℕ :=
  let count := fun i => ((state.hands i).filter (holdsId state s id)).length
  let total := state.baseCount id + ((List.range state.numPlayers).map count).sum
  (List.range state.numPlayers).filter fun i => count i != 0 ||
    (total != state.cardCount id && (state.hands i).any fun o =>
      ((state.identityOf o).or ((s.thoughts o).identity {})).isNone)

/-- The body of the loop of `endgame_elim`. -/
def endgameId (s : ElimVars) (id : Identity) : ElimVars :=
  ((List.range state.numPlayers).filter fun i => !(holders state s id).contains i).foldl
    (endgameHand state id) s

/-- `endgame_elim`, which never reports a change. -/
def endgameElim (identities : List Identity) (s : ElimVars) : ElimVars :=
  if state.cardsLeft > 0 ∨ player.playerIndex ≠ none then s
  else identities.foldl (endgameId state) s

/-! ## The driver -/

/-- `while (cross_elim() || endgame_elim(all_identities.array))`. -/
def cardRounds (identities : List Identity) : ℕ → ElimVars → Except ElimError ElimVars
  | 0, _ => .error .fuel
  | fuel + 1, s =>
    (crossElim player state fuel s).bind fun r =>
      if r.1 then cardRounds identities fuel r.2
      else
        let last := endgameElim player state identities r.2
        .ok (last.note (last.writes != r.2.writes) .unfollowed)

/-- `all_identities`: what is possible of some card in hand. -/
def allIdentities (thoughts : ℕ → Card) : IdentitySet :=
  state.allOrders.foldl
    (fun ids order =>
      if ids.length = (IdentitySet.full state.variant.suits.length).length then ids
      else ids.union (thoughts order).possible.value)
    (baseIds state)

/-- The body of the loop that fills `certain_map` and `cross_elim_candidates`. -/
def collect (s : ElimVars) (c : ℕ × ℕ) : ElimVars :=
  let card := s.thoughts c.1
  let unknownTo := if (card.identity { symmetric := true }).isNone then [c.2] else []
  let s := match card.identity { symmetric := player.playerIndex.isNone } with
    | some id => s.certify (state.variant.logCard id) c.1 unknownTo
    | none => s
  if isCrossCandidate state card then
    { s with crossElimCandidates := s.crossElimCandidates ++ [c] }
  else s

/-- The variables before the first elimination. -/
def initialVars (thoughts : ℕ → Card) : ElimVars :=
  (handCards state).foldl (collect player state) { thoughts, eliminated := baseIds state }

/-- `card_elim` on the thoughts of a player. -/
def elimThoughts (fuel : ℕ) (thoughts : ℕ → Card) : Except ElimError ElimVars :=
  let identities := (allIdentities state thoughts).array
  let s := endgameElim player state identities (initialVars player state thoughts)
  (basicElim player state fuel identities s).bind fun r =>
    cardRounds player state identities fuel r.2

/-- The thoughts after `card_elim`, as far as they are about cards in hand. -/
def writeThoughts (thoughts : SparseArray Card) (newThoughts : ℕ → Card) : SparseArray Card :=
  state.allOrders.foldl (fun t order => t.set order (newThoughts order)) thoughts

/-- `this.thoughts[order]`, for an order that has a thought. -/
def thoughtOf (order : ℕ) : Card :=
  (player.thoughts.get order).getD
    { id := none, possible := baseIds state, inferred := baseIds state, order }

/-- `card_elim`: the player afterwards, and the losses. -/
def cardElim (fuel : ℕ) : Except ElimError (Player × List Loss) :=
  if state.allOrders.all fun order => (player.thoughts.get order).isSome then
    (elimThoughts player state fuel (thoughtOf player state)).map fun s =>
      ({ player with
          thoughts := writeThoughts state player.thoughts s.thoughts
          allPossible := player.allPossible.subtract s.eliminated.value
          allInferred := player.allInferred.subtract s.eliminated.value }, s.losses)
  else .error .missing

end

end HanabiBot.CardElim
