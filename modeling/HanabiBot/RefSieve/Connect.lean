import HanabiBot.HGroup.Connections
import HanabiBot.Lib.Loop

/-!
# Connecting to a card

`connect` and `find_own_finesses` of `src/conventions/ref-sieve/connecting-cards.js`: the
cards that have to play, one rank after the other, before a card of a given identity can.
The search walks around the table from the giver on; `find_own_finesses` also looks for
blind plays of ours, each time it comes to the target of the clue.

`WellFormed` says that there is one card for each rank in between, all different, and
none the card itself.

* `connections_wellFormed_iff` — both searches end; what `connect` finds is well formed, and
  what `find_own_finesses` finds is if and only if no round takes a card of ours after
  another one, the target or a card taken before;
* `own_y2_twice` — one does.
-/

namespace HanabiBot.RefSieve

open HGroup (HState Connection ConnectionType inBetween pinkMismatch)

/-- An entry of `next_ignore`. -/
structure IgnoredCard where
  order : ℕ
  inference : Option Identity := none
  deriving DecidableEq

/-- A Ref Sieve game, as one player keeps it. -/
structure Game where
  state : HState
  /-- `state.deck[order].newly_clued`. -/
  newlyClued : ℕ → Bool := fun _ => false
  /-- `next_ignore[index]`. -/
  nextIgnore : ℕ → List IgnoredCard := fun _ => []
  common : Player
  me : Player

/-- `has` on an identity whose rank may be past the last: a shift counts modulo 32. -/
def hasWrapped (s : IdentitySet) (identity : Identity) : Bool :=
  s.value.testBit (IdentitySet.bit identity % 32)

/-- `getIgnoreOrders`. -/
def getIgnoreOrders (game : Game) (index suitIndex : ℕ) : List ℕ :=
  ((game.nextIgnore index).filter fun i =>
    i.inference.all fun inference => inference.suitIndex == suitIndex).map IgnoredCard.order

/-- Whether a card can be prompted for an identity. -/
def isPrompt (game : Game) (identity : Identity) (connected : List ℕ) (o : ℕ) : Bool :=
  let variant := game.state.variant
  let clues : List BaseClue := (game.state.marks o).clues.map fun clue => clue.toBaseClue
  (game.common.thoughts.get o).any fun card =>
    !connected.contains o && (game.state.marks o).clued && !game.newlyClued o &&
      hasWrapped card.possible identity &&
      (card.infoLock.all fun lock => hasWrapped lock identity) &&
      -- must not be information-locked on a different identity
      (card.inferred.length != 1 || card.inferred.array.head?.any (· == identity)) &&
      (clues.any fun clue => variant.cardTouched identity clue) &&
      -- pink rank match
      (!variant.suits[identity.suitIndex]?.any variantRegexes.pinkish ||
        !pinkMismatch clues identity.rank ||
        clues.any fun clue => clue.type == .colour &&
          variant.colourableSuits[clue.value]?.any variantRegexes.pinkish)

/-- `find_prompt`. -/
def findPrompt (game : Game) (playerIndex : ℕ) (identity : Identity) (connected : List ℕ) :
    Option ℕ :=
  (game.state.hands playerIndex).reverse.find? (isPrompt game identity connected)

/-- `find_finesse`. -/
def findFinesse (game : Game) (playerIndex : ℕ) (connected : List ℕ) : Option ℕ :=
  (game.state.hands playerIndex).find? fun o =>
    !((game.common.thoughts.get o).any Card.touched) && !connected.contains o

/-- `known`. -/
def findKnown (game : Game) (identity : Identity) (playerIndex : ℕ) (connected : List ℕ) :
    Option ℕ :=
  (game.state.hands playerIndex).find? fun o => !connected.contains o &&
    (game.common.thoughts.get o).any fun card => card.matchesId identity { infer := true }

/-- `playable`. -/
def findPlayable (game : Game) (identity : Identity) (playerIndex : ℕ) (connected : List ℕ) :
    Option ℕ :=
  (game.state.hands playerIndex).find? fun o => (game.common.thoughts.get o).any fun card =>
    !connected.contains o &&
      (card.blindPlaying || card.possible.array.all game.state.isPlayable) &&
      hasWrapped card.inferred identity

/-- A connection through a card. -/
def connection (type : ConnectionType) (reacting : ℕ) (identity : Identity) (order : ℕ) :
    Connection :=
  { type, reacting, order, identities := [identity] }

/-- `find_connecting`, once there is neither a known nor a playable card. -/
def findBlind (game : Game) (identity : Identity) (playerIndex : ℕ)
    (connected ignoreOrders : List ℕ) : Option Connection :=
  let finesse := ((findFinesse game playerIndex connected).filter fun o =>
    game.state.isIdentity o identity && !ignoreOrders.contains o).map
      (connection .finesse playerIndex identity)
  match findPrompt game playerIndex identity connected with
  | none => finesse
  | some prompt =>
    -- a wrong prompt
    if !game.state.isIdentity prompt identity then none
    else if !ignoreOrders.contains prompt then
      some (connection .prompt playerIndex identity prompt)
    else finesse

/-- `find_connecting`. -/
def findConnecting (game : Game) (identity : Identity) (playerIndex : ℕ) (connected : List ℕ)
    (looksDirect : Bool) (ignoreOrders : List ℕ) : Option Connection :=
  match (findKnown game identity playerIndex connected).filter
      fun o => !ignoreOrders.contains o with
  | some known => some (connection .known playerIndex identity known)
  | none =>
    match findPlayable game identity playerIndex connected with
    | some playable =>
      if game.state.isIdentity playable identity && !ignoreOrders.contains playable then
        some (connection .playable playerIndex identity playable)
      else none
    | none =>
      if looksDirect then none else findBlind game identity playerIndex connected ignoreOrders

/-- The variables of both searches. -/
structure Search where
  nextRank : ℕ
  playerIndex : ℕ
  loopedAround : Bool := false
  connections : List Connection := []
  deriving DecidableEq

/-- What the searches return. -/
structure Chain where
  success : Bool
  connections : List Connection
  deriving DecidableEq

/-- What both searches are asked for. -/
structure Query where
  targetOrder : ℕ
  identity : Identity
  giver : ℕ
  target : ℕ
  unknown : Bool

namespace Search

def orders (s : Search) : List ℕ := s.connections.map fun conn => conn.order

/-- A card is found. -/
def push (s : Search) (conn : Connection) : Search :=
  { s with
    nextRank := s.nextRank + 1
    connections := s.connections ++ [conn]
    loopedAround := false }

def pushSome (s : Search) (conn : Option Connection) : Search :=
  match conn with
  | some conn => s.push conn
  | none => s

end Search

section

variable (game : Game) (q : Query)

/-- `next_identity`. -/
def nextIdentity (s : Search) : Identity := ⟨q.identity.suitIndex, s.nextRank⟩

/-- The orders to ignore in a round. -/
def ignoreOrders (s : Search) : List ℕ :=
  getIgnoreOrders game (s.nextRank - game.state.playStacks q.identity.suitIndex - 1)
    q.identity.suitIndex

/-- What both searches start from. -/
def startSearch : Search where
  nextRank := game.state.playStacks q.identity.suitIndex + 1
  playerIndex := game.state.nextPlayerIndex q.giver

/-- The card that a round finds in the hand of the player it has come to. -/
def connecting (looksDirect : Search → Bool) (s : Search) : Option Connection :=
  findConnecting game (nextIdentity q s) s.playerIndex (q.targetOrder :: s.orders)
    (looksDirect s) (ignoreOrders game q s)

/-- The end of a round: on to the next player, at most once around the table without a find. -/
def advance (s : Search) : Loop.Outcome Search :=
  if s.playerIndex = q.target then
    if q.unknown then .stop s
    else if s.loopedAround then .stop s
    else .next { s with
      loopedAround := true
      playerIndex := game.state.nextPlayerIndex s.playerIndex }
  else .next { s with playerIndex := game.state.nextPlayerIndex s.playerIndex }

/-- A round of `connect`. -/
def connectRound (s : Search) : Loop.Outcome Search :=
  if s.nextRank = q.identity.rank then .stop s
  else
    advance game q <| s.pushSome <|
      connecting game q (fun s => q.unknown && s.playerIndex == q.target) s

/-- `playable` of `find_own_connecting`. -/
def ownPlayable (s : Search) : Option ℕ :=
  (game.state.hands game.state.ourPlayerIndex).find? fun o =>
    (game.me.thoughts.get o).any fun card =>
      (card.blindPlaying || card.inferred.array.all game.state.isPlayable) &&
        hasWrapped card.inferred (nextIdentity q s)

/-- `find_own_connecting`, for the identity that the round started with, with the connections
made so far. -/
def ownConnecting (s : Search) (connected : List ℕ) : Option Connection :=
  let our := game.state.ourPlayerIndex
  let notIgnored (o : ℕ) : Bool := !(ignoreOrders game q s).contains o
  match (ownPlayable game q s).filter notIgnored with
  | some playable => some (connection .playable our (nextIdentity q s) playable)
  | none =>
    if q.unknown && our == q.target then none
    else
      match (findPrompt game our (nextIdentity q s) connected).filter notIgnored with
      | some prompt => some (connection .prompt our (nextIdentity q s) prompt)
      | none => ((findFinesse game our connected).filter notIgnored).map
          (connection .finesse our (nextIdentity q s))

/-- Whether the round looks for a card of ours. -/
def looksAtUs (s : Search) : Bool :=
  s.playerIndex == q.target &&
    (!q.unknown || inBetween game.state.numPlayers game.state.ourPlayerIndex q.giver q.target)

/-- The card of another player that a round of `find_own_finesses` finds. -/
def otherConnecting (s : Search) : Option Connection :=
  connecting game q (fun s => (q.unknown && s.playerIndex == q.target) || s.playerIndex == q.giver)
    s

/-- The card of ours that a round finds after it. -/
def ownFound (s : Search) : Option Connection :=
  if looksAtUs game q s then
    ownConnecting game q s (s.pushSome (otherConnecting game q s)).orders
  else none

/-- A round of `find_own_finesses`. -/
def ownRound (s : Search) : Loop.Outcome Search :=
  if s.nextRank = q.identity.rank then .stop s
  else
    let found := s.pushSome (otherConnecting game q s)
    match ownFound game q s with
    | some own =>
      -- jump straight to after us
      .next { found.push own with
        playerIndex := game.state.nextPlayerIndex game.state.ourPlayerIndex }
    | none => advance game q found

/-- What is returned at the end of a search. -/
def chainOf (s : Search) : Chain :=
  if s.nextRank = q.identity.rank then ⟨true, s.connections⟩ else ⟨false, []⟩

/-- `connect`. -/
def connect (fuel : ℕ) : Option Chain :=
  (Loop.loop (connectRound game q) fuel (startSearch game q)).map (chainOf q)

/-- `find_own_finesses`. -/
def findOwnFinesses (fuel : ℕ) : Option Chain :=
  (Loop.loop (ownRound game q) fuel (startSearch game q)).map (chainOf q)

end

/-- Whether a card of ours that a round takes can be one more of the chain: nobody else's is
taken in the round, and it is not the target, nor, as a playable card, one taken before. -/
def RoundOk (game : Game) (q : Query) (s : Search) : Prop :=
  ∀ own, ownFound game q s = some own →
    otherConnecting game q s = none ∧ own.order ≠ q.targetOrder ∧
      (own.type = .playable → own.order ∉ s.orders)

/-! ## What a search finds -/

/-- The cards and sets of a game are of its variant; a set of identities has 32 bits. -/
structure Sound (game : Game) : Prop where
  suits : game.state.variant.suits.length ≤ 6
  deck : ∀ o id, game.state.identityOf o = some id → id.Valid game.state.variant
  common : ∀ o card, game.common.thoughts.get o = some card → card.OfVariant game.state.variant
  own : ∀ o card, game.me.thoughts.get o = some card →
    card.inferred.value < 2 ^ (5 * game.state.variant.suits.length)

/-- One card for each rank from `k + 1` on, all different, and none the target. -/
structure Chained (k : ℕ) (q : Query) (connections : List Connection) : Prop where
  identities : connections.map (fun conn => conn.identities) =
    (List.range connections.length).map fun i => [⟨q.identity.suitIndex, k + 1 + i⟩]
  nodup : (connections.map fun conn => conn.order).Nodup
  target : q.targetOrder ∉ connections.map fun conn => conn.order

/-- A chain that leads to the identity from a stack at `k`. -/
structure WellFormed (k : ℕ) (q : Query) (connections : List Connection) : Prop
    extends Chained k q connections where
  length : connections.length = q.identity.rank - k - 1

namespace Chained

variable {k : ℕ} {q : Query} {connections : List Connection}

theorem nil : Chained k q [] := ⟨rfl, List.nodup_nil, List.not_mem_nil⟩

theorem push (h : Chained k q connections) {conn : Connection}
    (hid : conn.identities = [⟨q.identity.suitIndex, k + 1 + connections.length⟩])
    (htarget : conn.order ≠ q.targetOrder)
    (hnew : conn.order ∉ connections.map fun conn => conn.order) :
    Chained k q (connections ++ [conn]) where
  identities := by
    rw [List.map_append, h.identities, List.length_append, List.length_singleton, List.range_succ,
      List.map_append, List.map_singleton, List.map_singleton, hid]
  nodup := by
    rw [List.map_append, List.map_singleton, List.nodup_append_comm, List.singleton_append,
      List.nodup_cons]
    exact ⟨hnew, h.nodup⟩
  target := by
    rw [List.map_append, List.map_singleton, List.mem_append, List.mem_singleton, not_or]
    exact ⟨h.target, Ne.symm htarget⟩

theorem of_append {later : List Connection} (h : Chained k q (connections ++ later)) :
    Chained k q connections where
  identities := by
    have heq := congrArg (List.take connections.length) h.identities
    rw [List.map_append, List.take_left' (by simp), ← List.map_take, List.take_range,
      List.length_append, Nat.min_eq_left (Nat.le_add_right _ _)] at heq
    exact heq
  nodup := by
    have hnodup := h.nodup
    rw [List.map_append] at hnodup
    exact hnodup.of_append_left
  target := fun hmem => h.target (by
    rw [List.map_append]
    exact List.mem_append_left _ hmem)

/-- The identity of one of the cards. -/
theorem identity_at (h : Chained k q connections) {i : ℕ} {conn : Connection}
    (hi : connections[i]? = some conn) :
    conn.identities = [⟨q.identity.suitIndex, k + 1 + i⟩] := by
  have hlt : i < connections.length := (List.getElem?_eq_some_iff.1 hi).1
  have heq := congrArg (fun l => l[i]?) h.identities
  simp only [List.getElem?_map, hi, Option.map_some, List.getElem?_range hlt] at heq
  exact Option.some.inj heq

end Chained

section Find

variable {game : Game} {q : Query} {identity : Identity} {playerIndex : ℕ}
  {connected ignored : List ℕ} {looksDirect : Bool} {conn : Connection}

/-- A card that a round finds for an identity. -/
structure FoundFor (game : Game) (identity : Identity) (playerIndex : ℕ) (connected : List ℕ)
    (conn : Connection) : Prop where
  identities : conn.identities = [identity]
  new : conn.order ∉ connected
  inHand : conn.order ∈ game.state.hands playerIndex

theorem findFinesse_spec {o : ℕ} (h : findFinesse game playerIndex connected = some o) :
    o ∉ connected ∧ o ∈ game.state.hands playerIndex := by
  have hpred := List.find?_some h
  simp only [Bool.and_eq_true, Bool.not_eq_true', List.contains_eq_mem, decide_eq_false_iff_not]
    at hpred
  exact ⟨hpred.2, List.mem_of_find?_eq_some h⟩

theorem findPrompt_spec {o : ℕ} (h : findPrompt game playerIndex identity connected = some o) :
    o ∉ connected ∧ o ∈ game.state.hands playerIndex := by
  have hpred := List.find?_some h
  simp only [isPrompt] at hpred
  obtain ⟨card, -, hcard⟩ := (Option.any_eq_true _ _).1 hpred
  simp only [Bool.and_eq_true, Bool.not_eq_true', List.contains_eq_mem, decide_eq_false_iff_not]
    at hcard
  exact ⟨hcard.1.1.1.1.1.1.1, List.mem_reverse.1 (List.mem_of_find?_eq_some h)⟩

theorem rank_le_of_isIdentity (hg : Sound game) {o : ℕ}
    (h : game.state.isIdentity o identity = true) : identity.rank ≤ 5 :=
  (hg.deck o identity (beq_iff_eq.1 h)).2.2

theorem findBlind_spec (hg : Sound game)
    (h : findBlind game identity playerIndex connected ignored = some conn) :
    FoundFor game identity playerIndex connected conn ∧ identity.rank ≤ 5 := by
  have hfinesse : ((findFinesse game playerIndex connected).filter fun o =>
      game.state.isIdentity o identity && !ignored.contains o).map
        (connection .finesse playerIndex identity) = some conn →
      FoundFor game identity playerIndex connected conn ∧ identity.rank ≤ 5 := by
    intro hsome
    obtain ⟨o, ho, rfl⟩ := Option.map_eq_some_iff.1 hsome
    obtain ⟨ho, hpred⟩ := Option.filter_eq_some_iff.1 ho
    rw [Bool.and_eq_true] at hpred
    obtain ⟨hnew, hmem⟩ := findFinesse_spec ho
    exact ⟨⟨rfl, hnew, hmem⟩, rank_le_of_isIdentity hg hpred.1⟩
  unfold findBlind at h
  cases hprompt : findPrompt game playerIndex identity connected with
  | none =>
    rw [hprompt] at h
    exact hfinesse h
  | some prompt =>
    simp only [hprompt] at h
    split at h
    · nomatch h
    · rename_i hid
      split at h
      · obtain rfl := Option.some.inj h
        obtain ⟨hnew, hmem⟩ := findPrompt_spec hprompt
        exact ⟨⟨rfl, hnew, hmem⟩, rank_le_of_isIdentity hg (by simpa using hid)⟩
      · exact hfinesse h

theorem findConnecting_spec (hg : Sound game)
    (h : findConnecting game identity playerIndex connected looksDirect ignored = some conn) :
    FoundFor game identity playerIndex connected conn ∧ identity.rank ≤ 5 := by
  unfold findConnecting at h
  split at h
  · rename_i known hknown
    obtain rfl := Option.some.inj h
    obtain ⟨hknown, -⟩ := Option.filter_eq_some_iff.1 hknown
    have hpred := List.find?_some hknown
    simp only [Bool.and_eq_true, Bool.not_eq_true', List.contains_eq_mem,
      decide_eq_false_iff_not] at hpred
    refine ⟨⟨rfl, hpred.1, List.mem_of_find?_eq_some hknown⟩, ?_⟩
    obtain ⟨card, hcard, hmatch⟩ := (Option.any_eq_true _ _).1 hpred.2
    unfold Card.matchesId at hmatch
    split at hmatch
    · nomatch hmatch
    · rename_i id hid
      obtain rfl := beq_iff_eq.1 hmatch
      exact ((hg.common known card hcard).identity_valid hid).2.2
  · split at h
    · rename_i playable hplayable
      split at h
      · rename_i hif
        rw [Bool.and_eq_true] at hif
        obtain rfl := Option.some.inj h
        have hpred := List.find?_some hplayable
        obtain ⟨card, -, hcard⟩ := (Option.any_eq_true _ _).1 hpred
        simp only [Bool.and_eq_true, Bool.not_eq_true', List.contains_eq_mem,
          decide_eq_false_iff_not] at hcard
        exact ⟨⟨rfl, hcard.1.1, List.mem_of_find?_eq_some hplayable⟩,
          rank_le_of_isIdentity hg hif.1⟩
      · nomatch h
    · split at h
      · nomatch h
      · exact findBlind_spec hg h

end Find

/-! ## The walk around the table -/

namespace Search

variable (s : Search) (conn : Connection)

@[simp] theorem push_nextRank : (s.push conn).nextRank = s.nextRank + 1 := rfl

@[simp] theorem push_playerIndex : (s.push conn).playerIndex = s.playerIndex := rfl

@[simp] theorem push_connections :
    (s.push conn).connections = s.connections ++ [conn] := rfl

@[simp] theorem pushSome_some : s.pushSome (some conn) = s.push conn := rfl

@[simp] theorem pushSome_none : s.pushSome none = s := rfl

@[simp] theorem pushSome_playerIndex (found : Option Connection) :
    (s.pushSome found).playerIndex = s.playerIndex := by
  cases found <;> simp

/-- The next rank is one more than those found. -/
def Counts (k : ℕ) (s : Search) : Prop := s.nextRank = k + 1 + s.connections.length

variable {s} {k : ℕ}

theorem Counts.push (h : s.Counts k) : (s.push conn).Counts k := by
  simp only [Counts, push_nextRank, push_connections, List.length_append, List.length_singleton]
    at h ⊢
  omega

theorem Counts.pushSome (h : s.Counts k) (found : Option Connection) :
    (s.pushSome found).Counts k := by
  cases found with
  | none => exact h
  | some conn => exact h.push conn

/-- How far it is to the end of the lap that the search is in, if nothing is found. -/
def lap (numPlayers target : ℕ) (s : Search) : ℕ :=
  (if s.loopedAround then 0 else numPlayers) +
    (target + numPlayers - s.playerIndex) % numPlayers

theorem lap_lt {numPlayers target : ℕ} (hn : 0 < numPlayers) :
    s.lap numPlayers target < 2 * numPlayers := by
  have hmod := Nat.mod_lt (target + numPlayers - s.playerIndex) hn
  unfold lap
  split <;> omega

end Search

/-- The players of a question are at the table, and the card is not played yet. -/
structure Asked (game : Game) (q : Query) : Prop where
  target : q.target < game.state.numPlayers
  valid : q.identity.Valid game.state.variant
  unplayed : game.state.playStacks q.identity.suitIndex < q.identity.rank

section Walk

variable {game : Game} {q : Query} {s s' : Search}

theorem Asked.numPlayers_pos (h : Asked game q) : 0 < game.state.numPlayers :=
  lt_of_le_of_lt (Nat.zero_le _) h.target

theorem Asked.nextPlayerIndex_lt (h : Asked game q) (p : ℕ) :
    game.state.nextPlayerIndex p < game.state.numPlayers :=
  Nat.mod_lt _ h.numPlayers_pos

/-- The next player is one nearer to the target. -/
theorem distance_next {n target p : ℕ} (hp : p < n) (htarget : target < n) (hne : p ≠ target) :
    (target + n - (p + 1) % n) % n + 1 = (target + n - p) % n := by
  obtain hlt | hlast : p + 1 < n ∨ p + 1 = n := by omega
  · rw [Nat.mod_eq_of_lt hlt]
    obtain hbefore | hafter : p < target ∨ target < p := by omega
    · have h1 : target + n - (p + 1) = target - (p + 1) + n := by omega
      have h2 : target + n - p = target - p + n := by omega
      rw [h1, h2, Nat.add_mod_right, Nat.add_mod_right, Nat.mod_eq_of_lt (by omega),
        Nat.mod_eq_of_lt (by omega)]
      omega
    · rw [Nat.mod_eq_of_lt (by omega), Nat.mod_eq_of_lt (by omega)]
      omega
  · rw [hlast, Nat.mod_self, Nat.sub_zero, Nat.add_mod_right, Nat.mod_eq_of_lt htarget,
      Nat.mod_eq_of_lt (by omega)]
    omega

/-- A lap after the target is one player short. -/
theorem distance_after {n target : ℕ} (htarget : target < n) :
    (target + n - (target + 1) % n) % n < n ∧ (target + n - target) % n = 0 :=
  ⟨Nat.mod_lt _ (by omega), by rw [Nat.add_sub_cancel_left, Nat.mod_self]⟩

/-- What the end of a round does when the search goes on. -/
theorem advance_next (hq : Asked game q) (hp : s.playerIndex < game.state.numPlayers)
    (h : advance game q s = .next s') :
    s'.nextRank = s.nextRank ∧ s'.connections = s.connections ∧
      s'.playerIndex < game.state.numPlayers ∧
      s'.lap game.state.numPlayers q.target < s.lap game.state.numPlayers q.target := by
  unfold advance at h
  split at h
  · rename_i htarget
    split at h
    · nomatch h
    · split at h
      · nomatch h
      · rename_i hlooped
        obtain rfl := Loop.Outcome.next.inj h
        refine ⟨rfl, rfl, hq.nextPlayerIndex_lt _, ?_⟩
        obtain ⟨hafter, -⟩ := distance_after hq.target
        show 0 + (q.target + game.state.numPlayers - (s.playerIndex + 1) % game.state.numPlayers) %
          game.state.numPlayers < _
        rw [htarget, Search.lap, if_neg hlooped]
        omega
  · rename_i hne
    obtain rfl := Loop.Outcome.next.inj h
    refine ⟨rfl, rfl, hq.nextPlayerIndex_lt _, ?_⟩
    have hdist := distance_next hp hq.target hne
    simp only [Search.lap, State.nextPlayerIndex]
    omega

theorem advance_stop (h : advance game q s = .stop s') : s' = s := by
  unfold advance at h
  split at h
  · split at h
    · exact (Loop.Outcome.stop.inj h).symm
    · split at h
      · exact (Loop.Outcome.stop.inj h).symm
      · nomatch h
  · nomatch h

end Walk

/-! ## `connect` -/

section Connect

variable {game : Game} {q : Query} {s s' : Search} {looksDirect : Search → Bool}
  {conn : Connection}

/-- What holds at the start of every round of a search. -/
structure Walking (game : Game) (q : Query) (s : Search) : Prop where
  counts : s.Counts (game.state.playStacks q.identity.suitIndex)
  player : s.playerIndex < game.state.numPlayers

theorem walking_start (hq : Asked game q) : Walking game q (startSearch game q) :=
  ⟨rfl, hq.nextPlayerIndex_lt _⟩

theorem connecting_spec (hg : Sound game) (h : connecting game q looksDirect s = some conn) :
    FoundFor game (nextIdentity q s) s.playerIndex (q.targetOrder :: s.orders) conn ∧
      s.nextRank ≤ 5 :=
  findConnecting_spec hg h

/-- A card that is found in a round continues a chain. -/
theorem chained_connecting {k : ℕ} (hg : Sound game) (hs : s.Counts k)
    (hchain : Chained k q s.connections) :
    Chained k q (s.pushSome (connecting game q looksDirect s)).connections := by
  cases hfound : connecting game q looksDirect s with
  | none => exact hchain
  | some conn =>
    obtain ⟨hfound, -⟩ := connecting_spec hg hfound
    obtain ⟨htarget, hnew⟩ := not_or.1 (mt List.mem_cons.2 hfound.new)
    refine hchain.push ?_ htarget hnew
    rw [hfound.identities, nextIdentity, hs]

theorem connectRound_next (hq : Asked game q) (hs : Walking game q s)
    (hround : connectRound game q s = .next s') :
    s.nextRank ≠ q.identity.rank ∧
      ∃ looksDirect, Walking game q s' ∧
        s'.nextRank = (s.pushSome (connecting game q looksDirect s)).nextRank ∧
        s'.connections = (s.pushSome (connecting game q looksDirect s)).connections ∧
        s'.lap game.state.numPlayers q.target <
          (s.pushSome (connecting game q looksDirect s)).lap game.state.numPlayers q.target := by
  unfold connectRound at hround
  split at hround
  · nomatch hround
  · rename_i hrank
    obtain ⟨hnext, hconns, hplayer, hlap⟩ := advance_next hq (by simpa using hs.player) hround
    refine ⟨hrank, _, ⟨?_, hplayer⟩, hnext, hconns, hlap⟩
    rw [Search.Counts, hnext, hconns]
    exact hs.counts.pushSome _

theorem connectRound_stop (hround : connectRound game q s = .stop s') :
    (s.nextRank = q.identity.rank ∧ s' = s) ∨
      ∃ looksDirect, s' = s.pushSome (connecting game q looksDirect s) := by
  unfold connectRound at hround
  split at hround
  · rename_i hrank
    exact .inl ⟨hrank, (Loop.Outcome.stop.inj hround).symm⟩
  · exact .inr ⟨_, advance_stop hround⟩

/-- Laps count for less than what is still to be found. -/
theorem mul_add_lt_of_lt {a b m x y : ℕ} (hab : a < b) (hx : x < m) :
    a * m + x < b * m + y := by
  calc a * m + x < a * m + m := Nat.add_lt_add_left hx _
    _ = (a + 1) * m := (Nat.succ_mul a m).symm
    _ ≤ b * m := Nat.mul_le_mul_right m hab
    _ ≤ b * m + y := Nat.le_add_right _ _

/-- What holds at the start of every round of `connect`. -/
structure Connecting (game : Game) (q : Query) (s : Search) : Prop extends Walking game q s where
  chained : Chained (game.state.playStacks q.identity.suitIndex) q s.connections
  rank : s.nextRank ≤ q.identity.rank

theorem connecting_start (hq : Asked game q) : Connecting game q (startSearch game q) :=
  ⟨walking_start hq, .nil, hq.unplayed⟩

/-- A round of `connect` finds a card or comes nearer to the end of the lap. -/
theorem connecting_next (hg : Sound game) (hq : Asked game q) (hs : Connecting game q s)
    (hround : connectRound game q s = .next s') :
    Connecting game q s' ∧
      (q.identity.rank - s'.nextRank) * (2 * game.state.numPlayers) +
          s'.lap game.state.numPlayers q.target <
        (q.identity.rank - s.nextRank) * (2 * game.state.numPlayers) +
          s.lap game.state.numPlayers q.target := by
  obtain ⟨hne, looksDirect, hwalk, hnext, hconns, hlap⟩ := connectRound_next hq hs.toWalking hround
  have hlt : s.nextRank < q.identity.rank := lt_of_le_of_ne hs.rank hne
  refine ⟨⟨hwalk, ?_, ?_⟩, ?_⟩
  · rw [hconns]
    exact chained_connecting hg hs.counts hs.chained
  · rw [hnext]
    cases connecting game q looksDirect s with
    | none => exact hs.rank
    | some conn => exact hlt
  · cases hfound : connecting game q looksDirect s with
    | none =>
      rw [hfound, Search.pushSome_none] at hnext hlap
      rw [hnext]
      exact Nat.add_lt_add_left hlap _
    | some conn =>
      rw [hfound, Search.pushSome_some] at hnext hlap
      refine mul_add_lt_of_lt ?_ (hlap.trans ((s.push conn).lap_lt hq.numPlayers_pos))
      rw [hnext, Search.push_nextRank]
      omega

/-- The chain that a search returns, if the cards it took for it are chained. -/
theorem wellFormed_chainOf {k : ℕ} (hs : s.Counts k) (hchain : Chained k q s.connections)
    (hsuccess : (chainOf q s).success = true) :
    WellFormed k q (chainOf q s).connections := by
  unfold chainOf at hsuccess ⊢
  split at hsuccess
  · rename_i hrank
    rw [if_pos hrank]
    refine ⟨hchain, ?_⟩
    rw [← hrank, hs]
    show s.connections.length = k + 1 + s.connections.length - k - 1
    omega
  · nomatch hsuccess

theorem connect_returns (hg : Sound game) (hq : Asked game q) :
    Fuel.Returns (connect game q) fun chain => chain.success = true →
      WellFormed (game.state.playStacks q.identity.suitIndex) q chain.connections := by
  refine Fuel.Returns.map (Loop.returns_of_measure
    (fun s => (q.identity.rank - s.nextRank) * (2 * game.state.numPlayers) +
      s.lap game.state.numPlayers q.target)
    (fun s s' => connecting_next hg hq) (connecting_start hq)) ?_
  rintro result ⟨s, hvisited, hstop⟩ hsuccess
  have hs : Connecting game q s := hvisited.invariant (connecting_start hq)
    fun s s' _ hs hround => (connecting_next hg hq hs hround).1
  obtain ⟨-, rfl⟩ | ⟨looksDirect, rfl⟩ := connectRound_stop hstop
  · exact wellFormed_chainOf hs.counts hs.chained hsuccess
  · exact wellFormed_chainOf (hs.counts.pushSome _) (chained_connecting hg hs.counts hs.chained)
      hsuccess

end Connect

/-! ## `find_own_finesses` -/

section Own

variable {game : Game} {q : Query} {s s' : Search} {conn own : Connection}

/-- The cards of ours that a search has not taken. -/
def freeOrders (game : Game) (s : Search) : List ℕ :=
  (game.state.hands game.state.ourPlayerIndex).filter fun o => !s.orders.contains o

/-- The bit that the next identity is looked for at. -/
def nextBit (q : Query) (s : Search) : ℕ := IdentitySet.bit (nextIdentity q s) % 32

/-- What a find makes smaller: a card of ours is taken, or the next bit comes nearer to the
last, where no card has any. -/
def weight (game : Game) (q : Query) (s : Search) : ℕ :=
  (freeOrders game s).length * 32 + (31 - nextBit q s)

theorem freeOrders_push :
    freeOrders game (s.push conn) = (freeOrders game s).filter fun o => o != conn.order := by
  simp only [freeOrders, List.filter_filter]
  refine List.filter_congr fun o _ => ?_
  simp only [Search.orders, Search.push_connections, List.map_append, List.map_singleton,
    List.contains_append, List.contains_cons, List.contains_nil, Bool.or_false, Bool.not_or,
    Bool.and_comm]
  rfl

theorem nextBit_push (hrank : 0 < s.nextRank) (hbit : nextBit q s < 31) :
    nextBit q (s.push conn) = nextBit q s + 1 := by
  simp only [nextBit, IdentitySet.bit, nextIdentity, Search.push_nextRank] at hbit ⊢
  omega

theorem weight_push_of_bit (hrank : 0 < s.nextRank) (hbit : nextBit q s < 31) :
    weight game q (s.push conn) < weight game q s := by
  have hfree : (freeOrders game (s.push conn)).length ≤ (freeOrders game s).length := by
    rw [freeOrders_push]
    exact List.length_filter_le _ _
  have hmul := Nat.mul_le_mul_right 32 hfree
  simp only [weight, nextBit_push hrank hbit]
  omega

theorem weight_push_of_new (hhand : conn.order ∈ game.state.hands game.state.ourPlayerIndex)
    (hnew : conn.order ∉ s.orders) : weight game q (s.push conn) < weight game q s := by
  have hfree : (freeOrders game (s.push conn)).length < (freeOrders game s).length := by
    rw [freeOrders_push, List.length_filter_lt_length_iff_exists]
    exact ⟨conn.order, List.mem_filter.2 ⟨hhand, by simpa using hnew⟩, by simp⟩
  exact mul_add_lt_of_lt hfree (by omega)

/-- The bit of an identity of the variant is one of the first thirty. -/
theorem nextBit_lt (hg : Sound game) (hq : Asked game q) (hrank : s.nextRank ≤ 5) :
    nextBit q s < 30 := by
  have hsuits := hg.suits
  have hsuit := hq.valid.1
  have hbit : q.identity.suitIndex * 5 + (s.nextRank - 1) < 30 := by omega
  exact lt_of_le_of_lt (Nat.mod_le _ _) hbit

theorem otherConnecting_spec (hg : Sound game) (h : otherConnecting game q s = some conn) :
    FoundFor game (nextIdentity q s) s.playerIndex (q.targetOrder :: s.orders) conn ∧
      s.nextRank ≤ 5 :=
  connecting_spec hg h

theorem weight_other (hg : Sound game) (hq : Asked game q) (hrank : 0 < s.nextRank)
    (h : otherConnecting game q s = some conn) :
    weight game q (s.push conn) < weight game q s :=
  weight_push_of_bit hrank
    ((nextBit_lt hg hq (otherConnecting_spec hg h).2).trans (by decide))

/-- A playable card of ours can be the next identity, as far as there is a bit for it. -/
theorem ownPlayable_spec (hg : Sound game) {o : ℕ} (h : ownPlayable game q s = some o) :
    o ∈ game.state.hands game.state.ourPlayerIndex ∧ nextBit q s < 30 := by
  refine ⟨List.mem_of_find?_eq_some h, ?_⟩
  have hsome := List.find?_some h
  obtain ⟨card, hcard, hpred⟩ := (Option.any_eq_true _ _).1 hsome
  rw [Bool.and_eq_true] at hpred
  by_contra hbit
  have hle : 2 ^ (5 * game.state.variant.suits.length) ≤ 2 ^ nextBit q s := by
    refine Nat.pow_le_pow_right (by decide) ?_
    have hsuits := hg.suits
    omega
  have hfalse := Nat.testBit_lt_two_pow (lt_of_lt_of_le (hg.own o card hcard) hle)
  exact absurd (hpred.2.symm.trans hfalse) (by decide)

/-- What the search for a card of ours finds. -/
theorem ownConnecting_spec (hg : Sound game) {connected : List ℕ}
    (h : ownConnecting game q s connected = some own) :
    own.identities = [nextIdentity q s] ∧
      own.order ∈ game.state.hands game.state.ourPlayerIndex ∧
      (own.order ∉ connected ∨ own.type = .playable ∧ nextBit q s < 30) := by
  unfold ownConnecting at h
  simp only at h
  split at h
  · rename_i playable hplayable
    obtain rfl := Option.some.inj h
    obtain ⟨hhand, hbit⟩ := ownPlayable_spec hg (Option.filter_eq_some_iff.1 hplayable).1
    exact ⟨rfl, hhand, .inr ⟨rfl, hbit⟩⟩
  · split at h
    · nomatch h
    · split at h
      · rename_i prompt hprompt
        obtain rfl := Option.some.inj h
        obtain ⟨hnew, hhand⟩ := findPrompt_spec (Option.filter_eq_some_iff.1 hprompt).1
        exact ⟨rfl, hhand, .inl hnew⟩
      · obtain ⟨finesse, hfinesse, rfl⟩ := Option.map_eq_some_iff.1 h
        obtain ⟨hnew, hhand⟩ := findFinesse_spec (Option.filter_eq_some_iff.1 hfinesse).1
        exact ⟨rfl, hhand, .inl hnew⟩

theorem ownFound_spec (hg : Sound game) (h : ownFound game q s = some own) :
    own.identities = [nextIdentity q s] ∧
      own.order ∈ game.state.hands game.state.ourPlayerIndex ∧
      (own.order ∉ (s.pushSome (otherConnecting game q s)).orders ∨
        own.type = .playable ∧ nextBit q s < 30) := by
  unfold ownFound at h
  split at h
  · exact ownConnecting_spec hg h
  · nomatch h

/-- What a round finds makes the weight smaller. -/
theorem weight_pushSome (hg : Sound game) (hq : Asked game q) (hrank : 0 < s.nextRank) :
    weight game q (s.pushSome (otherConnecting game q s)) ≤ weight game q s := by
  cases hother : otherConnecting game q s with
  | none => exact le_rfl
  | some conn => exact (weight_other hg hq hrank hother).le

theorem weight_own (hg : Sound game) (hq : Asked game q) (hrank : 0 < s.nextRank)
    (hown : ownFound game q s = some own) :
    weight game q ((s.pushSome (otherConnecting game q s)).push own) <
      weight game q s := by
  obtain ⟨-, hhand, hnew | ⟨-, hbit⟩⟩ := ownFound_spec hg hown
  · exact (weight_push_of_new hhand hnew).trans_le (weight_pushSome hg hq hrank)
  · cases hother : otherConnecting game q s with
    | none => exact weight_push_of_bit hrank (hbit.trans (by decide))
    | some conn =>
      have hpush : nextBit q (s.push conn) = nextBit q s + 1 :=
        nextBit_push hrank (hbit.trans (by decide))
      refine lt_trans (weight_push_of_bit ?_ ?_) (weight_other hg hq hrank hother)
      · exact Nat.succ_pos _
      · rw [Search.pushSome_some]
        omega

/-- What a round that goes on leads to. -/
theorem ownRound_next (hg : Sound game) (hq : Asked game q) (hs : Walking game q s)
    (hround : ownRound game q s = .next s') :
    s.nextRank ≠ q.identity.rank ∧ Walking game q s' ∧
      s'.connections = (s.pushSome (otherConnecting game q s)).connections ++
        (ownFound game q s).toList ∧
      weight game q s' * (2 * game.state.numPlayers) +
          s'.lap game.state.numPlayers q.target <
        weight game q s * (2 * game.state.numPlayers) +
          s.lap game.state.numPlayers q.target := by
  have hpos : 0 < s.nextRank := by
    rw [hs.counts]
    omega
  unfold ownRound at hround
  split at hround
  · nomatch hround
  · rename_i hne
    simp only at hround
    refine ⟨hne, ?_⟩
    split at hround
    · rename_i own hown
      obtain rfl := Loop.Outcome.next.inj hround
      refine ⟨⟨(hs.counts.pushSome _).push own, hq.nextPlayerIndex_lt _⟩, ?_, ?_⟩
      · rw [hown]
        rfl
      · exact mul_add_lt_of_lt (weight_own hg hq hpos hown) (Search.lap_lt hq.numPlayers_pos)
    · rename_i hown
      obtain ⟨hnext, hconns, hplayer, hlap⟩ := advance_next hq (by simpa using hs.player) hround
      have hweight : weight game q s' =
          weight game q (s.pushSome (otherConnecting game q s)) := by
        simp only [weight, freeOrders, nextBit, nextIdentity, Search.orders, hnext, hconns]
      refine ⟨⟨?_, hplayer⟩, ?_, ?_⟩
      · rw [Search.Counts, hnext, hconns]
        exact hs.counts.pushSome _
      · rw [hconns, hown]
        exact (List.append_nil _).symm
      · rw [hweight]
        cases hother : otherConnecting game q s with
        | none =>
          rw [hother] at hlap
          exact Nat.add_lt_add_left hlap _
        | some conn =>
          exact mul_add_lt_of_lt (weight_other hg hq hpos hother)
            (hlap.trans (Search.lap_lt hq.numPlayers_pos))

theorem ownRound_stop (hround : ownRound game q s = .stop s') :
    (s.nextRank = q.identity.rank ∧ s' = s) ∨
      ownFound game q s = none ∧ s' = s.pushSome (otherConnecting game q s) := by
  unfold ownRound at hround
  split at hround
  · rename_i hrank
    exact .inl ⟨hrank, (Loop.Outcome.stop.inj hround).symm⟩
  · simp only at hround
    split at hround
    · nomatch hround
    · rename_i hown
      exact .inr ⟨hown, advance_stop hround⟩

theorem ownRound_of_found (hne : s.nextRank ≠ q.identity.rank)
    (hown : ownFound game q s = some own) :
    ∃ s', ownRound game q s = .next s' := by
  unfold ownRound
  simp only [if_neg hne, hown]
  exact ⟨_, rfl⟩

/-- A chain only grows from a round on. -/
theorem prefix_of_visited (hg : Sound game) (hq : Asked game q) (hs : Walking game q s)
    (hvisited : Loop.Visited (ownRound game q) s s') :
    Walking game q s' ∧ s.connections <+: s'.connections := by
  refine @Loop.Visited.invariant _ _ _
    (fun t => Walking game q t ∧ s.connections <+: t.connections) ⟨hs, List.prefix_rfl⟩ ?_ _
    hvisited
  rintro t t' - ⟨ht, hprefix⟩ hround
  obtain ⟨-, hwalk, hconns, -⟩ := ownRound_next hg hq ht hround
  refine ⟨hwalk, hprefix.trans ?_⟩
  rw [hconns]
  cases otherConnecting game q t with
  | none => exact List.prefix_append _ _
  | some conn => exact (List.prefix_append _ _).trans (List.prefix_append _ _)

/-- A round that leaves a chain is as it should be. -/
theorem roundOk_of_chained {k : ℕ} (hg : Sound game) (hs : s.Counts k)
    (hchain : Chained k q ((s.pushSome (otherConnecting game q s)).connections ++
      (ownFound game q s).toList)) : RoundOk game q s := by
  intro own hown
  rw [hown, Option.toList_some] at hchain
  obtain ⟨hids, -, -⟩ := ownFound_spec hg hown
  have hat := hchain.identity_at (List.getElem?_concat_length)
  have hrank : s.nextRank = k + 1 + (s.pushSome (otherConnecting game q s)).connections.length := by
    rw [hids] at hat
    exact congrArg Identity.rank (List.head_eq_of_cons_eq hat)
  have hnone : otherConnecting game q s = none := by
    cases hother : otherConnecting game q s with
    | none => rfl
    | some conn =>
      rw [hother, hs] at hrank
      simp at hrank
  rw [hnone, Search.pushSome_none] at hchain
  refine ⟨hnone, ?_, fun _ => ?_⟩
  · rintro heq
    exact hchain.target (by simp [heq])
  · have hnodup := hchain.nodup
    rw [List.map_append, List.map_singleton, List.nodup_append_comm, List.singleton_append,
      List.nodup_cons] at hnodup
    exact hnodup.1

/-- A round that is as it should be continues a chain. -/
theorem chained_of_roundOk {k : ℕ} (hg : Sound game) (hs : s.Counts k)
    (hchain : Chained k q s.connections) (hround : RoundOk game q s) :
    Chained k q ((s.pushSome (otherConnecting game q s)).connections ++
      (ownFound game q s).toList) := by
  cases hown : ownFound game q s with
  | none =>
    rw [Option.toList_none, List.append_nil]
    exact chained_connecting hg hs hchain
  | some own =>
    obtain ⟨hnone, htarget, hplayable⟩ := hround own hown
    obtain ⟨hids, -, hnew⟩ := ownFound_spec hg hown
    rw [hnone, Search.pushSome_none] at hnew ⊢
    refine hchain.push ?_ htarget (hnew.elim id fun h => hplayable h.1)
    rw [hids, nextIdentity, hs]

end Own

/-- Both searches end. What `connect` finds is well formed; what `find_own_finesses` finds is if
and only if every round is as it should be. -/
theorem connections_wellFormed_iff (game : Game) (q : Query) (hg : Sound game)
    (hq : Asked game q) :
    (Fuel.Returns (connect game q) fun chain => chain.success = true →
      WellFormed (game.state.playStacks q.identity.suitIndex) q chain.connections) ∧
    Fuel.Returns (findOwnFinesses game q) fun chain => chain.success = true →
      (WellFormed (game.state.playStacks q.identity.suitIndex) q chain.connections ↔
        ∀ s, Loop.Visited (ownRound game q) (startSearch game q) s →
          s.nextRank ≠ q.identity.rank → RoundOk game q s) := by
  refine ⟨connect_returns hg hq, Fuel.Returns.map (Loop.returns_of_measure
    (fun s => weight game q s * (2 * game.state.numPlayers) +
      s.lap game.state.numPlayers q.target)
    (fun s s' hs hround => (ownRound_next hg hq hs hround).2.imp_right And.right)
    (walking_start hq)) ?_⟩
  rintro result ⟨t, hvisited, hstop⟩ hsuccess
  have hrank : result.nextRank = q.identity.rank := by
    by_contra hne
    rw [chainOf, if_neg hne] at hsuccess
    nomatch hsuccess
  have hchainOf : (chainOf q result).connections = result.connections := by
    rw [chainOf, if_pos hrank]
  have ht := (prefix_of_visited hg hq (walking_start hq) hvisited).1
  have hlast : t.connections <+: result.connections := by
    obtain ⟨-, rfl⟩ | ⟨-, rfl⟩ := ownRound_stop hstop
    · exact List.prefix_rfl
    · cases otherConnecting game q t with
      | none => exact List.prefix_rfl
      | some conn => exact List.prefix_append _ _
  constructor
  · intro hwf s hs hne own hown
    obtain ⟨s', hround⟩ := ownRound_of_found hne hown
    have hwalk := (prefix_of_visited hg hq (walking_start hq) hs).1
    obtain ⟨-, hwalk', hconns, -⟩ := ownRound_next hg hq hwalk hround
    have hprefix := (prefix_of_visited hg hq hwalk' (hs.after hvisited hround hstop)).2.trans hlast
    obtain ⟨later, hlater⟩ := hprefix
    have hchain : Chained _ q result.connections := hchainOf ▸ hwf.toChained
    rw [← hlater, hconns] at hchain
    exact roundOk_of_chained hg hwalk.counts hchain.of_append own hown
  · intro hrounds
    have hchain : ∀ s, Loop.Visited (ownRound game q) (startSearch game q) s →
        Chained (game.state.playStacks q.identity.suitIndex) q s.connections := by
      intro s hs
      refine @Loop.Visited.invariant _ _ _ (fun s => Chained _ q s.connections) .nil
        (fun s s' hs hchain hround => ?_) _ hs
      obtain ⟨hne, -, hconns, -⟩ :=
        ownRound_next hg hq (prefix_of_visited hg hq (walking_start hq) hs).1 hround
      rw [hconns]
      exact chained_of_roundOk hg (prefix_of_visited hg hq (walking_start hq) hs).1.counts hchain
        (hrounds s hs hne)
    obtain ⟨-, rfl⟩ | ⟨-, rfl⟩ := ownRound_stop hstop
    · exact wellFormed_chainOf ht.counts (hchain _ hvisited) hsuccess
    · exact wellFormed_chainOf (ht.counts.pushSome _)
        (chained_connecting hg ht.counts (hchain _ hvisited)) hsuccess

/-! ## A card of the target's and one of ours -/

/-- The cards of the two players that we see. -/
def seenCards : List Identity :=
  [⟨0, 1⟩, ⟨2, 3⟩, ⟨0, 4⟩, ⟨3, 1⟩, ⟨4, 3⟩, ⟨1, 2⟩, ⟨1, 4⟩, ⟨2, 4⟩, ⟨3, 3⟩, ⟨1, 1⟩, ⟨4, 2⟩]

def seenCard (order : ℕ) : Option Identity :=
  if order < 5 then none else seenCards[order - 5]?

/-- What everybody knows: the last player's first card is the yellow 2, and the second was just
clued with 4. -/
def seenThought (order : ℕ) : Card :=
  let ids : List Identity :=
    if order = 10 then [⟨1, 2⟩]
    else if order = 11 then [⟨0, 4⟩, ⟨1, 4⟩, ⟨2, 4⟩, ⟨3, 4⟩, ⟨4, 4⟩]
    else (IdentitySet.full 5).array
  let possible := (IdentitySet.full 5).intersect (IdentitySet.identitiesToMask ids)
  { id := none, possible, inferred := possible, order, clued := order == 10 || order == 11
    status := if order = 10 ∨ order = 11 then some .clued else none }

/-- A player of the game. -/
def seenPlayer (playerIndex : Option ℕ) : Player where
  playerIndex := playerIndex
  thoughts := ⟨16, fun o => if o < 16 then some (seenThought o) else none⟩
  allPossible := .full 5
  allInferred := .full 5

/-- Three players, after the last of them has played the yellow 1. -/
def y1Game : Game where
  state := {
    variant := noVariant
    numPlayers := 3
    ourPlayerIndex := 0
    turnCount := 4
    clueTokens := 6
    hands := fun p => [[4, 3, 2, 1, 0], [9, 8, 7, 6, 5], [15, 13, 12, 11, 10]].getD p []
    deck := ⟨16, fun o => if o < 16 then some ⟨seenCard o⟩ else none⟩
    playStacks := fun suitIndex => if suitIndex = 1 then 1 else 0
    cardsLeft := 34
    cardOrder := 15 }
  newlyClued := fun order => order == 11
  common := seenPlayer none
  me := seenPlayer (some 0)

/-- The second player clues the yellow 4 of the third. -/
def y4Query : Query := ⟨11, ⟨1, 4⟩, 1, 2, false⟩

/-- The yellow 2 of the target's, and then a card of ours as another yellow 2, count as the
yellow 2 and the yellow 3. -/
theorem own_y2_twice :
    findOwnFinesses y1Game y4Query 2 =
        some ⟨true, [connection .known 2 ⟨1, 2⟩ 10, connection .finesse 0 ⟨1, 2⟩ 4]⟩ ∧
      ¬ WellFormed 1 y4Query
        [connection .known 2 ⟨1, 2⟩ 10, connection .finesse 0 ⟨1, 2⟩ 4] := by
  refine ⟨by decide +kernel, fun h => ?_⟩
  have hids := h.identities
  revert hids
  decide

theorem seenCard_valid (order : ℕ) (id : Identity) (h : seenCard order = some id) :
    id.Valid noVariant := by
  have hall : ∀ id ∈ seenCards, id.Valid noVariant := by decide
  unfold seenCard at h
  exact hall id (List.mem_of_getElem? (Option.ite_none_left_eq_some.1 h).2)

theorem seenThought_ofVariant (order : ℕ) : (seenThought order).OfVariant noVariant :=
  ⟨rfl, rfl, nofun, nofun, nofun⟩

theorem sound_y1Game : Sound y1Game where
  suits := by decide
  deck o id h := by
    change ((if o < 16 then some (ActualCard.mk (seenCard o)) else none).bind _) = some id at h
    obtain ⟨card, hcard, hid⟩ := Option.bind_eq_some_iff.1 h
    obtain ⟨-, heq⟩ := Option.ite_none_right_eq_some.1 hcard
    obtain rfl := Option.some.inj heq
    exact seenCard_valid o id hid
  common o card h := by
    change (if o < 16 then some (seenThought o) else none) = some card at h
    obtain ⟨-, heq⟩ := Option.ite_none_right_eq_some.1 h
    obtain rfl := Option.some.inj heq
    exact seenThought_ofVariant o
  own o card h := by
    change (if o < 16 then some (seenThought o) else none) = some card at h
    obtain ⟨-, heq⟩ := Option.ite_none_right_eq_some.1 h
    obtain rfl := Option.some.inj heq
    exact lt_of_le_of_lt Nat.and_le_left (by decide)

/-- In the game with the yellow 2, what is found is well formed if and only if every round is as it
should be. -/
theorem connections_wellFormed_iff_y1Game :
    (Fuel.Returns (connect y1Game y4Query) fun chain => chain.success = true →
      WellFormed 1 y4Query chain.connections) ∧
    Fuel.Returns (findOwnFinesses y1Game y4Query) fun chain => chain.success = true →
      (WellFormed 1 y4Query chain.connections ↔
        ∀ s, Loop.Visited (ownRound y1Game y4Query) (startSearch y1Game y4Query) s →
          s.nextRank ≠ 4 → RoundOk y1Game y4Query s) :=
  connections_wellFormed_iff y1Game y4Query sound_y1Game ⟨by decide, by decide, by decide⟩

end HanabiBot.RefSieve
