import HanabiBot.HGroup.Hypo
import HanabiBot.Lib.Sorting
import HanabiBot.Tools.Util

/-!
# Order chop moves

A player who holds several unknown 1s plays them in the order of `order_1s`.
Playing another one than the first chop moves a card: that of the player as many
seats away.  `find_best_playable` of `src/conventions/h-group/take-action.js`
decides which one to play, `check_ocm` of
`src/conventions/h-group/interpret-play.js` reads the play.

The sender orders the 1s among the cards to play, the receiver those of the whole
hand.  A 1 in the hand that is not to be played, as the sender knows better, counts
for the receiver only (`skippedOnes`), and may move the chop of another player or
of none (`checkOcm_exact_iff`, `ocm_misread`).
-/

namespace HanabiBot.HGroup

/-- `LEVEL.BASIC_CM`. -/
def BASIC_CM : ℕ := 4

/-- `LEVEL.INTERMEDIATE_FINESSES`. -/
def INTERMEDIATE_FINESSES : ℕ := 5

/-! ## The value of a card -/

/-- `save2`: whether an identity needs to be saved as a unique 2 on the board. -/
def save2 (st : HState) (player : HGroupPlayer) (identity : Identity) : Bool :=
  identity.rank == 2 && decide (st.playStacks identity.suitIndex < 2) &&
    (visibleFind true st player identity).length == 1

/-- `isTrash` on a card that may have no identity, which matches no thought. -/
def isTrashCard (st : HState) (player : HGroupPlayer) (order : ℕ) : Option Identity → Bool
  | none => false
  | some identity => isTrashAs {} st player identity order

/-- `isSaved` without an order, with `{ infer: true }`. -/
def isSavedSomewhere (st : HState) (player : HGroupPlayer) (identity : Identity) : Bool :=
  st.allOrders.any fun o => (player.thoughts.get o).any fun card =>
    st.deckMatches o identity && card.matchesId identity { infer := true } &&
      (card.touched || card.status == some .cm)

/-- `cardValue` without an order; that of a card without an identity is `NaN`. -/
def cardValue (st : HState) (player : HypoPlayer) (identity : Option Identity) : Option ℚ :=
  identity.map fun id =>
    -- basic trash, saved already, duplicate visible
    if st.isBasicTrash id || isSavedSomewhere st player.toHGroupPlayer id ||
        decide (1 < (visibleFind true st player.toHGroupPlayer id).length) then 0
    else if st.isCritical id then 5
    else if save2 st player.toHGroupPlayer id then 4
    else 5 - ((id.rank : ℚ) - player.hypoStacks id.suitIndex)

/-! ## Order chop moves -/

/-- `simulateCM`. -/
def HGroupPlayer.simulateCM (player : HGroupPlayer) (orders : List ℕ) : HGroupPlayer :=
  { player with
    thoughts := orders.foldl (fun thoughts o => thoughts.modify o (·.updateStatus .cm))
      player.thoughts }

/-- What `order_1s` keeps of the cards it is given. -/
def isUnknown1 (st : HState) (player : HGroupPlayer) (o : ℕ) : Bool :=
  unknown1 (st.marks o) false && (player.possible o).array.all fun p => p.rank == 1

/-- `order_1s`, with the default options. -/
def orderUnknown1s (st : HState) (player : HGroupPlayer) (orders : List ℕ) : List ℕ :=
  order1s st player (orders.filter (isUnknown1 st player))

/-- The player `i` seats after another. -/
def seatAfter (st : HState) (playerIndex i : ℕ) : ℕ := (playerIndex + i) % st.numPlayers

/-- The value of the order chop move that playing the 1 at index `i` is. -/
def ocmValue (game : HypoGame) (i : ℕ) : Option ℚ :=
  let st := game.state
  let playerIndex := seatAfter st st.ourPlayerIndex i
  if playerIndex = st.ourPlayerIndex then some (-1 / 10)
  else
    match game.common.chop (st.hands playerIndex) with
    | none => some (-1 / 10)
    | some oldChop =>
      let oldChopCard := st.identityOf oldChop
      -- the player has a playable or trash chop
      if isTrashCard st game.me.toHGroupPlayer oldChop oldChopCard ||
          (st.isPlayableCard oldChopCard && st.clueTokens != 0) then some (-1 / 10)
      else do
        let oldChopValue ← cardValue st game.me oldChopCard
        let newChopValue ←
          match (game.common.simulateCM [oldChop]).chop (st.hands playerIndex) with
          | some newChop => cardValue st game.me (st.identityOf newChop)
          | none => some (if game.me.thinksLoaded st playerIndex then 0 else 4)
        some (oldChopValue - newChopValue)

/-- `best_ocm_index`. -/
def bestOcmIndex (game : HypoGame) (ordered1s : List ℕ) : ℕ :=
  (Utils.maxOn (List.range' 1 (ordered1s.length - 1)) (ocmValue game) (-1 / 10)).getD 0

/-- What `find_best_playable` returns, and the priorities it leaves; a priority of
`-1` is `none`. -/
structure BestPlayable where
  priority : Option ℕ
  order : Option ℕ
  priorities : List (List ℕ)
  deriving DecidableEq

/-- The end of `find_best_playable`: finesses that may have to wait for an older one. -/
def withoutQueued (game : HypoGame) (best : BestPlayable) : BestPlayable :=
  if INTERMEDIATE_FINESSES ≤ game.level ∧ best.priority = some 0 then
    let st := game.state
    let priorities := best.priorities.modify 0 fun orders => orders.filter fun o =>
      (game.common.olderQueuedFinesse st st.ourPlayerIndex o).isNone
    let priority := priorities.findIdx? fun orders => !orders.isEmpty
    { priority, priorities, order := priority.bind fun p => priorities[p]?.bind List.head? }
  else best

/-- `find_best_playable`; there is none without a playable card, when it throws. -/
def findBestPlayable (game : HypoGame) (playableCards : List ℕ)
    (playablePriorities : List (List ℕ)) : Option BestPlayable := do
  let st := game.state
  let priority ← playablePriorities.findIdx? fun orders => !orders.isEmpty
  let priorityCards ← playablePriorities[priority]?
  let best : BestPlayable :=
    -- the best playable card is an unknown 1, so we should order correctly
    if priority ≠ 0 ∧ (priorityCards.any fun o => unknown1 (st.marks o) false) = true then
      let ordered1s := orderUnknown1s st game.common.toHGroupPlayer playableCards
      if 0 < ordered1s.length ∧ BASIC_CM ≤ game.level then
        let bestOcmIndex := bestOcmIndex game ordered1s
        { priority := if bestOcmIndex ≠ 0 then some 2 else some priority
          order := ordered1s[bestOcmIndex]?
          priorities := playablePriorities }
      else
        -- play (possibly pinkish) 1s in order
        let clued1s := priorityCards.filter fun o => unknown1 (st.marks o) false
        { priority := some priority
          order := (order1s st game.common.toHGroupPlayer clued1s).head?
          priorities := playablePriorities }
    else
      { priority := some priority, order := priorityCards.head?, priorities := playablePriorities }
  some (withoutQueued game best)

/-- `check_ocm`: the order of the chop moved card, if one is. -/
def checkOcm (game : HypoGame) (order playerIndex : ℕ) : Option ℕ :=
  let st := game.state
  let ordered1s := orderUnknown1s st game.common.toHGroupPlayer (st.hands playerIndex)
  match ordered1s.findIdx? (· == order) with
  | none => none
  | some 0 => none
  | some offset =>
    let target := seatAfter st playerIndex offset
    if target = playerIndex then none else game.common.chop (st.hands target)

/-! ## The order of the 1s -/

/-- Whether a card is or was chop moved. -/
def wasChopMoved (player : HGroupPlayer) (o : ℕ) : Bool :=
  (player.thoughts.get o).any fun card => card.status == some .cm || card.lastStatus == some .cm

/-- The kind of a 1, among those clued on one turn, and what orders the 1s of a kind. -/
def kindOf1 (st : HState) (player : HGroupPlayer) (o : ℕ) : ℕ × ℤ :=
  if (player.thoughts.get o).any Card.blindPlaying then (0, (player.marks o).finesseIndex)
  else if wasChopMoved player o then (4, -o)
  else if (player.marks o).chopWhenFirstClued then (1, -o)
  else if st.inStartingHand o then (3, o)
  else (2, -o)

/-- The turn a card was first clued on. -/
def firstCluedTurn (st : HState) (o : ℕ) : ℕ :=
  ((st.marks o).clues.head?.map GivenClue.turn).getD st.turnCount

/-- The key that `order_1s` sorts by. -/
def keyOf1 (st : HState) (player : HGroupPlayer) (o : ℕ) : ℤ ×ₗ ℕ ×ₗ ℤ :=
  toLex (-(firstCluedTurn st o : ℤ), toLex (kindOf1 st player o))

theorem kindOf1_cases (st : HState) (player : HGroupPlayer) (o : ℕ) :
    ((player.thoughts.get o).any Card.blindPlaying = true ∧
        kindOf1 st player o = (0, (player.marks o).finesseIndex)) ∨
      (player.thoughts.get o).any Card.blindPlaying = false ∧
        ((wasChopMoved player o = true ∧ kindOf1 st player o = (4, -(o : ℤ))) ∨
          wasChopMoved player o = false ∧
            (((player.marks o).chopWhenFirstClued = true ∧ kindOf1 st player o = (1, -(o : ℤ))) ∨
              (player.marks o).chopWhenFirstClued = false ∧
                ((st.inStartingHand o = true ∧ kindOf1 st player o = (3, (o : ℤ))) ∨
                  (st.inStartingHand o = false ∧ kindOf1 st player o = (2, -(o : ℤ)))))) := by
  unfold kindOf1
  split_ifs <;> simp_all

/-- The comparator of `order_1s` compares the keys of two cards. -/
theorem compare1s_iff (st : HState) (player : HGroupPlayer) {a b : ℕ} (hne : a ≠ b) :
    (compare1s st player a b ≤ 0 ↔ keyOf1 st player a ≤ keyOf1 st player b) ∧
      (compare1s st player a b < 0 ↔ keyOf1 st player a < keyOf1 st player b) := by
  simp only [keyOf1, Prod.Lex.toLex_le_toLex, Prod.Lex.toLex_lt_toLex, compare1s, firstCluedTurn]
  generalize (((st.marks a).clues.head?.map GivenClue.turn).getD st.turnCount) = turnA
  generalize (((st.marks b).clues.head?.map GivenClue.turn).getD st.turnCount) = turnB
  by_cases hturn : turnA = turnB
  · -- the first kind that one of the two cards is of decides
    have hkindA := kindOf1_cases st player a
    have hkindB := kindOf1_cases st player b
    simp only [wasChopMoved] at hkindA hkindB
    rcases hkindA with ⟨hbA, hkA⟩ | ⟨hbA, ⟨hmA, hkA⟩ | ⟨hmA, ⟨hfA, hkA⟩ |
        ⟨hfA, ⟨hsA, hkA⟩ | ⟨hsA, hkA⟩⟩⟩⟩ <;>
      rcases hkindB with ⟨hbB, hkB⟩ | ⟨hbB, ⟨hmB, hkB⟩ | ⟨hmB, ⟨hfB, hkB⟩ |
        ⟨hfB, ⟨hsB, hkB⟩ | ⟨hsB, hkB⟩⟩⟩⟩ <;>
      simp [*] <;> omega
  · have hle : (turnB : ℤ) - turnA ≤ 0 ↔ -(turnA : ℤ) < -(turnB : ℤ) := by omega
    have hlt : (turnB : ℤ) - turnA < 0 ↔ -(turnA : ℤ) < -(turnB : ℤ) := by omega
    simp [hturn, hle, hlt]

theorem compare1s_eq_zero_iff (st : HState) (player : HGroupPlayer) {a b : ℕ} (hne : a ≠ b) :
    compare1s st player a b = 0 ↔ keyOf1 st player a = keyOf1 st player b := by
  obtain ⟨hle, hlt⟩ := compare1s_iff st player hne
  rw [eq_iff_le_not_lt, eq_iff_le_not_lt, hle, hlt]

theorem order1s_eq (st : HState) (player : HGroupPlayer) {orders : List ℕ} (hnodup : orders.Nodup) :
    order1s st player orders = orders.mergeSort (Sorting.keyLE (keyOf1 st player)) :=
  Sorting.mergeSort_congr hnodup fun a _ b _ hne => by
    simp only [Sorting.keyLE, decide_eq_decide]
    exact (compare1s_iff st player hne).1

/-! ## Who counts which 1s -/

/-- The unknown 1s of a hand that are not among the cards to play and come before the
one that is played: by the comparator, or to the left of it if that does not tell them apart. -/
def skippedOnes (st : HState) (common : HGroupPlayer) (hand playableCards : List ℕ) (order : ℕ) :
    List ℕ :=
  hand.filter fun o => isUnknown1 st common o && !playableCards.contains o &&
    decide (compare1s st common o order < 0 ∨
      compare1s st common o order = 0 ∧ [o, order].Sublist hand)

/-- Where the receiver finds the 1 that the sender plays. -/
theorem idxOf_orderUnknown1s {st : HState} {common : HGroupPlayer} {hand playableCards : List ℕ}
    (hnodup : hand.Nodup) (hsub : playableCards.Sublist hand) {order : ℕ}
    (hmem : order ∈ orderUnknown1s st common playableCards) :
    (orderUnknown1s st common hand).idxOf order =
      (orderUnknown1s st common playableCards).idxOf order +
        (skippedOnes st common hand playableCards order).length := by
  set ones := hand.filter (isUnknown1 st common) with hones
  have hnodup' : ones.Nodup := hnodup.filter _
  have hplayable : playableCards.filter (isUnknown1 st common) =
      ones.filter fun o => playableCards.contains o := by
    rw [hones, List.filter_comm, Sorting.filter_contains_of_sublist hnodup hsub]
  rw [orderUnknown1s, order1s, List.mem_mergeSort, List.mem_filter] at hmem
  have horder : order ∈ ones := List.mem_filter.2 ⟨hsub.subset hmem.1, hmem.2⟩
  rw [orderUnknown1s, orderUnknown1s, hplayable, order1s_eq _ _ (hnodup'.filter _), ← hones,
    order1s_eq _ _ hnodup', Sorting.idxOf_mergeSort hnodup' horder
      (List.contains_iff_mem.2 hmem.1), skippedOnes]
  congr 2
  rw [hones, List.filter_filter]
  refine List.filter_congr fun o _ => ?_
  by_cases ho : isUnknown1 st common o = true ∧ o ∉ playableCards
  · have hne : o ≠ order := by
      rintro rfl
      exact ho.2 hmem.1
    -- both are 1s: the one is left of the other among them if it is in the hand
    have hleft : [o, order].Sublist (hand.filter (isUnknown1 st common)) ↔
        [o, order].Sublist hand := by
      refine ⟨fun h => h.trans List.filter_sublist, fun h => ?_⟩
      have hpair := h.filter (isUnknown1 st common)
      rwa [List.filter_eq_self.2 (by simp [ho.1, hmem.2])] at hpair
    simp [ho, (compare1s_iff st common hne).2, compare1s_eq_zero_iff st common hne, hleft]
  · simp only [not_and, not_not] at ho
    cases h1 : isUnknown1 st common o <;> simp_all

/-! ## Reading the play -/

/-- Two games of one position, each as kept by one of the players: the common
knowledge is the same. -/
structure SharesCommon (game game' : HypoGame) : Prop where
  common : game.common = game'.common
  shared : game.state.shared = game'.state.shared

/-- `check_ocm` only looks at what all players share. -/
theorem checkOcm_shared {game game' : HypoGame} (h : SharesCommon game game')
    (order playerIndex : ℕ) : checkOcm game' order playerIndex = checkOcm game order playerIndex := by
  have hread : ∀ (st : HState) (common : HypoPlayer), checkOcm
      { game with state := st.shared, common } order playerIndex =
        checkOcm { game with state := st, common } order playerIndex := fun _ _ => rfl
  have hgame : checkOcm game' order playerIndex =
      checkOcm { game with state := game'.state, common := game'.common } order playerIndex := rfl
  rw [hgame, ← hread, ← h.shared, ← h.common, hread]

/-- What a 1 in the order of play says. -/
theorem checkOcm_eq {game : HypoGame} {order playerIndex : ℕ}
    (hmem : order ∈ orderUnknown1s game.state game.common.toHGroupPlayer
      (game.state.hands playerIndex)) :
    checkOcm game order playerIndex =
      let offset := (orderUnknown1s game.state game.common.toHGroupPlayer
        (game.state.hands playerIndex)).idxOf order
      if offset = 0 ∨ seatAfter game.state playerIndex offset = playerIndex then none
      else game.common.chop (game.state.hands (seatAfter game.state playerIndex offset)) := by
  have hfind : (orderUnknown1s game.state game.common.toHGroupPlayer
      (game.state.hands playerIndex)).findIdx? (· == order) = some ((orderUnknown1s game.state
        game.common.toHGroupPlayer (game.state.hands playerIndex)).idxOf order) := by
    rw [List.findIdx?_eq_some_iff_findIdx_eq]
    exact ⟨List.idxOf_lt_length_of_mem hmem, rfl⟩
  unfold checkOcm
  simp only [hfind]
  split
  · simp_all
  · simp_all
  · rename_i offset hne heq
    obtain rfl := Option.some.inj heq
    simp only [or_iff_right hne]

/-- `find_best_playable` plays one of its ordered 1s. -/
def PlaysOrdered (game : HypoGame) (playableCards : List ℕ) (playablePriorities : List (List ℕ)) :
    Prop :=
  BASIC_CM ≤ game.level ∧
    orderUnknown1s game.state game.common.toHGroupPlayer playableCards ≠ [] ∧
    ∃ priority priorityCards,
      (playablePriorities.findIdx? fun orders => !orders.isEmpty) = some priority ∧ priority ≠ 0 ∧
      playablePriorities[priority]? = some priorityCards ∧
      (priorityCards.any fun o => unknown1 (game.state.marks o) false) = true

theorem findBestPlayable_ordered {game : HypoGame} {playableCards : List ℕ}
    {playablePriorities : List (List ℕ)} (h : PlaysOrdered game playableCards playablePriorities) :
    ∃ best, findBestPlayable game playableCards playablePriorities = some best ∧
      best.order = (orderUnknown1s game.state game.common.toHGroupPlayer playableCards)[bestOcmIndex
        game (orderUnknown1s game.state game.common.toHGroupPlayer playableCards)]? := by
  obtain ⟨hlevel, hne, priority, cards, hpriority, hnz, hcards, hany⟩ := h
  have hlen : 0 < (orderUnknown1s game.state game.common.toHGroupPlayer playableCards).length :=
    List.length_pos_iff.2 hne
  simp only [findBestPlayable, hpriority, hcards, Option.bind_eq_bind, Option.bind_some, hnz, hany,
    hlen, hlevel, ne_eq, not_false_eq_true, and_self, if_true, Option.some.injEq, exists_eq_left']
  -- the priority is not that of a finesse, so the end changes nothing
  rw [withoutQueued, if_neg]
  rintro ⟨-, hzero⟩
  dsimp only at hzero
  split at hzero
  · exact absurd (Option.some.inj hzero) (by decide)
  · exact hnz (Option.some.inj hzero)

/-- The sender checks that the player whose card it moves is another one, with a chop. -/
theorem bestOcmIndex_target {game : HypoGame} {ordered1s : List ℕ}
    (hpos : 0 < bestOcmIndex game ordered1s) :
    let target := seatAfter game.state game.state.ourPlayerIndex (bestOcmIndex game ordered1s)
    target ≠ game.state.ourPlayerIndex ∧
      ∃ chop, game.common.chop (game.state.hands target) = some chop := by
  have hmax : Utils.maxOn (List.range' 1 (ordered1s.length - 1)) (ocmValue game) (-1 / 10) =
      some (bestOcmIndex game ordered1s) := by
    unfold bestOcmIndex at hpos ⊢
    cases hm : Utils.maxOn (List.range' 1 (ordered1s.length - 1)) (ocmValue game) (-1 / 10) with
    | none => simp [hm] at hpos
    | some i => rfl
  obtain ⟨-, curr, hvalue, hlt⟩ := Utils.value_of_maxOn hmax
  simp only [ocmValue] at hvalue
  split at hvalue
  · exact absurd (Option.some.inj hvalue ▸ hlt) (lt_irrefl _)
  · rename_i hne
    cases hchop : game.common.chop (game.state.hands
        (seatAfter game.state game.state.ourPlayerIndex (bestOcmIndex game ordered1s))) with
    | none =>
      rw [hchop] at hvalue
      exact absurd (Option.some.inj hvalue ▸ hlt) (lt_irrefl _)
    | some chop => exact ⟨hne, chop, hchop⟩

theorem mem_of_chop {player : HGroupPlayer} {hand : List ℕ} {o : ℕ} (h : player.chop hand = some o) :
    o ∈ hand := by
  obtain ⟨i, -, hi⟩ := Option.bind_eq_some_iff.1 h
  exact List.mem_of_getElem? hi

/-- Two players have no card in common, so not the same chop. -/
theorem seat_eq_of_chop {st : HState} {player : HGroupPlayer} (hhands : st.allOrders.Nodup)
    {p q o : ℕ} (hp : p < st.numPlayers) (hq : q < st.numPlayers)
    (hpo : player.chop (st.hands p) = some o) (hqo : player.chop (st.hands q) = some o) : p = q := by
  by_contra hne
  have hdisj := (List.nodup_flatMap.1 hhands).2
  have hsymm : Std.Symm (Function.onFun List.Disjoint st.hands) := ⟨fun _ _ h => h.symm⟩
  have hpair : (st.hands p).Disjoint (st.hands q) :=
    hdisj.forall (List.mem_range.2 hp) (List.mem_range.2 hq) hne
  exact hpair (mem_of_chop hpo) (mem_of_chop hqo)

theorem seatAfter_add_eq_iff (st : HState) (p i k : ℕ) :
    seatAfter st p (i + k) = seatAfter st p i ↔ st.numPlayers ∣ k := by
  have h := Nat.modEq_iff_dvd' (n := st.numPlayers) (Nat.le_add_right (p + i) k)
  rw [Nat.add_sub_cancel_left] at h
  rw [seatAfter, seatAfter, ← Nat.add_assoc, ← h]
  exact eq_comm

theorem seatAfter_lt {st : HState} {p : ℕ} (hp : p < st.numPlayers) (i : ℕ) :
    seatAfter st p i < st.numPlayers := Nat.mod_lt _ (by omega)

theorem seatAfter_zero {st : HState} {p : ℕ} (hp : p < st.numPlayers) : seatAfter st p 0 = p :=
  Nat.mod_eq_of_lt hp

/-- The sender moves the chop of another player, who has one.  The order chop move is read as
it was meant if and only if the number of skipped 1s takes
the receiver around the table, or the 1 that is played is the first and the chop move found
would be on a player without a chop. -/
theorem checkOcm_exact_iff {game game' : HypoGame} (h : SharesCommon game game')
    (hour : game.state.ourPlayerIndex < game.state.numPlayers)
    (hhands : game.state.allOrders.Nodup) {playableCards : List ℕ}
    (hsub : playableCards.Sublist (game.state.hands game.state.ourPlayerIndex))
    {playablePriorities : List (List ℕ)}
    (hplays : PlaysOrdered game playableCards playablePriorities) {best : BestPlayable}
    (hbest : findBestPlayable game playableCards playablePriorities = some best) {i order : ℕ}
    (hi : (orderUnknown1s game.state game.common.toHGroupPlayer playableCards)[i]? = some order)
    (horder : best.order = some order) :
    let st := game.state
    let skipped := (skippedOnes st game.common.toHGroupPlayer (st.hands st.ourPlayerIndex)
      playableCards order).length
    (0 < i → seatAfter st st.ourPlayerIndex i ≠ st.ourPlayerIndex ∧
        ∃ chop, game.common.chop (st.hands (seatAfter st st.ourPlayerIndex i)) = some chop) ∧
      (checkOcm game' order st.ourPlayerIndex =
          (if i = 0 then none
            else game.common.chop (st.hands (seatAfter st st.ourPlayerIndex i))) ↔
        st.numPlayers ∣ skipped ∨
          i = 0 ∧ game.common.chop (st.hands (seatAfter st st.ourPlayerIndex skipped)) = none) := by
  intro st skipped
  have hnodup : (st.hands st.ourPlayerIndex).Nodup :=
    (List.nodup_flatMap.1 hhands).1 _ (List.mem_range.2 hour)
  set ordered := orderUnknown1s st game.common.toHGroupPlayer playableCards with hordered
  have hordered_nodup : ordered.Nodup :=
    List.nodup_mergeSort.2 ((hnodup.sublist hsub).filter _)
  have hmem : order ∈ ordered := List.mem_of_getElem? hi
  have hidx : ordered.idxOf order = i := by
    obtain ⟨hlt, rfl⟩ := List.getElem?_eq_some_iff.1 hi
    exact hordered_nodup.idxOf_getElem i hlt
  -- the sender's index is that of the best order chop move
  have hocm : i = bestOcmIndex game ordered := by
    obtain ⟨best', hbest', horder'⟩ := findBestPlayable_ordered hplays
    obtain rfl := Option.some.inj (hbest.symm.trans hbest')
    rw [horder', ← hi] at horder
    exact (List.getElem?_inj (List.getElem?_eq_some_iff.1 hi).1 hordered_nodup).1 horder.symm
  have htarget : 0 < i → seatAfter st st.ourPlayerIndex i ≠ st.ourPlayerIndex ∧
      ∃ chop, game.common.chop (st.hands (seatAfter st st.ourPlayerIndex i)) = some chop := by
    intro hpos
    have := bestOcmIndex_target (hocm ▸ hpos)
    rwa [← hocm] at this
  refine ⟨htarget, ?_⟩
  -- the receiver's index counts the skipped 1s on top
  have hplace := idxOf_orderUnknown1s hnodup hsub hmem
  have hmem' : order ∈ orderUnknown1s st game.common.toHGroupPlayer
      (st.hands st.ourPlayerIndex) := by
    unfold orderUnknown1s order1s
    rw [List.mem_mergeSort]
    exact (hsub.filter _).subset (List.mem_mergeSort.1 hmem)
  rw [checkOcm_shared h, checkOcm_eq hmem', hplace, hidx]
  show (if i + skipped = 0 ∨ seatAfter st st.ourPlayerIndex (i + skipped) = st.ourPlayerIndex
    then none else _) = _ ↔ _
  rcases Nat.eq_zero_or_pos i with rfl | hpos
  · have hround := seatAfter_add_eq_iff st st.ourPlayerIndex 0 skipped
    rw [seatAfter_zero hour, Nat.zero_add] at hround
    rw [Nat.zero_add, if_pos rfl, ← hround]
    split
    · rename_i hzero
      refine iff_of_true rfl (.inl ?_)
      rcases hzero with hzero | hdvd
      · rw [hzero, seatAfter_zero hour]
      · exact hdvd
    · rename_i hother
      rw [not_or] at hother
      simp only [true_and]
      exact (or_iff_right hother.2).symm
  · obtain ⟨hother, chop, hchop⟩ := htarget hpos
    have hround := seatAfter_add_eq_iff st st.ourPlayerIndex i skipped
    rw [if_neg hpos.ne', hchop]
    simp only [hpos.ne', false_and, or_false, ← hround]
    constructor
    · intro heq
      split at heq
      · nomatch heq
      · exact seat_eq_of_chop hhands (seatAfter_lt hour _) (seatAfter_lt hour _) heq hchop
    · intro heq
      rw [heq, hchop, if_neg]
      rintro (hzero | hour')
      · omega
      · exact hother hour'

/-! ## A play that is misread -/

/-- Cards that are in order already. -/
theorem orderUnknown1s_of_pairwise {st : HState} {player : HGroupPlayer} {orders ones : List ℕ}
    (hones : orders.filter (isUnknown1 st player) = ones)
    (hsorted : ones.Pairwise fun a b => decide (compare1s st player a b ≤ 0) = true) :
    orderUnknown1s st player orders = ones := by
  rw [orderUnknown1s, hones]
  exact List.mergeSort_of_pairwise hsorted

/-- The cards dealt to three players, with the seven drawn later. -/
def ocmDeck : List Identity :=
  [⟨2, 3⟩, ⟨1, 1⟩, ⟨0, 1⟩, ⟨2, 1⟩, ⟨3, 1⟩, ⟨4, 1⟩, ⟨0, 5⟩, ⟨4, 4⟩, ⟨3, 4⟩, ⟨2, 1⟩, ⟨3, 3⟩, ⟨2, 4⟩,
    ⟨1, 4⟩, ⟨3, 1⟩, ⟨2, 2⟩, ⟨0, 3⟩, ⟨3, 2⟩, ⟨1, 2⟩, ⟨2, 1⟩, ⟨3, 1⟩, ⟨4, 3⟩, ⟨0, 1⟩]

/-- Alice (0) discarded g1 and b1, and played r1 and y1; Bob played p1 and discarded g1; Cathy
discarded b1. -/
def ocmHands (p : ℕ) : List ℕ :=
  [[21, 20, 19, 18, 0], [17, 15, 8, 7, 6], [16, 14, 12, 11, 10]].getD p []

/-- The clues on the cards: the 4s of Bob and of Cathy, purple on order 20, 1s on three. -/
def ocmClues (o : ℕ) : List GivenClue :=
  if o = 7 ∨ o = 8 then [4, 6, 9, 15].map fun turn => { type := .rank, value := 4, turn }
  else if o = 11 ∨ o = 12 then [8, 17].map fun turn => { type := .rank, value := 4, turn }
  else if o = 20 then [{ type := .colour, value := 4, turn := 14 }]
  else if o = 18 ∨ o = 19 ∨ o = 21 then [{ type := .rank, value := 1, turn := 18 }]
  else []

/-- What the clues leave: red (turn 11) and yellow (12) went to Alice while she held 0, 18 and 19,
purple (14) while she held 20 as well. So 18 and 19 are the last g1 and b1, and 21 is neither. -/
def ocmPossible (o : ℕ) (id : Identity) : Bool :=
  if o = 18 ∨ o = 19 then id == ⟨2, 1⟩ || id == ⟨3, 1⟩
  else id != ⟨2, 1⟩ && id != ⟨3, 1⟩ &&
    if o = 21 then id.rank == 1
    else if o = 20 then id.suitIndex == 4 && id.rank != 1
    else if o = 0 then (id.suitIndex == 2 || id.suitIndex == 3) && id.rank != 1
    else if o ∈ [7, 8, 11, 12] then id.rank == 4
    else if o = 6 then id.rank != 1 && id.rank != 4
    else id.rank != 4

/-- A player of the position, to whom the cards of some players are hidden; all but Bob know that
the r5 is his. -/
def ocmPlayer (playerIndex : Option ℕ) (hidden : List ℕ) : HypoPlayer where
  playerIndex := playerIndex
  thoughts := ⟨22, fun o => if o < 22 then
    let possible := (IdentitySet.full 5).intersect <| IdentitySet.identitiesToMask <|
      noVariant.allIdentities.filter fun id => ocmPossible o id &&
        (o == 6 || hidden.contains 1 || id != ⟨0, 5⟩)
    some { id := if hidden.any fun p => (ocmHands p).contains o then none else ocmDeck[o]?
           possible, inferred := possible, order := o
           clued := !(ocmClues o).isEmpty
           status := if (ocmClues o).isEmpty then none else some .clued } else none⟩
  allPossible := .full 5
  allInferred := .full 5
  hypoStacks := fun s => if s ≤ 1 ∨ s = 4 ∨ !hidden.contains 0 then 1 else 0
  hypoPlays := [19, 18]
  unknownPlays := if hidden.contains 0 then [19, 18] else []

/-- The game of the player `our` on turn 19, after four discards, three plays and eleven clues. -/
def ocmGame (our : ℕ) : HypoGame where
  level := BASIC_CM
  state := {
    variant := noVariant
    numPlayers := 3
    ourPlayerIndex := our
    turnCount := 19
    clueTokens := 1
    hands := ocmHands
    deck := ⟨22, fun o => if o < 22 then
      some ⟨if (ocmHands our).contains o then none else ocmDeck[o]?⟩ else none⟩
    playStacks := fun s => if s ≤ 1 ∨ s = 4 then 1 else 0
    discardStacks := fun id => if id = ⟨2, 1⟩ ∨ id = ⟨3, 1⟩ then 2 else 0
    cardsLeft := 28
    cardOrder := 21
    earlyGame := false
    marks := fun o => { clued := !(ocmClues o).isEmpty, clues := ocmClues o } }
  common := ocmPlayer none [0, 1, 2]
  players := fun p => ocmPlayer (some p) [p, our]

/-- The 1s to play are in order. -/
theorem ordered_playable : orderUnknown1s (ocmGame 0).state (ocmGame 0).common.toHGroupPlayer
    [19, 18] = [19, 18] :=
  orderUnknown1s_of_pairwise (by decide +kernel) (by decide +kernel)

/-- So are those of the hand; the first one is the second red 1, which is trash. -/
theorem ordered_hand : orderUnknown1s (ocmGame 2).state (ocmGame 2).common.toHGroupPlayer
    ((ocmGame 2).state.hands 0) = [21, 19, 18] :=
  orderUnknown1s_of_pairwise (by decide +kernel) (by decide +kernel)

theorem playsOrdered_ocmGame : PlaysOrdered (ocmGame 0) [19, 18] [[], [], [], [], [19, 18]] := by
  refine ⟨le_rfl, ?_, 4, [19, 18], rfl, by decide, rfl, by decide⟩
  simp [ordered_playable]

/-- The first player means to save the red 5 of the second, and plays the second of two 1s.
Counting the trash, a card of the third player is chop moved. -/
theorem ocm_misread :
    SharesCommon (ocmGame 0) (ocmGame 2) ∧
      PlaysOrdered (ocmGame 0) [19, 18] [[], [], [], [], [19, 18]] ∧
      (∃ best, findBestPlayable (ocmGame 0) [19, 18] [[], [], [], [], [19, 18]] = some best ∧
        best.order = some 18) ∧
      (orderUnknown1s (ocmGame 0).state (ocmGame 0).common.toHGroupPlayer [19, 18])[1]? =
        some 18 ∧
      (ocmGame 0).common.chop ((ocmGame 0).state.hands (seatAfter (ocmGame 0).state 0 1)) =
        some 6 ∧
      checkOcm (ocmGame 2) 18 0 = some 10 := by
  refine ⟨⟨rfl, rfl⟩, playsOrdered_ocmGame, ?_, ?_, by decide +kernel, ?_⟩
  · obtain ⟨best, hbest, horder⟩ := findBestPlayable_ordered playsOrdered_ocmGame
    refine ⟨best, hbest, ?_⟩
    rw [horder, ordered_playable]
    decide +kernel
  · rw [ordered_playable]
    rfl
  · rw [checkOcm_eq]
    · rw [ordered_hand]
      decide +kernel
    · rw [ordered_hand]
      decide

/-- One 1 is skipped, which does not take the receiver around the table. -/
theorem checkOcm_exact_iff_ocmGame :
    checkOcm (ocmGame 2) 18 0 ≠ (ocmGame 0).common.chop ((ocmGame 0).state.hands 1) := by
  obtain ⟨best, hbest, horder⟩ := findBestPlayable_ordered playsOrdered_ocmGame
  have hindex : (orderUnknown1s (ocmGame 0).state (ocmGame 0).common.toHGroupPlayer [19, 18])[1]? =
      some 18 := by
    rw [ordered_playable]
    rfl
  have hplayed : best.order = some 18 := by
    rw [horder, ordered_playable]
    decide +kernel
  intro h
  have hiff := (@checkOcm_exact_iff (ocmGame 0) (ocmGame 2) ⟨rfl, rfl⟩ (by decide) (by decide) _
    (by decide) _ playsOrdered_ocmGame _ hbest _ _ hindex hplayed).2
  refine absurd (hiff.1 h) ?_
  decide +kernel

end HanabiBot.HGroup
