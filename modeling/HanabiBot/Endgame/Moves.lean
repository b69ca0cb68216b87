import HanabiBot.Endgame.Advance

/-!
# Lines of play

A `Line` is a sequence of moves by the players in turn order, each made by
`advance_state` while the game has not ended.  `Consistent` collects what the
states of such a line have in common with the reachable ones, and `Move` the
moves there are: any card of one's hand may be played or discarded and any clue
given, and a drawn card has an identity with a copy left, or none.

* `Consistent.of_boardInv` — reachable states are consistent;
* `Consistent.advanceState` — a move keeps a state consistent.
-/

namespace HanabiBot

namespace State

/-- The cards in hand that the board knows to be copies of an identity. -/
def heldCopies (st : State) (id : Identity) : ℕ :=
  st.allOrders.countP fun o => st.identityOf o = some id

end State

namespace Endgame

/-- A state that the rules of the game can lead to, as far as the solver sees it. -/
structure Consistent (st : State) : Prop where
  nodup : st.allOrders.Nodup
  order_le : ∀ o ∈ st.allOrders, (o : ℤ) ≤ st.cardOrder
  cardOrder_ge : -1 ≤ st.cardOrder
  undrawn : 0 < st.cardsLeft → ∀ o : ℕ, st.cardOrder < o → st.deck.get o = none
  valid : ∀ o ∈ st.allOrders, ∀ id, st.identityOf o = some id → id.Valid st.variant
  copies : ∀ id : Identity, id.Valid st.variant →
    st.baseCount id + st.heldCopies id ≤ st.cardCount id
  stack_le : ∀ s < st.variant.suits.length, st.playStacks s ≤ st.maxRanks s
  maxRanks_le : ∀ s < st.variant.suits.length, st.maxRanks s ≤ 5
  exhausted : ∀ s < st.variant.suits.length, st.maxRanks s < 5 →
    st.cardCount ⟨s, st.maxRanks s + 1⟩ ≤ st.discardStacks ⟨s, st.maxRanks s + 1⟩
  clock : (0 < st.cardsLeft ∧ st.endgameTurns = -1) ∨
    (st.cardsLeft = 0 ∧ 0 ≤ st.endgameTurns ∧ st.endgameTurns ≤ st.numPlayers)

/-- A move of player `p`. -/
structure Move (st : State) (p : ℕ) (action : PerformAction) (draw : Option Identity) : Prop where
  inProgress : st.ended = false
  player_eq : action.playerIndex = p
  card_mem : ∀ o, action.card? = some o → o ∈ st.hands p
  draw_ok : ∀ id, draw = some id →
    id.Valid st.variant ∧ st.baseCount id + st.heldCopies id < st.cardCount id

/-- From `st` with player `p` to move, a sequence of moves in turn order leads to `st'`. -/
inductive Line : State → ℕ → State → Prop
  | refl (st : State) (p : ℕ) : Line st p st
  | move {st st' : State} {p : ℕ} {action : PerformAction} {draw : Option Identity} :
      Move st p action draw →
      Line (advanceState st action draw) (st.nextPlayerIndex p) st' → Line st p st'

/-! ## What a move does -/

/-- The order of the next card of the deck. -/
def newCardOrder (st : State) : ℕ := (st.cardOrder + 1).toNat

/-- What a play or discard of the card `order` does to the stacks: a playable card goes
on its stack, any other known card on the discards, an unknown card nowhere. -/
def Lands (st st' : State) (order : ℕ) : Prop :=
  (∃ id, st.identityOf order = some id ∧ st.isPlayable id = true ∧
    st'.playStacks = Function.update st.playStacks id.suitIndex id.rank ∧
    st'.discardStacks = st.discardStacks) ∨
  (st'.playStacks = st.playStacks ∧ ∃ id, st.identityOf order = some id ∧
    st'.discardStacks = Function.update st.discardStacks id (st.discardStacks id + 1)) ∨
  (st'.playStacks = st.playStacks ∧ st.identityOf order = none ∧
    st'.discardStacks = st.discardStacks)

/-- What every move keeps. -/
structure Kept (st st' : State) : Prop where
  variant_eq : st'.variant = st.variant
  numPlayers_eq : st'.numPlayers = st.numPlayers
  maxRanks_eq : st'.maxRanks = st.maxRanks
  identityOf_eq : ∀ o : ℕ, (o : ℤ) ≤ st.cardOrder → st'.identityOf o = st.identityOf o

/-- A clue moves the clock and nothing else that matters here. -/
structure Clued (st st' : State) : Prop extends Kept st st' where
  hands_eq : st'.hands = st.hands
  playStacks_eq : st'.playStacks = st.playStacks
  discardStacks_eq : st'.discardStacks = st.discardStacks
  deck_eq : st'.deck = st.deck
  cardsLeft_eq : st'.cardsLeft = st.cardsLeft
  cardOrder_eq : st'.cardOrder = st.cardOrder
  endgameTurns_eq : st'.endgameTurns = Basics.tick st.endgameTurns

/-- Player `p` puts down the card `order` and draws the next one. -/
structure Drew (st st' : State) (p order : ℕ) (draw : Option Identity) : Prop
    extends Kept st st' where
  mem : order ∈ st.hands p
  lands : Lands st st' order
  cardsLeft_pos : 0 < st.cardsLeft
  hands_eq : st'.hands = Function.update (Basics.removeCard st.hands p order) p
    (newCardOrder st :: Basics.removeCard st.hands p order p)
  deck_eq : st'.deck = st.deck.set (newCardOrder st) ⟨draw⟩
  cardsLeft_eq : st'.cardsLeft = st.cardsLeft - 1
  cardOrder_eq : st'.cardOrder = st.cardOrder + 1
  endgameTurns_eq : st'.endgameTurns = if st.cardsLeft - 1 = 0 then (st.numPlayers : ℤ) else -1

/-- Player `p` puts down the card `order` in the final round. -/
structure PutDown (st st' : State) (p order : ℕ) : Prop extends Kept st st' where
  mem : order ∈ st.hands p
  lands : Lands st st' order
  cardsLeft_zero : st.cardsLeft = 0
  hands_eq : st'.hands = Basics.removeCard st.hands p order
  cardsLeft_eq : st'.cardsLeft = 0
  cardOrder_eq : st'.cardOrder = st.cardOrder
  endgameTurns_eq : st'.endgameTurns = st.endgameTurns - 1

section

variable {st new : State} {p order : ℕ} {action : PerformAction} {draw : Option Identity}

/-- The draw after a card has landed. -/
theorem removeAndDrawNew_cases (draw : Option Identity) (hc : Consistent st) (hmem : order ∈ st.hands p)
    (hlands : Lands st new order) (hnew : ∃ playStacks discardStacks clueTokens strikes, new =
      { st with turnCount := st.turnCount + 1, playStacks, discardStacks, clueTokens, strikes }) :
    Drew st (removeAndDrawNew st new p order draw) p order draw ∨
      PutDown st (removeAndDrawNew st new p order draw) p order := by
  obtain ⟨playStacks, discardStacks, clueTokens, strikes, rfl⟩ := hnew
  have hge := hc.cardOrder_ge
  rcases hc.clock with ⟨hleft, he⟩ | ⟨hleft, he, -⟩
  · have hnone : st.deck.get (st.cardOrder + 1).toNat = none :=
      hc.undrawn hleft _ (by omega)
    left
    rw [removeAndDrawNew, if_pos he, hnone]
    refine
      { variant_eq := rfl, numPlayers_eq := rfl, maxRanks_eq := rfl, identityOf_eq := ?_
        mem := hmem, lands := hlands, cardsLeft_pos := hleft, hands_eq := rfl, deck_eq := rfl
        cardsLeft_eq := rfl, cardOrder_eq := rfl, endgameTurns_eq := by rw [← he] }
    intro o ho
    simp only [State.identityOf, Option.isNone_none, if_true]
    rw [SparseArray.get_set_of_ne _ (by omega)]
  · right
    rw [removeAndDrawNew, if_neg (by omega)]
    refine
      { variant_eq := rfl, numPlayers_eq := rfl, maxRanks_eq := rfl, identityOf_eq := ?_
        mem := hmem, lands := hlands, cardsLeft_zero := hleft, hands_eq := rfl
        cardsLeft_eq := hleft, cardOrder_eq := rfl, endgameTurns_eq := rfl }
    intro o ho
    simp only [State.identityOf]
    split
    · rw [SparseArray.get_set_of_ne _ (by omega)]
    · rfl

/-- A move is a clue, or takes a card from the hand of the player, who draws the next
one if a card is left. -/
theorem Move.cases (hc : Consistent st) (m : Move st p action draw) :
    (action.isClue = true ∧ Clued st (advanceState st action draw)) ∨
    (∃ order, action.card? = some order ∧ Drew st (advanceState st action draw) p order draw) ∨
    (∃ order, action.card? = some order ∧ PutDown st (advanceState st action draw) p order) := by
  have hcard : ∀ order new, action.card? = some order → Lands st new order →
      (∃ playStacks discardStacks clueTokens strikes, new =
        { st with turnCount := st.turnCount + 1, playStacks, discardStacks, clueTokens, strikes }) →
      advanceState st action draw = removeAndDrawNew st new p order draw →
      (∃ order, action.card? = some order ∧ Drew st (advanceState st action draw) p order draw) ∨
      (∃ order, action.card? = some order ∧
        PutDown st (advanceState st action draw) p order) := by
    intro order new ho hlands hnew heq
    rw [heq]
    refine (removeAndDrawNew_cases draw hc (m.card_mem order ho) hlands hnew).imp ?_ ?_ <;>
      exact fun h => ⟨order, ho, h⟩
  cases action with
  | play q order =>
    obtain rfl : q = p := m.player_eq
    right
    cases hid : st.identityOf order with
    | none =>
      refine hcard order { st with turnCount := st.turnCount + 1, strikes := st.strikes + 1 } rfl
        (Or.inr (Or.inr ⟨rfl, hid, rfl⟩)) ⟨_, _, _, _, rfl⟩ ?_
      simp only [advanceState, hid]
    | some id =>
      cases hplay : st.isPlayable id with
      | true =>
        refine hcard order
          { st with
            turnCount := st.turnCount + 1
            playStacks := Function.update st.playStacks id.suitIndex id.rank
            clueTokens := if id.rank = 5 then min (st.clueTokens + 1) 8 else st.clueTokens } rfl
          (Or.inl ⟨id, hid, hplay, rfl, rfl⟩) ⟨_, _, _, _, rfl⟩ ?_
        simp only [advanceState, hid, hplay, if_true]
      | false =>
        refine hcard order
          { updateDiscards st { st with turnCount := st.turnCount + 1 } id with
            strikes := st.strikes + 1 } rfl
          (Or.inr (Or.inl ⟨rfl, id, hid, rfl⟩)) ⟨_, _, _, _, rfl⟩ ?_
        simp only [advanceState, hid, hplay, Bool.false_eq_true, if_false]
  | discard q order =>
    obtain rfl : q = p := m.player_eq
    right
    cases hid : st.identityOf order with
    | none =>
      refine hcard order
        { st with turnCount := st.turnCount + 1, clueTokens := min (st.clueTokens + 1) 8 } rfl
        (Or.inr (Or.inr ⟨rfl, hid, rfl⟩)) ⟨_, _, _, _, rfl⟩ ?_
      simp only [advanceState, hid]
    | some id =>
      refine hcard order
        { updateDiscards st { st with turnCount := st.turnCount + 1 } id with
          clueTokens := min (st.clueTokens + 1) 8 } rfl
        (Or.inr (Or.inl ⟨rfl, id, hid, rfl⟩)) ⟨_, _, _, _, rfl⟩ ?_
      simp only [advanceState, hid]
  | clue | anyClue =>
    refine Or.inl ⟨rfl, ?_⟩
    refine
      { variant_eq := rfl, numPlayers_eq := rfl, maxRanks_eq := rfl, identityOf_eq := fun _ _ => rfl
        hands_eq := rfl, playStacks_eq := rfl, discardStacks_eq := rfl, deck_eq := rfl
        cardsLeft_eq := rfl, cardOrder_eq := rfl, endgameTurns_eq := ?_ }
    simp only [advanceState, Basics.tick]
    split <;> simp_all

end

/-! ## Consistency is kept -/

namespace Lands

variable {st st' : State} {order : ℕ}

/-- The card that lands is counted on the stacks from then on. -/
theorem baseCount (h : Lands st st' order) (id : Identity) :
    st'.baseCount id = st.baseCount id + if st.identityOf order = some id then 1 else 0 := by
  rcases h with ⟨t, ht, hplay, hps, hds⟩ | ⟨hps, t, ht, hds⟩ | ⟨hps, ht, hds⟩
  · have hrank : t.rank = st.playStacks t.suitIndex + 1 := by
      simpa [State.isPlayable] using hplay
    have h1 := BoardInv.baseCount_afterPlay hrank order 0 id
    rw [State.baseCount, hps, hds, ht]
    simpa [State.baseCount, Basics.afterPlay] using h1
  · have h1 := BoardInv.baseCount_afterDiscard st t order 0 false id
    rw [State.baseCount, hps, hds, ht]
    simpa [State.baseCount, Basics.afterDiscard] using h1
  · rw [State.baseCount, hps, hds, ht]
    simp [State.baseCount]

theorem playStacks_le (h : Lands st st' order) (s : ℕ) : st.playStacks s ≤ st'.playStacks s := by
  rcases h with ⟨t, -, hplay, hps, -⟩ | ⟨hps, -⟩ | ⟨hps, -⟩
  · rw [hps, Function.update_apply]
    split
    · rename_i hs
      have hrank : t.rank = st.playStacks t.suitIndex + 1 := by
        simpa [State.isPlayable] using hplay
      rw [hs]
      omega
    · exact le_rfl
  · rw [hps]
  · rw [hps]

theorem discardStacks_le (h : Lands st st' order) (id : Identity) :
    st.discardStacks id ≤ st'.discardStacks id := by
  rcases h with ⟨t, -, -, -, hds⟩ | ⟨-, t, -, hds⟩ | ⟨-, -, hds⟩
  · rw [hds]
  · rw [hds, Function.update_apply]
    split
    · rename_i hid
      rw [hid]
      omega
    · exact le_rfl
  · rw [hds]

end Lands

namespace Consistent

variable {st st' : State} {p order : ℕ} {action : PerformAction} {draw : Option Identity}

theorem of_boardInv {v : Variant} {dk : Deck v} {acts : List Action} (h : BoardInv dk acts st) :
    Consistent st where
  nodup := h.nodup
  order_le := h.order_le
  cardOrder_ge := h.cardOrder_ge
  undrawn _ o ho := by
    rw [← Option.not_isSome_iff_eq_none, h.deck_isSome o]
    omega
  valid o ho id hid := by
    rw [h.variant_eq, h.identityOf_eq o id hid]
    exact h.truth_valid ho
  copies id hid := by
    rw [h.variant_eq] at hid
    rw [State.cardCount, h.variant_eq]
    refine le_trans (Nat.add_le_add_left ?_ _) (h.copies_le hid)
    refine List.countP_mono_left fun o _ ho => ?_
    have := h.identityOf_eq o id (by simpa using ho)
    simp [this]
  stack_le s hs := h.playStacks_le_maxRanks (h.variant_eq ▸ hs)
  maxRanks_le s hs := (h.maxRanks_isLeast s (h.variant_eq ▸ hs)).2 (Or.inl rfl)
  exhausted s hs hlt := by
    rcases (h.maxRanks_isLeast s (h.variant_eq ▸ hs)).1 with h5 | ⟨r, h1, -, hex, hm⟩
    · omega
    · rw [hm, Nat.sub_add_cancel h1, hex]
  clock := by
    rcases h.endgame with hc | ⟨hc, h0, he⟩
    · exact Or.inl hc
    · exact Or.inr ⟨hc, h0, by omega⟩

theorem heldCopies_pos (ho : order ∈ st.allOrders) {id : Identity}
    (hid : st.identityOf order = some id) : 0 < st.heldCopies id :=
  List.countP_pos_iff.2 ⟨order, ho, by simpa using hid⟩

/-- A playable card in hand is within the maximum rank of its suit. -/
theorem rank_le_maxRanks (h : Consistent st) (ho : order ∈ st.allOrders) {id : Identity}
    (hid : st.identityOf order = some id) (hplay : st.isPlayable id = true) :
    id.rank ≤ st.maxRanks id.suitIndex := by
  have hv := h.valid order ho id hid
  have hrank : id.rank = st.playStacks id.suitIndex + 1 := by
    simpa [State.isPlayable] using hplay
  by_contra hlt
  have hstack := h.stack_le id.suitIndex hv.1
  have h5 := hv.2.2
  have heq : id.rank = st.maxRanks id.suitIndex + 1 := by omega
  -- all copies of the next rank are discarded, but this one is in hand
  have hex : st.cardCount id ≤ st.discardStacks id := by
    have := h.exhausted id.suitIndex hv.1 (by omega)
    rwa [← heq] at this
  have h1 := h.copies id hv
  have h2 := heldCopies_pos ho hid
  simp only [State.baseCount] at h1
  omega

theorem stack_le_of_lands (h : Consistent st) (ho : order ∈ st.allOrders)
    (hl : Lands st st' order) {s : ℕ} (hs : s < st.variant.suits.length) :
    st'.playStacks s ≤ st.maxRanks s := by
  rcases hl with ⟨t, ht, hplay, hps, -⟩ | ⟨hps, -⟩ | ⟨hps, -⟩
  · rw [hps, Function.update_apply]
    split
    · rename_i hst
      rw [hst]
      exact h.rank_le_maxRanks ho ht hplay
    · exact h.stack_le s hs
  · rw [hps]; exact h.stack_le s hs
  · rw [hps]; exact h.stack_le s hs

/-- The cards of a list of drawn cards keep their identities. -/
theorem countP_kept (hk : Kept st st') {l : List ℕ} (hl : ∀ o ∈ l, (o : ℤ) ≤ st.cardOrder)
    (id : Identity) : l.countP (fun o => st'.identityOf o = some id) =
      l.countP fun o => st.identityOf o = some id := by
  refine List.countP_congr fun o ho => ?_
  rw [hk.identityOf_eq o (hl o ho)]

theorem clued (h : Consistent st) (hk : Clued st st') (hne : st.endgameTurns ≠ 0) :
    Consistent st' := by
  have hall : st'.allOrders = st.allOrders := by
    rw [State.allOrders, State.allOrders, hk.hands_eq, hk.numPlayers_eq]
  have hids : st'.identityOf = st.identityOf := by
    funext o
    rw [State.identityOf, hk.deck_eq]
    rfl
  refine
    { nodup := hall ▸ h.nodup
      order_le := by rw [hall, hk.cardOrder_eq]; exact h.order_le
      cardOrder_ge := by rw [hk.cardOrder_eq]; exact h.cardOrder_ge
      undrawn := by rw [hk.cardsLeft_eq, hk.cardOrder_eq, hk.deck_eq]; exact h.undrawn
      valid := by rw [hall, hids, hk.variant_eq]; exact h.valid
      copies := fun id hid => ?_
      stack_le := by rw [hk.variant_eq, hk.playStacks_eq, hk.maxRanks_eq]; exact h.stack_le
      maxRanks_le := by rw [hk.variant_eq, hk.maxRanks_eq]; exact h.maxRanks_le
      exhausted := fun s hs => ?_
      clock := ?_ }
  · rw [hk.variant_eq] at hid
    have hc := h.copies id hid
    rwa [State.baseCount, hk.playStacks_eq, hk.discardStacks_eq, State.heldCopies, hall, hids,
      State.cardCount, hk.variant_eq]
  · rw [hk.variant_eq] at hs
    rw [hk.maxRanks_eq, hk.discardStacks_eq, State.cardCount, hk.variant_eq]
    exact h.exhausted s hs
  · rw [hk.cardsLeft_eq, hk.endgameTurns_eq, hk.numPlayers_eq]
    rcases h.clock with ⟨hc, he⟩ | ⟨hc, h0, hn⟩
    · exact Or.inl ⟨hc, by rw [he, Basics.tick_neg_one]⟩
    · exact Or.inr ⟨hc, by rw [Basics.tick_of_ne (by omega)]; omega⟩

/-- The stacks of a consistent state stay consistent when a card of it lands. -/
theorem exhausted_of_lands (h : Consistent st) (hk : Kept st st') (hl : Lands st st' order) {s : ℕ}
    (hs : s < st'.variant.suits.length) (hlt : st'.maxRanks s < 5) :
    st'.cardCount ⟨s, st'.maxRanks s + 1⟩ ≤ st'.discardStacks ⟨s, st'.maxRanks s + 1⟩ := by
  rw [hk.variant_eq] at hs
  rw [hk.maxRanks_eq] at hlt ⊢
  rw [State.cardCount, hk.variant_eq]
  exact (h.exhausted s hs hlt).trans (hl.discardStacks_le _)

/-- The cards of the hands before and after a card is put down and the next one drawn. -/
theorem hands_drew (h : Consistent st) (hp : p < st.numPlayers) (hk : Drew st st' p order draw) :
    ∃ rest, st.allOrders.Perm (order :: rest) ∧ st'.allOrders.Perm (newCardOrder st :: rest) ∧
      ∀ o ∈ rest, (o : ℤ) ≤ st.cardOrder := by
  have hbefore : st.allOrders.Perm (order :: (List.range st.numPlayers).flatMap
    (Basics.removeCard st.hands p order)) := Basics.flatMap_removeCard hp hk.mem
  refine ⟨_, hbefore, ?_, fun o ho => h.order_le o (hbefore.mem_iff.2 (List.mem_cons_of_mem _ ho))⟩
  have hlt : p < ({ st with hands := Basics.removeCard st.hands p order } : State).numPlayers := hp
  have h1 := Basics.allOrders_onDraw hlt none (newCardOrder st) none
  rw [State.allOrders, hk.hands_eq, hk.numPlayers_eq]
  exact h1

theorem identityOf_new (hk : Drew st st' p order draw) :
    st'.identityOf (newCardOrder st) = draw := by
  rw [State.identityOf, hk.deck_eq, SparseArray.get_set_self]; rfl

/-- The copies in the hands, without the card that was put down and with the one drawn. -/
theorem heldCopies_drew (h : Consistent st) (hp : p < st.numPlayers)
    (hk : Drew st st' p order draw) (id : Identity) :
    st'.heldCopies id + (if st.identityOf order = some id then 1 else 0) =
      st.heldCopies id + if draw = some id then 1 else 0 := by
  obtain ⟨rest, hbefore, hafter, hle⟩ := h.hands_drew hp hk
  rw [State.heldCopies, State.heldCopies, hbefore.countP_eq, hafter.countP_eq, List.countP_cons,
    List.countP_cons, countP_kept hk.toKept hle, identityOf_new hk]
  simp only [decide_eq_true_eq]
  omega

theorem drew (h : Consistent st) (hp : p < st.numPlayers) (hk : Drew st st' p order draw)
    (hdraw : ∀ id, draw = some id →
      id.Valid st.variant ∧ st.baseCount id + st.heldCopies id < st.cardCount id) :
    Consistent st' := by
  have hmem : order ∈ st.allOrders := State.mem_allOrders.2 ⟨p, hp, hk.mem⟩
  have hge := h.cardOrder_ge
  have hnew : (newCardOrder st : ℤ) = st.cardOrder + 1 := by
    rw [newCardOrder]; omega
  obtain ⟨rest, hbefore, hafter, hle⟩ := h.hands_drew hp hk
  refine
    { nodup := hafter.nodup_iff.2 (List.nodup_cons.2 ⟨fun hn => ?_, ?_⟩)
      order_le := fun o ho => ?_
      cardOrder_ge := by rw [hk.cardOrder_eq]; omega
      undrawn := fun _ o ho => ?_
      valid := fun o ho id hid => ?_
      copies := fun id hid => ?_
      stack_le := fun s hs => ?_
      maxRanks_le := by rw [hk.variant_eq, hk.maxRanks_eq]; exact h.maxRanks_le
      exhausted := fun s hs => h.exhausted_of_lands hk.toKept hk.lands hs
      clock := ?_ }
  · have := hle _ hn
    omega
  · exact (List.nodup_cons.1 (hbefore.nodup_iff.1 h.nodup)).2
  · rw [hk.cardOrder_eq]
    rcases List.mem_cons.1 (hafter.mem_iff.1 ho) with rfl | ho
    · omega
    · have := hle o ho
      omega
  · rw [hk.cardOrder_eq] at ho
    rw [hk.deck_eq, SparseArray.get_set_of_ne _ (by omega)]
    exact h.undrawn hk.cardsLeft_pos o (by omega)
  · rw [hk.variant_eq]
    rcases List.mem_cons.1 (hafter.mem_iff.1 ho) with rfl | ho
    · exact (hdraw id (identityOf_new hk ▸ hid)).1
    · rw [hk.identityOf_eq o (hle o ho)] at hid
      exact h.valid o (hbefore.mem_iff.2 (List.mem_cons_of_mem _ ho)) id hid
  · rw [hk.variant_eq] at hid
    have hcopies := h.copies id hid
    have hheld := h.heldCopies_drew hp hk id
    have hcount : st'.cardCount id = st.cardCount id := by
      rw [State.cardCount, hk.variant_eq]; rfl
    rw [hk.lands.baseCount, hcount]
    by_cases hd : draw = some id
    · have := (hdraw id hd).2
      rw [if_pos hd] at hheld
      omega
    · rw [if_neg hd] at hheld
      omega
  · rw [hk.variant_eq] at hs
    rw [hk.maxRanks_eq]
    exact h.stack_le_of_lands hmem hk.lands hs
  · have hc := hk.cardsLeft_pos
    rw [hk.cardsLeft_eq, hk.endgameTurns_eq, hk.numPlayers_eq]
    split
    · exact Or.inr ⟨by assumption, by omega, le_rfl⟩
    · exact Or.inl ⟨by omega, rfl⟩

theorem hands_putDown (hp : p < st.numPlayers) (hk : PutDown st st' p order) :
    st.allOrders.Perm (order :: st'.allOrders) := by
  rw [State.allOrders, State.allOrders, hk.hands_eq, hk.numPlayers_eq]
  exact Basics.flatMap_removeCard hp hk.mem

/-- The copies in the hands, without the card that was put down. -/
theorem heldCopies_putDown (h : Consistent st) (hp : p < st.numPlayers)
    (hk : PutDown st st' p order) (id : Identity) :
    st'.heldCopies id + (if st.identityOf order = some id then 1 else 0) = st.heldCopies id := by
  have hbefore := hands_putDown hp hk
  have hle : ∀ o ∈ st'.allOrders, (o : ℤ) ≤ st.cardOrder := fun o ho =>
    h.order_le o (hbefore.mem_iff.2 (List.mem_cons_of_mem _ ho))
  rw [State.heldCopies, State.heldCopies, hbefore.countP_eq, List.countP_cons,
    countP_kept hk.toKept hle]
  simp

theorem putDown (h : Consistent st) (hp : p < st.numPlayers) (hk : PutDown st st' p order)
    (hne : st.endgameTurns ≠ 0) : Consistent st' := by
  have hmem : order ∈ st.allOrders := State.mem_allOrders.2 ⟨p, hp, hk.mem⟩
  have hbefore := hands_putDown hp hk
  have hsub : ∀ o ∈ st'.allOrders, o ∈ st.allOrders := fun o ho =>
    hbefore.mem_iff.2 (List.mem_cons_of_mem _ ho)
  have hle : ∀ o ∈ st'.allOrders, (o : ℤ) ≤ st.cardOrder := fun o ho => h.order_le o (hsub o ho)
  refine
    { nodup := (List.nodup_cons.1 (hbefore.nodup_iff.1 h.nodup)).2
      order_le := by rw [hk.cardOrder_eq]; exact hle
      cardOrder_ge := by rw [hk.cardOrder_eq]; exact h.cardOrder_ge
      undrawn := fun hc => by rw [hk.cardsLeft_eq] at hc; omega
      valid := fun o ho id hid => ?_
      copies := fun id hid => ?_
      stack_le := fun s hs => ?_
      maxRanks_le := by rw [hk.variant_eq, hk.maxRanks_eq]; exact h.maxRanks_le
      exhausted := fun s hs => h.exhausted_of_lands hk.toKept hk.lands hs
      clock := ?_ }
  · rw [hk.variant_eq]
    rw [hk.identityOf_eq o (hle o ho)] at hid
    exact h.valid o (hsub o ho) id hid
  · rw [hk.variant_eq] at hid
    have hcopies := h.copies id hid
    have hheld := h.heldCopies_putDown hp hk id
    have hcount : st'.cardCount id = st.cardCount id := by
      rw [State.cardCount, hk.variant_eq]; rfl
    rw [hk.lands.baseCount, hcount]
    omega
  · rw [hk.variant_eq] at hs
    rw [hk.maxRanks_eq]
    exact h.stack_le_of_lands hmem hk.lands hs
  · rw [hk.cardsLeft_eq, hk.endgameTurns_eq, hk.numPlayers_eq]
    rcases h.clock with ⟨hc, -⟩ | ⟨-, h0, hn⟩
    · have := hk.cardsLeft_zero
      omega
    · exact Or.inr ⟨rfl, by omega, by omega⟩

/-- A move leads from a consistent state to a consistent state. -/
theorem advanceState (h : Consistent st) (hp : p < st.numPlayers) (m : Move st p action draw) :
    Consistent (advanceState st action draw) := by
  have hne : st.endgameTurns ≠ 0 := by
    have := m.inProgress
    simpa [State.ended] using this
  rcases m.cases h with ⟨-, hk⟩ | ⟨order, -, hk⟩ | ⟨order, -, hk⟩
  · exact h.clued hk hne
  · exact h.drew hp hk m.draw_ok
  · exact h.putDown hp hk hne

end Consistent

end Endgame

end HanabiBot
