import HanabiBot.Basics.Board

/-!
# The solver's fast transition

`advance_state` of `src/conventions/shared/endgame-helper.js` writes the rules of
the game a second time, on the state alone.  This file models it beside the real
transition (`performToAction`, the handler of the resulting action, and the draw
that `simulate_action` adds) and relates the two:

* `Agrees` — equal on everything the rules read except the maximum ranks;
* `Agrees.advanceState` — one step of both keeps `Agrees`;
* `Along.agrees` — so does any sequence of steps.

The maximum ranks are where the two differ: `advance_state` keeps those of the
state it starts from, the handlers lower them when a last copy is lost.
-/

namespace HanabiBot

/-- `ModPerformAction`: what a player can do on a turn. -/
inductive PerformAction
  | play (playerIndex target : ℕ)
  | discard (playerIndex target : ℕ)
  /-- `ACTION.COLOUR` or `ACTION.RANK`, by the type of the clue. -/
  | clue (playerIndex target : ℕ) (clue : BaseClue)
  /-- `{ type: ACTION.RANK, target: -1, value: -1 }`, some clue or other. -/
  | anyClue (playerIndex : ℕ)
  deriving DecidableEq, Repr

namespace PerformAction

def playerIndex : PerformAction → ℕ
  | .play p _ | .discard p _ | .clue p _ _ | .anyClue p => p

/-- `action.type === ACTION.COLOUR || action.type === ACTION.RANK`. -/
def isClue : PerformAction → Bool
  | .clue .. | .anyClue _ => true
  | _ => false

/-- The card that a play or a discard takes from the hand. -/
def card? : PerformAction → Option ℕ
  | .play _ target | .discard _ target => some target
  | _ => none

end PerformAction

/-- `arr.sort()` on numbers compares them as strings. -/
def sortOrders (orders : List ℕ) : List ℕ :=
  orders.mergeSort fun a b => decide (¬ toString b < toString a)

/-- `cardTouched` on a card that may have no identity (`rank` is then `-1`). -/
def touches (v : Variant) (clue : BaseClue) : Option Identity → Bool
  | some id => v.cardTouched id clue
  | none => clue.type == .rank && !v.chimneys && v.funnels

/-- `Utils.performToAction`; it throws on a card without an entry in `deck`. An entry
may be a card without an identity. -/
def performToAction (st : State) (action : PerformAction) (deck : ℕ → Option (Option Identity)) :
    Option Action :=
  match action with
  | .play playerIndex target => (deck target).map fun id =>
      if (id.any fun id => st.playStacks id.suitIndex + 1 == id.rank) then
        .play target playerIndex id
      else .discard target playerIndex id true
  | .discard playerIndex target => (deck target).map fun id =>
      .discard target playerIndex id false
  | .clue playerIndex target clue =>
      if (st.hands target).all fun o => (deck o).isSome then
        some <| .clue playerIndex target
          (sortOrders <| (st.hands target).filter fun o => (deck o).any (touches st.variant clue))
          clue
      else none
  | .anyClue _ => none

namespace Endgame

/-- `remove_and_draw_new` of `advance_state`: `st` is the old state and `new` the one
being built. A `draw` of `none` is an unknown card. -/
def removeAndDrawNew (st new : State) (playerIndex order : ℕ) (draw : Option Identity) : State :=
  let newCardOrder := (st.cardOrder + 1).toNat
  let hands := Basics.removeCard new.hands playerIndex order
  let deck := if (st.deck.get newCardOrder).isNone then new.deck.set newCardOrder ⟨draw⟩ else new.deck
  if st.endgameTurns = -1 then
    { new with
      hands := Function.update hands playerIndex (newCardOrder :: hands playerIndex)
      cardOrder := new.cardOrder + 1
      cardsLeft := new.cardsLeft - 1
      endgameTurns := if new.cardsLeft - 1 = 0 then st.numPlayers else new.endgameTurns
      deck }
  else
    { new with
      hands
      endgameTurns := new.endgameTurns - 1
      deck }

/-- `update_discards` of `advance_state`. -/
def updateDiscards (st new : State) (id : Identity) : State :=
  { new with discardStacks := Function.update st.discardStacks id (st.discardStacks id + 1) }

/-- The fast transition. -/
def advanceState (st : State) (action : PerformAction) (draw : Option Identity) : State :=
  let new := { st with turnCount := st.turnCount + 1 }
  match action with
  | .play playerIndex target =>
    let played := match st.identityOf target with
      | some id =>
        if st.isPlayable id then
          { new with
            playStacks := Function.update st.playStacks id.suitIndex id.rank
            clueTokens := if id.rank = 5 then min (st.clueTokens + 1) 8 else new.clueTokens }
        else { updateDiscards st new id with strikes := new.strikes + 1 }
      | none => { new with strikes := new.strikes + 1 }
    removeAndDrawNew st played playerIndex target draw
  | .discard playerIndex target =>
    let discarded := match st.identityOf target with
      | some id => updateDiscards st new id
      | none => new
    removeAndDrawNew st { discarded with clueTokens := min (st.clueTokens + 1) 8 }
      playerIndex target draw
  | .clue .. | .anyClue _ =>
    { new with
      clueTokens := new.clueTokens - 1
      endgameTurns := if st.endgameTurns = -1 then -1 else st.endgameTurns - 1 }

/-- The draw of `simulate_action`: the next card, while any is left. `onDraw` throws
on a hand that is over-full. -/
def drawNext (st : State) (deckIds : SparseArray Identity) (playerIndex : ℕ)
    (draw : Option Identity) : Option State :=
  if 0 < st.cardsLeft then
    let order := (st.cardOrder + 1).toNat
    if st.handSize < (st.hands playerIndex).length then none
    else some (Basics.onDraw st (deckIds.get order) order playerIndex draw)
  else some st

/-- The real transition: the action that is performed, its handler, and the draw. -/
def perform (st : State) (deckIds : SparseArray Identity) (action : PerformAction)
    (draw : Option Identity) : Option State := do
  let act ← performToAction st action fun o => (deckIds.get o).map some
  let new ← Basics.onAction st deckIds act
  if act.isPlayOrDiscard then drawNext new deckIds action.playerIndex draw else some new

/-! ## Agreement of the two transitions -/

/-- What the steps rely on in a state of a game in progress. -/
structure InPlay (st : State) : Prop where
  tokens_le : st.clueTokens ≤ 8
  cardOrder_ge : -1 ≤ st.cardOrder
  order_le : ∀ o ∈ st.allOrders, (o : ℤ) ≤ st.cardOrder
  clock : (0 < st.cardsLeft ∧ st.endgameTurns = -1) ∨ (st.cardsLeft = 0 ∧ 0 ≤ st.endgameTurns)

/-- Two states are equal on what the rules read, maximum ranks aside. Of the deck
that is the identities of the drawn cards; while a card is left, the next one has
no entry yet. -/
structure Agrees (fast real : State) : Prop where
  variant_eq : fast.variant = real.variant
  numPlayers_eq : fast.numPlayers = real.numPlayers
  hands_eq : fast.hands = real.hands
  playStacks_eq : fast.playStacks = real.playStacks
  discardStacks_eq : fast.discardStacks = real.discardStacks
  clueTokens_eq : fast.clueTokens = real.clueTokens
  strikes_eq : fast.strikes = real.strikes
  cardsLeft_eq : fast.cardsLeft = real.cardsLeft
  cardOrder_eq : fast.cardOrder = real.cardOrder
  endgameTurns_eq : fast.endgameTurns = real.endgameTurns
  identityOf_eq : ∀ o : ℕ, (o : ℤ) ≤ real.cardOrder → fast.identityOf o = real.identityOf o
  undrawn : 0 < real.cardsLeft → ∀ o : ℕ, real.cardOrder < o → fast.deck.get o = none

/-- A step that both transitions can take: an action by a player on a card of their
hand, whose identity the board knows, and a draw that `deck_ids` does not contradict. -/
structure Performable (st : State) (deckIds : SparseArray Identity) (action : PerformAction)
    (draw : Option Identity) : Prop where
  inProgress : st.endgameTurns ≠ 0
  player_lt : action.playerIndex < st.numPlayers
  card_mem : ∀ o, action.card? = some o → o ∈ st.hands action.playerIndex
  known : ∀ o, action.card? = some o → st.identityOf o = deckIds.get o
  draw_eq : (deckIds.get (st.cardOrder + 1).toNat).or draw = draw

theorem inPlay_of_boardInv {v : Variant} {dk : Deck v} {acts : List Action} {st : State}
    (h : BoardInv dk acts st) : InPlay st where
  tokens_le := h.tokens.2
  cardOrder_ge := h.cardOrder_ge
  order_le := h.order_le
  clock := h.endgame.imp_right fun hc => ⟨hc.1, hc.2.1⟩

/-- A reachable state agrees with itself. -/
theorem agrees_self {v : Variant} {dk : Deck v} {acts : List Action} {st : State}
    (h : BoardInv dk acts st) : Agrees st st where
  variant_eq := rfl
  numPlayers_eq := rfl
  hands_eq := rfl
  playStacks_eq := rfl
  discardStacks_eq := rfl
  clueTokens_eq := rfl
  strikes_eq := rfl
  cardsLeft_eq := rfl
  cardOrder_eq := rfl
  endgameTurns_eq := rfl
  identityOf_eq _ _ := rfl
  undrawn _ o ho := by
    have := h.deck_isSome o
    rw [← Option.not_isSome_iff_eq_none, this]
    omega

/-- How far a play or discard has come before the draw: `new` and `mid` have the
stacks of after the step; `new` has the cards and the clock of `st`, while `mid`
has lost the card and ticked the clock of `real`. -/
structure Midway (st new real mid : State) (p order : ℕ) (id : Identity) : Prop where
  variant_eq : new.variant = mid.variant
  numPlayers_eq : new.numPlayers = mid.numPlayers
  playStacks_eq : new.playStacks = mid.playStacks
  discardStacks_eq : new.discardStacks = mid.discardStacks
  clueTokens_eq : new.clueTokens = mid.clueTokens
  strikes_eq : new.strikes = mid.strikes
  new_hands : new.hands = st.hands
  new_cardsLeft : new.cardsLeft = st.cardsLeft
  new_cardOrder : new.cardOrder = st.cardOrder
  new_endgameTurns : new.endgameTurns = st.endgameTurns
  new_deck : new.deck = st.deck
  mid_numPlayers : mid.numPlayers = real.numPlayers
  mid_hands : mid.hands = Basics.removeCard real.hands p order
  mid_cardsLeft : mid.cardsLeft = real.cardsLeft
  mid_cardOrder : mid.cardOrder = real.cardOrder
  mid_endgameTurns : mid.endgameTurns = Basics.tick real.endgameTurns
  mid_deck : mid.deck = Basics.revealCard real.deck order (some id)

namespace Midway

variable {st new real mid real' : State} {p order : ℕ} {id : Identity}
  {deckIds : SparseArray Identity} {draw : Option Identity}

/-- Revealing a card the board knows changes no identity. -/
theorem identityOf_mid (hm : Midway st new real mid p order id)
    (hid : real.identityOf order = some id) (o : ℕ) : mid.identityOf o = real.identityOf o := by
  rw [State.identityOf, hm.mid_deck, Basics.revealCard, SparseArray.get_set]
  by_cases ho : o = order
  · rw [if_pos ho, ho, hid]; rfl
  · rw [if_neg ho]; rfl

/-- The draws keep what is midway in agreement. -/
theorem agrees (hm : Midway st new real mid p order id) (h : Agrees st real) (hi : InPlay real)
    (hid : real.identityOf order = some id)
    (hdraw : (deckIds.get (real.cardOrder + 1).toNat).or draw = draw)
    (hreal : drawNext mid deckIds p draw = some real') :
    Agrees (removeAndDrawNew st new p order draw) real' := by
  rcases hi.clock with ⟨hc, he⟩ | ⟨hc, he⟩
  · -- a card is left: both draw it
    have hst : st.endgameTurns = -1 := h.endgameTurns_eq.trans he
    rw [drawNext, if_pos (by rw [hm.mid_cardsLeft]; exact hc)] at hreal
    simp only [Option.ite_none_left_eq_some, Option.some.injEq] at hreal
    obtain ⟨-, rfl⟩ := hreal
    have hnone : st.deck.get (st.cardOrder + 1).toNat = none := by
      refine h.undrawn hc _ ?_
      have := hi.cardOrder_ge
      rw [h.cardOrder_eq]
      omega
    rw [removeAndDrawNew, if_pos hst, hnone]
    refine
      { variant_eq := hm.variant_eq
        numPlayers_eq := hm.numPlayers_eq
        hands_eq := ?_
        playStacks_eq := hm.playStacks_eq
        discardStacks_eq := hm.discardStacks_eq
        clueTokens_eq := hm.clueTokens_eq
        strikes_eq := hm.strikes_eq
        cardsLeft_eq := ?_
        cardOrder_eq := ?_
        endgameTurns_eq := ?_
        identityOf_eq := ?_
        undrawn := ?_ }
    · simp only [Basics.onDraw, hm.new_hands, hm.mid_hands, hm.mid_cardOrder, h.hands_eq,
        h.cardOrder_eq]
    · simp only [Basics.onDraw, hm.new_cardsLeft, hm.mid_cardsLeft, h.cardsLeft_eq]
    · have := hi.cardOrder_ge
      simp only [Basics.onDraw, hm.new_cardOrder, hm.mid_cardOrder, h.cardOrder_eq]
      omega
    · simp only [Basics.onDraw, hm.new_cardsLeft, hm.mid_cardsLeft, h.cardsLeft_eq,
        hm.new_endgameTurns, hm.mid_endgameTurns, h.endgameTurns_eq, h.numPlayers_eq,
        hm.mid_numPlayers, he, Basics.tick_neg_one]
    · intro o ho
      have hge := hi.cardOrder_ge
      simp only [State.identityOf, Basics.onDraw, Option.isNone_none, if_true, hm.new_deck,
        hm.mid_cardOrder, h.cardOrder_eq, SparseArray.get_set, hdraw] at ho ⊢
      by_cases hoo : o = (real.cardOrder + 1).toNat
      · rw [if_pos hoo, if_pos hoo]
      · rw [if_neg hoo, if_neg hoo]
        exact (h.identityOf_eq o (by omega)).trans (hm.identityOf_mid hid o).symm
    · intro hc' o ho
      have hge := hi.cardOrder_ge
      simp only [Basics.onDraw, hm.mid_cardOrder] at ho
      simp only [Option.isNone_none, if_true, hm.new_deck, h.cardOrder_eq]
      rw [SparseArray.get_set_of_ne _ (by omega)]
      exact h.undrawn hc o (by omega)
  · -- the final round: neither draws
    have hst : st.endgameTurns ≠ -1 := by rw [h.endgameTurns_eq]; omega
    rw [drawNext, if_neg (by rw [hm.mid_cardsLeft]; omega), Option.some.injEq] at hreal
    subst hreal
    rw [removeAndDrawNew, if_neg hst]
    refine
      { variant_eq := hm.variant_eq
        numPlayers_eq := hm.numPlayers_eq
        hands_eq := by rw [hm.mid_hands, ← h.hands_eq, ← hm.new_hands]
        playStacks_eq := hm.playStacks_eq
        discardStacks_eq := hm.discardStacks_eq
        clueTokens_eq := hm.clueTokens_eq
        strikes_eq := hm.strikes_eq
        cardsLeft_eq := hm.new_cardsLeft.trans (h.cardsLeft_eq.trans hm.mid_cardsLeft.symm)
        cardOrder_eq := hm.new_cardOrder.trans (h.cardOrder_eq.trans hm.mid_cardOrder.symm)
        endgameTurns_eq := ?_
        identityOf_eq := ?_
        undrawn := fun hc' => by rw [hm.mid_cardsLeft] at hc'; omega }
    · rw [hm.mid_endgameTurns, Basics.tick_of_ne (by omega), ← h.endgameTurns_eq,
        ← hm.new_endgameTurns]
    · intro o ho
      have hge := hi.cardOrder_ge
      rw [hm.mid_cardOrder] at ho
      rw [hm.identityOf_mid hid, ← h.identityOf_eq o ho]
      simp only [State.identityOf, hm.new_deck, h.cardOrder_eq]
      split
      · rw [SparseArray.get_set_of_ne _ (by omega)]
      · rfl

end Midway

namespace InPlay

variable {st st' : State} {p order : ℕ}

/-- The clock after a turn that draws nothing. -/
theorem clock_tick (h : InPlay st) (hne : st.endgameTurns ≠ 0) :
    (0 < st.cardsLeft ∧ Basics.tick st.endgameTurns = -1) ∨
      (st.cardsLeft = 0 ∧ 0 ≤ Basics.tick st.endgameTurns) := by
  rcases h.clock with ⟨hc, he⟩ | ⟨hc, he⟩
  · exact Or.inl ⟨hc, by rw [he, Basics.tick_neg_one]⟩
  · exact Or.inr ⟨hc, by rw [Basics.tick_of_ne (by omega)]; omega⟩

theorem onClue (h : InPlay st) (hne : st.endgameTurns ≠ 0) : InPlay (Basics.onClue st) where
  tokens_le := by have := h.tokens_le; simp only [Basics.onClue]; omega
  cardOrder_ge := h.cardOrder_ge
  order_le := h.order_le
  clock := h.clock_tick hne

theorem afterPlay (h : InPlay st) (hne : st.endgameTurns ≠ 0) (hp : p < st.numPlayers)
    (ho : order ∈ st.hands p) (identity : Option Identity) :
    InPlay (Basics.afterPlay st order p identity) where
  tokens_le := by have := h.tokens_le; simp only [Basics.afterPlay]; split <;> omega
  cardOrder_ge := h.cardOrder_ge
  order_le o hm := h.order_le o
    ((Basics.allOrders_afterPlay hp ho identity).mem_iff.2 (List.mem_cons_of_mem _ hm))
  clock := h.clock_tick hne

theorem afterDiscard (h : InPlay st) (hne : st.endgameTurns ≠ 0) (hp : p < st.numPlayers)
    (ho : order ∈ st.hands p) (identity : Option Identity) (failed : Bool) :
    InPlay (Basics.afterDiscard st order p identity failed) where
  tokens_le := by have := h.tokens_le; simp only [Basics.afterDiscard]; split <;> omega
  cardOrder_ge := h.cardOrder_ge
  order_le o hm := h.order_le o
    ((Basics.allOrders_afterDiscard hp ho identity failed).mem_iff.2 (List.mem_cons_of_mem _ hm))
  clock := h.clock_tick hne

theorem drawNext (h : InPlay st) (hp : p < st.numPlayers) {deckIds : SparseArray Identity}
    {draw : Option Identity} (hd : Endgame.drawNext st deckIds p draw = some st') : InPlay st' := by
  rw [Endgame.drawNext] at hd
  split at hd
  · rename_i hc
    simp only [Option.ite_none_left_eq_some, Option.some.injEq] at hd
    obtain ⟨-, rfl⟩ := hd
    have hge := h.cardOrder_ge
    refine ⟨h.tokens_le, ?_, fun o hm => ?_, ?_⟩
    · simp only [Basics.onDraw]; omega
    · simp only [Basics.onDraw]
      rcases List.mem_cons.1 ((Basics.allOrders_onDraw hp _ _ _).mem_iff.1 hm) with rfl | hm
      · exact le_rfl
      · have := h.order_le o hm
        omega
    · simp only [Basics.onDraw]
      rcases h.clock with ⟨-, he⟩ | ⟨hc', -⟩
      · split
        · exact Or.inr ⟨by assumption, by omega⟩
        · exact Or.inl ⟨by omega, he⟩
      · omega
  · exact Option.some.inj hd ▸ h

end InPlay

/-! ## What a real step is -/

section Perform

variable {st st' : State} {deckIds : SparseArray Identity} {action : PerformAction}
  {draw : Option Identity}

/-- The real transition is the handler of a play, of a misplay, of a discard or of a
clue, the first three followed by a draw. -/
theorem perform_cases (h : perform st deckIds action draw = some st') :
    (∃ p o id, action = .play p o ∧ deckIds.get o = some id ∧ st.isPlayable id = true ∧
      drawNext (Basics.afterPlay st o p (some id)) deckIds p draw = some st') ∨
    (∃ p o id, action = .play p o ∧ deckIds.get o = some id ∧ st.isPlayable id = false ∧
      drawNext (Basics.afterDiscard st o p (some id) true) deckIds p draw = some st') ∨
    (∃ p o id, action = .discard p o ∧ deckIds.get o = some id ∧
      drawNext (Basics.afterDiscard st o p (some id) false) deckIds p draw = some st') ∨
    (∃ p t c, action = .clue p t c ∧ st' = Basics.onClue st) := by
  obtain ⟨act, hact, hnew⟩ := Option.bind_eq_some_iff.1 h
  obtain ⟨new, hafter, hst'⟩ := Option.bind_eq_some_iff.1 hnew
  obtain ⟨-, rfl⟩ := Basics.onAction_eq_some_iff.1 hafter
  cases action with
  | play p o =>
    simp only [performToAction, Option.map_map, Option.map_eq_some_iff, Function.comp_apply,
      Option.any_some, beq_iff_eq] at hact
    obtain ⟨id, hid, rfl⟩ := hact
    by_cases hplay : st.playStacks id.suitIndex + 1 = id.rank
    · simp only [if_pos hplay] at hst'
      exact Or.inl ⟨p, o, id, rfl, hid, by simp [State.isPlayable, hplay], hst'⟩
    · simp only [if_neg hplay] at hst'
      refine Or.inr (Or.inl ⟨p, o, id, rfl, hid, ?_, hst'⟩)
      simpa [State.isPlayable] using Ne.symm hplay
  | discard p o =>
    simp only [performToAction, Option.map_map, Option.map_eq_some_iff, Function.comp_apply] at hact
    obtain ⟨id, hid, rfl⟩ := hact
    exact Or.inr (Or.inr (Or.inl ⟨p, o, id, rfl, hid, hst'⟩))
  | clue p t c =>
    simp only [performToAction, Option.ite_none_right_eq_some, Option.some.injEq] at hact
    obtain ⟨-, rfl⟩ := hact
    exact Or.inr (Or.inr (Or.inr ⟨p, t, c, rfl, (Option.some.inj hst').symm⟩))
  | anyClue p => cases hact

theorem InPlay.perform (h : InPlay st) (ha : Performable st deckIds action draw)
    (hst' : perform st deckIds action draw = some st') : InPlay st' := by
  have hmem := ha.card_mem
  have hp := ha.player_lt
  rcases perform_cases hst' with ⟨p, o, id, rfl, -, -, hd⟩ | ⟨p, o, id, rfl, -, -, hd⟩ |
    ⟨p, o, id, rfl, -, hd⟩ | ⟨p, t, c, rfl, rfl⟩
  · exact (h.afterPlay ha.inProgress hp (hmem o rfl) _).drawNext hp hd
  · exact (h.afterDiscard ha.inProgress hp (hmem o rfl) _ _).drawNext hp hd
  · exact (h.afterDiscard ha.inProgress hp (hmem o rfl) _ _).drawNext hp hd
  · exact h.onClue ha.inProgress

/-- One step of both transitions keeps them in agreement. -/
theorem Agrees.advanceState {fast real real' : State} (h : Agrees fast real) (hi : InPlay real)
    (ha : Performable real deckIds action draw)
    (hreal : perform real deckIds action draw = some real') :
    Agrees (advanceState fast action draw) real' := by
  have hfast : ∀ o id, action.card? = some o → deckIds.get o = some id →
      real.identityOf o = some id ∧ fast.identityOf o = some id := by
    intro o id hc hid
    have hmem : o ∈ real.allOrders :=
      State.mem_allOrders.2 ⟨_, ha.player_lt, ha.card_mem o hc⟩
    have hk : real.identityOf o = some id := (ha.known o hc).trans hid
    exact ⟨hk, (h.identityOf_eq o (hi.order_le o hmem)).trans hk⟩
  rcases perform_cases hreal with ⟨p, o, id, rfl, hid, hplay, hd⟩ | ⟨p, o, id, rfl, hid, hplay, hd⟩ |
    ⟨p, o, id, rfl, hid, hd⟩ | ⟨p, t, c, rfl, rfl⟩
  · obtain ⟨hk, hkf⟩ := hfast o id rfl hid
    have hplayf : fast.isPlayable id = true := by
      rw [State.isPlayable, h.playStacks_eq]; exact hplay
    simp only [Endgame.advanceState, hkf, hplayf, if_true]
    refine Midway.agrees ?_ h hi hk ha.draw_eq hd
    refine
      { variant_eq := h.variant_eq, numPlayers_eq := h.numPlayers_eq
        playStacks_eq := by simp only [Basics.afterPlay, h.playStacks_eq]
        discardStacks_eq := h.discardStacks_eq
        clueTokens_eq := ?_
        strikes_eq := h.strikes_eq
        new_hands := rfl, new_cardsLeft := rfl, new_cardOrder := rfl, new_endgameTurns := rfl
        new_deck := rfl, mid_numPlayers := rfl, mid_hands := rfl, mid_cardsLeft := rfl
        mid_cardOrder := rfl, mid_endgameTurns := rfl, mid_deck := rfl }
    have htok := hi.tokens_le
    simp only [Basics.afterPlay, Option.map_some, Option.some.injEq, h.clueTokens_eq]
    by_cases h5 : id.rank = 5
    · simp only [h5, if_true, true_and]
      split <;> omega
    · simp only [h5, if_false, false_and]
  · obtain ⟨hk, hkf⟩ := hfast o id rfl hid
    have hplayf : fast.isPlayable id = false := by
      rw [State.isPlayable, h.playStacks_eq]; exact hplay
    simp only [Endgame.advanceState, hkf, hplayf, Bool.false_eq_true, if_false]
    refine Midway.agrees ?_ h hi hk ha.draw_eq hd
    exact
      { variant_eq := h.variant_eq, numPlayers_eq := h.numPlayers_eq
        playStacks_eq := h.playStacks_eq
        discardStacks_eq := by simp only [Basics.afterDiscard, updateDiscards, h.discardStacks_eq]
        clueTokens_eq := h.clueTokens_eq
        strikes_eq := congrArg (· + 1) h.strikes_eq
        new_hands := rfl, new_cardsLeft := rfl, new_cardOrder := rfl, new_endgameTurns := rfl
        new_deck := rfl, mid_numPlayers := rfl, mid_hands := rfl, mid_cardsLeft := rfl
        mid_cardOrder := rfl, mid_endgameTurns := rfl, mid_deck := rfl }
  · obtain ⟨hk, hkf⟩ := hfast o id rfl hid
    simp only [Endgame.advanceState, hkf]
    refine Midway.agrees ?_ h hi hk ha.draw_eq hd
    exact
      { variant_eq := h.variant_eq, numPlayers_eq := h.numPlayers_eq
        playStacks_eq := h.playStacks_eq
        discardStacks_eq := by simp only [Basics.afterDiscard, updateDiscards, h.discardStacks_eq]
        clueTokens_eq := by
          simp only [Basics.afterDiscard, h.clueTokens_eq, Bool.false_eq_true, if_false]
        strikes_eq := h.strikes_eq
        new_hands := rfl, new_cardsLeft := rfl, new_cardOrder := rfl, new_endgameTurns := rfl
        new_deck := rfl, mid_numPlayers := rfl, mid_hands := rfl, mid_cardsLeft := rfl
        mid_cardOrder := rfl, mid_endgameTurns := rfl, mid_deck := rfl }
  · refine { h with clueTokens_eq := ?_, endgameTurns_eq := ?_ }
    · simp only [Endgame.advanceState, Basics.onClue, h.clueTokens_eq]
    · simp only [Endgame.advanceState, Basics.onClue, h.endgameTurns_eq, Basics.tick]
      split <;> simp_all

/-! ## The maximum ranks -/

/-- The action loses the last copy of an identity that was within the maximum rank. -/
def LowersMax (st : State) (action : PerformAction) : Prop :=
  ∃ o id, action.card? = some o ∧ st.identityOf o = some id ∧
    (∀ p, action = .play p o → st.isPlayable id = false) ∧
    st.discardStacks id + 1 = st.cardCount id ∧ id.rank - 1 < st.maxRanks id.suitIndex

theorem maxRanks_advanceState (st : State) (action : PerformAction) (draw : Option Identity) :
    (advanceState st action draw).maxRanks = st.maxRanks := by
  have hdraw : ∀ new p o, (removeAndDrawNew st new p o draw).maxRanks = new.maxRanks := by
    intro new p o
    simp only [removeAndDrawNew]
    split <;> rfl
  cases action with
  | play p o =>
    simp only [advanceState, hdraw]
    split
    · split <;> rfl
    · rfl
  | discard p o =>
    simp only [advanceState, hdraw]
    split <;> rfl
  | clue | anyClue => rfl

theorem maxRanks_drawNext {p : ℕ} (h : drawNext st deckIds p draw = some st') :
    st'.maxRanks = st.maxRanks := by
  rw [drawNext] at h
  split at h
  · simp only [Option.ite_none_left_eq_some, Option.some.injEq] at h
    exact h.2 ▸ rfl
  · exact Option.some.inj h ▸ rfl

theorem maxRanks_afterDiscard (st : State) (o p : ℕ) (id : Identity) (failed : Bool) :
    (Basics.afterDiscard st o p (some id) failed).maxRanks ≤ st.maxRanks ∧
      ((Basics.afterDiscard st o p (some id) failed).maxRanks = st.maxRanks ↔
        ¬ (st.discardStacks id + 1 = st.cardCount id ∧
          id.rank - 1 < st.maxRanks id.suitIndex)) := by
  simp only [Basics.afterDiscard]
  split
  · rename_i hlast
    simp only [hlast, true_and, not_lt]
    refine ⟨fun s => ?_, fun h => ?_, fun h => ?_⟩
    · rw [Function.update_apply]
      split
      · rename_i hs
        rw [hs]
        exact min_le_left _ _
      · exact le_rfl
    · have := congrFun h id.suitIndex
      rw [Function.update_self] at this
      exact min_eq_left_iff.1 this
    · rw [min_eq_left h, Function.update_eq_self]
  · rename_i hlast
    simp [hlast]

/-- A real step lowers the maximum ranks exactly if it loses a last copy. -/
theorem maxRanks_perform (ha : Performable st deckIds action draw)
    (h : perform st deckIds action draw = some st') :
    st'.maxRanks ≤ st.maxRanks ∧ (st'.maxRanks = st.maxRanks ↔ ¬ LowersMax st action) := by
  rcases perform_cases h with ⟨p, o, id, rfl, hid, hplay, hd⟩ | ⟨p, o, id, rfl, hid, hplay, hd⟩ |
    ⟨p, o, id, rfl, hid, hd⟩ | ⟨p, t, c, rfl, rfl⟩
  · have heq : st'.maxRanks = st.maxRanks := (maxRanks_drawNext hd).trans rfl
    refine ⟨heq.le, iff_of_true heq ?_⟩
    rintro ⟨o', id', ho, hid', hno, -⟩
    cases ho
    rw [ha.known o rfl, hid, Option.some.injEq] at hid'
    rw [← hid', hplay] at hno
    exact absurd (hno p rfl) (by decide)
  · have hk := (ha.known o rfl).trans hid
    rw [maxRanks_drawNext hd]
    refine ⟨(maxRanks_afterDiscard ..).1, (maxRanks_afterDiscard ..).2.trans (not_congr ?_)⟩
    refine ⟨fun hl => ⟨o, id, rfl, hk, fun _ _ => hplay, hl⟩, ?_⟩
    rintro ⟨o', id', ho, hid', -, hl⟩
    cases ho
    rw [hk, Option.some.injEq] at hid'
    rwa [hid']
  · have hk := (ha.known o rfl).trans hid
    rw [maxRanks_drawNext hd]
    refine ⟨(maxRanks_afterDiscard ..).1, (maxRanks_afterDiscard ..).2.trans (not_congr ?_)⟩
    refine ⟨fun hl => ⟨o, id, rfl, hk, (fun _ hp => nomatch hp), hl⟩, ?_⟩
    rintro ⟨o', id', ho, hid', -, hl⟩
    cases ho
    rw [hk, Option.some.injEq] at hid'
    rwa [hid']
  · refine ⟨le_rfl, iff_of_true rfl ?_⟩
    rintro ⟨o', id', ho, -⟩
    cases ho

end Perform

/-! ## Sequences of steps -/

/-- The two states that the same actions and draws lead to from `start`, by the fast
and by the real transition, with the real states and the actions on the way. -/
inductive Along (start : State) : List (State × PerformAction) → State → State → Prop
  | start : Along start [] start start
  | step {steps : List (State × PerformAction)} {fast real real' : State}
      {deckIds : SparseArray Identity} {action : PerformAction} {draw : Option Identity} :
      Along start steps fast real → Performable real deckIds action draw →
      perform real deckIds action draw = some real' →
      Along start ((real, action) :: steps) (advanceState fast action draw) real'

namespace Along

variable {start fast real : State} {steps : List (State × PerformAction)}

theorem agrees (hs : Agrees start start) (hi : InPlay start) (h : Along start steps fast real) :
    Agrees fast real ∧ InPlay real := by
  induction h with
  | start => exact ⟨hs, hi⟩
  | step _ ha hp ih => exact ⟨ih.1.advanceState ih.2 ha hp, ih.2.perform ha hp⟩

theorem maxRanks_fast (h : Along start steps fast real) : fast.maxRanks = start.maxRanks := by
  induction h with
  | start => rfl
  | step _ _ _ ih => rw [maxRanks_advanceState, ih]

theorem maxRanks_real (h : Along start steps fast real) :
    real.maxRanks ≤ start.maxRanks ∧
      (real.maxRanks = start.maxRanks ↔ ∀ x ∈ steps, ¬ LowersMax x.1 x.2) := by
  induction h with
  | start => simp
  | @step steps fast real real' deckIds action draw _ ha hp ih =>
    obtain ⟨hle, hiff⟩ := ih
    obtain ⟨hle', hiff'⟩ := maxRanks_perform ha hp
    refine ⟨hle'.trans hle, ?_⟩
    rw [List.forall_mem_cons, ← hiff, ← hiff']
    constructor
    · intro heq
      -- squeezed between the two ends
      have h1 : real.maxRanks = start.maxRanks := le_antisymm hle (heq ▸ hle')
      exact ⟨heq.trans h1.symm, h1⟩
    · rintro ⟨h1, h2⟩
      exact h1.trans h2

/-- **The fast transition refines the real one.** From a reachable state, along any
sequence of actions and draws, the two agree on hands, stacks, tokens, strikes and
clocks. `advance_state` keeps the maximum ranks of the start; they are also the
real ones exactly if no step on the way loses a last copy. -/
theorem refines {v : Variant} {dk : Deck v} {n our : ℕ} {options : TableOptions}
    {acts : List Action} (hrun : Run dk n our options acts start)
    (h : Along start steps fast real) :
    fast.hands = real.hands ∧ fast.playStacks = real.playStacks ∧
      fast.discardStacks = real.discardStacks ∧ fast.clueTokens = real.clueTokens ∧
      fast.strikes = real.strikes ∧ fast.cardsLeft = real.cardsLeft ∧
      fast.cardOrder = real.cardOrder ∧ fast.endgameTurns = real.endgameTurns ∧
      fast.maxRanks = start.maxRanks ∧
      (fast.maxRanks = real.maxRanks ↔ ∀ x ∈ steps, ¬ LowersMax x.1 x.2) := by
  have hi := hrun.boardInv
  obtain ⟨ha, -⟩ := h.agrees (agrees_self hi) (inPlay_of_boardInv hi)
  refine ⟨ha.hands_eq, ha.playStacks_eq, ha.discardStacks_eq, ha.clueTokens_eq, ha.strikes_eq,
    ha.cardsLeft_eq, ha.cardOrder_eq, ha.endgameTurns_eq, h.maxRanks_fast, ?_⟩
  rw [h.maxRanks_fast, eq_comm]
  exact h.maxRanks_real.2

/-- A deck whose first card is the only 5 of its suit. -/
def fiveFirst : Deck noVariant :=
  .ofList suits_noVariant (⟨0, 5⟩ :: (Deck.sortedCards noVariant).erase ⟨0, 5⟩)
    (List.perm_cons_erase (by decide)).symm

/-- The deal, in which the identity of the first card is shown or not. -/
def dealFive (identity : Option Identity) : List Action :=
  .draw 0 0 identity :: (List.range' 1 9).map fun o => .draw o (o / 5) none

/-- The state after both players are dealt five cards. -/
def afterFive (identity : Option Identity) : State :=
  (dealFive identity).foldl (Basics.after · .empty) (.fresh noVariant 2 0 {})

theorem run_afterFive {identity : Option Identity} (h : identity = none ∨ identity = some ⟨0, 5⟩) :
    ∃ acts, Run fiveFirst 2 0 {} acts (afterFive identity) := by
  obtain rfl | rfl := h
  · exact Run.fresh.append (by decide +kernel)
  · exact Run.fresh.append (by decide +kernel)

theorem performable_afterFive :
    Performable (afterFive (some ⟨0, 5⟩)) (SparseArray.empty.set 0 ⟨0, 5⟩) (.play 0 0) none := by
  refine ⟨by decide +kernel, by decide +kernel, ?_, ?_, by decide +kernel⟩
  · rintro o ho
    cases ho
    decide +kernel
  · rintro o ho
    cases ho
    decide +kernel

/-- Misplaying the 5 lowers the real maximum rank, and not the fast one. If the board
does not know the card, the fast transition does not discard it either. -/
theorem not_refines :
    (∃ acts st deckIds action draw real, Run fiveFirst 2 0 {} acts st ∧
      Performable st deckIds action draw ∧ perform st deckIds action draw = some real ∧
      (advanceState st action draw).maxRanks 0 = 5 ∧ real.maxRanks 0 = 4) ∧
    (∃ acts st deckIds action draw real, Run fiveFirst 2 0 {} acts st ∧
      deckIds.get 0 = some (fiveFirst.truth 0) ∧ perform st deckIds action draw = some real ∧
      (advanceState st action draw).discardStacks ⟨0, 5⟩ = 0 ∧ real.discardStacks ⟨0, 5⟩ = 1) := by
  have hmax : (perform (afterFive (some ⟨0, 5⟩)) (SparseArray.empty.set 0 ⟨0, 5⟩) (.play 0 0)
      none).map (fun real => real.maxRanks 0) = some 4 := by decide +kernel
  have hdiscard : (perform (afterFive none) (SparseArray.empty.set 0 ⟨0, 5⟩) (.play 0 0)
      none).map (fun real => real.discardStacks ⟨0, 5⟩) = some 1 := by decide +kernel
  obtain ⟨real, hreal, hmax⟩ := Option.map_eq_some_iff.1 hmax
  obtain ⟨real', hreal', hdiscard⟩ := Option.map_eq_some_iff.1 hdiscard
  obtain ⟨acts, hrun⟩ := run_afterFive (Or.inr rfl)
  obtain ⟨acts', hrun'⟩ := run_afterFive (Or.inl rfl)
  exact ⟨⟨_, _, _, _, _, real, hrun, performable_afterFive, hreal, by decide +kernel, hmax⟩,
    ⟨_, _, _, _, _, real', hrun', by decide, hreal', by decide +kernel, hdiscard⟩⟩

/-- The refinement at the first play. -/
theorem refines_first_play :
    ∃ steps fast real, Along (afterFive (some ⟨0, 5⟩)) steps fast real ∧ steps.length = 1 ∧
      (real.hands 0).length = 5 ∧ fast.strikes = real.strikes := by
  have hlength : (perform (afterFive (some ⟨0, 5⟩)) (SparseArray.empty.set 0 ⟨0, 5⟩) (.play 0 0)
      none).map (fun real => (real.hands 0).length) = some 5 := by decide +kernel
  obtain ⟨real, hreal, hlength⟩ := Option.map_eq_some_iff.1 hlength
  have h := Along.start.step performable_afterFive hreal
  obtain ⟨acts, hrun⟩ := run_afterFive (Or.inr rfl)
  exact ⟨_, _, _, h, rfl, hlength, (refines hrun h).2.2.2.2.1⟩

end Along

end Endgame

end HanabiBot
