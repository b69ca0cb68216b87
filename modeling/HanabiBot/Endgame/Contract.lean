import HanabiBot.Endgame.Solver

/-!
# What the search promises

The search answers in time, or fails with `UnsolvedGame`; its winrates are between
0 and 1, and its actions are legal.  `Sound` is the invariant of the caches behind
this, `Sane` that of the positions, and `Counted` that of the identities left.
What a convention makes of a legal action in a sane position is assumed to follow the
rules (`Convention.Lawful`); an error that it throws there is passed on (`Excused`).

* `possibleActions_spec` — the offered actions are legal;
* `advanceGame_spec` — a legal action leads to a sane position, one turn on;
* `optimizeFrom_spec` — the best of the offered actions are found, with a winrate;
* `winnable_spec` — the search keeps `Sound` and returns winrates.
-/

namespace HanabiBot.Endgame

variable {κ : Type} {conv : Convention κ}

/-! ## Legal actions -/

/-- The action is legal for player `p`. -/
def Legal (st : State) (p : ℕ) : PerformAction → Prop
  | .play q o => q = p ∧ o ∈ st.hands p
  | .discard q o => q = p ∧ o ∈ st.hands p ∧ st.clueTokens < 8
  | .clue q target _ => q = p ∧ target < st.numPlayers ∧ target ≠ p ∧ 0 < st.clueTokens
  | .anyClue q => q = p ∧ 0 < st.clueTokens

instance (st : State) (p : ℕ) (action : PerformAction) : Decidable (Legal st p action) := by
  cases action <;> unfold Legal <;> infer_instance

/-- The convention proposes clues to others, and plays and discards of one's own cards. -/
structure Fair (conv : Convention κ) : Prop where
  playables : ∀ g p, ∀ o ∈ conv.thinksPlayables g p, o ∈ g.state.hands p
  clues : ∀ g p, ∀ c ∈ conv.findClues g p, c.target < g.state.numPlayers ∧ c.target ≠ p
  discards : ∀ g p, ∀ d ∈ conv.findDiscards g p, d.order ∈ g.state.hands p

/-! ## Sane positions -/

/-- A position of a game in progress, as far as the solver relies on it. -/
structure SaneState (st : State) : Prop where
  clocked : Clocked st
  fit : ∀ p < st.numPlayers, ((st.hands p).length : ℤ) ≤ st.handSize
  tokens_le : st.clueTokens ≤ 8

/-- Whoever has a turn left, from player `p` on, holds two cards; so it is with full hands. -/
structure Stocked (st : State) (p : ℕ) : Prop where
  turns_le : st.endgameTurns ≤ st.numPlayers
  two_le : ∀ i < st.numPlayers, st.endgameTurns = -1 ∨ (i : ℤ) < st.endgameTurns →
    2 ≤ (st.hands ((p + i) % st.numPlayers)).length

/-- A sane position in which every card has been dealt, with player `p` to move. -/
structure Sane (g : Game κ) (p : ℕ) : Prop where
  dealt : g.dealt = true
  state : SaneState g.state
  stocked : Stocked g.state p

/-! ## Lawful conventions -/

/-- In a sane position the solver goes on with a legal action of player `p`, which
`performToAction` makes the action `act`. -/
structure Proceeds (g : Game κ) (p : ℕ) (action : PerformAction) (act : Action) : Prop where
  sane : Sane g p
  inProgress : g.state.endgameTurns ≠ 0
  player_lt : p < g.state.numPlayers
  legal : Legal g.state p action
  performed : performToAction g.state action (fun o => (g.state.deck.get o).map ActualCard.identity) =
    some act

end Endgame

open Endgame

/-- Where simulating a legal action returns, it has moved the board by the rules, and every
player thinks of the drawn card. -/
structure Convention.Lawful {κ : Type} (conv : Convention κ) : Prop where
  board : ∀ {g p action act g' st}, Proceeds g p action act → conv.simulateAction g act = some g' →
    g.simulateBoard act = some st → g'.state.board = st.board
  dealt : ∀ {g p action act g'}, Proceeds g p action act → conv.simulateAction g act = some g' →
    g'.dealt = true

/-- Simulating a legal action throws no error. -/
def Convention.Returns {κ : Type} (conv : Convention κ) : Prop :=
  ∀ {g p action act}, Proceeds g p action act → (conv.simulateAction g act).isSome = true

namespace Endgame

variable {κ : Type} {conv : Convention κ}

/-- The error is `UnsolvedGame`, or one that simulating a legal action throws. -/
def Excused (conv : Convention κ) (e : SolverError) : Prop :=
  IsUnsolved e ∨ e = .gameError ∧ ¬ conv.Returns

theorem Excused.isUnsolved {e : SolverError} (h : Excused conv e) (hreturns : conv.Returns) :
    IsUnsolved e := h.resolve_right fun h => h.2 hreturns

/-! ## Turns -/

/-- The number of cards left after a turn. -/
def leftAfter (st : State) (action : PerformAction) : ℤ :=
  if action.isClue = true ∨ st.cardsLeft = 0 then st.cardsLeft else st.cardsLeft - 1

section

variable {st st' : State} {p o : ℕ}

theorem SaneState.board (h : SaneState st) : SaneState st.board := ⟨h.clocked, h.fit, h.tokens_le⟩

theorem SaneState.of_board (h : SaneState st.board) : SaneState st :=
  ⟨h.clocked, h.fit, h.tokens_le⟩

theorem Stocked.board (h : Stocked st p) : Stocked st.board p := ⟨h.turns_le, h.two_le⟩

theorem Stocked.of_board (h : Stocked st.board p) : Stocked st p := ⟨h.turns_le, h.two_le⟩

/-- After a turn of player `p`, who has no turn left in the final round, the others have as many
cards as before. -/
theorem Stocked.next (h : Stocked st p) (hp : p < st.numPlayers)
    (hpos : st.endgameTurns = -1 ∨ 0 < st.endgameTurns) (hn : st'.numPlayers = st.numPlayers)
    (hle : st'.endgameTurns ≤ st.numPlayers)
    (hturn : st.endgameTurns ≠ -1 → st'.endgameTurns = st.endgameTurns - 1)
    (hlen : ∀ q, q ≠ p ∨ st.endgameTurns = -1 → (st.hands q).length ≤ (st'.hands q).length) :
    Stocked st' (st.nextPlayerIndex p) where
  turns_le := hn ▸ hle
  two_le := by
    intro i hi hleft
    rw [hn] at hi ⊢
    have hmod : (st.nextPlayerIndex p + i) % st.numPlayers = (p + (i + 1)) % st.numPlayers := by
      rw [State.nextPlayerIndex, Nat.mod_add_mod, Nat.add_assoc, Nat.add_comm 1 i]
    rw [hmod]
    by_cases he : st.endgameTurns = -1
    · have hwrap := h.two_le ((i + 1) % st.numPlayers) (Nat.mod_lt _ (by omega)) (.inl he)
      rw [Nat.add_mod_mod] at hwrap
      exact hwrap.trans (hlen _ (.inr he))
    · have hstep := hturn he
      have hturns := h.turns_le
      refine (h.two_le (i + 1) (by omega) (.inr (by push_cast; omega))).trans (hlen _ (.inl ?_))
      -- the turn comes round to `p` only after all others
      intro heq
      rcases Nat.lt_or_ge (p + (i + 1)) st.numPlayers with hlt | hge
      · rw [Nat.mod_eq_of_lt hlt] at heq
        omega
      · rw [Nat.mod_eq_sub_mod hge, Nat.mod_eq_of_lt (by omega)] at heq
        omega

theorem Clocked.endgameTurns_pos (h : Clocked st) (hne : st.endgameTurns ≠ 0) :
    st.endgameTurns = -1 ∨ 0 < st.endgameTurns := by
  rcases h with ⟨-, he⟩ | ⟨-, he⟩
  · exact .inl he
  · exact .inr (lt_of_le_of_ne he hne.symm)

/-- What a turn of player `p` does to the clock of a game: `st'` comes after `st`. -/
structure Turned (st st' : State) (p : ℕ) (left : ℤ) : Prop where
  sane : SaneState st'
  stocked : Stocked st' (st.nextPlayerIndex p)
  numPlayers_eq : st'.numPlayers = st.numPlayers
  cardsLeft_eq : st'.cardsLeft = left
  closer : depthBound st' < depthBound st

theorem Turned.of_board {left : ℤ} (h : Turned st st' p left) {st'' : State}
    (hb : st''.board = st'.board) : Turned st st'' p left where
  sane := SaneState.of_board (hb ▸ h.sane.board)
  stocked := Stocked.of_board (hb ▸ h.stocked.board)
  numPlayers_eq := (congrArg State.numPlayers hb).trans h.numPlayers_eq
  cardsLeft_eq := (congrArg State.cardsLeft hb).trans h.cardsLeft_eq
  closer := by
    change depthBound st''.board < _
    rw [hb]
    exact h.closer

/-- A clue, by whichever of the two ways. -/
theorem turned_clue (h : SaneState st) (hstocked : Stocked st p) (hne : st.endgameTurns ≠ 0)
    (hp : p < st.numPlayers) (htokens : 0 < st.clueTokens)
    (hb : st'.board =
      { st with
        clueTokens := st.clueTokens - 1
        endgameTurns := Basics.tick st.endgameTurns }.board) :
    Turned st st' p st.cardsLeft := by
  refine Turned.of_board ?_ hb
  have hturns := hstocked.turns_le
  have hpos := h.clocked.endgameTurns_pos hne
  have hlt := @Clocked.advanceState _ (.anyClue 0) none h.clocked hne
  rw [advanceState_of_isClue rfl] at hlt
  exact
    { sane := ⟨hlt.1, h.fit, by have := h.tokens_le; dsimp only; omega⟩
      stocked := by
        refine hstocked.next hp hpos rfl ?_ Basics.tick_of_ne fun _ _ => le_rfl
        dsimp only
        rcases hpos with he | he
        · rw [he, Basics.tick_neg_one]
          omega
        · rw [Basics.tick_of_ne (by omega)]
          omega
      numPlayers_eq := rfl
      cardsLeft_eq := rfl
      closer := hlt.2.2 fun _ => htokens }

/-- A state after the handler of a play or discard by `p` of the card `o`, before the draw. -/
structure Handled (st mid : State) (p o : ℕ) : Prop where
  numPlayers_eq : mid.numPlayers = st.numPlayers
  options_eq : mid.options = st.options
  hands_eq : mid.hands = Basics.removeCard st.hands p o
  cardsLeft_eq : mid.cardsLeft = st.cardsLeft
  endgameTurns_eq : mid.endgameTurns = Basics.tick st.endgameTurns
  tokens_le : mid.clueTokens ≤ st.clueTokens + 1
  tokens_le_eight : mid.clueTokens ≤ 8

theorem handled_afterPlay (h : st.clueTokens ≤ 8) (id : Option Identity) :
    Handled st (Basics.afterPlay st o p id) p o := by
  refine ⟨rfl, rfl, rfl, rfl, rfl, ?_, ?_⟩ <;>
  · simp only [Basics.afterPlay]
    split <;> omega

theorem handled_afterDiscard (h : st.clueTokens ≤ 8) (id : Option Identity) (failed : Bool) :
    Handled st (Basics.afterDiscard st o p id failed) p o := by
  refine ⟨rfl, rfl, rfl, rfl, rfl, ?_, ?_⟩ <;>
  · simp only [Basics.afterDiscard]
    split <;> omega

/-- The draw after a play or discard succeeds. -/
theorem Handled.drawNext {mid : State} (hm : Handled st mid p o) (h : SaneState st)
    (hstocked : Stocked st p) (hne : st.endgameTurns ≠ 0) (hp : p < st.numPlayers) (ho : o ∈ st.hands p)
    (deckIds : SparseArray Identity) (draw : Option Identity) :
    ∃ st', Endgame.drawNext mid deckIds p draw = some st' ∧
      Turned st st' p (leftAfter st (.play p o)) := by
  have hpos := h.clocked.endgameTurns_pos hne
  have hturns := hstocked.turns_le
  have hsize : mid.handSize = st.handSize := by
    rw [State.handSize, State.handSize, hm.numPlayers_eq, hm.options_eq]
  have hlen : ((mid.hands p).length : ℤ) + 1 = (st.hands p).length := by
    rw [hm.hands_eq, Basics.removeCard_self, Basics.spliceOut_of_mem ho,
      List.length_erase_of_mem ho]
    have := List.length_pos_of_mem ho
    omega
  have hother : ∀ q, q ≠ p → mid.hands q = st.hands q := fun q hq => by
    rw [hm.hands_eq, Basics.removeCard_of_ne _ hq]
  have hfit : ∀ q < st.numPlayers, ((mid.hands q).length : ℤ) ≤ st.handSize := by
    intro q hq
    by_cases hqp : q = p
    · subst hqp
      have := h.fit q hq
      omega
    · rw [hother q hqp]
      exact h.fit q hq
  have hleft : leftAfter st (.play p o) = if st.cardsLeft = 0 then 0 else st.cardsLeft - 1 := by
    simp only [leftAfter, PerformAction.isClue, Bool.false_eq_true, false_or]
    split <;> simp_all
  have hfitp := h.fit p hp
  have h8 := hm.tokens_le_eight
  have h1 := hm.tokens_le
  rw [Endgame.drawNext, hm.cardsLeft_eq, hsize]
  rcases h.clocked with ⟨hcards, he⟩ | ⟨hzero, he⟩
  · rw [if_pos hcards, if_neg (by omega)]
    refine ⟨_, rfl, ?_⟩
    have hn := hm.numPlayers_eq
    rw [hleft, if_neg (by omega)]
    refine ⟨⟨?_, ?_, h8⟩, ?_, hn, by simp only [Basics.onDraw, hm.cardsLeft_eq], ?_⟩
    · simp only [Clocked, Basics.onDraw, hm.cardsLeft_eq, hm.endgameTurns_eq, he,
        Basics.tick_neg_one]
      split <;> omega
    · intro q hq
      have hq' : q < st.numPlayers := hn ▸ hq
      change ((Function.update mid.hands p ((mid.cardOrder + 1).toNat :: mid.hands p) q).length : ℤ)
        ≤ mid.handSize
      rw [hsize]
      by_cases hqp : q = p
      · subst hqp
        rw [Function.update_self, List.length_cons]
        push_cast
        omega
      · rw [Function.update_of_ne hqp]
        exact hfit q hq'
    · refine hstocked.next hp hpos hn ?_ (absurd he) fun q _ => ?_
      · simp only [Basics.onDraw, hm.endgameTurns_eq, he, Basics.tick_neg_one, hn]
        split <;> omega
      · change _ ≤ (Function.update mid.hands p ((mid.cardOrder + 1).toNat :: mid.hands p) q).length
        by_cases hqp : q = p
        · subst hqp
          rw [Function.update_self, List.length_cons]
          omega
        · rw [Function.update_of_ne hqp, hother q hqp]
    · simp only [depthBound, Basics.onDraw, hm.cardsLeft_eq, hm.endgameTurns_eq, he,
        Basics.tick_neg_one, hn, if_true]
      split
      · rw [if_neg (by omega)]
        omega
      · rw [if_pos rfl]
        omega
  · rw [if_neg (by omega)]
    have htick : Basics.tick st.endgameTurns = st.endgameTurns - 1 := Basics.tick_of_ne (by omega)
    refine ⟨_, rfl, ?_⟩
    rw [hleft, if_pos hzero]
    refine ⟨⟨Or.inr ⟨hm.cardsLeft_eq.trans hzero, ?_⟩, ?_, h8⟩, ?_, hm.numPlayers_eq,
      hm.cardsLeft_eq.trans hzero, ?_⟩
    · rw [hm.endgameTurns_eq, htick]
      omega
    · intro q hq
      rw [hsize]
      exact hfit q (hm.numPlayers_eq ▸ hq)
    · refine hstocked.next hp hpos hm.numPlayers_eq ?_ (fun _ => hm.endgameTurns_eq.trans htick)
        fun q hq => ?_
      · rw [hm.endgameTurns_eq, htick]
        omega
      · rw [hother q (hq.resolve_right (by omega))]
    · rw [depthBound, depthBound, hm.endgameTurns_eq, htick, if_neg (by omega), if_neg (by omega)]
      omega

end

/-! ## One step of a game -/

section

variable {g : Game κ} {p : ℕ} {action : PerformAction} {I : SolverState → Prop}
  {E : SolverError → Prop}

theorem dealtState_of_dealt (h : g.dealt = true) : dealtState g.state = true := by
  rw [Game.dealt, Bool.and_eq_true] at h
  exact h.1

theorem get_deck_of_dealt (h : g.dealt = true) (hp : p < g.state.numPlayers) {o : ℕ}
    (ho : o ∈ g.state.hands p) : ∃ c, g.state.deck.get o = some c := by
  have := List.all_eq_true.1 (dealtState_of_dealt h) o (State.mem_allOrders.2 ⟨p, hp, ho⟩)
  exact Option.isSome_iff_exists.1 this

/-- A player who holds two cards does not take the only one. -/
theorem Stocked.not_takesOnlyCard (h : Stocked g.state p) (hp : p < g.state.numPlayers)
    (hpos : g.state.endgameTurns = -1 ∨ 0 < g.state.endgameTurns) :
    (g.state.hands p).length ≠ 1 := by
  have htwo := h.two_le 0 (by omega) hpos
  rw [Nat.add_zero, Nat.mod_eq_of_lt hp] at htwo
  omega

/-- A legal action on cards that are dealt can be performed. -/
theorem exists_performed (hdealt : g.dealt = true) (hp : p < g.state.numPlayers)
    (hlegal : Legal g.state p action) (hact : ∀ q, action ≠ .anyClue q) :
    ∃ act, performToAction g.state action
      (fun o => (g.state.deck.get o).map ActualCard.identity) = some act := by
  cases action with
  | anyClue q => exact absurd rfl (hact q)
  | clue q target clue =>
    refine ⟨_, if_pos (List.all_eq_true.2 fun o ho => ?_)⟩
    obtain ⟨c, hc⟩ := get_deck_of_dealt hdealt hlegal.2.1 ho
    simp only [hc, Option.map_some, Option.isSome_some]
  | play q o =>
    obtain ⟨c, hc⟩ := get_deck_of_dealt hdealt hp hlegal.2
    exact ⟨_, by rw [performToAction, hc]; rfl⟩
  | discard q o =>
    obtain ⟨c, hc⟩ := get_deck_of_dealt hdealt hp hlegal.2.1
    exact ⟨_, by rw [performToAction, hc]; rfl⟩

/-- The handler of a play or discard returns, and so does the draw. -/
theorem Proceeds.board_of_handled {act : Action} (h : Proceeds g p action act) {mid : State} {o : ℕ}
    (ho : o ∈ g.state.hands p) (hmid : Handled g.state mid p o)
    (hboard : (g.state.hands p).length ≠ 1 → g.simulateBoard act =
      drawNext mid g.deckIds p (g.deckIds.get (g.state.cardOrder + 1).toNat))
    (hcard : action.isClue = false) :
    ∃ st, g.simulateBoard act = some st ∧
      Turned g.state st p (leftAfter g.state action) := by
  have hsane := h.sane.state
  have honly := h.sane.stocked.not_takesOnlyCard h.player_lt
    (hsane.clocked.endgameTurns_pos h.inProgress)
  have hleft : leftAfter g.state action = leftAfter g.state (.play p o) := by
    rw [leftAfter, hcard]
    rfl
  rw [hboard honly, hleft]
  exact hmid.drawNext hsane h.sane.stocked h.inProgress h.player_lt ho g.deckIds _

/-- By the rules, a legal action in a sane position leads to a sane board, one turn on. -/
theorem Proceeds.board {act : Action} (h : Proceeds g p action act) :
    ∃ st, g.simulateBoard act = some st ∧
      Turned g.state st p (leftAfter g.state action) := by
  have hsane := h.sane.state
  have hlegal := h.legal
  have hperformed := h.performed
  cases action with
  | anyClue q => cases hperformed
  | clue q target clue =>
    rw [performToAction] at hperformed
    split at hperformed
    · cases hperformed
      have hleft : leftAfter g.state (.clue q target clue) = g.state.cardsLeft := if_pos (.inl rfl)
      rw [hleft]
      exact ⟨_, rfl, turned_clue hsane h.sane.stocked h.inProgress h.player_lt hlegal.2.2.2 rfl⟩
    · cases hperformed
  | play q o =>
    obtain ⟨rfl, ho⟩ := hlegal
    obtain ⟨id, -, hact⟩ := Option.map_eq_some_iff.1 hperformed
    split at hact
    · subst hact
      refine h.board_of_handled ho (handled_afterPlay hsane.tokens_le id) (fun honly => ?_) rfl
      rw [Game.simulateBoard,
        @Basics.onAction_of_not_takesOnlyCard g.state (.play o q id) honly]
      rfl
    · subst hact
      refine h.board_of_handled ho (handled_afterDiscard hsane.tokens_le id true)
        (fun honly => ?_) rfl
      rw [Game.simulateBoard,
        @Basics.onAction_of_not_takesOnlyCard g.state (.discard o q id true) honly]
      rfl
  | discard q o =>
    obtain ⟨rfl, ho, -⟩ := hlegal
    obtain ⟨id, -, rfl⟩ := Option.map_eq_some_iff.1 hperformed
    refine h.board_of_handled ho (handled_afterDiscard hsane.tokens_le id false)
      (fun honly => ?_) rfl
    rw [Game.simulateBoard,
      @Basics.onAction_of_not_takesOnlyCard g.state (.discard o q id false) honly]
    rfl

theorem advanceGame_eq (hact : ∀ q, action ≠ .anyClue q) : advanceGame conv g action = (do
    let act ← Prog.ofOption .typeError <|
      performToAction g.state action fun o => (g.state.deck.get o).map ActualCard.identity
    Prog.ofOption .gameError (conv.simulateAction g act)) := by
  cases action with
  | anyClue q => exact absurd rfl (hact q)
  | clue | play | discard => rfl

/-- A legal action leads to a sane position, one turn on. -/
theorem advanceGame_spec (hlaw : conv.Lawful) (hE : ¬ conv.Returns → E .gameError) (hg : Sane g p)
    (hne : g.state.endgameTurns ≠ 0) (hp : p < g.state.numPlayers)
    (hlegal : Legal g.state p action) :
    Prog.Sat I E (advanceGame conv g action) fun g' =>
      g'.dealt = true ∧ Turned g.state g'.state p (leftAfter g.state action) := by
  by_cases hact : ∀ q, action ≠ .anyClue q
  · obtain ⟨act, hperformed⟩ := exists_performed hg.dealt hp hlegal hact
    have hproceeds : Proceeds g p action act := ⟨hg, hne, hp, hlegal, hperformed⟩
    obtain ⟨st, hst, hturn⟩ := hproceeds.board
    rw [advanceGame_eq hact, hperformed, Prog.ofOption_some, pure_bind]
    refine Prog.Sat.ofOption (fun g' hsim => ?_) fun hnone => hE fun hreturns => ?_
    · exact ⟨hlaw.dealt hproceeds hsim, hturn.of_board (hlaw.board hproceeds hsim hst)⟩
    · have := hreturns hproceeds
      rw [hnone] at this
      cases this
  · push Not at hact
    obtain ⟨q, rfl⟩ := hact
    have hleft : leftAfter g.state (.anyClue q) = g.state.cardsLeft := if_pos (.inl rfl)
    rw [hleft]
    exact Prog.Sat.pure ⟨hg.dealt, turned_clue hg.state hg.stocked hne hp hlegal.2 rfl⟩

end

/-! ## The actions that are offered -/

section

variable {g : Game κ} {p : ℕ} {I : SolverState → Prop} {rem : RemainingSet}

/-- An offered action is legal, and its draws are known if a card is drawn. -/
structure OfferOk (g : Game κ) (p : ℕ) (offer : Offer) : Prop where
  legal : Legal g.state p offer.action
  draws : offer.winnableDraws = none → offer.action.isClue = true ∨ g.state.cardsLeft = 0

theorem sat_winnableIfNow (hI : Stable I) {st : State} (hdealt : dealtState st = true)
    (hc : Clocked st) (hne : st.endgameTurns ≠ 0) (action : PerformAction) :
    Prog.Sat I IsUnsolved (winnableIfNow st p action rem) fun r =>
      r.winnableDraws = none → action.isClue = true ∨ st.cardsLeft = 0 := by
  refine sat_winnableIf fun draw rem' => ?_
  obtain ⟨hc', hle, -⟩ := @Clocked.advanceState _ action draw hc hne
  exact sat_winnableSimpler hI (dealtState_advanceState hdealt) hc' (by omega)

theorem sat_offerIf (hI : Stable I) (hg : Sane g p) (hne : g.state.endgameTurns ≠ 0)
    {action : PerformAction} (hlegal : Legal g.state p action) :
    Prog.Sat I IsUnsolved (offerIf g.state p rem action) fun r =>
      ∀ offer, r = some offer → OfferOk g p offer ∧ offer.action = action := by
  refine (sat_winnableIfNow hI (dealtState_of_dealt hg.dealt) hg.state.clocked hne action).bind
    fun r hr => Prog.Sat.pure fun offer ho => ?_
  split at ho
  · cases ho
    exact ⟨⟨hlegal, hr⟩, rfl⟩
  · cases ho

/-- Of some legal actions, those that may win are offered. -/
theorem sat_offers (hI : Stable I) (hg : Sane g p) (hne : g.state.endgameTurns ≠ 0)
    {l : List PerformAction} (hl : ∀ a ∈ l, Legal g.state p a) :
    Prog.Sat I IsUnsolved (l.filterMapM (offerIf g.state p rem)) fun offers =>
      (∀ offer ∈ offers, OfferOk g p offer) ∧ (offers.map Offer.action).Sublist l := by
  refine (Prog.Sat.filterMapM fun a ha => sat_offerIf hI hg hne (hl a ha)).mono ?_
  rintro _ ⟨ps, rfl, hsub, hP, -⟩
  refine ⟨fun offer ho => ?_, ?_⟩
  · obtain ⟨x, hx, rfl⟩ := List.mem_map.1 ho
    exact (hP x hx x.2 rfl).1
  · have : (ps.map Prod.snd).map Offer.action = ps.map Prod.fst := by
      rw [List.map_map]
      exact List.map_congr_left fun x hx => (hP x hx x.2 rfl).2
    rwa [this]

theorem legal_of_discardAction (hfair : Fair conv) (hle : g.state.clueTokens ≤ 8)
    {action : PerformAction}
    (h : action ∈ (discardsOf conv g p).filterMap (discardAction g.state p)) :
    Legal g.state p action := by
  obtain ⟨d, hd, hact⟩ := List.mem_filterMap.1 h
  have hmem : d.order ∈ g.state.hands p := by
    rw [discardsOf] at hd
    split at hd
    · rename_i o _ ho
      rw [List.mem_singleton.1 hd]
      exact List.mem_of_find?_eq_some ho
    · exact hfair.discards g p d hd
  rw [discardAction] at hact
  split at hact
  · cases hact
  · rename_i htok
    cases hact
    cases hmis : d.misplay with
    | true => exact ⟨rfl, hmem⟩
    | false =>
      rw [hmis] at htok
      exact ⟨rfl, hmem, lt_of_le_of_ne hle fun h8 => htok ⟨rfl, h8⟩⟩

theorem legal_of_offerClues (hfair : Fair conv) {winnable : Bool} {offer : Offer}
    (h : offer ∈ offerClues conv g p winnable) :
    Legal g.state p offer.action ∧ offer.winnableDraws = some [] := by
  rw [offerClues] at h
  split at h
  · rename_i htok
    obtain ⟨c, hc, rfl⟩ := List.mem_map.1 h
    obtain ⟨hlt, hne⟩ := hfair.clues g p c hc
    exact ⟨⟨rfl, hlt, hne, htok.1⟩, rfl⟩
  · cases h

theorem legal_of_offerAnyClue {st : State} {winnable : Bool} {clues : List Offer} {offer : Offer}
    (h : offer ∈ offerAnyClue st p winnable clues) :
    Legal st p offer.action ∧ offer.winnableDraws = some [] := by
  rw [offerAnyClue] at h
  split at h
  · rename_i htok
    rw [List.mem_singleton.1 h]
    exact ⟨⟨rfl, htok.1⟩, rfl⟩
  · cases h

/-- All actions that may be offered. -/
def candidates (conv : Convention κ) (g : Game κ) (p : ℕ) : List PerformAction :=
  (knownPlayables conv g p).map (.play p) ++
    (conv.findClues g p).map (fun c => .clue p c.target c.toBaseClue) ++
    (discardsOf conv g p).filterMap (discardAction g.state p) ++ [.anyClue p]

/-- The offered actions are legal, and each is offered once for each reason to try it. -/
theorem possibleActions_spec (hI : Stable I) (hfair : Fair conv) (hg : Sane g p)
    (hne : g.state.endgameTurns ≠ 0) :
    Prog.Sat I IsUnsolved (possibleActions conv g p rem) fun offers =>
      (∀ offer ∈ offers, OfferOk g p offer) ∧
        (offers.map Offer.action).Sublist (candidates conv g p) := by
  have hplays := @sat_offers _ g p _ rem hI hg hne ((knownPlayables conv g p).map (.play p))
    fun a ha => by
      obtain ⟨o, ho, rfl⟩ := List.mem_map.1 ha
      exact ⟨rfl, hfair.playables g p o (List.mem_filter.1 ho).1⟩
  have hclues : ∀ winnable, ((offerClues conv g p winnable).map Offer.action).Sublist
      ((conv.findClues g p).map fun c => .clue p c.target c.toBaseClue) := by
    intro winnable
    rw [offerClues]
    split
    · rw [List.map_map]
      exact List.Sublist.refl _
    · exact List.nil_sublist _
  have hany : ∀ winnable clues, ((offerAnyClue g.state p winnable clues).map
      Offer.action).Sublist [.anyClue p] := by
    intro winnable clues
    rw [offerAnyClue]
    split
    · exact List.Sublist.refl _
    · exact List.nil_sublist _
  rw [possibleActions]
  refine hI.timedOut.bind fun late _ => ?_
  split
  · exact Prog.Sat.pure (by simp)
  · refine hplays.bind fun plays h1 => ?_
    refine Prog.Sat.bind (Q := fun _ => True) ?_ fun winnable _ => ?_
    · rw [clueWinnable]
      split
      · exact Prog.Sat.pure trivial
      · exact (sat_winnableIfNow hI (dealtState_of_dealt hg.dealt) hg.state.clocked hne _).bind
          fun _ _ => Prog.Sat.pure trivial
    · refine Prog.Sat.bind (Q := fun offers => (∀ offer ∈ offers, OfferOk g p offer) ∧
        (offers.map Offer.action).Sublist
          ((discardsOf conv g p).filterMap (discardAction g.state p))) ?_
        fun discards h2 => Prog.Sat.pure ⟨fun offer ho => ?_, ?_⟩
      · rw [offerDiscards]
        split
        · exact sat_offers hI hg hne fun a ha =>
            legal_of_discardAction hfair hg.state.tokens_le ha
        · exact Prog.Sat.pure (by simp)
      · simp only [List.mem_append] at ho
        rcases ho with ((ho | ho) | ho) | ho
        · exact h1.1 offer ho
        · obtain ⟨hlegal, hdraws⟩ := legal_of_offerClues hfair ho
          exact ⟨hlegal, by simp [hdraws]⟩
        · exact h2.1 offer ho
        · obtain ⟨hlegal, hdraws⟩ := legal_of_offerAnyClue ho
          exact ⟨hlegal, by simp [hdraws]⟩
      · simp only [List.map_append]
        exact ((h1.2.append (hclues _)).append h2.2).append (hany _ _)

/-- No invariant at all is kept by everything. -/
theorem stable_true : Stable fun _ => True := ⟨fun _ _ _ _ => trivial, fun _ _ _ _ => trivial⟩

/-- The actions that are offered are legal candidates. -/
theorem exec_offers (hfair : Fair conv) (hg : Sane g p) (hne : g.state.endgameTurns ≠ 0)
    {offers : List Offer} {s : SolverState}
    (h : (Prog.exec (possibleActions conv g p rem) s).1 = .ok offers) :
    ∀ offer ∈ offers, OfferOk g p offer ∧ offer.action ∈ candidates conv g p := by
  obtain ⟨⟨hok, hsub⟩, -⟩ := (possibleActions_spec stable_true hfair hg hne).exec_ok trivial h
  exact fun offer ho => ⟨hok offer ho, hsub.subset (List.mem_map_of_mem ho)⟩

end

/-! ## The invariant of the caches -/

/-- A winrate: a fraction between 0 and 1. -/
structure IsRate (f : Fraction) : Prop where
  pos : f.Pos
  nonneg : 0 ≤ f.value
  le_one : f.value ≤ 1

theorem isRate_zero : IsRate 0 := ⟨Fraction.pos_zero, by simp, by simp⟩

theorem isRate_one : IsRate 1 := ⟨Fraction.pos_one, by simp, by simp⟩

/-- A result of the search; a `strict` one is empty only when the time ran out. -/
def ResultOk (strict : Prop) (s : SolverState) (result : List BestAction) : Prop :=
  (strict → result = [] → s.clock = some 0) ∧ ∀ best ∈ result, IsRate best.winrate

/-- Every cached result is one. -/
def Sound (strict : Prop) (s : SolverState) : Prop :=
  ∀ key result, s.simple key = some result → ResultOk strict s result

/-- How the search fails: over strict caches with `UnsolvedGame`, or where the convention does. -/
def Fails (conv : Convention κ) (strict : Prop) (e : SolverError) (s : SolverState) : Prop :=
  (strict → Excused conv e) ∧ Sound strict s

variable {strict : Prop}

theorem Fails.of_unsolved {e : SolverError} {s : SolverState} (h : IsUnsolved e ∧ Sound strict s) :
    Fails conv strict e s := ⟨fun _ => .inl h.1, h.2⟩

theorem stable_sound : Stable (Sound strict) where
  clock s k hs hc key result hr := by
    refine ⟨fun hstrict hnil => ?_, (hs key result hr).2⟩
    have := (hs key result hr).1 hstrict hnil
    rw [hc] at this
    cases this
  simpler s _ _ hs := hs

theorem triple_timedOut {E : SolverError → SolverState → Prop} :
    Prog.Triple (Sound strict) timedOut (fun b s => (b = true → s.clock = some 0) ∧ Sound strict s) E := by
  intro s hs
  rw [timedOut, Prog.exec_bind, Prog.exec_get]
  cases hc : s.clock with
  | none => simpa [hc] using hs
  | some k =>
    cases k with
    | zero => simpa [hc] using hs
    | succ k =>
      simp only [hc]
      exact ⟨fun h => (by cases h), stable_sound.clock s k hs hc⟩

/-- Reading the clock after a search: a result that is empty came too late. -/
theorem triple_timedOut_result (result : List BestAction) {E : SolverError → SolverState → Prop} :
    Prog.Triple (fun s => ResultOk strict s result ∧ Sound strict s) timedOut
      (fun b s => (b = true → s.clock = some 0) ∧ (b = false → strict → result ≠ []) ∧
        (∀ best ∈ result, IsRate best.winrate) ∧ Sound strict s) E := by
  intro s ⟨hr, hs⟩
  have h := triple_timedOut (E := E) s hs
  rw [timedOut, Prog.exec_bind, Prog.exec_get] at h ⊢
  cases hc : s.clock with
  | none =>
    simp only [hc] at h ⊢
    refine ⟨h.1, fun _ hstrict hnil => ?_, hr.2, h.2⟩
    have := hr.1 hstrict hnil
    rw [hc] at this
    cases this
  | some k =>
    cases k with
    | zero =>
      simp only [hc] at h ⊢
      exact ⟨h.1, fun hf => (by cases hf), hr.2, h.2⟩
    | succ k =>
      simp only [hc] at h ⊢
      refine ⟨h.1, fun _ hstrict hnil => ?_, hr.2, h.2⟩
      have := hr.1 hstrict hnil
      rw [hc] at this
      cases this

theorem triple_storeSimple (key : Key) (result : List BestAction)
    {E : SolverError → SolverState → Prop} :
    Prog.Triple (fun s => ResultOk strict s result ∧ Sound strict s) (storeSimple key result)
      (fun _ s => ResultOk strict s result ∧ Sound strict s) E := by
  intro s hs
  refine ⟨hs.1, fun key' result' hr => ?_⟩
  dsimp only at hr
  by_cases hkey : key' = key
  · subst hkey
    rw [Function.update_self] at hr
    cases hr
    exact hs.1
  · rw [Function.update_of_ne hkey] at hr
    exact hs.2 key' result' hr

/-! ## The winrate of an action -/

/-- The identities left account for the cards left, or none are given. -/
structure Counted (rem : RemainingSet) (left : ℤ) : Prop where
  missing_pos : ∀ r ∈ rem, 0 < r.missing
  total : rem = [] ∨ (totalMissing rem : ℤ) = left

/-- Going on with a game leads to a position that the search can value. -/
structure HypoOk (offer : Offer) (p depth : ℕ) (hypo : HypoGame κ) : Prop where
  sane : Sane hypo.hypoGame p
  inProgress : hypo.hypoGame.state.endgameTurns ≠ 0
  player_lt : p < hypo.hypoGame.state.numPlayers
  depth_le : depthBound hypo.hypoGame.state ≤ depth
  legal : Legal hypo.hypoGame.state p offer.action
  draws : hypo.drew ≠ none → offer.winnableDraws ≠ none
  counted : Counted hypo.remaining (leftAfter hypo.hypoGame.state offer.action)
  prob_pos : hypo.prob.Pos
  prob_nonneg : 0 ≤ hypo.prob.value

/-- What is assumed of the search that `optimize` calls. -/
def SearchOk (conv : Convention κ) (strict : Prop) (search : Search κ) (depth : ℕ) : Prop :=
  ∀ g p rem, Sane g p → p < g.state.numPlayers → Counted rem g.state.cardsLeft →
    depthBound g.state < depth →
    Prog.Triple (Sound strict) (search g p rem)
      (fun result s => ResultOk strict s result ∧ Sound strict s) (Fails conv strict)

section

variable {search : Search κ} {offer : Offer} {p depth : ℕ}

theorem sat_unwinnableDraw {I : SolverState → Prop} {E : SolverError → Prop}
    {draws : Option (List Identity)} {drew : Option Identity} (h : drew ≠ none → draws ≠ none) :
    Prog.Sat I E (unwinnableDraw draws drew) fun _ => True := by
  cases drew with
  | none => exact Prog.Sat.pure trivial
  | some drawn =>
    cases draws with
    | none => exact absurd rfl (h (by simp))
    | some draws => exact Prog.Sat.pure trivial

theorem tryGames_spec (hlaw : conv.Lawful) (hsearch : SearchOk conv strict search depth) {next : ℕ}
    {bestWinrate : Fraction} {hypoGames : List (HypoGame κ)}
    (hok : ∀ hypo ∈ hypoGames, HypoOk offer p depth hypo)
    (hnext : ∀ hypo ∈ hypoGames, next = hypo.hypoGame.state.nextPlayerIndex p)
    {allWinrate remProb : Fraction} (hall : allWinrate.Pos) (h0 : 0 ≤ allWinrate.value)
    (h1 : allWinrate.value + (hypoGames.map fun hypo => hypo.prob.value).sum ≤ 1)
    (hrem : remProb.Pos) :
    Prog.Triple (Sound strict)
      (tryGames conv search next offer bestWinrate hypoGames allWinrate remProb)
      (fun r s => (match r with
        | none => s.clock = some 0
        | some w => IsRate w) ∧ Sound strict s) (Fails conv strict) := by
  induction hypoGames generalizing allWinrate remProb with
  | nil =>
    rw [tryGames]
    exact Prog.Triple.pure fun s hs => ⟨⟨hall, h0, by simpa using h1⟩, hs⟩
  | cons hypo hypoGames ih =>
    have hy := hok hypo List.mem_cons_self
    have hprob := hy.prob_nonneg
    rw [List.map_cons, List.sum_cons] at h1
    have hrest : 0 ≤ (hypoGames.map fun hypo => hypo.prob.value).sum := by
      refine List.sum_nonneg fun q hq => ?_
      obtain ⟨x, hx, rfl⟩ := List.mem_map.1 hq
      exact (hok x (List.mem_cons_of_mem _ hx)).prob_nonneg
    have hgo := @ih (fun x hx => hok x (List.mem_cons_of_mem _ hx))
      fun x hx => hnext x (List.mem_cons_of_mem _ hx)
    rw [tryGames]
    refine Prog.Triple.bind (Q := fun _ s => Sound strict s) ?_ fun skip => ?_
    · -- the drawn card is known to the offer
      exact (sat_unwinnableDraw (E := IsUnsolved) hy.draws).conseq (fun _ => id)
        (fun _ _ hs => hs.2) fun _ _ => Fails.of_unsolved
    · split
      · exact hgo hall h0 (by linarith) hrem
      · refine triple_timedOut.bind fun late => ?_
        split
        · exact Prog.Triple.throw fun s hs => ⟨fun _ => .inl ⟨_, rfl⟩, hs.2⟩
        · refine Prog.Triple.bind
            (Q := fun g' s => (g'.dealt = true ∧ Turned hypo.hypoGame.state g'.state p
              (leftAfter hypo.hypoGame.state offer.action)) ∧ Sound strict s) ?_ fun g' => ?_
          · exact (advanceGame_spec (E := Excused conv) hlaw (fun h => .inr ⟨rfl, h⟩) hy.sane
              hy.inProgress hy.player_lt hy.legal).conseq (fun s hs => hs.2) (fun _ _ => id)
              fun _ _ he => ⟨fun _ => he.1, he.2⟩
          · split
            · exact (hgo hall h0 (by linarith) hrem).conseq (fun s hs => hs.2) (fun _ _ => id)
                fun _ _ => id
            · refine Prog.Triple.bind (Q := fun result s => ResultOk strict s result ∧ Sound strict s) ?_
                fun result => ?_
              · intro s ⟨⟨hdealt, hturn⟩, hs⟩
                have hn := hnext hypo List.mem_cons_self
                have hlt : next < g'.state.numPlayers := by
                  have := hy.player_lt
                  rw [hn, hturn.numPlayers_eq]
                  exact Nat.mod_lt _ (by omega)
                refine hsearch g' next hypo.remaining ⟨hdealt, hturn.sane, hn ▸ hturn.stocked⟩
                  hlt ?_ (lt_of_lt_of_le hturn.closer hy.depth_le) s hs
                rw [hturn.cardsLeft_eq]
                exact hy.counted
              · refine (triple_timedOut_result result).bind fun late => ?_
                split
                · rename_i hlate
                  exact Prog.Triple.pure fun s hs => ⟨hs.1 hlate, hs.2.2.2⟩
                · rename_i hlate
                  cases result with
                  | nil =>
                    exact Prog.Triple.throw fun s hs =>
                      ⟨fun hstrict => absurd rfl (hs.2.1 (by simpa using hlate) hstrict), hs.2.2.2⟩
                  | cons best rest =>
                    refine Prog.Triple.assume (fun s hs => hs.2.2.1 best List.mem_cons_self)
                      fun hbest => ?_
                    have hpm := hy.prob_pos.multiply hbest.pos
                    have hval : (allWinrate.plus (hypo.prob.multiply best.winrate)).value =
                        allWinrate.value + hypo.prob.value * best.winrate.value := by
                      rw [Fraction.value_plus hall hpm, Fraction.value_multiply hy.prob_pos hbest.pos]
                    have h2 := mul_le_of_le_one_right hprob hbest.le_one
                    have h3 := mul_nonneg hprob hbest.nonneg
                    dsimp only
                    split
                    · exact Prog.Triple.pure fun s hs =>
                        ⟨⟨hall.plus hpm, by linarith, by linarith⟩, hs.2.2.2⟩
                    · exact (hgo (hall.plus hpm) (by linarith) (by linarith)
                        (hrem.subtract hy.prob_pos)).conseq (fun s hs => hs.2.2.2)
                        (fun _ _ => id) fun _ _ => id


/-! ## Valuing a position -/

theorem removeRemaining_counted {rem rem' : RemainingSet} {id : Identity}
    (h : removeRemaining rem id = some rem') (hpos : ∀ r ∈ rem, 0 < r.missing) :
    (∀ r ∈ rem', 0 < r.missing) ∧ totalMissing rem' + 1 = totalMissing rem := by
  induction rem generalizing rem' with
  | nil => cases h
  | cons r rem ih =>
    have hr := hpos r List.mem_cons_self
    have hpos' := fun x hx => hpos x (List.mem_cons_of_mem r hx)
    rw [removeRemaining] at h
    split at h
    · cases h
      split
      · rename_i h1
        exact ⟨hpos', by simp [totalMissing, h1, Nat.add_comm]⟩
      · refine ⟨fun x hx => ?_, by simp only [totalMissing, List.map_cons, List.sum_cons]; omega⟩
        rcases List.mem_cons.1 hx with rfl | hx
        · dsimp only
          omega
        · exact hpos' x hx
    · obtain ⟨rem'', hrem, rfl⟩ := Option.map_eq_some_iff.1 h
      obtain ⟨h1, h2⟩ := ih hrem hpos'
      refine ⟨fun x hx => ?_, by simp only [totalMissing, List.map_cons, List.sum_cons] at h2 ⊢; omega⟩
      rcases List.mem_cons.1 hx with rfl | hx
      · exact hr
      · exact h1 x hx

variable {g : Game κ} {rem : RemainingSet}

/-- Going on with the position itself. -/
theorem hypoOk_default (hg : Sane g p) (hne : g.state.endgameTurns ≠ 0)
    (hp : p < g.state.numPlayers) (hc : Counted rem g.state.cardsLeft) (ho : OfferOk g p offer)
    (hrem : offer.action.isClue = true ∨ rem = []) :
    HypoOk offer p (depthBound g.state) { hypoGame := g, prob := 1, remaining := rem } where
  sane := hg
  inProgress := hne
  player_lt := hp
  depth_le := le_rfl
  legal := ho.legal
  draws h := absurd rfl h
  counted := by
    rcases hrem with hclue | hnil
    · rw [leftAfter, if_pos (Or.inl hclue)]
      exact hc
    · exact ⟨hc.missing_pos, Or.inl hnil⟩
  prob_pos := Fraction.pos_one
  prob_nonneg := by simp

theorem Counted.left_pos (hc : Counted rem g.state.cardsLeft) {r : Remaining} (hr : r ∈ rem) :
    (totalMissing rem : ℤ) = g.state.cardsLeft ∧ 0 < g.state.cardsLeft := by
  have hsum := hc.total.resolve_left (List.ne_nil_of_mem hr)
  have h1 : r.missing ≤ totalMissing rem := List.le_sum_of_mem (List.mem_map_of_mem hr)
  have h2 := hc.missing_pos r hr
  exact ⟨hsum, by omega⟩

/-- The game after the card `r` has been drawn. -/
def drawnHypo (g : Game κ) (rem : RemainingSet) (r : Remaining) : HypoGame κ where
  hypoGame :=
    { g with
      state :=
        { g.state with deck := g.state.deck.set (g.state.cardOrder + 1).toNat ⟨some r.id⟩ }
      deckIds := g.deckIds.set (g.state.cardOrder + 1).toNat r.id }
  prob := ⟨r.missing, g.state.cardsLeft⟩
  remaining := (removeRemaining rem r.id).getD []
  drew := some r.id

theorem drawnGame_eq {r : Remaining} (hr : r ∈ rem) :
    drawnGame g rem r = pure (drawnHypo g rem r) := by
  obtain ⟨rem', hrem⟩ := removeRemaining_of_mem hr
  rw [drawnGame, drawnHypo, hrem]
  rfl

/-- Going on after a card has been drawn. -/
theorem hypoOk_drawn (hg : Sane g p) (hne : g.state.endgameTurns ≠ 0)
    (hp : p < g.state.numPlayers) (hc : Counted rem g.state.cardsLeft) (ho : OfferOk g p offer)
    (hcard : offer.action.isClue = false) {r : Remaining} (hr : r ∈ rem) :
    HypoOk offer p (depthBound g.state) (drawnHypo g rem r) := by
  obtain ⟨rem', hrem⟩ := removeRemaining_of_mem hr
  obtain ⟨hsum, hleft⟩ := hc.left_pos hr
  obtain ⟨hpos, htotal⟩ := removeRemaining_counted hrem hc.missing_pos
  have hdealt := hg.dealt
  refine
    { sane := ⟨?_, ⟨hg.state.clocked, hg.state.fit, hg.state.tokens_le⟩,
        ⟨hg.stocked.turns_le, hg.stocked.two_le⟩⟩
      inProgress := hne
      player_lt := hp
      depth_le := le_rfl
      legal := ?_
      draws := fun _ hnone => ?_
      counted := ?_
      prob_pos := hleft
      prob_nonneg := ?_ }
  · rw [Game.dealt, Bool.and_eq_true] at hdealt ⊢
    refine ⟨List.all_eq_true.2 fun o hmem => ?_, hdealt.2⟩
    have := List.all_eq_true.1 hdealt.1 o hmem
    rw [drawnHypo, SparseArray.get_set]
    split
    · rfl
    · exact this
  · have := ho.legal
    revert this
    cases offer.action <;> exact fun h => h
  · rcases ho.draws hnone with h | h
    · rw [hcard] at h
      cases h
    · omega
  · have hleftAfter : leftAfter (drawnHypo g rem r).hypoGame.state offer.action =
        g.state.cardsLeft - 1 := by
      simp only [leftAfter, hcard, Bool.false_eq_true, false_or, drawnHypo]
      rw [if_neg (by omega)]
    have hremaining : (drawnHypo g rem r).remaining = rem' := by rw [drawnHypo, hrem]; rfl
    rw [hleftAfter, hremaining]
    exact ⟨hpos, Or.inr (by omega)⟩
  · have : (0 : ℚ) < g.state.cardsLeft := by exact_mod_cast hleft
    simp only [Fraction.value, drawnHypo]
    positivity

theorem genHypoGames_spec (hg : Sane g p) (hne : g.state.endgameTurns ≠ 0)
    (hp : p < g.state.numPlayers) (hc : Counted rem g.state.cardsLeft) (offers : List Offer) :
    ∃ hypoGames, genHypoGames g offers rem = pure hypoGames ∧
      ∀ offer ∈ offers, OfferOk g p offer →
        (∀ hypo ∈ gamesFor hypoGames offer.action,
          hypo.hypoGame.state.numPlayers = g.state.numPlayers ∧
            HypoOk offer p (depthBound g.state) hypo) ∧
        ((gamesFor hypoGames offer.action).map fun hypo => hypo.prob.value).sum = 1 := by
  have hdefault : ∀ offer : Offer, OfferOk g p offer → (offer.action.isClue = true ∨ rem = []) →
      (∀ hypo ∈ [({ hypoGame := g, prob := 1, remaining := rem } : HypoGame κ)],
        hypo.hypoGame.state.numPlayers = g.state.numPlayers ∧
          HypoOk offer p (depthBound g.state) hypo) ∧
      (([({ hypoGame := g, prob := 1, remaining := rem } : HypoGame κ)]).map
        fun hypo => hypo.prob.value).sum = 1 := by
    intro offer ho hrem
    refine ⟨fun hypo hmem => ?_, by simp⟩
    rw [List.mem_singleton.1 hmem]
    exact ⟨rfl, hypoOk_default hg hne hp hc ho hrem⟩
  rw [genHypoGames]
  split
  · rename_i hall
    refine ⟨_, rfl, fun offer hmem ho => ?_⟩
    have hclue := List.all_eq_true.1 hall offer hmem
    rw [gamesFor, if_pos hclue]
    exact hdefault offer ho (Or.inl hclue)
  · rw [Prog.mapM_eq_pure fun r hr => drawnGame_eq hr]
    refine ⟨_, rfl, fun offer _ ho => ?_⟩
    rw [gamesFor]
    split
    · exact hdefault offer ho (Or.inl (by assumption))
    · rename_i hcard
      cases rem with
      | nil => exact hdefault offer ho (Or.inr rfl)
      | cons r rem =>
        obtain ⟨hsum, hleft⟩ := hc.left_pos (List.mem_cons_self (a := r))
        refine ⟨fun hypo hmem => ?_, ?_⟩
        · obtain ⟨r', hr', rfl⟩ := List.mem_map.1 hmem
          exact ⟨rfl, hypoOk_drawn hg hne hp hc ho (by simpa using hcard) hr'⟩
        · have hleftq : (g.state.cardsLeft : ℚ) ≠ 0 := by exact_mod_cast hleft.ne'
          have htotal : ((r :: rem).map fun r => (r.missing : ℚ)).sum = g.state.cardsLeft := by
            rw [← hsum, totalMissing]
            push_cast [List.map_map]
            rfl
          change (((r :: rem).map (drawnHypo g (r :: rem))).map fun hypo => hypo.prob.value).sum = 1
          rw [List.map_map]
          change ((r :: rem).map fun r => (r.missing : ℚ) / g.state.cardsLeft).sum = 1
          simp only [div_eq_mul_inv]
          rw [List.sum_map_mul_right, htotal, mul_inv_cancel₀ hleftq]


/-- The outcome of `optimize` on some offers: a winrate, and actions that were offered. There
is one, if any was offered and the time did not run out. -/
structure BestOk (offers : List Offer) (best : Fraction × List PerformAction) (s : SolverState) :
    Prop where
  rate : IsRate best.1
  offered : best.2.Sublist (offers.map Offer.action)
  found : best.2 = [] → offers = [] ∨ s.clock = some 0

theorem optimize_spec (hlaw : conv.Lawful) (hsearch : SearchOk conv strict search (depthBound g.state))
    {hypoGames : HypoGame κ × List (HypoGame κ)}
    {offers tried : List Offer}
    (hok : ∀ offer ∈ offers,
      (∀ hypo ∈ gamesFor hypoGames offer.action,
        hypo.hypoGame.state.numPlayers = g.state.numPlayers ∧
          HypoOk offer p (depthBound g.state) hypo) ∧
      ((gamesFor hypoGames offer.action).map fun hypo => hypo.prob.value).sum = 1)
    {bestWinrate : Fraction} {bestActions : List PerformAction} (hrate : IsRate bestWinrate)
    (hoffered : bestActions.Sublist (tried.map Offer.action))
    (hfound : bestActions = [] → tried = [] ∧ bestWinrate.value = 0) :
    Prog.Triple (Sound strict) (optimize conv search (g.state.nextPlayerIndex p) hypoGames offers
        bestWinrate bestActions)
      (fun best s => BestOk (tried ++ offers) best s ∧ Sound strict s) (Fails conv strict) := by
  induction offers generalizing tried bestWinrate bestActions with
  | nil =>
    rw [optimize, List.append_nil]
    exact Prog.Triple.pure fun s hs => ⟨⟨hrate, hoffered, fun h => Or.inl (hfound h).1⟩, hs⟩
  | cons offer offers ih =>
    obtain ⟨hgames, hsum⟩ := hok offer List.mem_cons_self
    have hassoc : tried ++ offer :: offers = (tried ++ [offer]) ++ offers := by simp
    have hold : bestActions.Sublist ((tried ++ [offer]).map Offer.action) := by
      rw [List.map_append]
      exact hoffered.trans (List.sublist_append_left _ _)
    have hnew : [offer.action].Sublist ((tried ++ [offer]).map Offer.action) := by
      rw [List.map_append]
      exact List.sublist_append_right _ _
    have hgo := @ih (tried ++ [offer]) fun o ho => hok o (List.mem_cons_of_mem _ ho)
    rw [optimize, hassoc]
    refine (tryGames_spec hlaw hsearch (fun hypo hh => (hgames hypo hh).2)
      (fun hypo hh => by rw [State.nextPlayerIndex, State.nextPlayerIndex, (hgames hypo hh).1])
      Fraction.pos_zero (by simp)
      (by rw [hsum]; simp) Fraction.pos_one).bind fun r => ?_
    cases r with
    | none =>
      exact Prog.Triple.pure fun s hs => ⟨⟨hrate, by simp, fun _ => Or.inr hs.1⟩, hs.2⟩
    | some allWinrate =>
      refine Prog.Triple.assume (fun s hs => hs.1) fun hall => ?_
      dsimp only
      split
      · refine Prog.Triple.pure fun s hs => ⟨⟨hall, hnew.trans ?_, by simp⟩, hs.2⟩
        simp only [List.map_append]
        exact List.sublist_append_left _ _
      · split
        · exact (hgo hall hnew (by simp)).conseq (fun s hs => hs.2) (fun _ _ => id)
            fun _ _ => id
        · rename_i hless
          split
          · refine (hgo hrate ?_ (by simp)).conseq (fun s hs => hs.2) (fun _ _ => id)
              fun _ _ => id
            rw [List.map_append]
            exact hoffered.append (List.Sublist.refl _)
          · rename_i heq
            refine (hgo hrate hold fun hnil => ?_).conseq (fun s hs => hs.2) (fun _ _ => id)
              fun _ _ => id
            -- a winrate of 0 would have been equalled
            have h0 := (hfound hnil).2
            rw [Fraction.lessThan_iff hrate.pos hall.pos, h0, not_lt] at hless
            rw [Fraction.equals_iff hall.pos hrate.pos, h0] at heq
            exact absurd (le_antisymm hless hall.nonneg) heq

/-- From a sane position and legal offers, the best offers are found. -/
theorem optimizeFrom_spec (hlaw : conv.Lawful) (hsearch : SearchOk conv strict search (depthBound g.state))
    (hg : Sane g p) (hne : g.state.endgameTurns ≠ 0) (hp : p < g.state.numPlayers)
    (hc : Counted rem g.state.cardsLeft) {offers : List Offer}
    (hoffers : ∀ offer ∈ offers, OfferOk g p offer) :
    Prog.Triple (Sound strict) (optimizeFrom conv search g p offers rem)
      (fun best s => BestOk offers best s ∧ Sound strict s) (Fails conv strict) := by
  obtain ⟨hypoGames, hgen, hok⟩ := genHypoGames_spec hg hne hp hc offers
  rw [optimizeFrom, hgen, pure_bind]
  exact @optimize_spec _ _ _ _ _ _ hlaw hsearch _ offers []
    (fun offer ho => hok offer ho (hoffers offer ho)) _ _ isRate_zero (by simp)
    fun _ => ⟨rfl, by simp⟩

/-- The search answers in time with winrates, or fails with `UnsolvedGame`. -/
theorem winnable_spec (hlaw : conv.Lawful) (hfair : Fair conv) (fuel : ℕ) :
    SearchOk conv strict (winnable conv fuel) fuel := by
  induction fuel with
  | zero => exact fun g p rem _ _ _ h => absurd h (by omega)
  | succ fuel ih =>
    intro g p rem hg hp hc hfuel
    have hstore : ∀ key result, (∀ s, ResultOk strict s result) → Prog.Triple (Sound strict)
        (do storeSimple key result; pure result : SolverM (List BestAction))
        (fun r s => ResultOk strict s r ∧ Sound strict s) (Fails conv strict) := fun key result hr =>
      ((triple_storeSimple key result).conseq (fun s hs => ⟨hr s, hs⟩) (fun _ _ => id)
        fun _ _ => id).bind fun _ => Prog.Triple.pure fun _ => id
    have hfailure : ∀ s, ResultOk strict s failure := fun s => ⟨by simp [failure], by
      simp only [failure, List.mem_singleton, forall_eq]
      exact isRate_zero⟩
    rw [winnable]
    refine Prog.Triple.bind (Q := fun r s => (∀ result, r = some result → ResultOk strict s result) ∧
      Sound strict s) ?_ fun cached => ?_
    · intro s hs
      rw [lookupSimple, Prog.exec_bind, Prog.exec_get]
      refine ⟨fun result hr => ?_, hs⟩
      split at hr
      · exact hs _ _ hr
      · cases hr
    · cases cached with
      | some result => exact Prog.Triple.pure fun s hs => ⟨hs.1 result rfl, hs.2⟩
      | none =>
        refine Prog.Triple.conseq (P := Sound strict) ?_ (fun s hs => hs.2) (fun _ _ => id) fun _ _ => id
        dsimp only
        rw [if_neg (by simp [hg.dealt])]
        cases triviallyWinnable conv g p with
        | some action =>
          exact hstore _ _ fun s => ⟨by simp, by
            simp only [List.mem_singleton, forall_eq]
            exact isRate_one⟩
        | none =>
          refine triple_timedOut.bind fun late => ?_
          split
          · exact Prog.Triple.throw fun s hs => ⟨fun _ => .inl ⟨_, rfl⟩, hs.2⟩
          · refine Prog.Triple.conseq (P := Sound strict) ?_ (fun s hs => hs.2) (fun _ _ => id)
              fun _ _ => id
            split
            · exact hstore _ _ hfailure
            · rename_i hwin
              have hne : g.state.endgameTurns ≠ 0 := by
                intro h0
                simp [unwinnableState, State.ended, h0] at hwin
              refine Prog.Triple.bind ((possibleActions_spec stable_sound hfair hg hne).conseq
                (fun _ => id) (fun _ _ => id) fun _ _ => Fails.of_unsolved) fun offers => ?_
              refine Prog.Triple.assume (fun s hs => hs.1.1) fun hoffers => ?_
              split
              · exact Prog.Triple.pure fun s hs => ⟨hfailure s, hs.2⟩
              · rename_i hempty
                refine Prog.Triple.bind ((optimizeFrom_spec hlaw
                  (fun g' p' rem' h1 h2 h3 h4 => ih g' p' rem' h1 h2 h3 (by omega)) hg hne hp hc
                  hoffers).conseq (fun s hs => hs.2) (fun _ _ => id) fun _ _ => id) fun best => ?_
                refine ((triple_storeSimple _ _).conseq (fun s hs => ⟨⟨fun _ hnil => ?_, ?_⟩, hs.2⟩)
                  (fun _ _ => id) fun _ _ => id).bind fun _ => Prog.Triple.pure fun _ => id
                · have hnone := hs.1.found (List.map_eq_nil_iff.1 hnil)
                  exact hnone.resolve_left fun h => hempty (by simp [h])
                · simp only [List.mem_map, forall_exists_index, and_imp]
                  rintro _ a - rfl
                  exact hs.1.rate

end
end HanabiBot.Endgame
