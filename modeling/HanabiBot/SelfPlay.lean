import HanabiBot.Basics.History
import HanabiBot.Endgame.Advance

/-!
# Self-play

`simulate_game` of `src/self-play.js` plays a game with one instance of the bot for
every player.  Each instance handles the actions by itself, and sees every card but
its own.

* `InStep` — all instances are in one position, and know the cards they see;
* `Simulation.AfterTurns.inStep` — they stay in step, turn after turn;
* `simulate_inStep` — and the loop ends.
-/

namespace HanabiBot

/-- A convention, and what it does on its turn; `take_action` may throw. -/
structure Bot (κ : Type) extends Handlers κ where
  /-- The players of a new game. -/
  init : Variant → ℕ → ℕ → κ
  takeAction : LoggedGame κ → Option PerformAction

/-- The same action by another player. -/
def PerformAction.withPlayer (playerIndex : ℕ) : PerformAction → PerformAction
  | .play _ target => .play playerIndex target
  | .discard _ target => .discard playerIndex target
  | .clue _ target baseClue => .clue playerIndex target baseClue
  | .anyClue _ => .anyClue playerIndex

/-- The test of the loop. -/
def State.gameOver (st : State) : Bool :=
  st.endgameTurns == 0 || st.strikes == 3 || st.score == st.maxScore

/-- The instances, and whose turn it is. -/
structure Simulation (κ : Type) where
  games : List (LoggedGame κ)
  currentPlayerIndex : ℕ := 0
  turn : ℕ := 0

/-! ## The simulation -/

section

variable {κ : Type}

/-- The draw as an instance sees it; reading past the end of the deck throws. -/
def drawAction (deck : List Identity) (g : LoggedGame κ) (order playerIndex : ℕ) :
    Option GameAction :=
  if playerIndex = g.state.ourPlayerIndex then some (.board (.draw order playerIndex none) {})
  else deck[order]?.map fun id => .board (.draw order playerIndex (some id)) {}

namespace Bot

/-- The game of an instance before the deal. -/
def newGame (bot : Bot κ) (v : Variant) (numPlayers index : ℕ) : LoggedGame κ where
  state := State.fresh v numPlayers index {}
  base := State.fresh v numPlayers index {}
  data := bot.init v numPlayers index

/-- The next card of the deal. -/
def dealCard (bot : Bot κ) (deck : List Identity) (g : LoggedGame κ) (playerIndex : ℕ) :
    Option (LoggedGame κ) := do
  let action ← drawAction deck g (g.state.cardOrder + 1).toNat playerIndex
  g.handleAction bot.toHandlers action

/-- Draw cards in starting hands. -/
def dealGame (bot : Bot κ) (deck : List Identity) (g : LoggedGame κ) : Option (LoggedGame κ) :=
  ((List.range g.state.numPlayers).flatMap fun p => List.replicate g.state.handSize.toNat p).foldlM
    (bot.dealCard deck) g

/-- The instances after the deal. -/
def deal (bot : Bot κ) (deck : List Identity) (v : Variant) (numPlayers : ℕ) :
    Option (Simulation κ) := do
  let games ← (List.range numPlayers).mapM fun i => bot.dealGame deck (bot.newGame v numPlayers i)
  some { games }

/-- An instance performs the action, and sees the draw. -/
def perform (bot : Bot κ) (deck : List Identity) (performAction : PerformAction)
    (currentPlayerIndex : ℕ) (g : LoggedGame κ) : Option (LoggedGame κ) := do
  let order := (g.state.cardOrder + 1).toNat
  let action ← performToAction g.state (performAction.withPlayer currentPlayerIndex) fun o =>
    deck[o]?.map some
  let new ← g.handleAction bot.toHandlers (.board action {})
  if new.state.strikes = 3 ∨ new.state.score = g.state.variant.suits.length * 5 then some new
  else if action.isPlayOrDiscard = true ∧ order < deck.length then do
    let draw ← drawAction deck g order currentPlayerIndex
    new.handleAction bot.toHandlers draw
  else some new

end Bot

namespace Simulation

/-- The loop looks at the first instance. -/
def gameOver (s : Simulation κ) : Bool := s.games.head?.all fun g => g.state.gameOver

/-- From the second turn on, the instances are told whose turn it is. -/
def startTurn (bot : Bot κ) (s : Simulation κ) : Option (Simulation κ) :=
  let games :=
    if s.turn = 0 then some s.games
    else s.games.mapM (·.handleAction bot.toHandlers (.board (.turn s.turn s.currentPlayerIndex) {}))
  games.map fun games => { s with games }

/-- The current player takes an action, which every instance performs. -/
def playTurn (bot : Bot κ) (deck : List Identity) (s : Simulation κ) : Option (Simulation κ) := do
  let currentPlayerGame ← s.games[s.currentPlayerIndex]?
  let performAction ← bot.takeAction currentPlayerGame
  let games ← s.games.mapM (bot.perform deck performAction s.currentPlayerIndex)
  some
    { games
      currentPlayerIndex := (s.currentPlayerIndex + 1) % s.games.length
      turn := s.turn + 1 }

/-- The loop, which an error ends; it is `none` if the fuel runs out. -/
def run (bot : Bot κ) (deck : List Identity) : ℕ → Simulation κ → Option (Simulation κ)
  | 0, _ => none
  | fuel + 1, s =>
    if s.gameOver then some s
    else
      match s.startTurn bot with
      | none => some s
      | some started =>
        match started.playTurn bot deck with
        | none => some started
        | some next => run bot deck fuel next

/-- The instances after any number of turns. -/
inductive AfterTurns (bot : Bot κ) (deck : List Identity) (start : Simulation κ) :
    Simulation κ → Prop
  | refl : AfterTurns bot deck start start
  | turn {s started next : Simulation κ} : AfterTurns bot deck start s → s.gameOver = false →
      s.startTurn bot = some started → started.playTurn bot deck = some next →
      AfterTurns bot deck start next

/-- How the loop comes to its end: the game is over, or an error is thrown when the turn is
announced or when it is played. -/
inductive EndsAt (bot : Bot κ) (deck : List Identity) (s : Simulation κ) : Simulation κ → Prop
  | over : s.gameOver = true → EndsAt bot deck s s
  | turnThrows : s.gameOver = false → s.startTurn bot = none → EndsAt bot deck s s
  | playThrows {started : Simulation κ} : s.gameOver = false → s.startTurn bot = some started →
      started.playTurn bot deck = none → EndsAt bot deck s started

end Simulation

/-! ## What is assumed of a convention -/

/-- The action is legal for a player. -/
def PerformAction.LegalFor (st : State) (p : ℕ) : PerformAction → Prop
  | .play _ target => target ∈ st.hands p
  | .discard _ target => target ∈ st.hands p ∧ st.clueTokens < 8
  | .clue _ target _ => 0 < st.clueTokens ∧ target < st.numPlayers ∧ target ≠ p
  | .anyClue _ => False

/-- The action shows that a card is of an identity. -/
def GameAction.Shows (order : ℕ) (id : Identity) : GameAction → Prop
  | .board (.play o _ identity) _ | .board (.discard o _ identity _) _ =>
    o = order ∧ identity = some id
  | _ => False

/-- What an instance sees changes as `onClue`, `onPlay` and `onDiscard` do. -/
structure SeesOnly (g : LoggedGame κ) (action : GameAction) (g' : LoggedGame κ) : Prop where
  ourPlayerIndex_eq : g'.state.ourPlayerIndex = g.state.ourPlayerIndex
  deck_eq : g'.state.deck = (g.state.next action).deck
  deckIds : ∀ o id, g'.deckIds.get o = some id → g.deckIds.get o = some id ∨ action.Shows o id

/-- The handlers change the board only through `onClue`, `onPlay` and `onDiscard`, and
`take_action` returns actions that are legal in its own instance. -/
structure Bot.Lawful (bot : Bot κ) : Prop where
  handlers : bot.toHandlers.Lawful
  clue : ∀ g giver target list clue flags g',
    bot.interpretClue g (.board (.clue giver target list clue) flags) = some g' →
      SeesOnly g (.board (.clue giver target list clue) flags) g'
  discard : ∀ g order playerIndex identity failed flags g',
    bot.interpretDiscard g (.board (.discard order playerIndex identity failed) flags) = some g' →
      SeesOnly g (.board (.discard order playerIndex identity failed) flags) g'
  play : ∀ g order playerIndex identity flags g',
    bot.interpretPlay g (.board (.play order playerIndex identity) flags) = some g' →
      SeesOnly g (.board (.play order playerIndex identity) flags) g'
  turn : ∀ g num playerIndex flags g',
    bot.updateTurn g (.board (.turn num playerIndex) flags) = some g' →
      SeesOnly g (.board (.turn num playerIndex) flags) g'
  legal : ∀ g action, bot.takeAction g = some action → action.LegalFor g.state g.state.ourPlayerIndex

end

/-! ## Boards -/

namespace State

/-- The position without the turn count. -/
def untimed (st : State) : State := { st.position with turnCount := 0 }

variable {st st' : State}

theorem eq_of_untimed_eq (h : st.untimed = st'.untimed) : st' =
    { st with
      ourPlayerIndex := st'.ourPlayerIndex, deck := st'.deck, actionList := st'.actionList,
      turnCount := st'.turnCount } := by
  cases st
  cases st'
  simp only [untimed, position, State.mk.injEq] at h ⊢
  simp_all

theorem untimed_eq_of_position_eq (h : st.position = st'.position) : st.untimed = st'.untimed := by
  rw [untimed, untimed, h]

theorem untimed_onAction (h : st.untimed = st'.untimed) (deckIds : SparseArray Identity) (action : Action)
    (flags : ActionFlags) :
    (Basics.after st deckIds action).untimed = (st'.next (.board action flags)).untimed := by
  rw [eq_of_untimed_eq h]
  cases action <;> rfl

end State

variable {v : Variant} {dk : Deck v} {n : ℕ} {st : State}

theorem Legal.congr {st' : State} {action : Action} (h : st.untimed = st'.untimed)
    (hl : Legal dk st action) : Legal dk st' action := by
  rw [State.eq_of_untimed_eq h]
  exact hl

/-- The board after legal actions. -/
def Refereed (dk : Deck v) (n : ℕ) (st : State) : Prop :=
  ∃ acts st₀, BoardInv dk acts st₀ ∧ st₀.numPlayers = n ∧ st₀.untimed = st.untimed

namespace Refereed

theorem congr {st' : State} (h : Refereed dk n st) (heq : st.untimed = st'.untimed) :
    Refereed dk n st' := by
  obtain ⟨acts, st₀, hi, hn, hboard⟩ := h
  exact ⟨acts, st₀, hi, hn, hboard.trans heq⟩

theorem next (h : Refereed dk n st) {action : Action} (hl : Legal dk st action)
    (flags : ActionFlags) : Refereed dk n (st.next (.board action flags)) := by
  obtain ⟨acts, st₀, hi, hn, hboard⟩ := h
  have hids : TruthfulIds dk .empty := fun _ _ hd => nomatch hd
  exact ⟨_, _, hi.step hids (hl.congr hboard.symm), by cases action <;> exact hn,
    State.untimed_onAction hboard .empty action flags⟩

theorem numPlayers_eq (h : Refereed dk n st) : st.numPlayers = n := by
  obtain ⟨acts, st₀, -, hn, hboard⟩ := h
  rw [State.eq_of_untimed_eq hboard]
  exact hn

theorem variant_eq (h : Refereed dk n st) : st.variant = v := by
  obtain ⟨acts, st₀, hi, -, hboard⟩ := h
  rw [State.eq_of_untimed_eq hboard]
  exact hi.variant_eq

/-- What the simulation relies on. -/
theorem bounds (h : Refereed dk n st) :
    (-1 ≤ st.cardOrder ∧ st.cardsLeft = v.deckSize - (st.cardOrder + 1) ∧
      (∀ q, ∀ o ∈ st.hands q, q < n → (o : ℤ) ≤ st.cardOrder)) ∧
      (0 ≤ st.clueTokens ∧ st.clueTokens ≤ 8) ∧
      (0 < st.cardsLeft ∧ st.endgameTurns = -1 ∨
        st.cardsLeft = 0 ∧ 0 ≤ st.endgameTurns ∧ st.endgameTurns ≤ n) ∧
      (∀ p, st.hands p = [] ∨ ((st.hands p).length : ℤ) ≤ st.handSize) := by
  have hn := h.numPlayers_eq
  obtain ⟨acts, st₀, hi, hn₀, hboard⟩ := h
  rw [State.eq_of_untimed_eq hboard] at hn ⊢
  refine ⟨⟨hi.cardOrder_ge, hi.cardsLeft_eq, fun q o ho hq => ?_⟩, hi.tokens, ?_, hi.hand_le⟩
  · exact hi.order_le o (State.mem_allOrders.2 ⟨q, hn₀ ▸ hq, ho⟩)
  · rcases hi.endgame with h1 | ⟨h1, h2, h3⟩
    · exact Or.inl h1
    · exact Or.inr ⟨h1, h2, by change st₀.endgameTurns ≤ n; omega⟩

theorem score_eq_maxScore (h : Refereed dk n st)
    (hscore : st.score = st.variant.suits.length * 5) : st.score = st.maxScore := by
  obtain ⟨acts, st₀, hi, -, hboard⟩ := h
  rw [State.eq_of_untimed_eq hboard] at hscore ⊢
  refine le_antisymm (Finset.sum_le_sum fun s hs => ?_) (hscore ▸ ?_)
  · exact hi.playStacks_le_maxRanks (hi.variant_eq ▸ Finset.mem_range.1 hs)
  · refine (Finset.sum_le_card_nsmul _ _ 5 fun s hs => ?_).trans (by simp)
    exact (hi.maxRanks_isLeast s (hi.variant_eq ▸ Finset.mem_range.1 hs)).2 (Or.inl rfl)

end Refereed

/-! ## What an instance knows -/

section

variable {κ : Type} {bot : Bot κ} {deck : List Identity} {g g' : LoggedGame κ} {action : GameAction}

/-- The instance takes no card for another one, and sees all hands but its own. -/
structure Knows (deck : List Identity) (g : LoggedGame κ) : Prop where
  deckIds : ∀ o id, g.deckIds.get o = some id → deck[o]? = some id
  cards : ∀ o c, g.state.deck.get o = some c → c.identity = none ∨ c.identity = deck[o]?
  held : ∀ p < g.state.numPlayers, ∀ o ∈ g.state.hands p,
    ∃ c, g.state.deck.get o = some c ∧ (p ≠ g.state.ourPlayerIndex → c.identity = deck[o]?)

/-- An action as an instance may see it: a draw is of a new card. -/
def GameAction.Seen (deck : List Identity) (st : State) : GameAction → Prop
  | .board (.clue ..) _ | .board (.turn ..) _ => True
  | .board (.play order _ identity) _ | .board (.discard order _ identity _) _ =>
    identity.isSome = true ∧ identity = deck[order]?
  | .board (.draw order p identity) _ =>
    (identity = none ∨ identity = deck[order]?) ∧ (p ≠ st.ourPlayerIndex → identity = deck[order]?) ∧
      ∀ q < st.numPlayers, order ∉ st.hands q
  | _ => False

namespace Knows

/-- Writing the true identity on a card. -/
theorem write (hk : Knows deck g) {order : ℕ} {identity : Option Identity}
    (hid : identity = deck[order]?) (hsub : ∀ p, ∀ o ∈ g'.state.hands p, o ∈ g.state.hands p)
    (hn : g'.state.numPlayers = g.state.numPlayers)
    (hour : g'.state.ourPlayerIndex = g.state.ourPlayerIndex)
    (hdeck : g'.state.deck = g.state.deck ∨ g'.state.deck = g.state.deck.set order ⟨identity⟩)
    (hids : ∀ o id, g'.deckIds.get o = some id → g.deckIds.get o = some id ∨ deck[o]? = some id) :
    Knows deck g' where
  deckIds o id ho := by
    rcases hids o id ho with h | h
    · exact hk.deckIds o id h
    · exact h
  cards o c ho := by
    rcases hdeck with h | h
    · exact hk.cards o c (h ▸ ho)
    · rw [h, SparseArray.get_set] at ho
      split at ho
      · rename_i heq
        cases ho
        exact Or.inr (heq ▸ hid)
      · exact hk.cards o c ho
  held p hp o ho := by
    obtain ⟨c, hc, hsee⟩ := hk.held p (hn ▸ hp) o (hsub p o ho)
    rw [hour]
    rcases hdeck with h | h
    · exact ⟨c, h ▸ hc, hsee⟩
    · rw [h, SparseArray.get_set]
      split
      · rename_i heq
        exact ⟨_, rfl, fun _ => heq ▸ hid⟩
      · exact ⟨c, hc, hsee⟩

theorem draw (hk : Knows deck g) {order p : ℕ} {identity : Option Identity} {flags : ActionFlags}
    (hseen : (GameAction.board (.draw order p identity) flags).Seen deck g.state)
    (hlist : g'.state.hands = Function.update g.state.hands p (order :: g.state.hands p))
    (hn : g'.state.numPlayers = g.state.numPlayers)
    (hour : g'.state.ourPlayerIndex = g.state.ourPlayerIndex)
    (hdeck : g'.state.deck = g.state.deck.set order ⟨(g.deckIds.get order).or identity⟩)
    (hids : g'.deckIds = match identity with
      | some id => g.deckIds.set order id
      | none => g.deckIds) : Knows deck g' where
  deckIds o id ho := by
    rw [hids] at ho
    cases identity with
    | none => exact hk.deckIds o id ho
    | some drawn =>
      rw [SparseArray.get_set] at ho
      split at ho
      · rename_i heq
        cases ho
        rcases hseen.1 with h | h
        · cases h
        · exact heq ▸ h.symm
      · exact hk.deckIds o id ho
  cards o c ho := by
    rw [hdeck, SparseArray.get_set] at ho
    split at ho
    · rename_i heq
      cases ho
      subst heq
      cases hknown : g.deckIds.get o with
      | none => exact hseen.1
      | some id => exact Or.inr (hk.deckIds o id hknown).symm
    · exact hk.cards o c ho
  held q hq o ho := by
    rw [hour, hdeck, SparseArray.get_set]
    rw [hlist] at ho
    rw [hn] at hq
    by_cases heq : o = order
    · rw [if_pos heq]
      refine ⟨_, rfl, fun hne => ?_⟩
      subst heq
      have hqp : q = p := by
        by_contra hqp
        rw [Function.update_of_ne hqp] at ho
        exact hseen.2.2 q hq ho
      subst hqp
      cases hknown : g.deckIds.get o with
      | none => exact hseen.2.1 hne
      | some id => exact (hk.deckIds o id hknown).symm
    · rw [if_neg heq]
      refine hk.held q hq o ?_
      by_cases hqp : q = p
      · subst hqp
        simpa [heq] using ho
      · rwa [Function.update_of_ne hqp] at ho

end Knows

theorem Knows.reveal (hk : Knows deck g) {order : ℕ} {identity : Option Identity}
    (hid : identity = deck[order]?) : Knows deck (g.reveal order identity) := by
  rw [LoggedGame.reveal]
  split
  · exact hk.write hid (fun _ _ ho => ho) rfl rfl (Or.inr rfl) fun _ _ ho => Or.inl ho
  · exact hk

/-- The game as a handler gets it. -/
theorem Knows.written (hk : Knows deck g) {order : ℕ} {identity : Option Identity}
    (hid : identity = deck[order]?) (action : GameAction) (data : κ) :
    let new := { (g.record action).reveal order identity with data }
    Knows deck new ∧ new.state.position = g.state.position ∧
      new.state.ourPlayerIndex = g.state.ourPlayerIndex := by
  have hrecord : Knows deck (g.record action) := ⟨hk.deckIds, hk.cards, hk.held⟩
  have hreveal := hrecord.reveal hid
  refine ⟨⟨hreveal.deckIds, hreveal.cards, hreveal.held⟩,
    ((g.record action).reveal_position order identity).1, ?_⟩
  dsimp only [LoggedGame.reveal]
  split <;> rfl

/-- A card leaves a hand, and its identity is seen. -/
theorem Knows.settle (hk : Knows deck g) {order p : ℕ} {identity : Option Identity}
    (hid : identity.isSome = true ∧ identity = deck[order]?) (hsees : SeesOnly g action g')
    (haction : (g.state.next action).deck = Basics.revealCard g.state.deck order identity ∧
      ∀ o id, action.Shows o id → order = o ∧ identity = some id)
    (hpos : g'.state.hands = Basics.removeCard g.state.hands p order)
    (hn : g'.state.numPlayers = g.state.numPlayers) : Knows deck g' := by
  refine hk.write hid.2 (fun q o ho => ?_) hn hsees.ourPlayerIndex_eq (Or.inr ?_) fun o id ho => ?_
  · rw [hpos] at ho
    exact Basics.mem_removeCard ho
  · obtain ⟨id, rfl⟩ := Option.isSome_iff_exists.1 hid.1
    exact hsees.deck_eq.trans haction.1
  · rcases hsees.deckIds o id ho with h | h
    · exact Or.inl h
    · obtain ⟨rfl, rfl⟩ := haction.2 o id h
      exact Or.inr hid.2.symm

/-- Handling an action that is seen. -/
theorem Knows.handle (hbot : bot.Lawful) (hk : Knows deck g) (hseen : action.Seen deck g.state)
    (h : g.handleAction bot.toHandlers action = some g') :
    Knows deck g' ∧ g'.state.ourPlayerIndex = g.state.ourPlayerIndex := by
  obtain ⟨hpos, -⟩ := LoggedGame.handleAction_spec hbot.handlers h
  have hhands : g'.state.hands = (g.state.next action).hands := by
    have := congrArg State.hands hpos
    exact this
  have hn : g'.state.numPlayers = (g.state.next action).numPlayers := by
    have := congrArg State.numPlayers hpos
    exact this
  have hsub : ∀ p, ∀ o ∈ g'.state.hands p, o ∈ (g.state.next action).hands p := fun p o ho =>
    hhands ▸ ho
  unfold LoggedGame.handleAction at h
  cases action with
  | board action flags =>
    cases action with
    | clue =>
      obtain ⟨new, hnew, rfl⟩ := Option.map_eq_some_iff.1 h
      obtain ⟨hour, hdeck, hids⟩ := hbot.clue _ _ _ _ _ _ _ hnew
      refine ⟨hk.write (rfl : deck[0]? = deck[0]?) hsub hn hour (Or.inl hdeck) fun o id ho => ?_, hour⟩
      exact Or.inl ((hids o id ho).resolve_right fun h => h)
    | draw order p identity =>
      obtain ⟨new, hnew, rfl⟩ := Option.map_eq_some_iff.1 h
      simp only [LoggedGame.draw, Option.ite_none_left_eq_some, Option.some.injEq] at hnew
      obtain ⟨-, rfl⟩ := hnew
      refine ⟨?_, rfl⟩
      cases identity <;> apply hk.draw hseen <;> rfl
    | play order p identity =>
      simp only [Option.ite_none_left_eq_some, Option.map_eq_some_iff] at h
      obtain ⟨-, new, hnew, rfl⟩ := h
      have hsees := hbot.play _ _ _ _ _ _ hnew
      obtain ⟨hk₁, hpos₁, hour₁⟩ := hk.written hseen.2 (.board (.play order p identity) flags)
        (bot.before ((g.record _).reveal order identity) (.board (.play order p identity) flags))
      have hhands₁ := congrArg State.hands hpos₁
      have hn₁ := congrArg State.numPlayers hpos₁
      have hnew : Knows deck new := hk₁.settle hseen hsees ⟨rfl, fun _ _ h => h⟩
        (hhands.trans (congrArg (Basics.removeCard · p order) hhands₁.symm)) (hn.trans hn₁.symm)
      exact ⟨⟨hnew.deckIds, hnew.cards, hnew.held⟩, hsees.ourPlayerIndex_eq.trans hour₁⟩
    | discard order p identity failed =>
      simp only [Option.ite_none_left_eq_some, Option.map_eq_some_iff] at h
      obtain ⟨-, new, hnew, rfl⟩ := h
      have hsees := hbot.discard _ _ _ _ _ _ _ hnew
      obtain ⟨hk₁, hpos₁, hour₁⟩ := hk.written hseen.2 (.board (.discard order p identity failed) flags)
        (bot.before ((g.record _).reveal order identity) (.board (.discard order p identity failed) flags))
      have hhands₁ := congrArg State.hands hpos₁
      have hn₁ := congrArg State.numPlayers hpos₁
      have hnew : Knows deck new := hk₁.settle hseen hsees ⟨rfl, fun _ _ h => h⟩
        (hhands.trans (congrArg (Basics.removeCard · p order) hhands₁.symm)) (hn.trans hn₁.symm)
      exact ⟨⟨hnew.deckIds, hnew.cards, hnew.held⟩, hsees.ourPlayerIndex_eq.trans hour₁⟩
    | turn num p =>
      obtain ⟨new, hnew, rfl⟩ := Option.map_eq_some_iff.1 h
      obtain ⟨hour, hdeck, hids⟩ := hbot.turn _ _ _ _ _ hnew
      refine ⟨hk.write (rfl : deck[0]? = deck[0]?) hsub hn hour (Or.inl hdeck) fun o id ho => ?_, hour⟩
      exact Or.inl ((hids o id ho).resolve_right fun h => h)
  | identify | status | gameOver | ignore | finesse => cases hseen

end

/-! ## One instance -/

namespace State

/-- The order of the next card. -/
def nextOrder (st : State) : ℕ := (st.cardOrder + 1).toNat

/-- The state after the next card is drawn. -/
def drawn (st : State) (p : ℕ) : State := st.next (.board (.draw st.nextOrder p none) {})

/-- The state after an action and the draw. -/
def performed (st : State) (deckSize : ℕ) (action : Action) (p : ℕ) : State :=
  let new := st.next (.board action {})
  if new.strikes = 3 ∨ new.score = st.variant.suits.length * 5 then new
  else if action.isPlayOrDiscard = true ∧ st.nextOrder < deckSize then
    new.next (.board (.draw st.nextOrder p none) {})
  else new

/-- No card of a later order is in a hand. -/
def InOrder (st : State) : Prop :=
  -1 ≤ st.cardOrder ∧ ∀ q < st.numPlayers, ∀ o ∈ st.hands q, (o : ℤ) ≤ st.cardOrder

variable {st st' : State}

theorem InOrder.nextOrder_not_mem (h : st.InOrder) {q : ℕ} (hq : q < st.numPlayers) :
    st.nextOrder ∉ st.hands q := by
  intro hmem
  have h1 := h.1
  have h2 := h.2 q hq _ hmem
  rw [nextOrder] at h2
  omega

theorem InOrder.congr (h : st.InOrder) (heq : st.untimed = st'.untimed) : st'.InOrder := by
  rw [eq_of_untimed_eq heq]
  exact h

theorem InOrder.drawn (h : st.InOrder) (p : ℕ) : (st.drawn p).InOrder := by
  have h1 := h.1
  refine ⟨?_, fun q hq o ho => ?_⟩
  · exact (by omega : (-1 : ℤ) ≤ (st.nextOrder : ℤ))
  · change o ∈ Function.update st.hands p (st.nextOrder :: st.hands p) q at ho
    change (o : ℤ) ≤ (st.nextOrder : ℤ)
    rw [nextOrder] at ho ⊢
    by_cases hqp : q = p
    · subst hqp
      rcases List.mem_cons.1 (Function.update_self q _ st.hands ▸ ho) with rfl | ho
      · exact le_rfl
      · have := h.2 q hq o ho
        omega
    · rw [Function.update_of_ne hqp] at ho
      have := h.2 q hq o ho
      omega

theorem position_performed (h : st.position = st'.position) (deckSize : ℕ) (action : Action)
    (p : ℕ) : (st.performed deckSize action p).position =
      (st'.performed deckSize action p).position := by
  have hnext := position_next h (.board action {})
  have hstrikes : (st.next (.board action {})).strikes = (st'.next (.board action {})).strikes := by
    have := congrArg strikes hnext
    exact this
  have hscore : (st.next (.board action {})).score = (st'.next (.board action {})).score := by
    have := congrArg score hnext
    exact this
  have hvariant : st.variant = st'.variant := by
    have := congrArg variant h
    exact this
  have horder : st.nextOrder = st'.nextOrder := by
    have := congrArg nextOrder h
    exact this
  simp only [performed, hstrikes, hscore, hvariant, horder]
  split
  · exact hnext
  · split
    · exact position_next hnext _
    · exact hnext

end State

section

variable {κ : Type} {bot : Bot κ} {deck : List Identity} {g g' : LoggedGame κ}

theorem performToAction_congr {st st' : State} (h : st.position = st'.position)
    (action : PerformAction) (cards : ℕ → Option (Option Identity)) :
    performToAction st action cards = performToAction st' action cards := by
  rw [State.eq_of_position_eq h]
  cases action <;> rfl

/-- What the instances are told of an action. -/
theorem seen_of_performToAction {st st' : State} {performAction : PerformAction} {action : Action}
    (h : performToAction st performAction (fun o => deck[o]?.map some) = some action) :
    (GameAction.board action {}).Seen deck st' := by
  cases performAction with
  | play p target =>
    simp only [performToAction, Option.map_map, Option.map_eq_some_iff] at h
    obtain ⟨id, hid, rfl⟩ := h
    simp only [Function.comp_apply]
    split <;> exact ⟨rfl, hid.symm⟩
  | discard p target =>
    simp only [performToAction, Option.map_map, Option.map_eq_some_iff] at h
    obtain ⟨id, hid, rfl⟩ := h
    exact ⟨rfl, hid.symm⟩
  | clue p target c =>
    simp only [performToAction, Option.ite_none_right_eq_some, Option.some.injEq] at h
    obtain ⟨-, rfl⟩ := h
    trivial
  | anyClue p => cases h

/-- A draw as an instance sees it. -/
theorem drawAction_spec {order p : ℕ} {action : GameAction}
    (h : drawAction deck g order p = some action) :
    (∃ identity, action = .board (.draw order p identity) {} ∧
      (identity = none ∨ identity = deck[order]?) ∧
        (p ≠ g.state.ourPlayerIndex → identity = deck[order]?)) ∧
      (p ≠ g.state.ourPlayerIndex → order < deck.length) := by
  unfold drawAction at h
  split at h
  · rename_i heq
    cases h
    exact ⟨⟨none, rfl, Or.inl rfl, fun hne => absurd heq hne⟩, fun hne => absurd heq hne⟩
  · obtain ⟨id, hid, rfl⟩ := Option.map_eq_some_iff.1 h
    obtain ⟨hlt, -⟩ := List.getElem?_eq_some_iff.1 hid
    exact ⟨⟨some id, rfl, Or.inr hid.symm, fun _ => hid.symm⟩, fun _ => hlt⟩

/-- An instance after a draw. -/
theorem handle_drawAction {order p : ℕ} {action : GameAction} (hbot : bot.Lawful)
    (hk : Knows deck g') (hour : g'.state.ourPlayerIndex = g.state.ourPlayerIndex)
    (hnew : ∀ q < g'.state.numPlayers, order ∉ g'.state.hands q)
    (haction : drawAction deck g order p = some action) {new : LoggedGame κ}
    (h : g'.handleAction bot.toHandlers action = some new) :
    new.state.position = (g'.state.next (.board (.draw order p none) {})).position ∧
      Knows deck new ∧ new.state.ourPlayerIndex = g.state.ourPlayerIndex := by
  obtain ⟨⟨identity, rfl, hid, hsee⟩, -⟩ := drawAction_spec haction
  have hseen : (GameAction.board (.draw order p identity) {}).Seen deck g'.state :=
    ⟨hid, hour ▸ hsee, hnew⟩
  obtain ⟨hk', hour'⟩ := hk.handle hbot hseen h
  exact ⟨(LoggedGame.handleAction_spec hbot.handlers h).1, hk', hour'.trans hour⟩

theorem hands_next_subset {st : State} {action : Action} (h : action.isPlayOrDiscard = true)
    {q o : ℕ} (ho : o ∈ (st.next (.board action {})).hands q) : o ∈ st.hands q := by
  cases action with
  | play | discard => exact Basics.mem_removeCard ho
  | clue | draw | turn => cases h

/-- An instance after an action. -/
theorem perform_spec {performAction : PerformAction} {p : ℕ} (hbot : bot.Lawful)
    (hk : Knows deck g) (horder : g.state.InOrder)
    (h : bot.perform deck performAction p g = some g') :
    (∃ action, performToAction g.state (performAction.withPlayer p) (fun o => deck[o]?.map some) =
        some action ∧
      g'.state.position = (g.state.performed deck.length action p).position) ∧
      Knows deck g' ∧ g'.state.ourPlayerIndex = g.state.ourPlayerIndex := by
  obtain ⟨action, haction, h⟩ := Option.bind_eq_some_iff.1 h
  obtain ⟨new, hnew, h⟩ := Option.bind_eq_some_iff.1 h
  have hpos := (LoggedGame.handleAction_spec hbot.handlers hnew).1
  obtain ⟨hknew, hour⟩ := hk.handle hbot (seen_of_performToAction haction) hnew
  have hstrikes : new.state.strikes = (g.state.next (.board action {})).strikes := by
    have := congrArg State.strikes hpos
    exact this
  have hscore : new.state.score = (g.state.next (.board action {})).score := by
    have := congrArg State.score hpos
    exact this
  rw [hstrikes, hscore] at h
  suffices hresult : g'.state.position = (g.state.performed deck.length action p).position ∧
      Knows deck g' ∧ g'.state.ourPlayerIndex = g.state.ourPlayerIndex from
    ⟨⟨action, haction, hresult.1⟩, hresult.2⟩
  simp only [State.performed]
  split at h
  · rename_i hend
    cases h
    rw [if_pos hend]
    exact ⟨hpos, hknew, hour⟩
  · rename_i hend
    rw [if_neg hend]
    split at h
    · rename_i hdraw
      rw [if_pos (show action.isPlayOrDiscard = true ∧ g.state.nextOrder < deck.length from hdraw)]
      obtain ⟨draw, hdrawn, h⟩ := Option.bind_eq_some_iff.1 h
      have hn : new.state.numPlayers = g.state.numPlayers := by
        have := congrArg State.numPlayers hpos
        exact this.trans (by cases action <;> rfl)
      have hhands : new.state.hands = (g.state.next (.board action {})).hands := by
        have := congrArg State.hands hpos
        exact this
      obtain ⟨h1, h2, h3⟩ := handle_drawAction hbot hknew hour (fun q hq hmem =>
        horder.nextOrder_not_mem (hn ▸ hq) (hands_next_subset hdraw.1 (hhands ▸ hmem))) hdrawn h
      exact ⟨h1.trans (State.position_next hpos _), h2, h3⟩
    · rename_i hdraw
      cases h
      rw [if_neg (show ¬(action.isPlayOrDiscard = true ∧ g.state.nextOrder < deck.length) from hdraw)]
      exact ⟨hpos, hknew, hour⟩

end

/-! ## The referee -/

/-- The list of cards is the deck. -/
structure Deals (dk : Deck v) (deck : List Identity) : Prop where
  length_eq : deck.length = v.deckSize
  truth : ∀ o < deck.length, deck[o]? = some (dk.truth o)

namespace State

/-- No more turns than this are left, unless the game is lost or won before. -/
def turnsLeft (st : State) : ℕ :=
  if st.endgameTurns = -1 then (10 * st.cardsLeft + st.clueTokens).toNat + st.numPlayers
  else st.endgameTurns.toNat

end State

namespace Refereed

variable {deck : List Identity} {performAction : PerformAction} {action : Action} {p : ℕ}

/-- An action that a player may take is legal, but for the order of the cards that it touches. -/
theorem legal (h : Refereed dk n st) (hdeck : Deals dk deck) (hp : p < n)
    (hover : st.gameOver = false) (hl : performAction.LegalFor st p)
    (haction : performToAction st (performAction.withPlayer p) (fun o => deck[o]?.map some) =
      some action) :
    ∃ legal, Legal dk st legal ∧ st.next (.board legal {}) = st.next (.board action {}) ∧
      (legal.isPlayOrDiscard = action.isPlayOrDiscard) ∧
        (legal.isPlayOrDiscard = true → ∃ order ∈ st.hands p,
          (st.next (.board legal {})).hands p = (st.hands p).erase order) := by
  have hn := h.numPlayers_eq
  have hv := h.variant_eq
  have hend : st.endgameTurns ≠ 0 := by
    intro h0
    simp [State.gameOver, h0] at hover
  have hcard : ∀ target ∈ st.hands p, ∀ id, deck[target]? = some id → id = dk.truth target := by
    intro target _ id hid
    obtain ⟨hlt, -⟩ := List.getElem?_eq_some_iff.1 hid
    exact Option.some.inj (hid.symm.trans (hdeck.truth target hlt))
  have herase : ∀ target ∈ st.hands p, Basics.removeCard st.hands p target p =
      (st.hands p).erase target := fun target hmem => by
    rw [Basics.removeCard_self, Basics.spliceOut_of_mem hmem]
  cases performAction with
  | play _ target =>
    simp only [PerformAction.withPlayer, performToAction, Option.map_map, Option.map_eq_some_iff,
      Function.comp_apply] at haction
    obtain ⟨id, hid, rfl⟩ := haction
    obtain rfl := hcard target hl id hid
    have hplayable : st.isPlayable (dk.truth target) =
        (st.playStacks (dk.truth target).suitIndex + 1 == (dk.truth target).rank) := by
      rw [Bool.eq_iff_iff, State.isPlayable, beq_iff_eq, beq_iff_eq]
      exact eq_comm
    refine ⟨_, ?_, rfl, rfl, fun _ => ⟨target, hl, ?_⟩⟩
    · simp only [Option.any_some, ← hplayable]
      split
      · rename_i hplay
        exact ⟨hend, hn ▸ hp, hl, rfl, hplay⟩
      · rename_i hplay
        exact ⟨hend, hn ▸ hp, hl, rfl, Bool.eq_false_iff.2 hplay⟩
    · split <;> exact herase target hl
  | discard _ target =>
    simp only [PerformAction.withPlayer, performToAction, Option.map_map, Option.map_eq_some_iff,
      Function.comp_apply] at haction
    obtain ⟨id, hid, rfl⟩ := haction
    obtain rfl := hcard target hl.1 id hid
    exact ⟨.discard target p _ false, ⟨hend, hn ▸ hp, hl.1, rfl, hl.2⟩, rfl, rfl,
      fun _ => ⟨target, hl.1, herase target hl.1⟩⟩
  | clue _ target c =>
    simp only [PerformAction.withPlayer, performToAction, Option.ite_none_right_eq_some,
      Option.some.injEq] at haction
    obtain ⟨-, rfl⟩ := haction
    exact ⟨.clue p target _ c, ⟨hend, hl.1, hn ▸ hp, hl.2.1, rfl⟩, rfl, rfl,
      fun h => absurd h Bool.false_ne_true⟩
  | anyClue => exact hl.elim

/-- What an action does to the counters. -/
theorem counters {cards : ℕ → Option (Option Identity)}
    (h : performToAction st performAction cards = some action) :
    ((st.next (.board action {})).endgameTurns = Basics.tick st.endgameTurns ∧
      (st.next (.board action {})).cardsLeft = st.cardsLeft ∧
      (st.next (.board action {})).cardOrder = st.cardOrder ∧
      (st.next (.board action {})).numPlayers = st.numPlayers ∧
      (st.next (.board action {})).options = st.options ∧
      (st.next (.board action {})).variant = st.variant) ∧
      (action.isPlayOrDiscard = true ∧
          (st.next (.board action {})).clueTokens ≤ st.clueTokens + 1 ∨
        action.isPlayOrDiscard = false ∧
          (st.next (.board action {})).clueTokens = st.clueTokens - 1) := by
  have hplay : ∀ order p identity, (Basics.afterPlay st order p identity).clueTokens ≤
      st.clueTokens + 1 := fun order p identity => by
    simp only [Basics.afterPlay]
    split <;> omega
  have hdiscard : ∀ order p identity failed,
      (Basics.afterDiscard st order p identity failed).clueTokens ≤ st.clueTokens + 1 :=
    fun order p identity failed => by
      simp only [Basics.afterDiscard]
      split <;> omega
  cases performAction with
  | play p target =>
    simp only [performToAction, Option.map_eq_some_iff] at h
    obtain ⟨id, -, rfl⟩ := h
    split
    · exact ⟨⟨rfl, rfl, rfl, rfl, rfl, rfl⟩, Or.inl ⟨rfl, hplay _ _ _⟩⟩
    · exact ⟨⟨rfl, rfl, rfl, rfl, rfl, rfl⟩, Or.inl ⟨rfl, hdiscard _ _ _ _⟩⟩
  | discard p target =>
    simp only [performToAction, Option.map_eq_some_iff] at h
    obtain ⟨id, -, rfl⟩ := h
    exact ⟨⟨rfl, rfl, rfl, rfl, rfl, rfl⟩, Or.inl ⟨rfl, hdiscard _ _ _ _⟩⟩
  | clue p target c =>
    simp only [performToAction, Option.ite_none_right_eq_some, Option.some.injEq] at h
    obtain ⟨-, rfl⟩ := h
    exact ⟨⟨rfl, rfl, rfl, rfl, rfl, rfl⟩, Or.inr ⟨rfl, rfl⟩⟩
  | anyClue p => cases h

/-- A turn leads on to a board after legal actions, and fewer turns are left. -/
theorem performed (h : Refereed dk n st) (hdeck : Deals dk deck) (hp : p < n)
    (hover : st.gameOver = false) (hl : performAction.LegalFor st p)
    (haction : performToAction st (performAction.withPlayer p) (fun o => deck[o]?.map some) =
      some action) :
    Refereed dk n (st.performed deck.length action p) ∧
      ((st.performed deck.length action p).gameOver = true ∨
        (st.performed deck.length action p).turnsLeft < st.turnsLeft) := by
  obtain ⟨legal, hlegal, hnext, hkind, herase⟩ := h.legal hdeck hp hover hl haction
  have hr : Refereed dk n (st.next (.board action {})) := hnext ▸ h.next hlegal {}
  obtain ⟨⟨hend, hleft, horder, hn, hoptions, hvariant⟩, htokens⟩ := counters haction
  obtain ⟨⟨hge, hcards, -⟩, htok, hclock, hhand⟩ := h.bounds
  obtain ⟨-, htok', -⟩ := hr.bounds
  have hnum := h.numPlayers_eq
  have hend0 : st.endgameTurns ≠ 0 := by
    intro h0
    simp [State.gameOver, h0] at hover
  rw [hkind, hnext] at herase
  have hlen := hdeck.length_eq
  simp only [State.performed]
  generalize st.next (.board action {}) = new at *
  split
  · rename_i hstop
    refine ⟨hr, Or.inl ?_⟩
    rcases hstop with hstop | hstop
    · simp [State.gameOver, hstop]
    · simp [State.gameOver, hr.score_eq_maxScore (hvariant ▸ hstop)]
  · split
    · rename_i hdraw
      obtain ⟨hplay, hlt⟩ := hdraw
      obtain ⟨order, hmem, hhands⟩ := herase hplay
      rw [State.nextOrder] at hlt
      have hdrawLegal : Legal dk new (.draw st.nextOrder p none) := by
        refine ⟨by omega, ?_, by omega, ?_, Or.inl rfl⟩
        · rw [State.nextOrder, horder]
          omega
        · have hsize : new.handSize = st.handSize := by
            rw [State.handSize, State.handSize, hn, hoptions]
          rw [hhands, List.length_erase_of_mem hmem, hsize]
          have hpos := List.length_pos_of_mem hmem
          rcases hhand p with hnil | hle
          · rw [hnil] at hmem
            cases hmem
          · omega
      refine ⟨hr.next hdrawLegal {}, Or.inr ?_⟩
      change (if (if new.cardsLeft - 1 = 0 then (new.numPlayers : ℤ) else new.endgameTurns) = -1 then
        (10 * (new.cardsLeft - 1) + new.clueTokens).toNat + new.numPlayers
        else (if new.cardsLeft - 1 = 0 then (new.numPlayers : ℤ) else new.endgameTurns).toNat) < _
      rw [State.turnsLeft, hend, hleft, hn]
      rcases hclock with ⟨hpos, hneg⟩ | ⟨hzero, -⟩
      · rcases htokens with ⟨-, hle⟩ | ⟨hclue, -⟩
        · rw [hneg, Basics.tick_neg_one]
          split_ifs <;> omega
        · rw [hclue] at hplay
          cases hplay
      · omega
    · rename_i hdraw
      refine ⟨hr, Or.inr ?_⟩
      rw [State.turnsLeft, State.turnsLeft, hend, hleft, hn]
      rcases hclock with ⟨hpos, hneg⟩ | ⟨hzero, h0, -⟩
      · rcases htokens with ⟨hplay, -⟩ | ⟨-, heq⟩
        · refine absurd ⟨hplay, ?_⟩ hdraw
          rw [State.nextOrder]
          omega
        · rw [hneg, Basics.tick_neg_one, if_pos rfl, if_pos rfl]
          omega
      · rw [Basics.tick_of_ne (by omega), if_neg (by omega), if_neg (by omega)]
        omega

end Refereed

/-! ## All instances -/

/-- The state after a turn. -/
def State.afterTurn (st : State) (deck : List Identity) (performAction : PerformAction) (p : ℕ) :
    State :=
  match performToAction st (performAction.withPlayer p) fun o => deck[o]?.map some with
  | some action => st.performed deck.length action p
  | none => st

theorem State.position_afterTurn {st st' : State} (h : st.position = st'.position)
    (deck : List Identity) (performAction : PerformAction) (p : ℕ) :
    (st.afterTurn deck performAction p).position = (st'.afterTurn deck performAction p).position := by
  rw [afterTurn, afterTurn, performToAction_congr h]
  split
  · exact position_performed h _ _ _
  · exact h

section

variable {κ : Type} {bot : Bot κ} {deck : List Identity} {s s' : Simulation κ}

theorem forall₂_of_mapM {α β : Type*} {f : α → Option β} {l : List α} {l' : List β}
    (h : l.mapM f = some l') : List.Forall₂ (fun a b => f a = some b) l l' := by
  induction l generalizing l' with
  | nil =>
    cases h
    exact .nil
  | cons a l ih =>
    rw [List.mapM_cons] at h
    obtain ⟨b, hb, h⟩ := Option.bind_eq_some_iff.1 h
    obtain ⟨bs, hbs, h⟩ := Option.bind_eq_some_iff.1 h
    cases h
    exact .cons hb (ih hbs)

/-- **In step.** All instances are in one position, and every card in a hand stands for the card
of that order in the deck: an instance knows it for that card, or it does not know it and the
card is in its own hand. -/
structure InStep (deck : List Identity) (s : Simulation κ) : Prop where
  position_eq : ∀ g ∈ s.games, ∀ g' ∈ s.games, g.state.position = g'.state.position
  stands : ∀ (i : ℕ) (g : LoggedGame κ), s.games[i]? = some g →
    ∀ p < g.state.numPlayers, ∀ o ∈ g.state.hands p, o < deck.length ∧
      ∃ c, g.state.deck.get o = some c ∧
        (c.identity = deck[o]? ∨ c.identity = none ∧ p = i)

/-- What the turns keep. -/
structure Synced (dk : Deck v) (deck : List Identity) (n : ℕ) (s : Simulation κ) : Prop where
  length_eq : s.games.length = n
  current_lt : s.currentPlayerIndex < n
  position_eq : ∀ g ∈ s.games, ∀ g' ∈ s.games, g.state.position = g'.state.position
  refereed : ∀ g ∈ s.games, Refereed dk n g.state
  knows : ∀ g ∈ s.games, Knows deck g
  index : ∀ (i : ℕ) (g : LoggedGame κ), s.games[i]? = some g → g.state.ourPlayerIndex = i

namespace Synced

theorem inStep (h : Synced dk deck n s) (hdeck : Deals dk deck) : InStep deck s where
  position_eq := h.position_eq
  stands i g hg p hp o ho := by
    have hmem := List.mem_of_getElem? hg
    obtain ⟨⟨hge, hcards, horder⟩, -, hclock, -⟩ := (h.refereed g hmem).bounds
    have hle := horder p o ho ((h.refereed g hmem).numPlayers_eq ▸ hp)
    have hlen := hdeck.length_eq
    obtain ⟨c, hc, hsee⟩ := (h.knows g hmem).held p hp o ho
    refine ⟨by omega, c, hc, ?_⟩
    rcases (h.knows g hmem).cards o c hc with hnone | hsome
    · by_cases hpi : p = i
      · exact Or.inr ⟨hnone, hpi⟩
      · exact Or.inl (hsee (h.index i g hg ▸ hpi))
    · exact Or.inl hsome

/-- A step that all instances take keeps them in step. -/
theorem of_forall₂ (h : Synced dk deck n s) {f : LoggedGame κ → Option (LoggedGame κ)}
    (next : State → State) (hgames : List.Forall₂ (fun g g' => f g = some g') s.games s'.games)
    (hcurrent : s'.currentPlayerIndex < n)
    (hcongr : ∀ st st' : State, st.position = st'.position →
      (next st).position = (next st').position)
    (hstep : ∀ g ∈ s.games, ∀ g', f g = some g' → g'.state.position = (next g.state).position ∧
      Refereed dk n (next g.state) ∧ Knows deck g' ∧
        g'.state.ourPlayerIndex = g.state.ourPlayerIndex) : Synced dk deck n s' := by
  have hof : ∀ g' ∈ s'.games, ∃ g ∈ s.games, f g = some g' := fun g' hg' => by
    obtain ⟨i, hi, rfl⟩ := List.getElem_of_mem hg'
    exact ⟨_, List.getElem_mem (hgames.length_eq ▸ hi), hgames.get (hgames.length_eq ▸ hi) hi⟩
  refine ⟨hgames.length_eq ▸ h.length_eq, hcurrent, fun g₁ hg₁ g₂ hg₂ => ?_, fun g' hg' => ?_,
    fun g' hg' => ?_, fun i g' hg' => ?_⟩
  · obtain ⟨a, ha, hfa⟩ := hof g₁ hg₁
    obtain ⟨b, hb, hfb⟩ := hof g₂ hg₂
    rw [(hstep a ha g₁ hfa).1, (hstep b hb g₂ hfb).1]
    exact hcongr _ _ (h.position_eq a ha b hb)
  · obtain ⟨g, hg, hf⟩ := hof g' hg'
    obtain ⟨hpos, hr, -⟩ := hstep g hg g' hf
    exact hr.congr (State.untimed_eq_of_position_eq hpos.symm)
  · obtain ⟨g, hg, hf⟩ := hof g' hg'
    exact (hstep g hg g' hf).2.2.1
  · obtain ⟨hi, rfl⟩ := List.getElem?_eq_some_iff.1 hg'
    have hi' : i < s.games.length := hgames.length_eq ▸ hi
    refine (hstep _ (List.getElem_mem hi') _ (hgames.get hi' hi)).2.2.2.trans ?_
    exact h.index i _ (List.getElem?_eq_getElem hi')

theorem startTurn (hbot : bot.Lawful) (h : Synced dk deck n s) (hs : s.startTurn bot = some s') :
    Synced dk deck n s' ∧ ∀ g' ∈ s'.games, ∃ g ∈ s.games, g'.state.untimed = g.state.untimed := by
  obtain ⟨games, hgames, rfl⟩ := Option.map_eq_some_iff.1 hs
  split at hgames
  · cases hgames
    exact ⟨⟨h.length_eq, h.current_lt, h.position_eq, h.refereed, h.knows, h.index⟩,
      fun g hg => ⟨g, hg, rfl⟩⟩
  · have hall := forall₂_of_mapM hgames
    refine ⟨h.of_forall₂ (State.next · (.board (.turn s.turn s.currentPlayerIndex) {})) hall
      h.current_lt (fun _ _ heq => State.position_next heq _) fun g hg g' hg' => ?_,
      fun g' hg' => ?_⟩
    · have hseen : (GameAction.board (.turn s.turn s.currentPlayerIndex) {}).Seen deck g.state :=
        trivial
      obtain ⟨hk, hour⟩ := (h.knows g hg).handle hbot hseen hg'
      exact ⟨(LoggedGame.handleAction_spec hbot.handlers hg').1, (h.refereed g hg).congr rfl, hk, hour⟩
    · obtain ⟨i, hi, rfl⟩ := List.getElem_of_mem hg'
      have hi' : i < s.games.length := hall.length_eq ▸ hi
      have hpos := (LoggedGame.handleAction_spec hbot.handlers (hall.get hi' hi)).1
      exact ⟨_, List.getElem_mem hi', (State.untimed_eq_of_position_eq hpos).trans rfl⟩

theorem playTurn (hbot : bot.Lawful) (hdeck : Deals dk deck) (h : Synced dk deck n s)
    (hover : ∀ g ∈ s.games, g.state.gameOver = false) (hs : s.playTurn bot deck = some s') :
    Synced dk deck n s' ∧ ∀ g' ∈ s'.games, ∃ g ∈ s.games,
      g'.state.gameOver = true ∨ g'.state.turnsLeft < g.state.turnsLeft := by
  obtain ⟨current, hcurrent, hs⟩ := Option.bind_eq_some_iff.1 hs
  obtain ⟨performAction, htake, hs⟩ := Option.bind_eq_some_iff.1 hs
  obtain ⟨games, hgames, hs⟩ := Option.bind_eq_some_iff.1 hs
  cases hs
  have hall := forall₂_of_mapM hgames
  have hn : 0 < n := Nat.zero_lt_of_lt h.current_lt
  have hmem := List.mem_of_getElem? hcurrent
  have hlegal : ∀ g ∈ s.games, performAction.LegalFor g.state s.currentPlayerIndex := by
    intro g hg
    have hl := hbot.legal current performAction htake
    rw [h.index _ _ hcurrent] at hl
    rw [State.eq_of_position_eq (h.position_eq current hmem g hg)]
    cases performAction <;> exact hl
  have hstep : ∀ g ∈ s.games, ∀ g', bot.perform deck performAction s.currentPlayerIndex g =
      some g' → (g'.state.position =
          (g.state.afterTurn deck performAction s.currentPlayerIndex).position ∧
        Refereed dk n (g.state.afterTurn deck performAction s.currentPlayerIndex) ∧ Knows deck g' ∧
          g'.state.ourPlayerIndex = g.state.ourPlayerIndex) ∧
        (g'.state.gameOver = true ∨ g'.state.turnsLeft < g.state.turnsLeft) := by
    intro g hg g' hg'
    obtain ⟨⟨hge, -, horder⟩, -⟩ := (h.refereed g hg).bounds
    have hin : g.state.InOrder := ⟨hge, fun q hq o ho =>
      horder q o ho ((h.refereed g hg).numPlayers_eq ▸ hq)⟩
    obtain ⟨⟨action, haction, hpos⟩, hk⟩ := perform_spec hbot (h.knows g hg) hin hg'
    obtain ⟨hr, hless⟩ := (h.refereed g hg).performed hdeck h.current_lt (hover g hg)
      (hlegal g hg) haction
    have hgameOver : g'.state.gameOver =
        (g.state.performed deck.length action s.currentPlayerIndex).gameOver := by
      have := congrArg State.gameOver hpos
      exact this
    have hturnsLeft : g'.state.turnsLeft =
        (g.state.performed deck.length action s.currentPlayerIndex).turnsLeft := by
      have := congrArg State.turnsLeft hpos
      exact this
    rw [State.afterTurn, haction]
    exact ⟨⟨hpos, hr, hk⟩, hgameOver ▸ hturnsLeft ▸ hless⟩
  refine ⟨h.of_forall₂ (State.afterTurn · deck performAction s.currentPlayerIndex) hall
    (h.length_eq ▸ Nat.mod_lt _ (h.length_eq ▸ hn)) (fun _ _ heq => State.position_afterTurn heq _ _ _)
    fun g hg g' hg' => (hstep g hg g' hg').1, fun g' hg' => ?_⟩
  obtain ⟨i, hi, rfl⟩ := List.getElem_of_mem hg'
  have hi' : i < s.games.length := hall.length_eq ▸ hi
  exact ⟨_, List.getElem_mem hi', (hstep _ (List.getElem_mem hi') _ (hall.get hi' hi)).2⟩

theorem gameOver_eq (h : Synced dk deck n s) {g : LoggedGame κ} (hg : g ∈ s.games) :
    s.gameOver = g.state.gameOver := by
  rw [Simulation.gameOver]
  cases hgames : s.games with
  | nil =>
    rw [hgames] at hg
    cases hg
  | cons first games =>
    have hmem : first ∈ s.games := hgames ▸ List.mem_cons_self
    have := congrArg State.gameOver (h.position_eq first hmem g hg)
    exact this

theorem turn (hbot : bot.Lawful) (hdeck : Deals dk deck) (h : Synced dk deck n s)
    (hover : s.gameOver = false) {started : Simulation κ} (hstart : s.startTurn bot = some started)
    (hplay : started.playTurn bot deck = some s') :
    Synced dk deck n s' ∧ ∀ g' ∈ s'.games, ∃ g ∈ s.games,
      g'.state.gameOver = true ∨ g'.state.turnsLeft < g.state.turnsLeft := by
  obtain ⟨h₁, hboard⟩ := h.startTurn hbot hstart
  have hgoing : ∀ g ∈ started.games, g.state.gameOver = false := fun g hg => by
    obtain ⟨g₀, hg₀, heq⟩ := hboard g hg
    have := congrArg State.gameOver heq
    exact this.trans ((h.gameOver_eq hg₀).symm.trans hover)
  obtain ⟨h₂, hless⟩ := h₁.playTurn hbot hdeck hgoing hplay
  refine ⟨h₂, fun g' hg' => ?_⟩
  obtain ⟨g₁, hg₁, hl⟩ := hless g' hg'
  obtain ⟨g₀, hg₀, heq⟩ := hboard g₁ hg₁
  have hturns : g₁.state.turnsLeft = g₀.state.turnsLeft := by
    have := congrArg State.turnsLeft heq
    exact this
  exact ⟨g₀, hg₀, hturns ▸ hl⟩

theorem afterTurns (hbot : bot.Lawful) (hdeck : Deals dk deck) {start : Simulation κ}
    (h : Synced dk deck n start) (hs : Simulation.AfterTurns bot deck start s) :
    Synced dk deck n s := by
  induction hs with
  | refl => exact h
  | turn _ hover hstart hplay ih => exact (ih.turn hbot hdeck hover hstart hplay).1

/-- The loop ends before it has taken more turns than are left. -/
theorem run (hbot : bot.Lawful) (hdeck : Deals dk deck) {start : Simulation κ}
    (h : Synced dk deck n s) (hafter : Simulation.AfterTurns bot deck start s) (fuel : ℕ)
    (hfuel : 0 < fuel)
    (hturns : ∀ g ∈ s.games, g.state.gameOver = true ∨ g.state.turnsLeft + 2 ≤ fuel) :
    ∃ result, s.run bot deck fuel = some result ∧ Synced dk deck n result ∧
      ∃ last, Simulation.AfterTurns bot deck start last ∧
        Simulation.EndsAt bot deck last result := by
  induction fuel generalizing s with
  | zero => exact absurd hfuel (lt_irrefl 0)
  | succ fuel ih =>
    rw [Simulation.run]
    split
    · rename_i hover
      exact ⟨s, rfl, h, s, hafter, .over hover⟩
    · rename_i hover
      rw [Bool.not_eq_true] at hover
      split
      · rename_i hstart
        exact ⟨s, rfl, h, s, hafter, .turnThrows hover hstart⟩
      · rename_i started hstart
        split
        · rename_i hplay
          exact ⟨started, rfl, (h.startTurn hbot hstart).1, s, hafter,
            .playThrows hover hstart hplay⟩
        · rename_i next hplay
          obtain ⟨hnext, hless⟩ := h.turn hbot hdeck hover hstart hplay
          have hgoing : ∀ g ∈ s.games, g.state.turnsLeft + 2 ≤ fuel + 1 := fun g hg =>
            (hturns g hg).resolve_left (by rw [← h.gameOver_eq hg, hover]; exact Bool.false_ne_true)
          have hn : 0 < s.games.length := h.length_eq ▸ Nat.zero_lt_of_lt h.current_lt
          refine ih hnext (hafter.turn hover hstart hplay) ?_ fun g' hg' => ?_
          · have := hgoing _ (List.getElem_mem hn)
            omega
          · obtain ⟨g, hg, hl⟩ := hless g' hg'
            have := hgoing g hg
            exact hl.imp_right fun hl => by omega

end Synced

/-! ## The deal -/

theorem State.position_drawn {st st' : State} (h : st.position = st'.position) (p : ℕ) :
    (st.drawn p).position = (st'.drawn p).position := by
  have horder : st.nextOrder = st'.nextOrder := by
    have := congrArg nextOrder h
    exact this
  rw [drawn, drawn, horder]
  exact position_next h _

theorem State.position_foldl_drawn {st st' : State} (h : st.position = st'.position)
    (players : List ℕ) :
    (players.foldl State.drawn st).position = (players.foldl State.drawn st').position := by
  induction players generalizing st st' with
  | nil => exact h
  | cons p players ih => exact ih (position_drawn h p)

/-- An instance after some cards of the deal, which are all in the deck but its own. -/
theorem dealCards_spec {g g' : LoggedGame κ} {players : List ℕ} (hbot : bot.Lawful)
    (hk : Knows deck g) (horder : g.state.InOrder)
    (h : players.foldlM (bot.dealCard deck) g = some g') :
    (g'.state.position = (players.foldl State.drawn g.state).position ∧ Knows deck g' ∧
      g'.state.ourPlayerIndex = g.state.ourPlayerIndex) ∧
      ∀ earlier p, players = earlier ++ [p] → p ≠ g.state.ourPlayerIndex →
        (earlier.foldl State.drawn g.state).nextOrder < deck.length := by
  induction players generalizing g with
  | nil =>
    cases h
    exact ⟨⟨rfl, hk, rfl⟩, fun earlier p hnil => absurd hnil.symm (by simp)⟩
  | cons q players ih =>
    obtain ⟨new, hnew, h⟩ := Option.bind_eq_some_iff.1 h
    obtain ⟨action, haction, hnew⟩ := Option.bind_eq_some_iff.1 hnew
    obtain ⟨hpos, hknew, hour⟩ := handle_drawAction hbot hk rfl
      (fun _ hq => horder.nextOrder_not_mem hq) haction hnew
    have hboard := State.untimed_eq_of_position_eq hpos.symm
    obtain ⟨⟨h1, h2, h3⟩, h4⟩ := ih hknew ((horder.drawn q).congr hboard) h
    refine ⟨⟨h1.trans (State.position_foldl_drawn hpos players), h2, h3.trans hour⟩, ?_⟩
    intro earlier p heq hp
    cases earlier with
    | nil =>
      obtain ⟨rfl, -⟩ := List.cons.inj heq
      exact (drawAction_spec haction).2 hp
    | cons a earlier =>
      obtain ⟨rfl, rfl⟩ := List.cons.inj heq
      have hlt := h4 earlier p rfl (hour ▸ hp)
      have hsame := congrArg State.nextOrder (State.position_foldl_drawn hpos earlier)
      exact lt_of_eq_of_lt (hsame : State.nextOrder _ = State.nextOrder _).symm hlt

theorem nextOrder_foldl_drawn {st : State} (horder : st.InOrder) (players : List ℕ) :
    (players.foldl State.drawn st).nextOrder = st.nextOrder + players.length := by
  induction players generalizing st with
  | nil => rfl
  | cons p players ih =>
    have hnext : (st.drawn p).nextOrder = st.nextOrder + 1 := by
      change ((st.nextOrder : ℤ) + 1).toNat = _
      omega
    rw [List.foldl_cons, ih (horder.drawn p), hnext, List.length_cons]
    omega

/-- Dealing is drawing, while there are cards and there is room in the hands. -/
theorem Refereed.deal {players : List ℕ} (h : Refereed dk n st) (hplayers : ∀ p ∈ players, p < n)
    (hcards : (players.length : ℤ) ≤ st.cardsLeft)
    (hroom : ∀ p < n, ((st.hands p).length : ℤ) + players.count p ≤ st.handSize) :
    Refereed dk n (players.foldl State.drawn st) := by
  induction players generalizing st with
  | nil => exact h
  | cons p players ih =>
    have hp := hplayers p List.mem_cons_self
    obtain ⟨⟨hge, -⟩, -⟩ := h.bounds
    have hroomp := hroom p hp
    rw [List.count_cons_self] at hroomp
    rw [List.length_cons] at hcards
    have hlegal : Legal dk st (.draw st.nextOrder p none) := by
      refine ⟨by omega, ?_, h.numPlayers_eq ▸ hp, by omega, Or.inl rfl⟩
      rw [State.nextOrder]
      omega
    refine ih (h.next hlegal {}) (fun q hq => hplayers q (List.mem_cons_of_mem p hq)) ?_
      fun q hq => ?_
    · change (players.length : ℤ) ≤ st.cardsLeft - 1
      omega
    · change ((Function.update st.hands p (st.nextOrder :: st.hands p) q).length : ℤ) +
        players.count q ≤ st.handSize
      by_cases hqp : q = p
      · subst hqp
        rw [Function.update_self, List.length_cons]
        push_cast
        omega
      · have := hroom q hq
        rw [List.count_cons_of_ne (Ne.symm hqp)] at this
        rwa [Function.update_of_ne hqp]

/-- The players in the order of the deal. -/
def dealt (n handSize : ℕ) : List ℕ := (List.range n).flatMap (List.replicate handSize)

theorem count_dealt (n handSize p : ℕ) :
    (dealt n handSize).count p = if p < n then handSize else 0 := by
  induction n with
  | zero => rfl
  | succ n ih =>
    rw [dealt, List.range_succ, List.flatMap_append, List.count_append]
    rw [dealt] at ih
    rw [ih]
    simp only [List.flatMap_cons, List.flatMap_nil, List.append_nil, List.count_replicate, beq_iff_eq]
    split_ifs <;> omega

theorem dealt_succ (n handSize : ℕ) :
    ∃ earlier, dealt (n + 1) (handSize + 1) = earlier ++ [n] := by
  refine ⟨dealt n (handSize + 1) ++ List.replicate handSize n, ?_⟩
  rw [dealt, List.range_succ, List.flatMap_append]
  simp [dealt, List.replicate_succ', List.append_assoc]

theorem handSize_fresh (v : Variant) (index : ℕ) (h2 : 2 ≤ n) (h6 : n ≤ 6) :
    ∃ k, (State.fresh v n index {}).handSize = (k + 1 : ℕ) := by
  interval_cases n
  · exact ⟨4, rfl⟩
  · exact ⟨4, rfl⟩
  · exact ⟨3, rfl⟩
  · exact ⟨3, rfl⟩
  · exact ⟨2, rfl⟩

theorem knows_newGame (bot : Bot κ) (deck : List Identity) (v : Variant) (n index : ℕ) :
    Knows deck (bot.newGame v n index) ∧ (bot.newGame v n index).state.InOrder := by
  refine ⟨⟨nofun, nofun, ?_⟩, le_rfl, ?_⟩ <;> exact fun _ _ _ h => nomatch h

/-- The instances after the deal. -/
theorem dealt_games (hbot : bot.Lawful) (h : bot.deal deck v n = some s) {k : ℕ}
    (hk : ∀ index, (State.fresh v n index {}).handSize = (k + 1 : ℕ)) :
    (s.games.length = n ∧ s.currentPlayerIndex = 0) ∧
      ∀ i g, s.games[i]? = some g → (g.state.position =
        ((dealt n (k + 1)).foldl State.drawn (State.fresh v n 0 {})).position ∧
          Knows deck g ∧ g.state.ourPlayerIndex = i) ∧
        ∀ earlier p, dealt n (k + 1) = earlier ++ [p] → p ≠ i → earlier.length < deck.length := by
  obtain ⟨games, hgames, hs⟩ := Option.bind_eq_some_iff.1 h
  cases hs
  have hall := forall₂_of_mapM hgames
  have hlen : games.length = n := by rw [← hall.length_eq, List.length_range]
  refine ⟨⟨hlen, rfl⟩, fun i g hg => ?_⟩
  obtain ⟨hi, rfl⟩ := List.getElem?_eq_some_iff.1 hg
  have hi' : i < (List.range n).length := hall.length_eq ▸ hi
  have hdeal := hall.get hi' hi
  simp only [List.get_eq_getElem, List.getElem_range] at hdeal
  have hsize : (bot.newGame v n i).state.handSize.toNat = k + 1 := by
    rw [show (bot.newGame v n i).state.handSize = _ from hk i]
    rfl
  rw [Bot.dealGame, hsize] at hdeal
  obtain ⟨hknows, horder⟩ := knows_newGame bot deck v n i
  obtain ⟨⟨hpos, hknown, hour⟩, hdrawn⟩ := dealCards_spec hbot hknows horder hdeal
  have hsame : (State.fresh v n i {}).position = (State.fresh v n 0 {}).position := rfl
  refine ⟨⟨hpos.trans (State.position_foldl_drawn hsame _), hknown, hour⟩,
    fun earlier p heq hp => ?_⟩
  have hlt := hdrawn earlier p heq hp
  rw [nextOrder_foldl_drawn horder] at hlt
  exact lt_of_le_of_lt (Nat.le_add_left _ _) hlt

/-- Every card that is dealt is in the deck. -/
theorem dealt_length_le (hbot : bot.Lawful) (h2 : 2 ≤ n) (h : bot.deal deck v n = some s) {k : ℕ}
    (hk : ∀ index, (State.fresh v n index {}).handSize = (k + 1 : ℕ)) :
    (dealt n (k + 1)).length ≤ deck.length := by
  obtain ⟨⟨hlen, -⟩, hgames⟩ := dealt_games hbot h hk
  have h0 : 0 < s.games.length := by omega
  obtain ⟨m, rfl⟩ : ∃ m, n = m + 1 := ⟨n - 1, by omega⟩
  obtain ⟨earlier, hearlier⟩ := dealt_succ m k
  -- the first player sees the last card that is dealt
  have hlt := (hgames 0 _ (List.getElem?_eq_getElem h0)).2 earlier m hearlier (by omega)
  rw [hearlier, List.length_append, List.length_singleton]
  exact hlt

theorem synced_deal (hbot : bot.Lawful) (hdeck : Deals dk deck) (h2 : 2 ≤ n)
    (h : bot.deal deck v n = some s) {k : ℕ}
    (hk : ∀ index, (State.fresh v n index {}).handSize = (k + 1 : ℕ)) : Synced dk deck n s := by
  obtain ⟨⟨hlen, hcurrent⟩, hgames⟩ := dealt_games hbot h hk
  have hcards := dealt_length_le hbot h2 h hk
  have hfresh : Refereed dk n (State.fresh v n 0 {}) := ⟨_, _, .fresh dk n 0 {}, rfl, rfl⟩
  have hr : Refereed dk n ((dealt n (k + 1)).foldl State.drawn (State.fresh v n 0 {})) := by
    refine hfresh.deal (fun p hp => ?_) ?_ fun p hp => ?_
    · obtain ⟨q, hq, hp⟩ := List.mem_flatMap.1 hp
      rw [List.eq_of_mem_replicate hp]
      exact List.mem_range.1 hq
    · change ((dealt n (k + 1)).length : ℤ) ≤ v.deckSize
      exact_mod_cast hdeck.length_eq ▸ hcards
    · rw [hk 0, count_dealt, if_pos hp]
      simp [State.fresh]
  have hmem : ∀ g ∈ s.games, ∃ i, s.games[i]? = some g := fun g hg => List.getElem?_of_mem hg
  refine ⟨hlen, by omega, fun g₁ hg₁ g₂ hg₂ => ?_, fun g hg => ?_, fun g hg => ?_,
    fun i g hg => (hgames i g hg).1.2.2⟩
  · obtain ⟨i, hi⟩ := hmem g₁ hg₁
    obtain ⟨j, hj⟩ := hmem g₂ hg₂
    rw [(hgames i g₁ hi).1.1, (hgames j g₂ hj).1.1]
  · obtain ⟨i, hi⟩ := hmem g hg
    exact hr.congr (State.untimed_eq_of_position_eq (hgames i g hi).1.1.symm)
  · obtain ⟨i, hi⟩ := hmem g hg
    exact (hgames i g hi).1.2.1

/-- **Self-play stays in step, and ends.** For any convention that changes the board through the
handlers and takes legal actions, any shuffle of the deck and two to six players. It ends after
some of the turns, with the game over or by an error. -/
theorem simulate_inStep {start : Simulation κ} (hbot : bot.Lawful)
    (hperm : deck.Perm (Deck.sortedCards v)) (h2 : 2 ≤ n) (h6 : n ≤ 6)
    (hdeal : bot.deal deck v n = some start) :
    (∀ s, Simulation.AfterTurns bot deck start s → InStep deck s) ∧
      ∃ result, start.run bot deck (10 * v.deckSize + n + 10) = some result ∧
        InStep deck result ∧ ∃ last, Simulation.AfterTurns bot deck start last ∧
          Simulation.EndsAt bot deck last result := by
  obtain ⟨k, hk⟩ := handSize_fresh v 0 h2 h6
  have hk : ∀ index, (State.fresh v n index {}).handSize = (k + 1 : ℕ) := fun _ => hk
  have hlen : deck.length = v.deckSize := hperm.length_eq.trans (Deck.length_sortedCards v)
  have hsuits : v.suits ≠ [] := by
    intro hnil
    have hdealt := dealt_length_le hbot h2 hdeal hk
    have hzero : deck.length = 0 := by
      rw [hperm.length_eq, Deck.sortedCards, Variant.allIdentities, hnil]
      rfl
    obtain ⟨m, rfl⟩ : ∃ m, n = m + 1 := ⟨n - 1, by omega⟩
    obtain ⟨earlier, hearlier⟩ := dealt_succ m k
    rw [hearlier, List.length_append, List.length_singleton] at hdealt
    omega
  have hdeck : Deals (Deck.ofList hsuits deck hperm) deck :=
    ⟨hlen, fun o ho => by
      rw [List.getElem?_eq_getElem ho]
      exact congrArg some (List.getD_eq_getElem _ _ ho).symm⟩
  have hsynced := synced_deal hbot hdeck h2 hdeal hk
  refine ⟨fun s hs => (hsynced.afterTurns hbot hdeck hs).inStep hdeck, ?_⟩
  obtain ⟨result, hrun, hresult, hlast⟩ := hsynced.run hbot hdeck .refl
    (10 * v.deckSize + n + 10) (by omega) fun g hg => by
      obtain ⟨⟨hge, hcards, -⟩, htokens, hclock, -⟩ := (hsynced.refereed g hg).bounds
      have hn := (hsynced.refereed g hg).numPlayers_eq
      refine Or.inr ?_
      rw [State.turnsLeft]
      split_ifs <;> omega
  exact ⟨result, hrun, hresult.inStep hdeck, hlast⟩

/-- A bot that always plays its newest card. -/
def gambler : Bot Unit where
  toHandlers := Handlers.plain
  init _ _ _ := ()
  takeAction g :=
    (g.state.hands g.state.ourPlayerIndex).head?.map (.play g.state.ourPlayerIndex)

theorem gambler_lawful : gambler.Lawful where
  handlers := Handlers.plain_lawful
  clue _ _ _ _ _ _ _ h := by cases h; exact ⟨rfl, rfl, fun _ _ h => Or.inl h⟩
  discard _ _ _ _ _ _ _ h := by cases h; exact ⟨rfl, rfl, fun _ _ h => Or.inl h⟩
  play _ _ _ _ _ _ h := by cases h; exact ⟨rfl, rfl, fun _ _ h => Or.inl h⟩
  turn _ _ _ _ _ h := by cases h; exact ⟨rfl, rfl, fun _ _ h => Or.inl h⟩
  legal g action h := by
    obtain ⟨o, ho, rfl⟩ := Option.map_eq_some_iff.1 h
    exact List.mem_of_mem_head? ho

theorem isSome_deal_gambler :
    (gambler.deal (Deck.sortedCards noVariant) noVariant 2).isSome = true := by
  decide +kernel

/-- Two gamblers with a sorted deck. -/
def gamblers : Simulation Unit :=
  (gambler.deal (Deck.sortedCards noVariant) noVariant 2).get isSome_deal_gambler

theorem simulate_inStep_gamblers :
    (∀ s, Simulation.AfterTurns gambler (Deck.sortedCards noVariant) gamblers s →
        InStep (Deck.sortedCards noVariant) s) ∧
      ∃ result, gamblers.run gambler (Deck.sortedCards noVariant)
          (10 * noVariant.deckSize + 2 + 10) = some result ∧
        InStep (Deck.sortedCards noVariant) result ∧
          ∃ last, Simulation.AfterTurns gambler (Deck.sortedCards noVariant) gamblers last ∧
            Simulation.EndsAt gambler (Deck.sortedCards noVariant) last result :=
  simulate_inStep gambler_lawful (List.Perm.refl _) le_rfl (by omega)
    (Option.some_get isSome_deal_gambler).symm

end

end HanabiBot
