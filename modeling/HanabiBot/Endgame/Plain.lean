import HanabiBot.Endgame.Contract

/-!
# The convention without conventions

`plain` moves the board, gives every player a thought of a drawn card, plays what
`Player.thinksPlayables` says, and has no clues and no discards to propose; these are the
defaults of `solve_game`.
-/

namespace HanabiBot

namespace Basics

open Endgame (dealtState drawNext)

variable {st : State}

theorem dealtState_iff : dealtState st = true ↔
    ∀ q < st.numPlayers, ∀ o ∈ st.hands q, (st.deck.get o).isSome = true := by
  rw [dealtState, List.all_eq_true]
  constructor
  · exact fun h q hq o ho => h o (State.mem_allOrders.2 ⟨q, hq, ho⟩)
  · intro h o ho
    obtain ⟨q, hq, ho⟩ := State.mem_allOrders.1 ho
    exact h q hq o ho

theorem isSome_get_revealCard {deck : SparseArray ActualCard} {order o : ℕ}
    (identity : Option Identity) (h : (deck.get o).isSome = true) :
    ((revealCard deck order identity).get o).isSome = true := by
  cases identity with
  | none => exact h
  | some id =>
    rw [revealCard, SparseArray.get_set]
    split
    · rfl
    · exact h

theorem dealtState_onDraw (h : dealtState st = true) (deckId : Option Identity) (order p : ℕ)
    (identity : Option Identity) : dealtState (onDraw st deckId order p identity) = true := by
  rw [dealtState_iff] at h ⊢
  intro q hq o ho
  simp only [onDraw, SparseArray.get_set]
  split
  · rfl
  · rename_i hne
    refine h q hq o ?_
    by_cases hqp : q = p
    · subst hqp
      simpa [onDraw, hne] using ho
    · simpa [onDraw, hqp] using ho

/-- The handler of an action leaves every card in a hand with an entry in the deck. -/
theorem dealtState_after (h : dealtState st = true) (deckIds : SparseArray Identity)
    (act : Action) : dealtState (after st deckIds act) = true := by
  have hdealt := dealtState_iff.1 h
  cases act with
  | clue => exact h
  | turn => exact h
  | draw order p identity => exact dealtState_onDraw h _ order p identity
  | play order p identity =>
    exact dealtState_iff.2 fun q hq o ho =>
      isSome_get_revealCard identity (hdealt q hq o (mem_removeCard ho))
  | discard order p identity failed =>
    exact dealtState_iff.2 fun q hq o ho =>
      isSome_get_revealCard identity (hdealt q hq o (mem_removeCard ho))

end Basics

namespace Endgame

variable {κ : Type}

theorem dealtState_simulateBoard {g : Game κ} (h : dealtState g.state = true) {act : Action}
    {st : State} (hst : g.simulateBoard act = some st) : dealtState st = true := by
  rw [Game.simulateBoard, Option.bind_eq_bind, Option.bind_eq_some_iff] at hst
  obtain ⟨new, hnew, hst⟩ := hst
  obtain ⟨-, rfl⟩ := Basics.onAction_eq_some_iff.1 hnew
  have hafter := Basics.dealtState_after h g.deckIds act
  have hnext : ∀ p draw, drawNext (Basics.after g.state g.deckIds act) g.deckIds p draw = some st →
      dealtState st = true := by
    intro p draw hdraw
    rw [drawNext] at hdraw
    split at hdraw
    · simp only [Option.ite_none_left_eq_some, Option.some.injEq] at hdraw
      rw [← hdraw.2]
      exact Basics.dealtState_onDraw hafter ..
    · cases hdraw
      exact hafter
  cases act with
  | play => exact hnext _ _ hst
  | discard => exact hnext _ _ hst
  | clue | draw | turn =>
    cases hst
    exact hafter

/-- A thought of the card, if there is none yet. -/
def think (player : Player) (thoughts : SparseArray Card) (o : ℕ) : SparseArray Card :=
  if (thoughts.get o).isSome then thoughts
  else thoughts.set o
    { id := none, possible := player.allPossible, inferred := player.allInferred, order := o }

theorem isSome_get_think {player : Player} {thoughts : SparseArray Card} {o x : ℕ}
    (h : (thoughts.get o).isSome = true ∨ o = x) : ((think player thoughts x).get o).isSome = true := by
  rw [think]
  split
  · rcases h with h | rfl <;> assumption
  · rw [SparseArray.get_set]
    split
    · rfl
    · exact h.resolve_right (by assumption)

/-- Every player thinks of all cards in the hands. -/
def thinkAll (player : Player) (orders : List ℕ) : Player :=
  { player with thoughts := orders.foldl (think player) player.thoughts }

theorem isSome_get_thinkAll (player : Player) {orders : List ℕ} {o : ℕ} (ho : o ∈ orders) :
    ((thinkAll player orders).thoughts.get o).isSome = true := by
  have hfold : ∀ (orders : List ℕ) (thoughts : SparseArray Card),
      (thoughts.get o).isSome = true ∨ o ∈ orders →
      ((orders.foldl (think player) thoughts).get o).isSome = true := by
    intro orders
    induction orders with
    | nil => exact fun thoughts h => h.resolve_right (by simp)
    | cons x orders ih =>
      intro thoughts h
      refine ih _ ?_
      rcases h with h | h
      · exact Or.inl (isSome_get_think (Or.inl h))
      · exact (List.mem_cons.1 h).imp_left fun hx => isSome_get_think (Or.inr hx)
  exact hfold orders player.thoughts (Or.inr ho)

/-- The convention without conventions. -/
def plain : Convention κ where
  simulateAction g act := (g.simulateBoard act).map fun st =>
    { g with state := st, players := fun q => thinkAll (g.players q) st.allOrders }
  thinksPlayables g p := (g.players p).thinksPlayables g.state p
  findClues _ _ := []
  findDiscards _ _ := []

theorem plain_lawful : (plain : Convention κ).Lawful where
  board _ hsim hst := by
    obtain ⟨st', hst', rfl⟩ := Option.map_eq_some_iff.1 hsim
    rw [hst] at hst'
    cases hst'
    rfl
  dealt h hsim := by
    obtain ⟨st, hst, rfl⟩ := Option.map_eq_some_iff.1 hsim
    rw [Game.dealt, Bool.and_eq_true]
    refine ⟨dealtState_simulateBoard (dealtState_of_dealt h.sane.dealt) hst,
      List.all_eq_true.2 fun o ho => ?_⟩
    exact List.all_eq_true.2 fun q _ => isSome_get_thinkAll _ ho

theorem plain_returns : (plain : Convention κ).Returns := by
  intro g p action act h
  obtain ⟨st, hst, -⟩ := h.board
  change ((g.simulateBoard act).map _).isSome = true
  rw [Option.isSome_map, hst]
  rfl

theorem plain_fair : Fair (plain : Convention κ) where
  playables g p o ho := (List.mem_filter.1 ho).1
  clues := by simp [plain]
  discards := by simp [plain]

/-- Red and blue. -/
def redBlue : Variant := { suits := ["Red", "Blue"], shortForms := ['r', 'b'] }

theorem suits_redBlue : redBlue.suits ≠ [] := by decide

end Endgame

end HanabiBot
