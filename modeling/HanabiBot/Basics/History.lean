import HanabiBot.Basics.Board

/-!
# The history of a game

`handle_action` of `src/action-handler.js` writes every action down in
`state.actionList` and hands it to the convention.  `GameAction` is an action as it
is written down: those that change the board with their flags, and those that a
rewind inserts.

What the players think is the `data` of a `LoggedGame`, and what a convention does
with it is left open: `Handlers` are any handlers, and `Handlers.Lawful` says that
they change the board only through `onClue`, `onPlay` and `onDiscard`.  They may
rewind, so that the record gains the actions that a rewind inserts; `Handlers.Quiet`
says that they do not.

* `Reachable.position_eq` — the position of a game is that of its history;
* `Reachable.history` — and its history is a valid one.
-/

namespace HanabiBot

/-- The flags that conventions set on clues and discards. -/
structure ActionFlags where
  mistake : Option Bool := none
  lock : Option Bool := none
  important : Option Bool := none
  hypothetical : Option Bool := none
  intentional : Option Bool := none
  deriving DecidableEq, Repr

/-- `Action` of `Action.ts`. -/
inductive GameAction
  /-- A clue, draw, play, discard or turn. -/
  | board (action : Action) (flags : ActionFlags)
  | status (clues score maxScore : ℕ)
  | gameOver (endCondition playerIndex : ℕ)
  | identify (order playerIndex : ℕ) (identities : List Identity) (infer : Option Bool)
  | ignore (connIndex order : ℕ) (inference : Option Identity)
  | finesse (list : List ℕ) (clue : BaseClue)
  deriving DecidableEq, Repr

namespace State

/-- What all players see of a state: neither the identities of the cards nor the record. -/
def position (st : State) : State :=
  { st with ourPlayerIndex := 0, deck := .empty, actionList := .empty }

/-- Every hand is full, the first deal is over. -/
def handsFull (st : State) : Bool :=
  (List.range st.numPlayers).all fun p =>
    ((st.hands p).length : ℤ) == HAND_SIZE.getD st.numPlayers 0

end State

/-- `Game`, with the actions of `state.actionList`; what a convention keeps is its `data`. -/
structure LoggedGame (κ : Type) where
  state : State
  actionList : SparseArray (List GameAction) := .empty
  /-- `base.state`. -/
  base : State
  deckIds : SparseArray Identity := .empty
  rewinds : ℕ := 0
  rewindDepth : ℕ := 0
  data : κ

/-- What a convention does with an action; its handlers may throw. -/
structure Handlers (κ : Type) where
  interpretClue : LoggedGame κ → GameAction → Option (LoggedGame κ)
  interpretDiscard : LoggedGame κ → GameAction → Option (LoggedGame κ)
  interpretPlay : LoggedGame κ → GameAction → Option (LoggedGame κ)
  updateTurn : LoggedGame κ → GameAction → Option (LoggedGame κ)
  /-- What `handle_action` itself writes on the players, before and after the handler. -/
  before : LoggedGame κ → GameAction → κ
  after : LoggedGame κ → GameAction → κ
  /-- The players of a blank game. -/
  blank : LoggedGame κ → κ
  /-- `newGame.catchup = this.catchup`. -/
  resume : LoggedGame κ → LoggedGame κ → κ

/-- `onDraw`, and the first turn after the deal. -/
def State.draw (st : State) (deckId : Option Identity) (order playerIndex : ℕ)
    (identity : Option Identity) : State :=
  let new := Basics.onDraw st deckId order playerIndex identity
  { new with turnCount := if st.turnCount = 0 ∧ new.handsFull = true then 1 else st.turnCount }

/-- The action's effect on the position. -/
def State.next (st : State) : GameAction → State
  | .board (.draw order playerIndex identity) _ => st.draw none order playerIndex identity
  | .board (.turn num _) _ => { st with turnCount := num + 1 }
  | .board action _ => Basics.after st .empty action
  | _ => st

namespace LoggedGame

variable {κ : Type}

/-- `actionList.flat()`. -/
def history (g : LoggedGame κ) : List GameAction :=
  (List.range g.actionList.length).flatMap fun turn => (g.actionList.get turn).getD []

/-- `draft.state.actionList[state.turn_count].push(action)`. -/
def record (g : LoggedGame κ) (action : GameAction) : LoggedGame κ :=
  { g with
    actionList := g.actionList.set g.state.turnCount
      ((g.actionList.get g.state.turnCount).getD [] ++ [action]) }

/-- Write an identity on a card of the deck that has none. -/
def reveal (g : LoggedGame κ) (order : ℕ) (identity : Option Identity) : LoggedGame κ :=
  if (g.state.identityOf order).isNone then
    { g with state := { g.state with deck := g.state.deck.set order ⟨identity⟩ } }
  else g

/-- The case 'draw'; it throws if the hand is too large. -/
def draw (g : LoggedGame κ) (order playerIndex : ℕ) (identity : Option Identity) :
    Option (LoggedGame κ) :=
  if g.state.handSize < (g.state.hands playerIndex).length then none
  else
    some
      { g with
        state := g.state.draw (g.deckIds.get order) order playerIndex identity
        deckIds := match identity with
          | some id => g.deckIds.set order id
          | none => g.deckIds }

/-- The identity that an `identify` action settles. -/
def identified (identities : List Identity) (infer : Option Bool) : Option Identity :=
  match identities, infer.getD false with
  | [id], false => some id
  | _, _ => none

/-- `handle_action`. -/
def handleAction (hs : Handlers κ) (g : LoggedGame κ) (action : GameAction) :
    Option (LoggedGame κ) :=
  let before := fun new : LoggedGame κ => { new with data := hs.before new action }
  let after := fun new : LoggedGame κ => { new with data := hs.after new action }
  let new := g.record action
  match action with
  | .board (.clue ..) _ => (hs.interpretClue (before new) action).map after
  | .board (.discard order _ identity _) _ =>
    if (g.state.deck.get order).isNone then none
    else (hs.interpretDiscard (before (new.reveal order identity)) action).map after
  | .board (.draw order playerIndex identity) _ => (new.draw order playerIndex identity).map after
  | .board (.turn num _) _ =>
    (hs.updateTurn (before { new with state := { g.state with turnCount := num + 1 } }) action).map
      after
  | .board (.play order _ identity) _ =>
    if (g.state.deck.get order).isNone then none
    else (hs.interpretPlay (before (new.reveal order identity)) action).map after
  | .identify order playerIndex identities infer =>
    if order ∈ g.state.hands playerIndex then
      match identified identities infer with
      | some id =>
        some (after { new with state := { g.state with deck := g.state.deck.set order ⟨some id⟩ } })
      | none => some (after new)
    else none
  | .status .. | .gameOver .. | .ignore .. | .finesse .. => some (after new)

end LoggedGame

/-- Cards are drawn once, and the turns are counted up. -/
def GameAction.Valid (st : State) : GameAction → Prop
  | .board (.draw order playerIndex _) _ => order ∉ st.hands playerIndex
  | .board (.turn num _) _ => st.turnCount ≤ num + 1
  | _ => True

instance (st : State) (action : GameAction) : Decidable (action.Valid st) := by
  unfold GameAction.Valid; split <;> infer_instance

/-- The actions are valid one after the other. -/
def ValidFrom : State → List GameAction → Prop
  | _, [] => True
  | st, action :: actions => action.Valid st ∧ ValidFrom (st.next action) actions

instance : (st : State) → (actions : List GameAction) → Decidable (ValidFrom st actions)
  | _, [] => .isTrue trivial
  | st, action :: actions =>
    have := instDecidableValidFrom (st.next action) actions
    inferInstanceAs (Decidable (action.Valid st ∧ ValidFrom (st.next action) actions))

/-- An action without its flags. -/
def GameAction.bare : GameAction → GameAction
  | .board action _ => .board action {}
  | action => action

/-- Whether the action changes the board. -/
def GameAction.isBoard : GameAction → Bool
  | .board .. => true
  | _ => false

/-- The actions that change the board, without their flags. -/
def boardActions (actions : List GameAction) : List GameAction :=
  (actions.filter GameAction.isBoard).map GameAction.bare

/-- The same actions are recorded, with whatever flags. -/
structure SameRecord {κ : Type} (g g' : LoggedGame κ) : Prop where
  base_eq : g'.base = g.base
  length_eq : g'.actionList.length = g.actionList.length
  get_eq : ∀ turn, (g'.actionList.get turn).map (·.map GameAction.bare) =
    (g.actionList.get turn).map (·.map GameAction.bare)

/-- The same changes of the board are recorded, among whatever else. -/
structure SameMoves {κ : Type} (g g' : LoggedGame κ) : Prop where
  base_eq : g'.base = g.base
  length_eq : g'.actionList.length = g.actionList.length
  get_eq : ∀ turn, (g'.actionList.get turn).map boardActions =
    (g.actionList.get turn).map boardActions

/-- The games that valid actions lead to, while anything else may change what players think. -/
inductive Reachable {κ : Type} (hs : Handlers κ) : LoggedGame κ → Prop
  | fresh {g : LoggedGame κ} : g.actionList = .empty → g.state = g.base → Reachable hs g
  | handle {g g' : LoggedGame κ} {action : GameAction} : Reachable hs g → action.Valid g.state →
      g.handleAction hs action = some g' → Reachable hs g'
  | update {g g' : LoggedGame κ} : Reachable hs g → SameRecord g g' → g'.state = g.state →
      Reachable hs g'

/-- The board changes as the action says, and no other change is recorded. -/
def Moves {κ : Type} (g : LoggedGame κ) (action : GameAction) (g' : LoggedGame κ) : Prop :=
  g'.state.position = (g.state.next action).position ∧ SameMoves g g'

/-- The handlers change the board only through `onClue`, `onPlay` and `onDiscard`. -/
structure Handlers.Lawful {κ : Type} (hs : Handlers κ) : Prop where
  clue : ∀ g giver target list clue flags g',
    hs.interpretClue g (.board (.clue giver target list clue) flags) = some g' →
      Moves g (.board (.clue giver target list clue) flags) g'
  discard : ∀ g order playerIndex identity failed flags g',
    hs.interpretDiscard g (.board (.discard order playerIndex identity failed) flags) = some g' →
      Moves g (.board (.discard order playerIndex identity failed) flags) g'
  play : ∀ g order playerIndex identity flags g',
    hs.interpretPlay g (.board (.play order playerIndex identity) flags) = some g' →
      Moves g (.board (.play order playerIndex identity) flags) g'
  turn : ∀ g num playerIndex flags g',
    hs.updateTurn g (.board (.turn num playerIndex) flags) = some g' →
      g'.state.position = g.state.position ∧ SameMoves g g'

/-- The handlers request no rewind, and leave the record as it is. -/
structure Handlers.Quiet {κ : Type} (hs : Handlers κ) : Prop where
  clue : ∀ g action g', hs.interpretClue g action = some g' → g'.actionList = g.actionList
  discard : ∀ g action g', hs.interpretDiscard g action = some g' → g'.actionList = g.actionList
  play : ∀ g action g', hs.interpretPlay g action = some g' → g'.actionList = g.actionList
  turn : ∀ g action g', hs.updateTurn g action = some g' → g'.actionList = g.actionList

/-- The handlers of a convention that only moves the board. -/
def Handlers.plain : Handlers Unit where
  interpretClue g action := some { g with state := g.state.next action }
  interpretDiscard g action := some { g with state := g.state.next action }
  interpretPlay g action := some { g with state := g.state.next action }
  updateTurn g _ := some g
  before _ _ := ()
  after _ _ := ()
  blank _ := ()
  resume _ _ := ()

theorem Handlers.plain_lawful : Handlers.plain.Lawful := by
  constructor <;> intros <;> rename_i h <;> cases h <;> exact ⟨rfl, rfl, rfl, fun _ => rfl⟩

theorem Handlers.plain_quiet : Handlers.plain.Quiet := by
  constructor <;> intros <;> rename_i h <;> cases h <;> rfl

/-! ## Positions -/

section

variable {st st' : State}

theorem State.eq_of_position_eq (h : st.position = st'.position) : st' =
    { st with
      ourPlayerIndex := st'.ourPlayerIndex, deck := st'.deck, actionList := st'.actionList } := by
  cases st
  cases st'
  simp only [State.position, State.mk.injEq] at h ⊢
  simp_all

/-- The effect of an action on the position depends on the position only. -/
theorem State.position_next (h : st.position = st'.position) (action : GameAction) :
    (st.next action).position = (st'.next action).position := by
  rw [State.eq_of_position_eq h]
  cases action with
  | board action flags =>
    cases action <;> rfl
  | status | gameOver | identify | ignore | finesse => rfl

theorem GameAction.Valid.congr {action : GameAction} (h : st.position = st'.position)
    (hv : action.Valid st) : action.Valid st' := by
  rw [State.eq_of_position_eq h]
  exact hv

theorem State.turnCount_le_next {action : GameAction} (hv : action.Valid st) :
    st.turnCount ≤ (st.next action).turnCount := by
  cases action with
  | board action flags =>
    cases action with
    | draw order p identity =>
      simp only [State.next, State.draw]
      split <;> omega
    | turn => exact hv
    | clue | play | discard => exact le_rfl
  | status | gameOver | identify | ignore | finesse => exact le_rfl

theorem validFrom_append {actions : List GameAction} {actions' : List GameAction} :
    ValidFrom st (actions ++ actions') ↔
      ValidFrom st actions ∧ ValidFrom (actions.foldl State.next st) actions' := by
  induction actions generalizing st with
  | nil => simp [ValidFrom]
  | cons action actions ih => simp [ValidFrom, ih, and_assoc]

theorem State.next_bare (st : State) (action : GameAction) : st.next action.bare = st.next action := by
  cases action with
  | board action flags => cases action <;> rfl
  | status | gameOver | identify | ignore | finesse => rfl

theorem GameAction.valid_bare {action : GameAction} : action.bare.Valid st ↔ action.Valid st := by
  cases action with
  | board action flags => cases action <;> exact Iff.rfl
  | status | gameOver | identify | ignore | finesse => exact Iff.rfl

/-- The board changes by the actions that change it. -/
theorem foldl_next_boardActions (st : State) (actions : List GameAction) :
    (boardActions actions).foldl State.next st = actions.foldl State.next st := by
  induction actions generalizing st with
  | nil => rfl
  | cons action actions ih =>
    cases action with
    | board action flags =>
      have hbare := State.next_bare st (.board action flags)
      exact (ih _).trans (congrArg (List.foldl State.next · actions) hbare)
    | status | gameOver | identify | ignore | finesse => exact ih st

theorem validFrom_boardActions {actions : List GameAction} :
    ValidFrom st (boardActions actions) ↔ ValidFrom st actions := by
  induction actions generalizing st with
  | nil => exact Iff.rfl
  | cons action actions ih =>
    cases action with
    | board action flags =>
      show GameAction.Valid st (GameAction.board action flags).bare ∧
        ValidFrom (st.next (GameAction.board action flags).bare) (boardActions actions) ↔ _
      rw [GameAction.valid_bare, State.next_bare, ih]
      exact Iff.rfl
    | status | gameOver | identify | ignore | finesse => exact ih.trans (and_iff_right trivial).symm

theorem ValidFrom.congr {actions : List GameAction} (h : st.position = st'.position)
    (hv : ValidFrom st actions) : ValidFrom st' actions := by
  induction actions generalizing st st' with
  | nil => trivial
  | cons action actions ih =>
    exact ⟨hv.1.congr h, ih (State.position_next h action) hv.2⟩

theorem State.position_foldl_next (h : st.position = st'.position) (actions : List GameAction) :
    (actions.foldl State.next st).position = (actions.foldl State.next st').position := by
  induction actions generalizing st st' with
  | nil => exact h
  | cons action actions ih => exact ih (State.position_next h action)

end

/-! ## Recording -/

theorem SameMoves.trans {κ : Type} {g g' g'' : LoggedGame κ} (h : SameMoves g g')
    (h' : SameMoves g' g'') : SameMoves g g'' :=
  ⟨h'.base_eq.trans h.base_eq, h'.length_eq.trans h.length_eq,
    fun turn => (h'.get_eq turn).trans (h.get_eq turn)⟩

namespace LoggedGame

variable {κ : Type} {hs : Handlers κ} {g g' : LoggedGame κ} {action : GameAction}

/-- What is recorded: nothing after the current turn. -/
structure Filed (g : LoggedGame κ) : Prop where
  bounded : g.actionList.Bounded
  length_le : g.actionList.length ≤ g.state.turnCount + 1

theorem flatMap_of_length_le {a : SparseArray (List GameAction)} (h : a.Bounded) {n : ℕ}
    (hn : a.length ≤ n) : ((List.range n).flatMap fun turn => (a.get turn).getD []) =
      (List.range a.length).flatMap fun turn => (a.get turn).getD [] := by
  obtain ⟨k, rfl⟩ := Nat.exists_eq_add_of_le hn
  rw [List.range_add, List.flatMap_append, List.flatMap_map]
  have hnil : ((List.range k).flatMap fun i => (a.get (a.length + i)).getD []) = [] := by
    rw [List.flatMap_eq_nil_iff]
    intro i _
    rw [h _ (Nat.le_add_right _ _)]
    rfl
  rw [hnil, List.append_nil]

/-- Recording appends to the history. -/
theorem history_record (h : g.Filed) (action : GameAction) :
    (g.record action).history = g.history ++ [action] := by
  have hlen : (g.record action).actionList.length = g.state.turnCount + 1 :=
    max_eq_right h.length_le
  rw [history, hlen, List.range_succ, List.flatMap_append, history,
    ← flatMap_of_length_le h.bounded h.length_le, List.range_succ, List.flatMap_append,
    List.append_assoc]
  congr 1
  · refine List.flatMap_congr fun turn hturn => ?_
    rw [record, SparseArray.get_set_of_ne _ (List.mem_range.1 hturn).ne]
  · simp [record]

theorem Filed.record (h : g.Filed) (action : GameAction) : (g.record action).Filed :=
  ⟨h.bounded.set _ _, (max_eq_right h.length_le).le⟩

theorem reveal_position (g : LoggedGame κ) (order : ℕ) (identity : Option Identity) :
    (g.reveal order identity).state.position = g.state.position ∧
      SameMoves g (g.reveal order identity) := by
  rw [reveal]
  split <;> exact ⟨rfl, rfl, rfl, fun _ => rfl⟩

/-- Handling an action records it and moves the position. -/
theorem handleAction_spec (hlaw : hs.Lawful) (h : g.handleAction hs action = some g') :
    g'.state.position = (g.state.next action).position ∧ SameMoves (g.record action) g' := by
  unfold handleAction at h
  cases action with
  | board action flags =>
    cases action with
    | clue =>
      obtain ⟨new, hnew, rfl⟩ := Option.map_eq_some_iff.1 h
      obtain ⟨hpos, hsame⟩ := hlaw.clue _ _ _ _ _ _ _ hnew
      exact ⟨hpos, hsame.base_eq, hsame.length_eq, hsame.get_eq⟩
    | draw order p identity =>
      obtain ⟨new, hnew, rfl⟩ := Option.map_eq_some_iff.1 h
      simp only [draw, Option.ite_none_left_eq_some, Option.some.injEq] at hnew
      obtain ⟨-, rfl⟩ := hnew
      exact ⟨rfl, rfl, rfl, fun _ => rfl⟩
    | play order p identity =>
      simp only [Option.ite_none_left_eq_some, Option.map_eq_some_iff] at h
      obtain ⟨-, new, hnew, rfl⟩ := h
      obtain ⟨hpos, hsame⟩ := hlaw.play _ _ _ _ _ _ hnew
      obtain ⟨hpos', hsame'⟩ := (g.record _).reveal_position order identity
      have hall := hsame'.trans ⟨hsame.base_eq, hsame.length_eq, hsame.get_eq⟩
      exact ⟨hpos.trans (State.position_next hpos' _), hall.base_eq, hall.length_eq, hall.get_eq⟩
    | discard order p identity failed =>
      simp only [Option.ite_none_left_eq_some, Option.map_eq_some_iff] at h
      obtain ⟨-, new, hnew, rfl⟩ := h
      obtain ⟨hpos, hsame⟩ := hlaw.discard _ _ _ _ _ _ _ hnew
      obtain ⟨hpos', hsame'⟩ := (g.record _).reveal_position order identity
      have hall := hsame'.trans ⟨hsame.base_eq, hsame.length_eq, hsame.get_eq⟩
      exact ⟨hpos.trans (State.position_next hpos' _), hall.base_eq, hall.length_eq, hall.get_eq⟩
    | turn num p =>
      obtain ⟨new, hnew, rfl⟩ := Option.map_eq_some_iff.1 h
      obtain ⟨hpos, hsame⟩ := hlaw.turn _ _ _ _ _ hnew
      exact ⟨hpos, hsame.base_eq, hsame.length_eq, hsame.get_eq⟩
  | identify order p ids infer =>
    simp only [Option.ite_none_right_eq_some] at h
    obtain ⟨-, h⟩ := h
    split at h <;> cases h <;> exact ⟨rfl, rfl, rfl, fun _ => rfl⟩
  | status | gameOver | ignore | finesse =>
    cases h
    exact ⟨rfl, rfl, rfl, fun _ => rfl⟩

/-- Handlers that request no rewind record the action alone. -/
theorem handleAction_actionList (hquiet : hs.Quiet) (h : g.handleAction hs action = some g') :
    g'.actionList = (g.record action).actionList := by
  have hreveal : ∀ (g : LoggedGame κ) (order : ℕ) (identity : Option Identity),
      (g.reveal order identity).actionList = g.actionList := by
    intro g order identity
    rw [reveal]
    split <;> rfl
  unfold handleAction at h
  cases action with
  | board action flags =>
    cases action with
    | clue =>
      obtain ⟨new, hnew, rfl⟩ := Option.map_eq_some_iff.1 h
      have hlist := hquiet.clue _ _ _ hnew
      exact hlist
    | draw order p identity =>
      obtain ⟨new, hnew, rfl⟩ := Option.map_eq_some_iff.1 h
      simp only [draw, Option.ite_none_left_eq_some, Option.some.injEq] at hnew
      obtain ⟨-, rfl⟩ := hnew
      rfl
    | play order p identity =>
      simp only [Option.ite_none_left_eq_some, Option.map_eq_some_iff] at h
      obtain ⟨-, new, hnew, rfl⟩ := h
      have hlist := hquiet.play _ _ _ hnew
      exact hlist.trans (hreveal _ order identity)
    | discard order p identity failed =>
      simp only [Option.ite_none_left_eq_some, Option.map_eq_some_iff] at h
      obtain ⟨-, new, hnew, rfl⟩ := h
      have hlist := hquiet.discard _ _ _ hnew
      exact hlist.trans (hreveal _ order identity)
    | turn num p =>
      obtain ⟨new, hnew, rfl⟩ := Option.map_eq_some_iff.1 h
      have hlist := hquiet.turn _ _ _ hnew
      exact hlist
  | identify order p ids infer =>
    simp only [Option.ite_none_right_eq_some] at h
    obtain ⟨-, h⟩ := h
    split at h <;> cases h <;> rfl
  | status | gameOver | ignore | finesse =>
    cases h
    rfl

theorem history_eq_of_actionList_eq (h : g'.actionList = g.actionList) : g'.history = g.history := by
  rw [history, history, h]

end LoggedGame

namespace SameRecord

variable {κ : Type} {g g' : LoggedGame κ}

theorem flatMap_eq (h : SameRecord g g') (turns : List ℕ) :
    (turns.flatMap fun turn => (g'.actionList.get turn).getD []).map GameAction.bare =
      (turns.flatMap fun turn => (g.actionList.get turn).getD []).map GameAction.bare := by
  rw [List.map_flatMap, List.map_flatMap]
  refine List.flatMap_congr fun turn _ => ?_
  have := h.get_eq turn
  revert this
  cases g'.actionList.get turn <;> cases g.actionList.get turn <;> simp

theorem history_eq (h : SameRecord g g') :
    g'.history.map GameAction.bare = g.history.map GameAction.bare := by
  rw [LoggedGame.history, h.length_eq]
  exact h.flatMap_eq _

theorem sameMoves (h : SameRecord g g') : SameMoves g g' := by
  have hboard : ∀ actions : List GameAction,
      boardActions actions = (actions.map GameAction.bare).filter GameAction.isBoard := by
    intro actions
    rw [boardActions, List.filter_map]
    congr 2
    funext action
    cases action <;> rfl
  refine ⟨h.base_eq, h.length_eq, fun turn => ?_⟩
  have hmap := congrArg (Option.map (List.filter GameAction.isBoard)) (h.get_eq turn)
  simpa only [Option.map_map, Function.comp_def, ← hboard] using hmap

end SameRecord

namespace SameMoves

variable {κ : Type} {g g' : LoggedGame κ}

theorem flatMap_eq (h : SameMoves g g') (turns : List ℕ) :
    boardActions (turns.flatMap fun turn => (g'.actionList.get turn).getD []) =
      boardActions (turns.flatMap fun turn => (g.actionList.get turn).getD []) := by
  simp only [boardActions, List.filter_flatMap, List.map_flatMap]
  refine List.flatMap_congr fun turn _ => ?_
  have := h.get_eq turn
  revert this
  cases g'.actionList.get turn <;> cases g.actionList.get turn <;> simp [boardActions]

theorem history_eq (h : SameMoves g g') : boardActions g'.history = boardActions g.history := by
  rw [LoggedGame.history, h.length_eq]
  exact h.flatMap_eq _

/-- The record leads to the same state. -/
theorem foldl_history (h : SameMoves g g') (st : State) :
    g'.history.foldl State.next st = g.history.foldl State.next st := by
  rw [← foldl_next_boardActions, h.history_eq, foldl_next_boardActions]

theorem validFrom_history (h : SameMoves g g') {st : State} :
    ValidFrom st g'.history ↔ ValidFrom st g.history := by
  rw [← validFrom_boardActions, h.history_eq, validFrom_boardActions]

theorem filed (h : SameMoves g g') (hf : g.Filed) (hturn : g.state.turnCount ≤ g'.state.turnCount) :
    g'.Filed := by
  refine ⟨fun turn hlen => ?_, ?_⟩
  · have hget := h.get_eq turn
    rw [hf.bounded turn (h.length_eq ▸ hlen)] at hget
    simpa using hget
  · rw [h.length_eq]
    exact hf.length_le.trans (Nat.succ_le_succ hturn)

end SameMoves

/-! ## Reachable games -/

namespace Reachable

variable {κ : Type} {hs : Handlers κ} {g : LoggedGame κ}

theorem filed (hlaw : hs.Lawful) (h : Reachable hs g) : g.Filed := by
  induction h with
  | fresh hlist _ => exact ⟨hlist ▸ SparseArray.bounded_empty, hlist ▸ Nat.zero_le _⟩
  | @update g g' _ hsame hst ih => exact hsame.sameMoves.filed ih (hst ▸ le_rfl)
  | @handle g g' action _ hv hstep ih =>
    obtain ⟨hpos, hsame⟩ := LoggedGame.handleAction_spec hlaw hstep
    have hturn : g'.state.turnCount = (g.state.next action).turnCount := by
      have := congrArg State.turnCount hpos
      exact this
    refine hsame.filed (ih.record action) ?_
    rw [hturn]
    exact State.turnCount_le_next hv

/-- The position of a game is that of its history, which is a valid one. -/
theorem position_eq (hlaw : hs.Lawful) (h : Reachable hs g) :
    g.state.position = (g.history.foldl State.next g.base).position ∧
      ValidFrom g.base g.history := by
  induction h with
  | @fresh g hlist hbase =>
    have hnil : g.history = [] := by
      rw [LoggedGame.history, hlist]
      rfl
    rw [hnil, hbase]
    exact ⟨rfl, trivial⟩
  | @update g g' _ hsame hst ih =>
    have hmoves := hsame.sameMoves
    rw [hst, hsame.base_eq, hmoves.foldl_history, hmoves.validFrom_history]
    exact ih
  | @handle g g' action hg hv hstep ih =>
    obtain ⟨hpos, hsame⟩ := LoggedGame.handleAction_spec hlaw hstep
    rw [hsame.base_eq, hsame.foldl_history, hsame.validFrom_history,
      LoggedGame.history_record (hg.filed hlaw), List.foldl_append, validFrom_append]
    exact ⟨hpos.trans (State.position_next ih.1 action), ih.2, hv.congr ih.1, trivial⟩

end Reachable

end HanabiBot
