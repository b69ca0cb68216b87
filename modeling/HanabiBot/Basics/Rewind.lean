import HanabiBot.Basics.History

/-!
# Rewinding

`rewind` of `src/basics/Game.js` replays the history of a game on a blank one, with
some actions inserted before a turn.  It also writes to the game that is rewound:
it counts the attempt, and cleans the flags of the recorded actions.

* `rewind_position` — the game that is returned is in the position of the history;
* `rewind_identifies_iff` — which inserted `identify` actions are handled;
* `refused_iff` — when refused attempts leave the game as it was.
-/

namespace HanabiBot

/-- How `rewind` throws; the last one is an error of a handler. -/
inductive RewindError
  | tooMany
  | tooDeep
  | typeError
  | handler
  deriving DecidableEq, Repr

namespace GameAction

/-- `cleanAction`. -/
def clean : GameAction → GameAction
  | .board (.clue giver target list clue) flags =>
    .board (.clue giver target list clue)
      { flags with
        mistake := some false
        lock := some false
        important := some false
        hypothetical := some false }
  | .board (.discard order playerIndex identity failed) flags =>
    .board (.discard order playerIndex identity failed) { flags with intentional := some false }
  | action => action

/-- The types of actions that a rewind inserts. -/
def isInserted : GameAction → Bool
  | .identify .. | .ignore .. | .finesse .. => true
  | _ => false

def isIdentify : GameAction → Bool
  | .identify .. => true
  | _ => false

/-- `action.order` of an `identify` action. -/
def identifies? : GameAction → Option ℕ
  | .identify order .. => some order
  | _ => none

/-- `action.order` of a draw. -/
def draws? : GameAction → Option ℕ
  | .board (.draw order ..) _ => some order
  | _ => none

/-- An `identify` action for a card that is not in the hand. -/
def waits (st : State) : GameAction → Bool
  | .identify order playerIndex .. => !(st.hands playerIndex).contains order
  | _ => false

end GameAction

/-- Set the flag of the pivotal action of a turn, if that is a clue. -/
def markMistake (rewindDepth : ℕ) : List GameAction → List GameAction
  | [] => []
  | .board (.clue giver target list clue) flags :: actions =>
    .board (.clue giver target list clue) { flags with mistake := some (decide (1 < rewindDepth)) } ::
      actions
  | .board (.play order playerIndex identity) flags :: actions =>
    .board (.play order playerIndex identity) flags :: actions
  | .board (.discard order playerIndex identity failed) flags :: actions =>
    .board (.discard order playerIndex identity failed) flags :: actions
  | action :: actions => action :: markMistake rewindDepth actions

namespace LoggedGame

variable {κ : Type}

/-! ## The replay -/

/-- `createBlank`. -/
def createBlank (hs : Handlers κ) (g : LoggedGame κ) : LoggedGame κ where
  state := g.base
  base := g.base
  deckIds := g.deckIds
  rewinds := g.rewinds
  data := hs.blank g

/-- `update_game`: cards that have been dealt are not drawn again. -/
def updateGame (hs : Handlers κ) (g : LoggedGame κ) (action : GameAction) :
    Option (LoggedGame κ) :=
  match action with
  | .board (.draw order playerIndex _) _ =>
    if order ∈ g.state.hands playerIndex then some g else g.handleAction hs action
  | _ => g.handleAction hs action

/-- Handle the next `identify` action, if its card has just been drawn. -/
def identifyDrawn (hs : Handlers κ) (g : LoggedGame κ) (action : GameAction) :
    List GameAction → Option (LoggedGame κ × List GameAction)
  | [] => some (g, [])
  | next :: queue =>
    if action.draws?.isSome ∧ action.draws? = next.identifies? then
      (g.handleAction hs next).map fun new => (new, queue)
    else some (g, next :: queue)

/-- Handle the rewind actions, up to those that wait for their cards. -/
def insertAll (hs : Handlers κ) :
    LoggedGame κ → List GameAction → List GameAction → Option (LoggedGame κ × List GameAction)
  | g, queue, [] => some (g, queue)
  | g, queue, action :: actions =>
    if action.waits g.state then insertAll hs g (queue ++ [action]) actions
    else do
      let new ← g.updateGame hs action
      let (new, queue) ← new.identifyDrawn hs action queue
      insertAll hs new queue actions

/-- Redo the following actions. -/
def redo (hs : Handlers κ) :
    LoggedGame κ → List GameAction → List GameAction → Option (LoggedGame κ × List GameAction)
  | g, queue, [] => some (g, queue)
  | g, queue, action :: actions => do
    let new ← g.updateGame hs action
    let (new, queue) ← new.identifyDrawn hs action queue
    redo hs new queue actions

/-- The actions of some turns. -/
def turns (g : LoggedGame κ) (start count : ℕ) : List GameAction :=
  (List.range' start count).flatMap fun turn => (g.actionList.get turn).getD []

/-- The game with the actions inserted before a turn. -/
def replay (hs : Handlers κ) (g : LoggedGame κ) (index : ℕ) (rewindActions : List GameAction) :
    Option (LoggedGame κ) := do
  let new ← (g.turns 0 index).foldlM (updateGame hs) (g.createBlank hs)
  let (new, queue) ← new.insertAll hs [] rewindActions
  let (new, _) ← new.redo hs queue (g.turns index (g.actionList.length - 1 - index))
  let last ← g.actionList.get (g.actionList.length - 1)
  last.foldlM (handleAction hs) { new with data := hs.resume g new }

/-! ## The attempt -/

/-- `list.map(Utils.cleanAction)` for every list, in place. -/
def cleaned (g : LoggedGame κ) : LoggedGame κ :=
  { g with
    actionList :=
      ⟨g.actionList.length, fun turn => (g.actionList.get turn).map (·.map GameAction.clean)⟩ }

/-- The index of a turn, if it is one. -/
def turnIndex (g : LoggedGame κ) : Option ℤ → Option ℕ
  | none => none
  | some index => if index < 0 ∨ (g.actionList.length : ℤ) ≤ index then none else some index.toNat

/-- `rewind`: the game afterwards, and what is returned. An index that is no number is `none`. -/
def rewind (hs : Handlers κ) (g : LoggedGame κ) (actionIndex : Option ℤ)
    (rewindActions : List GameAction) : LoggedGame κ × Except RewindError (Option (LoggedGame κ)) :=
  let g := { g.cleaned with rewinds := g.rewinds + 1 }
  if 100 < g.rewinds then (g, .error .tooMany)
  else if 3 < g.rewindDepth then (g, .error .tooDeep)
  else
    match g.turnIndex actionIndex with
    | none => (g, .ok none)
    | some index =>
      let g := { g with rewindDepth := g.rewindDepth + 1 }
      match g.actionList.get index with
      | none => (g, .error .typeError)
      | some actions =>
        if actions.any rewindActions.contains then (g, .ok none)
        else
          let g :=
            { g with actionList := g.actionList.set index (markMistake g.rewindDepth actions) }
          match g.replay hs index rewindActions with
          | none => (g, .error .handler)
          | some new => (g, .ok (some new))

end LoggedGame

/-! ## Flags do not matter -/

theorem GameAction.bare_clean (action : GameAction) : action.clean.bare = action.bare := by
  cases action with
  | board action flags => cases action <;> rfl
  | status | gameOver | identify | ignore | finesse => rfl

theorem map_bare_markMistake (depth : ℕ) (actions : List GameAction) :
    (markMistake depth actions).map GameAction.bare = actions.map GameAction.bare := by
  induction actions with
  | nil => rfl
  | cons action actions ih =>
    cases action with
    | board action flags =>
      cases action with
      | clue | play | discard => rfl
      | draw | turn => simp only [markMistake, List.map_cons, ih]
    | status | gameOver | identify | ignore | finesse => simp only [markMistake, List.map_cons, ih]

namespace LoggedGame

variable {κ : Type} {hs : Handlers κ} {g g' : LoggedGame κ}

theorem sameRecord_cleaned (g : LoggedGame κ) : SameRecord g g.cleaned where
  base_eq := rfl
  length_eq := rfl
  get_eq turn := by
    simp only [cleaned, Option.map_map]
    congr 1
    funext actions
    simp only [Function.comp_apply, List.map_map]
    exact List.map_congr_left fun action _ => action.bare_clean

/-- A game that is returned is the replay of the same record. -/
theorem rewind_some {actionIndex : Option ℤ} {actions : List GameAction}
    (h : (g.rewind hs actionIndex actions).2 = .ok (some g')) :
    ∃ (m : LoggedGame κ) (index : ℕ), SameRecord g m ∧ actionIndex = some (index : ℤ) ∧
      index < g.actionList.length ∧ m.replay hs index actions = some g' := by
  rw [rewind] at h
  dsimp only at h
  split at h
  · cases h
  · split at h
    · cases h
    · split at h
      · cases h
      · rename_i index hindex
        obtain ⟨i, rfl, hlt, rfl⟩ : ∃ i : ℕ, actionIndex = some (i : ℤ) ∧
            i < g.actionList.length ∧ i = index := by
          cases actionIndex with
          | none => cases hindex
          | some i =>
            simp only [turnIndex, Option.ite_none_left_eq_some, Option.some.injEq, not_or, not_lt,
              not_le] at hindex
            obtain ⟨⟨h0, hlt⟩, rfl⟩ := hindex
            have hlt : i < g.actionList.length := hlt
            exact ⟨i.toNat, by rw [Int.toNat_of_nonneg h0], by omega, rfl⟩
        split at h
        · cases h
        · rename_i turn hget
          split at h
          · cases h
          · split at h
            · cases h
            · rename_i new hreplay
              cases h
              refine ⟨_, i, ?_, rfl, hlt, hreplay⟩
              have hclean := g.sameRecord_cleaned
              refine ⟨rfl, ?_, fun t => ?_⟩
              · exact max_eq_left hlt
              · dsimp only
                rw [SparseArray.get_set]
                split
                · rename_i ht
                  rw [ht, Option.map_some, map_bare_markMistake, ← hclean.get_eq i]
                  exact (congrArg (Option.map (List.map GameAction.bare)) hget).symm
                · exact hclean.get_eq t

end LoggedGame

/-! ## Handling several actions -/

/-- The actions `l` have been handled on `g`, in order. -/
structure Handled {κ : Type} (hs : Handlers κ) (g : LoggedGame κ) (l : List GameAction)
    (g' : LoggedGame κ) : Prop where
  reachable : Reachable hs g'
  history_eq : hs.Quiet → g'.history = g.history ++ l
  position_eq : g'.state.position = (l.foldl State.next g.state).position

/-- Whether the action ends the wait of the next one in the queue, and the queue after it. -/
def served (action : GameAction) : List GameAction → List GameAction × List GameAction
  | [] => ([], [])
  | next :: queue =>
    if action.draws?.isSome ∧ action.draws? = next.identifies? then ([next], queue)
    else ([], next :: queue)

/-- The actions that are handled while some are redone and a queue waits. -/
def weave : List GameAction → List GameAction → List GameAction
  | _, [] => []
  | queue, action :: actions =>
    action :: ((served action queue).1 ++ weave (served action queue).2 actions)

/-- What is left of the queue. -/
def leftover : List GameAction → List GameAction → List GameAction
  | queue, [] => queue
  | queue, action :: actions => leftover (served action queue).2 actions

section

variable {κ : Type} {hs : Handlers κ} {g g' g'' : LoggedGame κ} {l l' queue queue' : List GameAction}
  {action : GameAction}

theorem GameAction.next_of_isInserted (h : action.isInserted = true) (st : State) :
    st.next action = st := by
  cases action <;> first | rfl | cases h

theorem GameAction.valid_of_isInserted (h : action.isInserted = true) (st : State) :
    action.Valid st := by
  cases action <;> trivial

theorem foldl_next_of_isInserted (h : ∀ a ∈ l, a.isInserted = true) (st : State) :
    l.foldl State.next st = st := by
  induction l generalizing st with
  | nil => rfl
  | cons a l ih =>
    rw [List.foldl_cons, GameAction.next_of_isInserted (h a List.mem_cons_self)]
    exact ih (fun x hx => h x (List.mem_cons_of_mem a hx)) st

theorem served_append (action : GameAction) (queue : List GameAction) :
    (served action queue).1 ++ (served action queue).2 = queue := by
  cases queue with
  | nil => rfl
  | cons next queue =>
    rw [served]
    split <;> rfl

theorem mem_served {a : GameAction} : (a ∈ (served action queue).1 → a ∈ queue) ∧
    (a ∈ (served action queue).2 → a ∈ queue) := by
  have h := served_append action queue
  exact ⟨fun ha => h ▸ List.mem_append_left _ ha, fun ha => h ▸ List.mem_append_right _ ha⟩

/-- The queue does not move the position. -/
theorem foldl_next_weave (h : ∀ a ∈ queue, a.isInserted = true) (l : List GameAction) (st : State) :
    (weave queue l).foldl State.next st = l.foldl State.next st := by
  induction l generalizing queue st with
  | nil => rfl
  | cons a l ih =>
    rw [weave, List.foldl_cons, List.foldl_append,
      foldl_next_of_isInserted fun x hx => h x (mem_served.1 hx), List.foldl_cons]
    exact ih (fun x hx => h x (mem_served.2 hx)) _

namespace Handled

theorem refl (hg : Reachable hs g) : Handled hs g [] g :=
  ⟨hg, fun _ => (List.append_nil _).symm, rfl⟩

theorem trans (h : Handled hs g l g') (h' : Handled hs g' l' g'') : Handled hs g (l ++ l') g'' where
  reachable := h'.reachable
  history_eq hquiet := by
    rw [h'.history_eq hquiet, h.history_eq hquiet, List.append_assoc]
  position_eq := by
    rw [h'.position_eq, List.foldl_append]
    exact State.position_foldl_next h.position_eq l'

/-- Changes to what players think do not matter. -/
theorem update (h : Handled hs g l g') (data : κ) : Handled hs g l { g' with data } :=
  ⟨h.reachable.update ⟨rfl, rfl, fun _ => rfl⟩ rfl, h.history_eq, h.position_eq⟩

theorem handleAction (hlaw : hs.Lawful) (hg : Reachable hs g) (hv : action.Valid g.state)
    (h : g.handleAction hs action = some g') : Handled hs g [action] g' := by
  obtain ⟨hpos, -⟩ := LoggedGame.handleAction_spec hlaw h
  refine ⟨hg.handle hv h, fun hquiet => ?_, hpos⟩
  have hlist := LoggedGame.handleAction_actionList hquiet h
  rw [LoggedGame.history_eq_of_actionList_eq hlist, LoggedGame.history_record (hg.filed hlaw)]

/-- A valid action is never skipped. -/
theorem updateGame (hlaw : hs.Lawful) (hg : Reachable hs g) (hv : action.Valid g.state)
    (h : g.updateGame hs action = some g') : Handled hs g [action] g' := by
  refine handleAction hlaw hg hv ?_
  unfold LoggedGame.updateGame at h
  split at h
  · rwa [if_neg hv] at h
  · exact h

theorem foldlM {step : LoggedGame κ → GameAction → Option (LoggedGame κ)}
    (hstep : ∀ g action g', Reachable hs g → action.Valid g.state → step g action = some g' →
      Handled hs g [action] g')
    (hg : Reachable hs g) (hv : ValidFrom g.state l) (h : l.foldlM step g = some g') :
    Handled hs g l g' := by
  induction l generalizing g with
  | nil =>
    cases h
    exact refl hg
  | cons a l ih =>
    obtain ⟨new, hnew, hrest⟩ := Option.bind_eq_some_iff.1 h
    have hfirst := hstep g a new hg hv.1 hnew
    exact hfirst.trans (ih hfirst.reachable (hv.2.congr hfirst.position_eq.symm) hrest)

theorem identifyDrawn (hlaw : hs.Lawful) (hg : Reachable hs g)
    (hqueue : ∀ a ∈ queue, a.isInserted = true)
    (h : g.identifyDrawn hs action queue = some (g', queue')) :
    Handled hs g (served action queue).1 g' ∧ queue' = (served action queue).2 := by
  cases queue with
  | nil =>
    cases h
    exact ⟨refl hg, rfl⟩
  | cons next queue =>
    rw [LoggedGame.identifyDrawn] at h
    rw [served]
    split at h
    · rename_i hdraws
      rw [if_pos hdraws]
      obtain ⟨new, hnew, heq⟩ := Option.map_eq_some_iff.1 h
      cases heq
      exact ⟨handleAction hlaw hg (GameAction.valid_of_isInserted (hqueue next List.mem_cons_self) _)
        hnew, rfl⟩
    · rename_i hdraws
      rw [if_neg hdraws]
      cases h
      exact ⟨refl hg, rfl⟩

end Handled

theorem waits_congr {st st' : State} (h : st.position = st'.position) (action : GameAction) :
    action.waits st = action.waits st' := by
  rw [State.eq_of_position_eq h]
  cases action <;> rfl

theorem served_of_isInserted (h : action.isInserted = true) (queue : List GameAction) :
    served action queue = ([], queue) := by
  cases queue with
  | nil => rfl
  | cons next queue => cases action <;> first | rfl | cases h

namespace Handled

/-- The rewind actions are handled in order, but for those that wait for their cards. -/
theorem insertAll (hlaw : hs.Lawful) (hg : Reachable hs g) (hl : ∀ a ∈ l, a.isInserted = true)
    (hqueue : ∀ a ∈ queue, a.isInserted = true)
    (h : g.insertAll hs queue l = some (g', queue')) :
    Handled hs g (l.filter fun a => !a.waits g.state) g' ∧
      queue' = queue ++ l.filter (·.waits g.state) := by
  induction l generalizing g queue with
  | nil =>
    cases h
    exact ⟨refl hg, (List.append_nil _).symm⟩
  | cons a l ih =>
    have ha := hl a List.mem_cons_self
    have hrest := fun x hx => hl x (List.mem_cons_of_mem a hx)
    rw [LoggedGame.insertAll] at h
    split at h
    · rename_i hwaits
      obtain ⟨h1, h2⟩ := ih hg hrest (fun x hx => by
        rcases List.mem_append.1 hx with hx | hx
        · exact hqueue x hx
        · exact List.mem_singleton.1 hx ▸ ha) h
      simp only [List.filter_cons, hwaits, if_true, Bool.not_true, Bool.false_eq_true, if_false]
      exact ⟨h1, by rw [h2, List.append_assoc]; rfl⟩
    · rename_i hwaits
      obtain ⟨new, hnew, h⟩ := Option.bind_eq_some_iff.1 h
      obtain ⟨⟨new', queue''⟩, hnew', h⟩ := Option.bind_eq_some_iff.1 h
      have h1 := updateGame hlaw hg (GameAction.valid_of_isInserted ha _) hnew
      obtain ⟨h2, rfl⟩ := identifyDrawn hlaw h1.reachable hqueue hnew'
      rw [served_of_isInserted ha] at h2 h
      have hpos : new'.state.position = g.state.position := by
        rw [h2.position_eq]
        exact h1.position_eq.trans (congrArg _ (GameAction.next_of_isInserted ha _))
      obtain ⟨h3, h4⟩ := ih h2.reachable hrest hqueue h
      simp only [waits_congr hpos] at h3 h4
      simp only [List.filter_cons, hwaits, Bool.not_false, if_true, Bool.false_eq_true, if_false]
      exact ⟨(h1.trans h2).trans h3, h4⟩

/-- The actions are redone in order, and the queue is served along the way. -/
theorem redo (hlaw : hs.Lawful) (hg : Reachable hs g) (hv : ValidFrom g.state l)
    (hqueue : ∀ a ∈ queue, a.isInserted = true) (h : g.redo hs queue l = some (g', queue')) :
    Handled hs g (weave queue l) g' ∧ queue' = leftover queue l := by
  induction l generalizing g queue with
  | nil =>
    cases h
    exact ⟨refl hg, rfl⟩
  | cons a l ih =>
    rw [LoggedGame.redo] at h
    obtain ⟨new, hnew, h⟩ := Option.bind_eq_some_iff.1 h
    obtain ⟨⟨new', queue''⟩, hnew', h⟩ := Option.bind_eq_some_iff.1 h
    have h1 := updateGame hlaw hg hv.1 hnew
    obtain ⟨h2, rfl⟩ := identifyDrawn hlaw h1.reachable hqueue hnew'
    have hpos : new'.state.position = (g.state.next a).position := by
      rw [h2.position_eq, foldl_next_of_isInserted fun x hx => hqueue x (mem_served.1 hx)]
      exact h1.position_eq
    obtain ⟨h3, h4⟩ := ih h2.reachable (hv.2.congr hpos.symm)
      (fun x hx => hqueue x (mem_served.2 hx)) h
    exact ⟨(h1.trans h2).trans h3, h4⟩

end Handled

/-! ## Two turns each -/

/-- The deal, and four turns: Alice plays a red 1, Bob clues, and they discard. A card has been
ignored at Alice's second turn. -/
def fourTurns : List GameAction :=
  ((List.range 5).map fun o => .board (.draw o 0 none) {}) ++
    ((List.range 5).map fun o => .board (.draw (o + 5) 1 (some ⟨o, 1⟩)) {}) ++
    [.board (.play 0 0 (some ⟨0, 1⟩)) {}, .board (.draw 10 0 none) {}, .board (.turn 1 1) {},
      .board (.clue 1 0 [1] ⟨.rank, 2⟩) {}, .board (.turn 2 0) {},
      .ignore 0 3 none, .board (.discard 1 0 (some ⟨0, 2⟩) false) { intentional := some true },
      .board (.draw 11 0 none) {}, .board (.turn 3 1) {},
      .board (.discard 5 1 (some ⟨0, 1⟩) false) {}, .board (.draw 12 1 (some ⟨4, 4⟩)) {}]

/-- The game before the deal. -/
def startGame : LoggedGame Unit where
  state := State.fresh noVariant 2 0 {}
  base := State.fresh noVariant 2 0 {}
  data := ()

theorem isSome_fourTurns :
    (fourTurns.foldlM (LoggedGame.handleAction Handlers.plain) startGame).isSome = true := by
  decide +kernel

/-- The game after these turns. -/
def fourTurnsGame : LoggedGame Unit :=
  (fourTurns.foldlM (LoggedGame.handleAction Handlers.plain) startGame).get isSome_fourTurns

theorem reachable_fourTurnsGame : Reachable Handlers.plain fourTurnsGame :=
  (Handled.foldlM (fun _ _ _ hg hv h => Handled.handleAction Handlers.plain_lawful hg hv h)
    (.fresh rfl rfl) (by decide +kernel) (Option.some_get isSome_fourTurns).symm).reachable

/-- The game that a rewind returns, the same game if it returns none. -/
def LoggedGame.rewound (g : LoggedGame Unit) (index : ℕ) (actions : List GameAction) :
    LoggedGame Unit :=
  match (g.rewind Handlers.plain (some index) actions).2 with
  | .ok (some new) => new
  | _ => g

/-- Whether a rewind returns a game. -/
def LoggedGame.returns (g : LoggedGame Unit) (index : ℕ) (actions : List GameAction) : Bool :=
  match (g.rewind Handlers.plain (some index) actions).2 with
  | .ok (some _) => true
  | _ => false

theorem LoggedGame.rewind_eq_rewound {g : LoggedGame Unit} {index : ℕ} {actions : List GameAction}
    (h : g.returns index actions = true) :
    (g.rewind Handlers.plain (some index) actions).2 = .ok (some (g.rewound index actions)) := by
  unfold returns at h
  unfold rewound
  split at h
  · rename_i new hnew
    rw [hnew]
  · cases h

/-- Alice is told that some of her cards are green 3s. -/
def identifyGreen (orders : List ℕ) : List GameAction :=
  orders.map fun order => .identify order 0 [⟨2, 3⟩] none

/-! ## The game that is returned -/

/-- A game that may be rewound: between two actions, or while an action is handled. -/
inductive Rewindable (hs : Handlers κ) : LoggedGame κ → Prop
  | between {g : LoggedGame κ} : Reachable hs g → Rewindable hs g
  | during {g mid : LoggedGame κ} {action : GameAction} : Reachable hs g → action.Valid g.state →
      mid.actionList = (g.record action).actionList → mid.base = g.base → Rewindable hs mid

namespace LoggedGame

/-- The state before a turn, after the actions of the turns before it. -/
def stateBefore (g : LoggedGame κ) (index : ℕ) : State := (g.turns 0 index).foldl State.next g.base

/-- The state that the recorded actions lead to. -/
def recordedState (g : LoggedGame κ) : State := g.history.foldl State.next g.base

/-- The turns from `index` on, but for the last one. -/
def redone (g : LoggedGame κ) (index : ℕ) : List GameAction :=
  g.turns index (g.actionList.length - 1 - index)

theorem history_eq_turns {index : ℕ} (h : index < g.actionList.length) :
    g.history = g.turns 0 index ++
      (g.redone index ++ (g.actionList.get (g.actionList.length - 1)).getD []) := by
  obtain ⟨n, hn⟩ : ∃ n, g.actionList.length = index + n + 1 :=
    Nat.exists_eq_add_of_lt h
  have h1 : g.actionList.length - 1 = index + n := by omega
  have h2 : g.actionList.length - 1 - index = n := by omega
  rw [history, redone, turns, turns, h2, h1, hn, List.range_succ, List.flatMap_append,
    List.range_eq_range', ← List.range'_append_1, List.flatMap_append, Nat.zero_add,
    List.append_assoc]
  simp

end LoggedGame

theorem Rewindable.validFrom (hlaw : hs.Lawful) (h : Rewindable hs g) :
    ValidFrom g.base g.history := by
  cases h with
  | between hg => exact (hg.position_eq hlaw).2
  | during hg hv hlist hbase =>
    rw [hbase, LoggedGame.history_eq_of_actionList_eq hlist,
      LoggedGame.history_record (hg.filed hlaw), validFrom_append]
    exact ⟨(hg.position_eq hlaw).2, hv.congr (hg.position_eq hlaw).1, trivial⟩

/-- What is handled in a replay. -/
theorem Handled.replay {index : ℕ} (hlaw : hs.Lawful) (hv : ValidFrom g.base g.history)
    (hindex : index < g.actionList.length) (hl : ∀ a ∈ l, a.isInserted = true)
    (h : g.replay hs index l = some g') :
    Handled hs (g.createBlank hs) (g.turns 0 index ++
      (l.filter (fun a => !a.waits (g.stateBefore index)) ++
        (weave (l.filter (·.waits (g.stateBefore index))) (g.redone index) ++
          (g.actionList.get (g.actionList.length - 1)).getD []))) g' := by
  rw [LoggedGame.history_eq_turns hindex, validFrom_append, validFrom_append] at hv
  obtain ⟨hpast, hfuture, hlast⟩ := hv
  rw [LoggedGame.replay] at h
  obtain ⟨new, hnew, h⟩ := Option.bind_eq_some_iff.1 h
  obtain ⟨⟨new', queue⟩, hnew', h⟩ := Option.bind_eq_some_iff.1 h
  obtain ⟨⟨new'', queue'⟩, hnew'', h⟩ := Option.bind_eq_some_iff.1 h
  obtain ⟨last, hget, hfold⟩ := Option.bind_eq_some_iff.1 h
  have hblank : Reachable hs (g.createBlank hs) := .fresh rfl rfl
  have h1 : Handled hs (g.createBlank hs) (g.turns 0 index) new :=
    Handled.foldlM (fun g action g' hg hv h => Handled.updateGame hlaw hg hv h) hblank hpast hnew
  have hpos1 : new.state.position = (g.stateBefore index).position := h1.position_eq
  obtain ⟨h2, hqueue⟩ := Handled.insertAll hlaw h1.reachable hl (by simp) hnew'
  simp only [waits_congr hpos1, List.nil_append] at h2 hqueue
  subst hqueue
  have hpos2 : new'.state.position = (g.stateBefore index).position := by
    rw [h2.position_eq, foldl_next_of_isInserted fun a ha => hl a (List.mem_filter.1 ha).1]
    exact hpos1
  have hqueue : ∀ a ∈ l.filter (·.waits (g.stateBefore index)), a.isInserted = true :=
    fun a ha => hl a (List.mem_filter.1 ha).1
  obtain ⟨h3, -⟩ := Handled.redo hlaw h2.reachable (hfuture.congr hpos2.symm) hqueue hnew''
  have hpos3 : new''.state.position =
      ((g.redone index).foldl State.next (g.stateBefore index)).position := by
    rw [h3.position_eq, foldl_next_weave hqueue]
    exact State.position_foldl_next hpos2 _
  have h4 := (h3.update (hs.resume g new''))
  have h5 : Handled hs { new'' with data := hs.resume g new'' } last g' := by
    refine Handled.foldlM (fun g action g' hg hv h => Handled.handleAction hlaw hg hv h)
      h4.reachable ?_ hfold
    rw [hget] at hlast
    exact hlast.congr hpos3.symm
  rw [hget]
  exact h1.trans (h2.trans (h4.trans h5))

theorem SameRecord.turns_eq (h : SameRecord g g') (start count : ℕ) :
    (g'.turns start count).map GameAction.bare = (g.turns start count).map GameAction.bare :=
  h.flatMap_eq _

theorem SameRecord.recordedState_eq (h : SameRecord g g') : g'.recordedState = g.recordedState := by
  rw [LoggedGame.recordedState, h.sameMoves.foldl_history, h.base_eq]
  rfl

theorem SameRecord.stateBefore_eq (h : SameRecord g g') (index : ℕ) :
    g'.stateBefore index = g.stateBefore index := by
  rw [LoggedGame.stateBefore, ← foldl_next_boardActions, LoggedGame.turns,
    h.sameMoves.flatMap_eq, foldl_next_boardActions, h.base_eq]
  rfl

theorem SameRecord.validFrom (h : SameRecord g g') (hv : ValidFrom g.base g.history) :
    ValidFrom g'.base g'.history := by
  rw [h.sameMoves.validFrom_history, h.base_eq]
  exact hv

/-- **Rewinding keeps the board.** The game that is returned is in the position that the
recorded actions lead to, the one of the game if it is rewound between two actions. -/
theorem rewind_position {actionIndex : Option ℤ} (hlaw : hs.Lawful) (hg : Rewindable hs g)
    (hl : ∀ a ∈ l, a.isInserted = true) (h : (g.rewind hs actionIndex l).2 = .ok (some g')) :
    g'.state.position = g.recordedState.position ∧
      (Reachable hs g → g'.state.position = g.state.position) := by
  obtain ⟨m, index, hsame, -, hindex, hreplay⟩ := LoggedGame.rewind_some h
  have hindex' : index < m.actionList.length := hsame.length_eq.symm ▸ hindex
  have hhandled := Handled.replay hlaw (hsame.validFrom (hg.validFrom hlaw)) hindex' hl hreplay
  have hpos : g'.state.position = m.recordedState.position := by
    rw [hhandled.position_eq, LoggedGame.recordedState, LoggedGame.history_eq_turns hindex']
    simp only [List.foldl_append]
    rw [foldl_next_of_isInserted fun a ha => hl a (List.mem_filter.1 ha).1,
      foldl_next_weave fun a ha => hl a (List.mem_filter.1 ha).1]
    rfl
  rw [hsame.recordedState_eq] at hpos
  exact ⟨hpos, fun hreach => hpos.trans (hreach.position_eq hlaw).1.symm⟩

/-- Another `ignore` inserted before Alice's second turn. -/
theorem rewind_position_ignore :
    (fourTurnsGame.rewind Handlers.plain (some (3 : ℕ)) [.ignore 0 4 none]).2 =
        .ok (some (fourTurnsGame.rewound 3 [.ignore 0 4 none])) ∧
      (fourTurnsGame.rewound 3 [.ignore 0 4 none]).state.position = fourTurnsGame.state.position :=
  have h := @LoggedGame.rewind_eq_rewound fourTurnsGame 3 [.ignore 0 4 none] (by decide +kernel)
  ⟨h, (rewind_position Handlers.plain_lawful (.between reachable_fourTurnsGame) (by decide) h).2
    reachable_fourTurnsGame⟩

/-! ## Which `identify` actions are handled -/

theorem count_weave (queue l : List GameAction) (a : GameAction) :
    (weave queue l).count a + (leftover queue l).count a = l.count a + queue.count a := by
  induction l generalizing queue with
  | nil => simp [weave, leftover]
  | cons b l ih =>
    have h1 := ih (served b queue).2
    have h2 := congrArg (List.count a) (served_append b queue)
    rw [List.count_append] at h2
    rw [weave, leftover, List.count_cons, List.count_append, List.count_cons]
    omega

theorem mem_of_mem_leftover {a : GameAction} (h : a ∈ leftover queue l) : a ∈ queue := by
  induction l generalizing queue with
  | nil => exact h
  | cons b l ih => exact mem_served.2 (ih h)

/-- The whole queue is served exactly if its cards are drawn in the order of the queue. -/
theorem leftover_eq_nil_iff (hqueue : ∀ a ∈ queue, a.isIdentify = true) (l : List GameAction) :
    leftover queue l = [] ↔
      (queue.filterMap GameAction.identifies?).Sublist (l.filterMap GameAction.draws?) := by
  induction l generalizing queue with
  | nil =>
    rw [leftover, List.filterMap_nil, List.sublist_nil, List.filterMap_eq_nil_iff]
    constructor
    · rintro rfl
      simp
    · intro hnone
      rw [List.eq_nil_iff_forall_not_mem]
      intro a ha
      have h1 := hnone a ha
      have h2 := hqueue a ha
      cases a <;> simp_all [GameAction.identifies?, GameAction.isIdentify]
  | cons b l ih =>
    have hserved := @ih (served b queue).2 fun a ha => hqueue a (mem_served.2 ha)
    rw [leftover, hserved]
    cases queue with
    | nil => simp [served]
    | cons next queue =>
      obtain ⟨order, hnext⟩ : ∃ order, next.identifies? = some order := by
        have := hqueue next List.mem_cons_self
        cases next <;> first | exact ⟨_, rfl⟩ | cases this
      rw [List.filterMap_cons_some hnext]
      cases hb : b.draws? with
      | none =>
        rw [List.filterMap_cons_none hb, served, hb]
        simp [hnext]
      | some drawn =>
        rw [List.filterMap_cons_some hb, served, hb, hnext]
        by_cases heq : drawn = order
        · subst heq
          simp
        · rw [if_neg (by simp [heq]), List.filterMap_cons_some hnext]
          constructor
          · exact fun h => h.cons drawn
          · intro h
            cases h with
            | cons _ h => exact h
            | cons_cons _ h => exact absurd rfl heq

theorem count_map_bare {a : GameAction} (ha : a.isIdentify = true) (l : List GameAction) :
    (l.map GameAction.bare).count a = l.count a := by
  rw [List.count, List.countP_map]
  refine List.countP_congr fun b _ => ?_
  cases b with
  | board =>
    cases a with
    | identify =>
      constructor <;> intro h <;> cases eq_of_beq h
    | board | status | gameOver | ignore | finesse => cases ha
  | status | gameOver | identify | ignore | finesse => rfl

theorem SameRecord.count_eq (h : SameRecord g g') {a : GameAction} (ha : a.isIdentify = true) :
    g'.history.count a = g.history.count a := by
  rw [← count_map_bare ha, h.history_eq, count_map_bare ha]

theorem SameRecord.draws_eq (h : SameRecord g g') (index : ℕ) :
    (g'.redone index).filterMap GameAction.draws? = (g.redone index).filterMap GameAction.draws? := by
  have hbare : ∀ l : List GameAction, l.filterMap GameAction.draws? =
      (l.map GameAction.bare).filterMap GameAction.draws? := by
    intro l
    rw [List.filterMap_map]
    refine List.filterMap_congr fun a _ => ?_
    cases a with
    | board action flags => cases action <;> rfl
    | status | gameOver | identify | ignore | finesse => rfl
  rw [hbare, LoggedGame.redone, h.length_eq, h.turns_eq, ← hbare]
  rfl

/-- **Which `identify` actions a rewind applies.** All of them are handled, each as often as it
is listed, exactly if those for cards that are not in their hands at the insertion are listed
in the order in which these cards are drawn before the last turn. -/
theorem rewind_identifies_iff {index : ℕ} (hlaw : hs.Lawful) (hquiet : hs.Quiet)
    (hg : Rewindable hs g)
    (hl : ∀ a ∈ l, a.isIdentify = true) (h : (g.rewind hs (some index) l).2 = .ok (some g')) :
    (∀ a ∈ l, g'.history.count a = g.history.count a + l.count a) ↔
      ((l.filter (·.waits (g.stateBefore index))).filterMap GameAction.identifies?).Sublist
        ((g.redone index).filterMap GameAction.draws?) := by
  obtain ⟨m, index', hsame, hcast, hindex, hreplay⟩ := LoggedGame.rewind_some h
  obtain rfl : index = index' := by
    simpa using hcast
  have hindex' : index < m.actionList.length := hsame.length_eq.symm ▸ hindex
  have hinserted : ∀ a ∈ l, a.isInserted = true := fun a ha => by
    have := hl a ha
    cases a <;> first | rfl | cases this
  have hhandled := Handled.replay hlaw (hsame.validFrom (hg.validFrom hlaw)) hindex' hinserted hreplay
  rw [← hsame.draws_eq, ← leftover_eq_nil_iff fun a ha => hl a (List.mem_filter.1 ha).1,
    ← hsame.stateBefore_eq]
  have hcount : ∀ a ∈ l, g'.history.count a +
      (leftover (l.filter (·.waits (m.stateBefore index))) (m.redone index)).count a =
        g.history.count a + l.count a := by
    intro a ha
    have h1 := hsame.count_eq (hl a ha)
    have h2 := count_weave (l.filter (·.waits (m.stateBefore index))) (m.redone index) a
    have h3 := (List.filter_append_perm (·.waits (m.stateBefore index)) l).count_eq a
    have hblank : (m.createBlank hs).history = [] := rfl
    rw [LoggedGame.history_eq_turns hindex'] at h1
    rw [hhandled.history_eq hquiet, hblank]
    simp only [List.count_append, List.count_nil] at h1 h2 h3 ⊢
    omega
  constructor
  · intro hall
    rw [List.eq_nil_iff_forall_not_mem]
    intro a ha
    have hmem : a ∈ l := (List.mem_filter.1 (mem_of_mem_leftover ha)).1
    have h1 := hcount a hmem
    have h2 := hall a hmem
    have h3 := List.count_pos_iff.2 ha
    omega
  · intro hnil a ha
    have := hcount a ha
    rw [hnil] at this
    simpa using this

/-- Two actions that wait, in the order of the draws. -/
theorem rewind_identifies_in_order :
    ((identifyGreen [10, 11]).map fun a =>
        (fourTurnsGame.rewound 1 (identifyGreen [10, 11])).history.count a) =
      (identifyGreen [10, 11]).map fun a =>
        fourTurnsGame.history.count a + (identifyGreen [10, 11]).count a :=
  List.map_congr_left <|
    (rewind_identifies_iff Handlers.plain_lawful Handlers.plain_quiet
      (.between reachable_fourTurnsGame) (by decide)
      (LoggedGame.rewind_eq_rewound (by decide +kernel))).2 (by decide +kernel)

/-- In the opposite order, one of them is dropped, though Alice still holds the card; and so is
one for a card that is drawn in the last turn. -/
theorem rewind_drops_identify :
    (Reachable Handlers.plain fourTurnsGame ∧ fourTurnsGame.returns 1 (identifyGreen [11, 10]) = true ∧
      fourTurnsGame.returns 1 [.identify 12 1 [⟨4, 4⟩] none] = true) ∧
      (10 ∈ (fourTurnsGame.rewound 1 (identifyGreen [11, 10])).state.hands 0 ∧
        .identify 10 0 [⟨2, 3⟩] none ∉
          (fourTurnsGame.rewound 1 (identifyGreen [11, 10])).history) ∧
      12 ∈ (fourTurnsGame.rewound 1 [.identify 12 1 [⟨4, 4⟩] none]).state.hands 1 ∧
        .identify 12 1 [⟨4, 4⟩] none ∉
          (fourTurnsGame.rewound 1 [.identify 12 1 [⟨4, 4⟩] none]).history :=
  ⟨⟨reachable_fourTurnsGame, by decide +kernel, by decide +kernel⟩,
    ⟨by decide +kernel, by decide +kernel⟩, by decide +kernel, by decide +kernel⟩

end

/-! ## Refused attempts -/

namespace GameAction

/-- The flags that `cleanAction` writes are all `false`. -/
def Clean : GameAction → Prop
  | .board (.clue ..) flags =>
    flags.mistake = some false ∧ flags.lock = some false ∧ flags.important = some false ∧
      flags.hypothetical = some false
  | .board (.discard ..) flags => flags.intentional = some false
  | _ => True

theorem clean_eq_iff {action : GameAction} : action.clean = action ↔ action.Clean := by
  cases action with
  | board action flags =>
    obtain ⟨mistake, lock, important, hypothetical, intentional⟩ := flags
    cases action <;> simp [clean, Clean, eq_comm]
  | status | gameOver | identify | ignore | finesse => simp [clean, Clean]

theorem clean_clean (action : GameAction) : action.clean.clean = action.clean := by
  cases action with
  | board action flags => cases action <;> rfl
  | status | gameOver | identify | ignore | finesse => rfl

end GameAction

namespace LoggedGame

variable {κ : Type} {hs : Handlers κ} {g : LoggedGame κ}

/-- The game after some calls of `rewind`, whatever they return. -/
def attempts (hs : Handlers κ) : LoggedGame κ → List (Option ℤ × List GameAction) → LoggedGame κ
  | g, [] => g
  | g, (index, actions) :: calls => attempts hs (g.rewind hs index actions).1 calls

/-- Every one of the calls returns `undefined`. -/
def AllRefused (hs : Handlers κ) : LoggedGame κ → List (Option ℤ × List GameAction) → Prop
  | _, [] => True
  | g, (index, actions) :: calls =>
    (g.rewind hs index actions).2 = .ok none ∧ AllRefused hs (g.rewind hs index actions).1 calls

instance {α : Type} (x : Except RewindError (Option α)) : Decidable (x = .ok none) :=
  match x with
  | .ok none => .isTrue rfl
  | .ok (some _) => .isFalse nofun
  | .error _ => .isFalse nofun

instance {α : Type} (x : Except RewindError α) (e : RewindError) : Decidable (x = .error e) :=
  match x with
  | .ok _ => .isFalse nofun
  | .error e' => decidable_of_iff (e' = e) (by simp)

instance AllRefused.decidable (hs : Handlers κ) : (g : LoggedGame κ) →
    (calls : List (Option ℤ × List GameAction)) → Decidable (g.AllRefused hs calls)
  | _, [] => .isTrue trivial
  | g, (index, actions) :: calls =>
    have := AllRefused.decidable hs (g.rewind hs index actions).1 calls
    inferInstanceAs (Decidable (_ ∧ _))

theorem cleaned_cleaned (g : LoggedGame κ) : g.cleaned.cleaned = g.cleaned := by
  simp only [cleaned, Option.map_map]
  congr 2
  funext turn
  congr 1
  funext actions
  simp [GameAction.clean_clean]

theorem cleaned_actionList_eq_iff : g.cleaned.actionList = g.actionList ↔
    ∀ turn, ∀ actions ∈ g.actionList.get turn, ∀ action ∈ actions, action.Clean := by
  have hmap : ∀ actions : List GameAction, actions.map GameAction.clean = actions ↔
      ∀ action ∈ actions, action.Clean := by
    intro actions
    rw [← List.forall₂_eq_eq_eq, List.forall₂_map_left_iff, List.forall₂_same]
    exact forall₂_congr fun action _ => GameAction.clean_eq_iff
  constructor
  · intro h turn actions hget
    have := congrArg (fun list => list.get turn) h
    simp only [cleaned, Option.mem_def.1 hget, Option.map_some, Option.some.injEq] at this
    exact (hmap actions).1 this
  · intro h
    have hget : (fun turn => (g.actionList.get turn).map (·.map GameAction.clean)) =
        g.actionList.get := by
      funext turn
      cases hturn : g.actionList.get turn with
      | none => rfl
      | some actions => exact congrArg some ((hmap actions).2 (h turn actions hturn))
    simp only [cleaned, hget]

/-- What a refused call leaves behind. -/
theorem rewind_refused {actionIndex : Option ℤ} {actions : List GameAction}
    (h : (g.rewind hs actionIndex actions).2 = .ok none) :
    (g.rewind hs actionIndex actions).1 =
      { g.cleaned with
        rewinds := g.rewinds + 1
        rewindDepth := g.rewindDepth + if (g.turnIndex actionIndex).isSome then 1 else 0 } := by
  have hturn : turnIndex { g.cleaned with rewinds := g.rewinds + 1 } actionIndex =
      g.turnIndex actionIndex := rfl
  rw [rewind] at h ⊢
  dsimp only at h ⊢
  rw [hturn] at h ⊢
  split at h
  · cases h
  · split at h
    · cases h
    · rename_i hmany hdeep
      rw [if_neg hmany, if_neg hdeep]
      cases hindex : g.turnIndex actionIndex with
      | none => rfl
      | some index =>
        simp only [hindex] at h ⊢
        split at h
        · cases h
        · rename_i turn hget
          split at h
          · rename_i hany
            rw [if_pos hany]
            rfl
          · split at h <;> cases h

/-- What refused calls leave behind. -/
theorem attempts_eq {calls : List (Option ℤ × List GameAction)} (h : g.AllRefused hs calls) :
    g.attempts hs calls =
      { g with
        actionList := if calls = [] then g.actionList else g.cleaned.actionList
        rewinds := g.rewinds + calls.length
        rewindDepth := g.rewindDepth + calls.countP fun call => (g.turnIndex call.1).isSome } := by
  induction calls generalizing g with
  | nil => rfl
  | cons call calls ih =>
    obtain ⟨hfirst, hrest⟩ := h
    have hstep := rewind_refused hfirst
    have hturn : ∀ index, turnIndex (g.rewind hs call.1 call.2).1 index = g.turnIndex index := by
      rw [hstep]
      exact fun _ => rfl
    rw [attempts, ih hrest]
    simp only [hturn]
    rw [hstep]
    have hclean := congrArg LoggedGame.actionList g.cleaned_cleaned
    simp only [cleaned, reduceCtorEq, if_false, List.length_cons, List.countP_cons] at hclean ⊢
    rw [hclean, ite_self, Nat.add_assoc, Nat.add_assoc, Nat.add_comm 1, Nat.add_comm (ite _ _ _)]

/-- **A refused rewind has no effect** exactly if it is refused for its index, and the recorded
actions carry no flags. -/
theorem refused_iff {calls : List (Option ℤ × List GameAction)} (h : g.AllRefused hs calls) :
    ((g.attempts hs calls).rewindDepth = g.rewindDepth ∧
      (g.attempts hs calls).actionList = g.actionList) ↔
      (∀ call ∈ calls, g.turnIndex call.1 = none) ∧
        (calls ≠ [] → ∀ turn, ∀ actions ∈ g.actionList.get turn, ∀ action ∈ actions,
          action.Clean) := by
  rw [attempts_eq h]
  refine and_congr ?_ ?_
  · simp [List.countP_eq_zero]
  · by_cases hnil : calls = []
    · simp [hnil]
    · simp only [hnil, if_false, ne_eq, not_false_eq_true, forall_const]
      exact cleaned_actionList_eq_iff

/-- Calls without an index, and with one before or after the recorded turns. -/
def misplacedCalls : List (Option ℤ × List GameAction) :=
  [(none, [.ignore 0 4 none]), (some (-1), [.identify 11 0 [⟨2, 3⟩] none]),
    (some 5, [.ignore 0 3 none]), (none, [])]

/-- After four turns that are recorded without a flag, these calls change nothing. -/
theorem refused_misplaced :
    fourTurnsGame.cleaned.history.length = 21 ∧
      (fourTurnsGame.cleaned.attempts Handlers.plain misplacedCalls).rewindDepth =
          fourTurnsGame.cleaned.rewindDepth ∧
        (fourTurnsGame.cleaned.attempts Handlers.plain misplacedCalls).actionList =
          fourTurnsGame.cleaned.actionList := by
  have hclean : ∀ turn, ∀ actions ∈ fourTurnsGame.cleaned.actionList.get turn,
      ∀ action ∈ actions, action.Clean :=
    cleaned_actionList_eq_iff.1 (congrArg LoggedGame.actionList fourTurnsGame.cleaned_cleaned)
  exact ⟨by decide +kernel, (refused_iff (by decide +kernel)).2 ⟨by decide +kernel, fun _ => hclean⟩⟩

/-- Four calls to insert an action that has been inserted. -/
def insertedCalls : List (Option ℤ × List GameAction) :=
  List.replicate 4 (some 3, [.ignore 0 3 none])

/-- After them no rewind is possible, and Alice's discard is no longer on purpose. -/
theorem refused_hasEffect :
    (fourTurnsGame.AllRefused Handlers.plain insertedCalls ∧ fourTurnsGame.rewindDepth = 0 ∧
      fourTurnsGame.returns 1 [.ignore 0 4 none] = true ∧
      .board (.discard 1 0 (some ⟨0, 2⟩) false) { intentional := some true } ∈
        fourTurnsGame.history) ∧
    (fourTurnsGame.attempts Handlers.plain insertedCalls).rewinds = 4 ∧
      (fourTurnsGame.attempts Handlers.plain insertedCalls).rewindDepth = 4 ∧
      ((fourTurnsGame.attempts Handlers.plain insertedCalls).rewind Handlers.plain (some 1)
        [.ignore 0 4 none]).2 = .error .tooDeep ∧
      .board (.discard 1 0 (some ⟨0, 2⟩) false) { intentional := some true } ∉
        (fourTurnsGame.attempts Handlers.plain insertedCalls).history := by
  decide +kernel

end LoggedGame

end HanabiBot
