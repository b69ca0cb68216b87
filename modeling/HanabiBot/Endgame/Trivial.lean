import HanabiBot.Endgame.Plain

/-!
# Winning with what everyone knows

In the final round `trivially_winnable` asks for a plan: on each turn that is left
the player to move plays the one card that `thinksPlayables` gave at the start, if
it gave one.  The stacks of the plan are only simulated, so what its answer is
worth has to be read off the real turns.

* `playKnown_spec` — the simulated stacks are those of the real turns, and every
  play of the plan is legal when it is made;
* `triviallyWinnable_sound` — a game that is trivially winnable ends with the
  maximum score, whatever the players who have nothing to play do instead.
-/

namespace HanabiBot.Endgame

variable {κ : Type} (conv : Convention κ)

/-- Who moves after some turns. -/
def turnPlayer (g : Game κ) (playerTurn i : ℕ) : ℕ := (playerTurn + i) % g.state.numPlayers

/-- What a player was thought to have playable at the start. -/
def startPlayables (g : Game κ) (player : ℕ) : List ℕ := conv.thinksPlayables g player

/-- A turn of the plan: the known playable card, or else something else. -/
def planned (g : Game κ) (player : ℕ) (other : Action) : Action :=
  match startPlayables conv g player with
  | o :: _ => .play o player (g.state.identityOf o)
  | [] => other

/-- The returned action, as it is handled. -/
def firstAction (g : Game κ) : Option PerformAction → Action
  | some (.play p o) => .play o p (g.state.identityOf o)
  | some (.discard p o) => .discard o p (g.state.identityOf o) false
  | _ => .turn 0 0

/-- The action of a turn: first the returned one, then those of the plan. -/
def planAction (g : Game κ) (playerTurn : ℕ) (first : Option PerformAction) (others : ℕ → Action) :
    ℕ → Action
  | 0 => firstAction g first
  | i + 1 => planned conv g (turnPlayer g playerTurn (i + 1)) (others (i + 1))

/-- The state after some turns. -/
def planRun (g : Game κ) (playerTurn : ℕ) (first : Option PerformAction) (others : ℕ → Action) :
    ℕ → State
  | 0 => g.state
  | i + 1 =>
    Basics.after (planRun g playerTurn first others i) .empty
      (planAction conv g playerTurn first others i)

/-- An action that is no play. -/
def NoPlay (a : Action) : Prop := ∀ o p identity, a ≠ .play o p identity

/-- A turn goes by the plan: who has a card to play plays the only one, when it is next on its
stack, and nobody else plays. -/
def ByPlan (g : Game κ) (player : ℕ) (st : State) (a : Action) : Prop :=
  match startPlayables conv g player with
  | [] => NoPlay a
  | [o] => ∃ id, a = .play o player (some id) ∧ g.state.identityOf o = some id ∧
      st.isPlayable id = true
  | _ :: _ :: _ => False

section

variable {st : State} {a : Action}

theorem playStacks_of_noPlay (h : NoPlay a) (deckIds : SparseArray Identity) :
    (Basics.after st deckIds a).playStacks = st.playStacks := by
  cases a with
  | play o p identity => exact absurd rfl (h o p identity)
  | clue | draw | discard | turn => rfl

theorem variant_after (deckIds : SparseArray Identity) (a : Action) :
    (Basics.after st deckIds a).variant = st.variant := by
  cases a <;> rfl

end

variable {g : Game κ} {playerTurn : ℕ} {first : Option PerformAction} {others : ℕ → Action}

theorem variant_planRun (i : ℕ) :
    (planRun conv g playerTurn first others i).variant = g.state.variant := by
  induction i with
  | zero => rfl
  | succ i ih => exact (variant_after _ _).trans ih

/-- What one turn of `playKnown` looks at. -/
inductive KnownTurn (g : Game κ) (playerTurn i : ℕ) (playStacks : ℕ → ℕ) : (ℕ → ℕ) → Prop
  | pass : startPlayables conv g (turnPlayer g playerTurn i) = [] →
      KnownTurn g playerTurn i playStacks playStacks
  | play {o : ℕ} {id : Identity} : startPlayables conv g (turnPlayer g playerTurn i) = [o] →
      g.state.identityOf o = some id → id.rank = playStacks id.suitIndex + 1 →
      KnownTurn g playerTurn i playStacks (Function.update playStacks id.suitIndex id.rank)

variable {conv}

/-- A turn that `playKnown` accepts, and what it does with the action. -/
theorem playKnown_cons {i : ℕ} {turns : List ℕ} {playStacks playStacks' : ℕ → ℕ}
    {action action' : Option PerformAction}
    (h : playKnown conv g playerTurn (i :: turns) playStacks action = some (playStacks', action')) :
    ∃ mid next, KnownTurn conv g playerTurn i playStacks mid ∧
      playKnown conv g playerTurn turns mid next = some (playStacks', action') ∧
      next = match i, startPlayables conv g (turnPlayer g playerTurn i) with
        | 0, o :: _ => some (.play playerTurn o)
        | _, _ => action := by
  rw [playKnown] at h
  change (match startPlayables conv g (turnPlayer g playerTurn i) with
    | [] => _ | [o] => _ | _ :: _ :: _ => _) = _ at h
  cases hs : startPlayables conv g (turnPlayer g playerTurn i) with
  | nil =>
    rw [hs] at h
    exact ⟨playStacks, action, .pass hs, h, by cases i <;> rfl⟩
  | cons o rest =>
    rw [hs] at h
    cases rest with
    | cons => cases h
    | nil =>
      dsimp only at h
      cases hid : g.state.identityOf o with
      | none =>
        rw [hid] at h
        cases h
      | some id =>
        rw [hid] at h
        dsimp only at h
        split at h
        · cases h
        · next hrank =>
          refine ⟨_, _, .play hs hid (not_not.1 hrank).symm, h, ?_⟩
          cases i <;> rfl

/-- The planned action of such a turn is by the plan. -/
theorem planned_byPlan {i : ℕ} {playStacks mid : ℕ → ℕ} {st : State} {other : Action}
    (h : KnownTurn conv g playerTurn i playStacks mid) (hstacks : st.playStacks = playStacks)
    (hother : NoPlay other) :
    ByPlan conv g (turnPlayer g playerTurn i) st (planned conv g (turnPlayer g playerTurn i) other) := by
  cases h with
  | pass hs =>
    rw [ByPlan, planned, hs]
    exact hother
  | @play o id hs hid hrank =>
    rw [ByPlan, planned, hs]
    refine ⟨id, by simp [hid], hid, ?_⟩
    simp [State.isPlayable, hstacks, hrank]

/-- A turn by the plan changes the stacks as `playKnown` simulates it. -/
theorem playStacks_byPlan {i : ℕ} {playStacks mid : ℕ → ℕ} {st : State} {a : Action}
    (h : KnownTurn conv g playerTurn i playStacks mid) (hstacks : st.playStacks = playStacks)
    (ha : ByPlan conv g (turnPlayer g playerTurn i) st a) :
    (Basics.after st .empty a).playStacks = mid := by
  cases h with
  | pass hs =>
    rw [ByPlan, hs] at ha
    rw [playStacks_of_noPlay ha, hstacks]
  | @play o id hs hid hrank =>
    rw [ByPlan, hs] at ha
    obtain ⟨id', rfl, hid', -⟩ := ha
    rw [hid] at hid'
    cases hid'
    rw [← hstacks]
    rfl

/-- The turns after the first leave the action alone. -/
theorem playKnown_action (k : ℕ) {i : ℕ} (hi : i ≠ 0) {playStacks playStacks' : ℕ → ℕ}
    {action action' : Option PerformAction}
    (h : playKnown conv g playerTurn (List.range' i k) playStacks action = some (playStacks', action')) :
    action' = action := by
  induction k generalizing i playStacks action with
  | zero =>
    rw [List.range'_zero, playKnown] at h
    cases h
    rfl
  | succ k ih =>
    rw [List.range'_succ] at h
    obtain ⟨mid, next, -, h, hnext⟩ := playKnown_cons h
    obtain ⟨i, rfl⟩ := Nat.exists_eq_succ_of_ne_zero hi
    exact (ih (Nat.succ_ne_zero _) h).trans hnext

/-- The turns after the first: the simulated stacks are the real ones. -/
theorem playKnown_spec (hothers : ∀ i, NoPlay (others i)) (k : ℕ) {i : ℕ} (hi : i ≠ 0)
    {playStacks playStacks' : ℕ → ℕ} {action action' : Option PerformAction}
    (hstacks : (planRun conv g playerTurn first others i).playStacks = playStacks)
    (h : playKnown conv g playerTurn (List.range' i k) playStacks action = some (playStacks', action')) :
    (∀ j, i ≤ j → j < i + k → ByPlan conv g (turnPlayer g playerTurn j)
      (planRun conv g playerTurn first others j) (planAction conv g playerTurn first others j)) ∧
    (planRun conv g playerTurn first others (i + k)).playStacks = playStacks' := by
  induction k generalizing i playStacks action with
  | zero =>
    rw [List.range'_zero, playKnown] at h
    cases h
    refine ⟨?_, hstacks⟩
    intro j hle hlt
    omega
  | succ k ih =>
    rw [List.range'_succ] at h
    obtain ⟨mid, next, hturn, h, -⟩ := playKnown_cons h
    obtain ⟨i, rfl⟩ := Nat.exists_eq_succ_of_ne_zero hi
    have hby : ByPlan conv g (turnPlayer g playerTurn (i + 1)) (planRun conv g playerTurn first others (i + 1))
        (planAction conv g playerTurn first others (i + 1)) :=
      planned_byPlan hturn hstacks (hothers (i + 1))
    obtain ⟨hall, hend⟩ := ih (i := i + 2) (by omega) (playStacks_byPlan hturn hstacks hby) h
    refine ⟨?_, ?_⟩
    · intro j hle hlt
      by_cases hj : j = i + 1
      · rw [hj]
        exact hby
      · exact hall j (by omega) (by omega)
    · rw [← hend, show i + 1 + (k + 1) = i + 2 + k by omega]

/-- The returned action, which the first turn has settled, is by the plan. -/
theorem firstAction_byPlan {playStacks mid : ℕ → ℕ} {st : State} {first : Option PerformAction}
    (hplayer : playerTurn < g.state.numPlayers) (h : KnownTurn conv g playerTurn 0 playStacks mid)
    (hstacks : st.playStacks = playStacks)
    (hfirst : first = match startPlayables conv g (turnPlayer g playerTurn 0) with
      | o :: _ => some (.play playerTurn o)
      | [] => (g.state.hands playerTurn).getLast?.map (.discard playerTurn)) :
    ByPlan conv g (turnPlayer g playerTurn 0) st (firstAction g first) := by
  have hmod : turnPlayer g playerTurn 0 = playerTurn := Nat.mod_eq_of_lt hplayer
  cases h with
  | pass hs =>
    rw [hs] at hfirst
    rw [ByPlan, hs, hfirst]
    cases (g.state.hands playerTurn).getLast? with
    | none => exact fun o p identity => Action.noConfusion
    | some o => exact fun o p identity => Action.noConfusion
  | @play o id hs hid hrank =>
    rw [hs] at hfirst
    rw [ByPlan, hs, hfirst]
    refine ⟨id, ?_, hid, ?_⟩
    · simp [firstAction, hid, hmod]
    · simp [State.isPlayable, hstacks, hrank]

/-- What a game that is not over and trivially winnable has passed: the first turn, which settles
the action, the others, and the comparison of the scores. -/
theorem triviallyWinnable_turns (hscore : g.state.score < g.state.maxScore)
    (htrivial : triviallyWinnable conv g playerTurn = some first) :
    ∃ k playStacks mid, g.state.endgameTurns.toNat = k + 1 ∧
      KnownTurn conv g playerTurn 0 g.state.playStacks mid ∧
      playKnown conv g playerTurn (List.range' 1 k) mid first = some (playStacks, first) ∧
      (first = match startPlayables conv g (turnPlayer g playerTurn 0) with
        | o :: _ => some (.play playerTurn o)
        | [] => (g.state.hands playerTurn).getLast?.map (.discard playerTurn)) ∧
      ∑ s ∈ Finset.range g.state.variant.suits.length, playStacks s = g.state.maxScore := by
  rw [triviallyWinnable] at htrivial
  dsimp only at htrivial
  rw [if_neg hscore.ne] at htrivial
  split at htrivial
  case isFalse => cases htrivial
  case isTrue hturns =>
  obtain ⟨k, hk⟩ : ∃ k, g.state.endgameTurns.toNat = k + 1 := ⟨g.state.endgameTurns.toNat - 1, by omega⟩
  rw [hk, List.range_eq_range', List.range'_succ] at htrivial
  split at htrivial
  case h_1 => cases htrivial
  case h_2 playStacks action hknown =>
  split at htrivial
  case isFalse => cases htrivial
  case isTrue hsum =>
  cases htrivial
  obtain ⟨mid, next, hturn, hknown, hnext⟩ := playKnown_cons hknown
  obtain rfl : first = next := playKnown_action k Nat.one_ne_zero hknown
  refine ⟨k, playStacks, mid, hk, hturn, hknown, hnext.trans ?_, hsum⟩
  cases startPlayables conv g (turnPlayer g playerTurn 0) <;> rfl

/-- The returned action plays the one card that the player has to play, or discards the last one of
the hand. -/
theorem triviallyWinnable_action (hscore : g.state.score < g.state.maxScore)
    (hplayer : playerTurn < g.state.numPlayers)
    (htrivial : triviallyWinnable conv g playerTurn = some first) :
    (∃ o, startPlayables conv g playerTurn = [o] ∧ first = some (.play playerTurn o)) ∨
      startPlayables conv g playerTurn = [] ∧
        first = (g.state.hands playerTurn).getLast?.map (.discard playerTurn) := by
  have hmod : turnPlayer g playerTurn 0 = playerTurn := Nat.mod_eq_of_lt hplayer
  obtain ⟨k, playStacks, mid, -, hturn, -, hfirst, -⟩ := triviallyWinnable_turns hscore htrivial
  rw [hmod] at hfirst
  cases hturn with
  | pass hs =>
    rw [hmod] at hs
    rw [hs] at hfirst
    exact .inr ⟨hs, hfirst⟩
  | @play o id hs hid hrank =>
    rw [hmod] at hs
    rw [hs] at hfirst
    exact .inl ⟨o, hs, hfirst⟩

/-- A game that is not over and trivially winnable, which it can only be in the final round, is won
by the plan: every play of it is legal when it is made, and the final score is the maximum score. -/
theorem triviallyWinnable_sound
    (hscore : g.state.score < g.state.maxScore) (hplayer : playerTurn < g.state.numPlayers)
    (htrivial : triviallyWinnable conv g playerTurn = some first) (hothers : ∀ i, NoPlay (others i)) :
    (∀ i < g.state.endgameTurns.toNat, ByPlan conv g (turnPlayer g playerTurn i)
      (planRun conv g playerTurn first others i) (planAction conv g playerTurn first others i)) ∧
    (planRun conv g playerTurn first others g.state.endgameTurns.toNat).score = g.state.maxScore := by
  obtain ⟨k, playStacks, mid, hk, hturn, hknown, hfirst, hsum⟩ :=
    triviallyWinnable_turns hscore htrivial
  have hstart := firstAction_byPlan hplayer hturn rfl hfirst
  obtain ⟨hall, hend⟩ := playKnown_spec hothers k Nat.one_ne_zero
    (playStacks_byPlan hturn rfl hstart) hknown
  rw [hk]
  refine ⟨?_, ?_⟩
  · intro i hi
    cases i with
    | zero => exact hstart
    | succ i => exact hall (i + 1) (by omega) (by omega)
  · rw [State.score, variant_planRun, ← hsum, show k + 1 = 1 + k by omega, hend]

/-- Alice is dealt the first five cards, with red 5, and Bob the next five, with blue 5. -/
def lastRoundCards : List Identity :=
  [⟨0, 5⟩, ⟨0, 1⟩, ⟨0, 1⟩, ⟨0, 2⟩, ⟨0, 1⟩, ⟨1, 5⟩, ⟨1, 1⟩, ⟨1, 1⟩, ⟨1, 2⟩, ⟨0, 2⟩,
    ⟨0, 3⟩, ⟨0, 4⟩, ⟨1, 1⟩, ⟨1, 2⟩, ⟨1, 3⟩, ⟨1, 4⟩, ⟨0, 3⟩, ⟨1, 3⟩, ⟨0, 4⟩, ⟨1, 4⟩]

def lastRoundDeck : Deck redBlue := .ofList suits_redBlue lastRoundCards (by decide +kernel)

/-- They clue each other's 5, and play or discard their newest card in turn.  Alice does not see her
cards, but the solver has written her 5 on the deck. -/
def lastRoundActions : List Action :=
  let draw (o p : ℕ) : Action := .draw o p (if p = 0 ∧ o ≠ 0 then none else lastRoundCards[o]?)
  (List.range 10).map (fun o => draw o (o / 5)) ++
  [.clue 0 1 [5] ⟨.rank, 5⟩, .clue 1 0 [0] ⟨.rank, 5⟩] ++
  [(4, 10), (9, 11), (10, 12), (11, 13), (12, 14), (13, 15), (14, 16), (15, 17), (16, 18),
    (17, 19)].flatMap fun (o, drawn) =>
      [if o < 16 then .play o (drawn % 2) lastRoundCards[o]?
        else .discard o (drawn % 2) lastRoundCards[o]? false, draw drawn (drawn % 2)]

/-- Alice is to move in the last round.  Each knows the 5; their other cards are trash. -/
def lastRound : Game Unit :=
  let thought (p o : ℕ) : Card :=
    let mask := IdentitySet.identitiesToMask
      (if o = 5 * p then [⟨p, 5⟩] else [⟨p, 1⟩, ⟨p, 2⟩, ⟨p, 4⟩])
    { id := none
      possible := ⟨2, mask⟩
      inferred := ⟨2, mask⟩
      order := o }
  let player (p : ℕ) : Player :=
    { playerIndex := some p
      thoughts := [18 + p, 5 * p + 3, 5 * p + 2, 5 * p + 1, 5 * p].foldl
        (fun thoughts o => thoughts.set o (thought p o)) .empty
      allPossible := .full 2
      allInferred := .full 2 }
  { state := lastRoundActions.foldl (Basics.after · .empty) (State.fresh redBlue 2 0 {})
    players := player
    common := player 0
    deckIds := .empty
    data := () }

/-- It is trivially winnable, and the two plays win it. -/
theorem triviallyWinnable_sound_lastRound :
    (∃ acts, Run lastRoundDeck 2 0 {} acts lastRound.state) ∧
      triviallyWinnable plain lastRound 0 = some (some (.play 0 0)) ∧
      (planRun plain lastRound 0 (some (.play 0 0)) (fun _ => .turn 0 0) 2).score = 10 := by
  have hturns : lastRound.state.endgameTurns.toNat = 2 := by decide +kernel
  have hmax : lastRound.state.maxScore = 10 := by decide +kernel
  have htrivial : triviallyWinnable plain lastRound 0 = some (some (.play 0 0)) := by
    decide +kernel
  have hsound := (@triviallyWinnable_sound Unit plain lastRound 0 (some (.play 0 0))
    (fun _ => .turn 0 0) (by decide +kernel) (by decide +kernel) htrivial
    fun _ _ _ _ => Action.noConfusion).2
  rw [hturns, hmax] at hsound
  exact ⟨Run.fresh.append (by decide +kernel), htrivial, hsound⟩

end HanabiBot.Endgame
