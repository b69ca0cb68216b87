import HanabiBot.Endgame.Contract

/-!
# Positions that look alike

What the two searches make of a position depends on what they read of it and of the
positions that come after it, and on nothing else.

* `winnableSimpler_board` — `winnable_simpler` reads the board alone;
* `Alike` — two positions look the same to `winnable`, now and after the same actions;
* `agree_weigh` — then the searches agree, if they do on the positions after it.

The searches are compared without a clock and up to the fuel.
-/

namespace HanabiBot.Endgame

variable {κ : Type}

/-- The fuel has run out. -/
def OutOfFuel (e : SolverError) : Prop := e = .outOfFuel

/-- Every lookup finds the caches empty, and the clock never runs out. -/
def Uncached (s : SolverState) : Prop := s.caching = false ∧ s.clock = none

/-! ## The perfect-information search -/

section

variable {st st' : State} {p n : ℕ} {action : PerformAction} {rem : RemainingSet}

theorem board_removeAndDrawNew {new new' : State} (h : st'.board = st.board)
    (hnew : new'.board = new.board) (q o : ℕ) (draw : Option Identity) :
    (removeAndDrawNew st' new' q o draw).board = (removeAndDrawNew st new q o draw).board := by
  simp only [State.board, State.mk.injEq] at h hnew
  simp only [removeAndDrawNew, h, hnew]
  split <;> simp only [State.board]

theorem board_advanceState (st : State) (action : PerformAction) (draw : Option Identity) :
    (advanceState st.board action draw).board = (advanceState st action draw).board := by
  have hid : ∀ o, st.board.identityOf o = st.identityOf o := fun _ => rfl
  cases action with
  | clue | anyClue => rfl
  | play q o =>
    refine board_removeAndDrawNew rfl ?_ q o draw
    rw [hid]
    cases st.identityOf o with
    | none => rfl
    | some id =>
      have hplay : st.board.isPlayable id = st.isPlayable id := rfl
      dsimp only
      rw [hplay]
      cases st.isPlayable id <;> rfl
  | discard q o =>
    refine board_removeAndDrawNew rfl ?_ q o draw
    rw [hid]
    cases st.identityOf o <;> rfl

theorem winnableIf_board {search : State → ℕ → RemainingSet → SolverM Bool}
    (h : ∀ st q rem, search st.board q rem = search st q rem) (st : State) (p : ℕ)
    (action : PerformAction) (rem : RemainingSet) :
    winnableIf search st.board p action rem = winnableIf search st p action rem := by
  have hadv : ∀ draw q rem, search (advanceState st.board action draw) q rem =
      search (advanceState st action draw) q rem := by
    intro draw q rem
    rw [← h, board_advanceState, h]
  simp only [winnableIf, hadv]
  rfl

/-- The perfect-information search reads the board alone. -/
theorem winnableSimpler_board (n : ℕ) (st : State) (p : ℕ) (rem : RemainingSet) :
    winnableSimpler n st.board p rem = winnableSimpler n st p rem := by
  induction n generalizing st p rem with
  | zero => rfl
  | succ n ih =>
    simp only [winnableSimpler, winnableIf_board ih]
    rfl

/-- What reads the board alone is the same for states with the same board. -/
theorem eq_of_board {α : Type} {f : State → α} (hf : ∀ st, f st.board = f st)
    (h : st.board = st'.board) : f st = f st' := by
  rw [← hf st, h, hf st']

/-- The game is neither won nor given up yet. -/
def Open (st : State) (p : ℕ) : Prop :=
  st.score ≠ st.maxScore ∧ dealtState st = true ∧ unwinnableState st p = false

instance (st : State) (p : ℕ) : Decidable (Open st p) := by
  unfold Open
  infer_instance

/-- The key of `simpler_cache`. -/
def simplerKey (st : State) (p : ℕ) (rem : RemainingSet) : Key :=
  hashState st ++ [.num p, .remaining rem]

/-- Whether one of the actions wins. -/
def tryActions (n : ℕ) (st : State) (p : ℕ) (rem : RemainingSet) : SolverM Bool :=
  (simplerActions st p).anyM fun action => do
    let result ← winnableIf (winnableSimpler n) st p action rem
    pure result.winnable

/-- What the search does where the cache does not help. -/
def searchSimpler (n : ℕ) (st : State) (p : ℕ) (rem : RemainingSet) : SolverM Bool := do
  let winnable ← tryActions n st p rem
  storeSimpler (simplerKey st p rem) winnable
  pure winnable

/-- What a lookup finds. -/
def foundSimpler (s : SolverState) (key : Key) : Option Bool :=
  if s.caching then s.simpler key else none

variable {s : SolverState}

theorem exec_winnableSimpler_open (h : Open st p) (hs : s.clock = none) :
    Prog.exec (winnableSimpler (n + 1) st p rem) s =
      (foundSimpler s (simplerKey st p rem)).elim (Prog.exec (searchSimpler n st p rem) s)
        fun b => (.ok b, s) := by
  obtain ⟨hscore, hdealt, hwin⟩ := h
  rw [winnableSimpler, if_neg hscore, if_neg (by simp [hdealt]), if_neg (by simp [hwin]),
    Prog.exec_bind, exec_timedOut hs]
  dsimp only
  rw [if_neg Bool.false_ne_true, lookupSimpler, bind_assoc, Prog.exec_bind, Prog.exec_get]
  change Prog.exec (pure (foundSimpler s (simplerKey st p rem)) >>= _) s = _
  rw [pure_bind]
  cases foundSimpler s (simplerKey st p rem) <;> rfl

theorem winnableSimpler_closed (h : ¬ Open st p) (rem : RemainingSet) :
    ∃ r, ∀ n s, Prog.exec (winnableSimpler (n + 1) st p rem) s = (r, s) := by
  unfold winnableSimpler
  by_cases hscore : st.score = st.maxScore
  · simp only [if_pos hscore]
    exact ⟨_, fun _ _ => rfl⟩
  · by_cases hdealt : dealtState st = false
    · simp only [if_neg hscore, if_pos hdealt]
      exact ⟨_, fun _ _ => rfl⟩
    · have hwin : unwinnableState st p = true := by
        by_contra hno
        exact h ⟨hscore, by simpa using hdealt, by simpa using hno⟩
      simp only [if_neg hscore, if_neg hdealt, if_pos hwin]
      exact ⟨_, fun _ _ => rfl⟩

/-- A state to which an action leads, and what is missing there. -/
inductive Follows (st : State) (action : PerformAction) (rem : RemainingSet) :
    State → RemainingSet → Prop
  | undrawn : action.isClue = true ∨ st.cardsLeft = 0 →
      Follows st action rem (advanceState st action none) rem
  | drawn {r : Remaining} {rem' : RemainingSet} : r ∈ rem → removeRemaining rem r.id = some rem' →
      Follows st action rem (advanceState st action (some r.id)) rem'

variable {R : SolverState → SolverState → Prop} {F : SolverError → Prop}

theorem agree_winnableIf {search search' : State → ℕ → RemainingSet → SolverM Bool}
    (h : ∀ st' rem', Follows st action rem st' rem' → Prog.Agree R F
      (search st' (st.nextPlayerIndex p) rem') (search' st' (st.nextPlayerIndex p) rem')) :
    Prog.Agree R F (winnableIf search st p action rem) (winnableIf search' st p action rem) := by
  rw [winnableIf, winnableIf]
  split
  · rename_i hno
    exact (h _ _ (.undrawn hno)).bind fun _ _ => .pure _
  · refine .bind (.filterMapM fun r hr => ?_) fun _ _ => .pure _
    obtain ⟨rem', hrem⟩ := removeRemaining_of_mem hr
    rw [hrem]
    exact (h _ _ (.drawn hr hrem)).bind fun _ _ => .pure _

theorem agree_tryActions {n' : ℕ}
    (h : ∀ action ∈ simplerActions st p, ∀ st' rem', Follows st action rem st' rem' →
      Prog.Agree R F (winnableSimpler n st' (st.nextPlayerIndex p) rem')
        (winnableSimpler n' st' (st.nextPlayerIndex p) rem')) :
    Prog.Agree R F (tryActions n st p rem) (tryActions n' st p rem) :=
  .anyM fun action ha => (agree_winnableIf (h action ha)).bind fun _ _ => .pure _

/-- Neither run has caches. -/
def BothUncached (s t : SolverState) : Prop := Uncached s ∧ Uncached t

theorem foundSimpler_uncached (hs : Uncached s) (key : Key) : foundSimpler s key = none :=
  if_neg (by simp [hs.1])

theorem agree_searchSimpler_uncached
    (h : Prog.Agree BothUncached F (tryActions n st p rem) (tryActions n st p rem)) :
    Prog.Agree BothUncached F (searchSimpler n st p rem) (searchSimpler n st p rem) := by
  refine h.bind fun b _ => .bind ?_ fun _ _ => .pure b
  exact fun s t hst => .inr ⟨rfl, hst⟩

/-- Without caches, the outcome does not depend on what they hold. -/
theorem agree_winnableSimpler_uncached (n : ℕ) (st : State) (p : ℕ) (rem : RemainingSet) :
    Prog.Agree BothUncached F (winnableSimpler n st p rem) (winnableSimpler n st p rem) := by
  induction n generalizing st p rem with
  | zero => exact .throw _
  | succ n ih =>
    by_cases hopen : Open st p
    · intro s t hst
      rw [exec_winnableSimpler_open hopen hst.1.2, exec_winnableSimpler_open hopen hst.2.2,
        foundSimpler_uncached hst.1, foundSimpler_uncached hst.2]
      exact agree_searchSimpler_uncached (agree_tryActions fun _ _ _ _ _ => ih _ _ _) s t hst
    · obtain ⟨r, hr⟩ := winnableSimpler_closed hopen rem
      intro s t hst
      rw [hr, hr]
      exact .inr ⟨rfl, hst⟩

end

/-! ## Positions -/

/-- What the search is called with. -/
structure Position (κ : Type) where
  conv : Convention κ
  game : Game κ
  turn : ℕ
  remaining : RemainingSet

/-- The game after an action, or the error. -/
def advanced (conv : Convention κ) (g : Game κ) (action : PerformAction) :
    Except SolverError (Game κ) :=
  (Prog.exec (advanceGame conv g action) {}).1

theorem exec_advanceGame (conv : Convention κ) (g : Game κ) (action : PerformAction)
    (s : SolverState) : Prog.exec (advanceGame conv g action) s = (advanced conv g action, s) := by
  have hoption : ∀ (act : Option Action) (s : SolverState),
      Prog.exec ((Prog.ofOption .typeError act : SolverM Action) >>= fun act =>
        Prog.ofOption .gameError (conv.simulateAction g act)) s =
      ((Prog.exec ((Prog.ofOption .typeError act : SolverM Action) >>= fun act =>
        Prog.ofOption .gameError (conv.simulateAction g act)) {}).1, s) := by
    intro act s
    cases act with
    | none => rfl
    | some act =>
      rw [Prog.ofOption_some, pure_bind]
      cases conv.simulateAction g act <;> rfl
  unfold advanced advanceGame
  cases action with
  | anyClue => rfl
  | play | discard | clue => exact hoption _ s

namespace Position

/-- The key of `simple_cache`. -/
def key (x : Position κ) : Key := hash x.game ++ [.num x.turn]

def next (x : Position κ) : ℕ := x.game.state.nextPlayerIndex x.turn

/-- `winnable` on the position. -/
def search (x : Position κ) (n : ℕ) : SolverM (List BestAction) :=
  winnable x.conv n x.game x.turn x.remaining

/-- `possible_actions` on the position. -/
def offers (x : Position κ) (rem : RemainingSet) : SolverM (List Offer) :=
  possibleActions x.conv x.game x.turn rem

/-- The game after one of the missing cards is drawn, or none. -/
def hypo (x : Position κ) : Option Remaining → HypoGame κ
  | none => { hypoGame := x.game, prob := 1, remaining := x.remaining }
  | some r => drawnHypo x.game x.remaining r

/-- The cards that may be drawn with an action. -/
def draws (x : Position κ) (action : PerformAction) : List (Option Remaining) :=
  if action.isClue = true ∨ x.remaining = [] then [none] else x.remaining.map some

/-- The position after a draw and an action. -/
def after (x : Position κ) (action : PerformAction) (d : Option Remaining) :
    Except SolverError (Position κ) :=
  (advanced x.conv (x.hypo d).hypoGame action).map fun g =>
    ⟨x.conv, g, x.next, (x.hypo d).remaining⟩

/-- An offer is pursued to the position after it: the draw may still win, and no critical card is
lost. -/
def Pursues (x : Position κ) (offer : Offer) (d : Option Remaining) (x' : Position κ) : Prop :=
  (∀ id, (x.hypo d).drew = some id → ∃ draws, offer.winnableDraws = some draws ∧ id ∈ draws) ∧
    (x.hypo d).hypoGame.state.maxScore ≤ x'.game.state.maxScore

end Position

/-- Two outcomes are the same error, or related values. -/
inductive OutcomeRel {ε α β : Type} (r : α → β → Prop) : Except ε α → Except ε β → Prop
  | ok {a : α} {b : β} : r a b → OutcomeRel r (.ok a) (.ok b)
  | error (e : ε) : OutcomeRel r (.error e) (.error e)

theorem OutcomeRel.mono {ε α β : Type} {r r' : α → β → Prop} {a : Except ε α} {b : Except ε β}
    (h : OutcomeRel r a b) (hr : ∀ a b, r a b → r' a b) : OutcomeRel r' a b := by
  cases h with
  | ok h => exact .ok (hr _ _ h)
  | error e => exact .error e

theorem OutcomeRel.of_map {ε α β α' β' : Type} {r : α' → β' → Prop} {f : α → α'} {g : β → β'}
    {a : Except ε α} {b : Except ε β} (h : OutcomeRel r (a.map f) (b.map g)) :
    OutcomeRel (fun a b => r (f a) (g b)) a b := by
  cases a with
  | error e =>
    cases b with
    | error e' =>
      cases h
      exact .error e
    | ok b => cases h
  | ok a =>
    cases b with
    | error e' => cases h
    | ok b =>
      cases h with
      | ok h => exact .ok h

/-- The two positions are the same to a single look. -/
structure SameSight (x y : Position κ) : Prop where
  turn_eq : x.turn = y.turn
  remaining_eq : x.remaining = y.remaining
  board_eq : x.game.state.board = y.game.state.board
  dealt_eq : x.game.dealt = y.game.dealt
  trivial_eq : triviallyWinnable x.conv x.game x.turn = triviallyWinnable y.conv y.game y.turn
  playables_eq : knownPlayables x.conv x.game x.turn = knownPlayables y.conv y.game y.turn
  clues_eq : x.conv.findClues x.game x.turn = y.conv.findClues y.game y.turn
  discards_eq : x.conv.findDiscards x.game x.turn = y.conv.findDiscards y.game y.turn
  streak_eq : x.game.state.numPlayers < consecutiveClues x.game.state.actionList.toList.reverse ↔
    y.game.state.numPlayers < consecutiveClues y.game.state.actionList.toList.reverse

/-- The relation survives every action that may be tried. -/
structure IsBisim (r : Position κ → Position κ → Prop) : Prop where
  sight : ∀ x y, r x y → SameSight x y
  after : ∀ x y, r x y → ∀ action ∈ candidates x.conv x.game x.turn, ∀ d ∈ x.draws action,
    OutcomeRel r (x.after action d) (y.after action d)

/-- The two positions look the same, and so do those after the same actions. -/
def Alike (x y : Position κ) : Prop := ∃ r, IsBisim r ∧ r x y

section

variable {x y : Position κ}

theorem SameSight.refl (x : Position κ) : SameSight x x := ⟨rfl, rfl, rfl, rfl, rfl, rfl, rfl, rfl, .rfl⟩

theorem Alike.refl (x : Position κ) : Alike x x := by
  refine ⟨Eq, ⟨?_, ?_⟩, rfl⟩
  · rintro x _ rfl
    exact .refl x
  · rintro x _ rfl action _ d _
    cases x.after action d with
    | ok a => exact .ok rfl
    | error e => exact .error e

theorem Alike.sight (h : Alike x y) : SameSight x y := by
  obtain ⟨r, hr, hxy⟩ := h
  exact hr.sight x y hxy

theorem Alike.after (h : Alike x y) {action : PerformAction}
    (ha : action ∈ candidates x.conv x.game x.turn) {d : Option Remaining} (hd : d ∈ x.draws action) :
    OutcomeRel Alike (x.after action d) (y.after action d) := by
  obtain ⟨r, hr, hxy⟩ := h
  exact (hr.after x y hxy action ha d hd).mono fun _ _ hnext => ⟨r, hr, hnext⟩

/-! ## One look -/

namespace SameSight

/-- What reads the board alone is the same. -/
theorem of_state (h : SameSight x y) {α : Type} {f : State → α} (hf : ∀ st, f st.board = f st) :
    f x.game.state = f y.game.state := eq_of_board hf h.board_eq

theorem offerIf_eq (h : SameSight x y) : offerIf x.game.state = offerIf y.game.state := by
  refine h.of_state fun st => ?_
  funext p rem action
  simp only [offerIf, winnableIfNow, winnableIf_board fun st => winnableSimpler_board _ st]
  rfl

theorem clueWinnable_eq (h : SameSight x y) (rem : RemainingSet) :
    clueWinnable x.game.state x.turn rem = clueWinnable y.game.state y.turn rem := by
  have hnow : winnableIfNow x.game.state = winnableIfNow y.game.state := by
    refine h.of_state fun st => ?_
    funext p action rem
    simp only [winnableIfNow, winnableIf_board fun st => winnableSimpler_board _ st]
    rfl
  simp only [clueWinnable, hnow, h.turn_eq, h.streak_eq]

theorem discardsOf_eq (h : SameSight x y) :
    discardsOf x.conv x.game x.turn = discardsOf y.conv y.game y.turn := by
  have hfind : ∀ p, ((x.game.state.hands p).find? fun o =>
      x.game.state.isBasicTrashCard (x.game.state.identityOf o)) =
      (y.game.state.hands p).find? fun o => y.game.state.isBasicTrashCard (y.game.state.identityOf o) :=
    fun p => h.of_state (f := fun st => (st.hands p).find? fun o =>
      st.isBasicTrashCard (st.identityOf o)) fun _ => rfl
  simp only [discardsOf, hfind, h.discards_eq]
  rw [h.turn_eq]

/-- The same actions are offered. -/
theorem offers_eq (h : SameSight x y) (rem : RemainingSet) : x.offers rem = y.offers rem := by
  have htokens := h.of_state (f := State.clueTokens) fun _ => rfl
  have hpace := h.of_state (f := State.pace) fun _ => rfl
  have hdiscard := h.of_state (f := discardAction) fun _ => rfl
  have hclues : offerClues x.conv x.game x.turn = offerClues y.conv y.game y.turn := by
    funext winnable
    simp only [offerClues, htokens, h.clues_eq]
    rw [h.turn_eq]
  have hany : offerAnyClue x.game.state = offerAnyClue y.game.state := by
    funext p winnable clues
    simp only [offerAnyClue, htokens]
  simp only [Position.offers, possibleActions, offerDiscards, h.playables_eq, h.offerIf_eq,
    h.clueWinnable_eq, h.discardsOf_eq, hpace, hdiscard, hclues, hany]
  rw [h.turn_eq]

end SameSight

/-- Only candidates are offered. -/
theorem mem_candidates_of_offers {rem : RemainingSet} {s : SolverState} {offers : List Offer}
    (h : (Prog.exec (x.offers rem) s).1 = .ok offers) {offer : Offer} (ho : offer ∈ offers) :
    offer.action ∈ candidates x.conv x.game x.turn := by
  have hoffer : ∀ (st : State) (p : ℕ) (l : List PerformAction),
      Prog.Sat (fun _ => True) (fun _ => True) (l.filterMapM (offerIf st p rem)) fun offers =>
        ∀ offer ∈ offers, offer.action ∈ l := by
    intro st p l
    refine (Prog.Sat.filterMapM (P := fun a r => ∀ offer, r = some offer → offer.action = a)
      fun a _ => ?_).mono ?_
    · refine Prog.Sat.bind (Q := fun _ => True) (fun s _ => ?_) fun r _ => Prog.Sat.pure fun offer hr => ?_
      · rcases Prog.exec (winnableIfNow st p a rem) s with ⟨r, s'⟩
        cases r <;> exact ⟨trivial, trivial⟩
      · split at hr
        · cases hr
          rfl
        · cases hr
    · rintro _ ⟨ps, rfl, hsub, hP, -⟩ offer ho
      obtain ⟨e, he, rfl⟩ := List.mem_map.1 ho
      rw [hP e he e.2 rfl]
      exact hsub.subset (List.mem_map_of_mem he)
  have hspec : Prog.Sat (fun _ => True) (fun _ => True) (x.offers rem) fun offers =>
      ∀ offer ∈ offers, offer.action ∈ candidates x.conv x.game x.turn := by
    rw [Position.offers, possibleActions]
    refine Prog.Sat.bind (Q := fun _ => True) (Stable.timedOut ⟨fun _ _ _ _ => trivial,
      fun _ _ _ _ => trivial⟩) fun late _ => ?_
    split
    · exact Prog.Sat.pure (by simp)
    · refine (hoffer _ _ _).bind fun plays hplays => ?_
      refine Prog.Sat.bind (Q := fun _ => True) (fun s _ => ?_) fun winnable _ => ?_
      · rcases Prog.exec (clueWinnable x.game.state x.turn rem) s with ⟨r, s'⟩
        cases r <;> exact ⟨trivial, trivial⟩
      · refine Prog.Sat.bind (Q := fun offers => ∀ offer ∈ offers, offer.action ∈
          (discardsOf x.conv x.game x.turn).filterMap (discardAction x.game.state x.turn)) ?_
          fun discards hdiscards => Prog.Sat.pure fun offer ho => ?_
        · rw [offerDiscards]
          split
          · exact hoffer _ _ _
          · exact Prog.Sat.pure (by simp)
        · simp only [candidates, List.mem_append] at ho ⊢
          obtain ((ho | ho) | ho) | ho := ho
          · exact .inl (.inl (.inl (hplays offer ho)))
          · refine .inl (.inl (.inr ?_))
            rw [offerClues] at ho
            split at ho
            · obtain ⟨c, hc, rfl⟩ := List.mem_map.1 ho
              exact List.mem_map_of_mem hc
            · cases ho
          · exact .inl (.inr (hdiscards offer ho))
          · refine .inr ?_
            rw [offerAnyClue] at ho
            split at ho
            · rw [List.mem_singleton.1 ho]
              exact List.mem_singleton_self _
            · cases ho
  exact (hspec.exec_ok trivial h).1 offer ho

/-! ## The search over the draws -/

/-- The games that `gen_hypo_games` makes. -/
def Position.hypoGames (x : Position κ) (offers : List Offer) : HypoGame κ × List (HypoGame κ) :=
  (x.hypo none, if offers.all (fun o => o.action.isClue) then []
    else if x.remaining = [] then [x.hypo none] else x.remaining.map fun r => x.hypo (some r))

theorem genHypoGames_eq (x : Position κ) (offers : List Offer) :
    genHypoGames x.game offers x.remaining = pure (x.hypoGames offers) := by
  rw [genHypoGames, Position.hypoGames]
  split
  · rfl
  · have hempty : ((x.remaining.map (drawnHypo x.game x.remaining)).isEmpty = true) ↔
        x.remaining = [] := by simp
    rw [Prog.mapM_eq_pure fun r hr => drawnGame_eq hr, pure_bind]
    simp only [hempty]
    rfl

/-- The games of an action are those of its draws. -/
theorem gamesFor_eq {offers : List Offer} {offer : Offer} (h : offer ∈ offers) :
    gamesFor (x.hypoGames offers) offer.action = (x.draws offer.action).map x.hypo := by
  rw [gamesFor, Position.draws, Position.hypoGames]
  by_cases hclue : offer.action.isClue = true
  · rw [if_pos hclue, if_pos (Or.inl hclue)]
    rfl
  · have hall : ¬ offers.all (fun o => o.action.isClue) = true := by
      intro hall
      exact hclue (List.all_eq_true.1 hall offer h)
    rw [if_neg hclue, if_neg hall]
    by_cases hrem : x.remaining = []
    · rw [if_pos hrem, if_pos (Or.inr hrem)]
      rfl
    · rw [if_neg hrem, if_neg (by simp [hclue, hrem]), List.map_map]
      rfl

theorem SameSight.draws_eq (h : SameSight x y) (action : PerformAction) :
    x.draws action = y.draws action := by
  rw [Position.draws, Position.draws, h.remaining_eq]

variable {R : SolverState → SolverState → Prop} {F : SolverError → Prop} {search search' : Search κ}

/-- After the draw and the action, both positions are at the same error, or at positions on which the
searches agree, if the offer is pursued. -/
def Matched (R : SolverState → SolverState → Prop) (F : SolverError → Prop)
    (search search' : Search κ) (x y : Position κ) (offer : Offer) (d : Option Remaining) : Prop :=
  OutcomeRel (fun x' y' => x'.game.state.maxScore = y'.game.state.maxScore ∧
    (x.Pursues offer d x' → Prog.Agree R F (search x'.game x'.turn x'.remaining)
      (search' y'.game y'.turn y'.remaining))) (x.after offer.action d) (y.after offer.action d)

theorem SameSight.hypo_eq (h : SameSight x y) (d : Option Remaining) :
    (x.hypo d).prob = (y.hypo d).prob ∧ (x.hypo d).drew = (y.hypo d).drew ∧
      (x.hypo d).hypoGame.state.maxScore = (y.hypo d).hypoGame.state.maxScore := by
  have hleft := h.of_state (f := State.cardsLeft) fun _ => rfl
  have hmax := h.of_state (f := State.maxScore) fun _ => rfl
  cases d with
  | none => exact ⟨rfl, rfl, hmax⟩
  | some r =>
    refine ⟨?_, rfl, hmax⟩
    simp only [Position.hypo, drawnHypo, hleft]

/-- No run has a clock, and the second one has no caches either. -/
def Clockless (R : SolverState → SolverState → Prop) : Prop :=
  ∀ s t, R s t → s.clock = none ∧ Uncached t

/-- A draw that is passed over is not pursued. -/
theorem unwinnableDraw_spec (draws : Option (List Identity)) (drew : Option Identity) :
    (∃ e, unwinnableDraw draws drew = throw e) ∨ ∃ skip, unwinnableDraw draws drew = pure skip ∧
      (skip = false → ∀ id, drew = some id → ∃ ids, draws = some ids ∧ id ∈ ids) := by
  cases drew with
  | none => exact .inr ⟨false, rfl, by simp⟩
  | some id =>
    cases draws with
    | none => exact .inl ⟨.typeError, rfl⟩
    | some ids => exact .inr ⟨!ids.contains id, rfl, by simp⟩

theorem agree_timedOut (hR : Clockless R) :
    Prog.Agree R F timedOut timedOut := by
  intro s t hst
  obtain ⟨hs, -, ht⟩ := hR s t hst
  rw [exec_timedOut hs, exec_timedOut ht]
  exact .inr ⟨rfl, hst⟩

/-- After the action, the games are compared. -/
theorem agree_advanceGame {α : Type} {g g' : Game κ} {conv conv' : Convention κ}
    {action : PerformAction} {r : Game κ → Game κ → Prop} {f f' : Game κ → SolverM α}
    (h : OutcomeRel r (advanced conv g action) (advanced conv' g' action))
    (hf : ∀ g g', r g g' → Prog.Agree R F (f g) (f' g')) :
    Prog.Agree R F (advanceGame conv g action >>= f) (advanceGame conv' g' action >>= f') := by
  intro s t hst
  rw [Prog.exec_bind, Prog.exec_bind, exec_advanceGame, exec_advanceGame]
  revert h
  generalize advanced conv g action = a
  generalize advanced conv' g' action = b
  rintro (h | e)
  · exact hf _ _ h s t hst
  · exact .inr ⟨rfl, hst⟩

theorem agree_tryGames (hR : Clockless R) (hxy : SameSight x y)
    {offer : Offer} {ds : List (Option Remaining)}
    (h : ∀ d ∈ ds, Matched R F search search' x y offer d) (best all rem : Fraction) :
    Prog.Agree R F (tryGames x.conv search x.next offer best (ds.map x.hypo) all rem)
      (tryGames y.conv search' y.next offer best (ds.map y.hypo) all rem) := by
  induction ds generalizing all rem with
  | nil => exact .pure _
  | cons d ds ih =>
    have hrest := ih fun d hd => h d (List.mem_cons_of_mem _ hd)
    have hmatch := (h d List.mem_cons_self).of_map
    obtain ⟨hprob, hdrew, hmax⟩ := hxy.hypo_eq d
    rw [List.map_cons, List.map_cons, tryGames, tryGames, ← hdrew]
    obtain ⟨e, hdraw⟩ | ⟨skip, hdraw, hpursued⟩ :=
      unwinnableDraw_spec offer.winnableDraws (x.hypo d).drew
    · rw [hdraw]
      exact fun s t hst => .inr ⟨rfl, hst⟩
    · rw [hdraw, pure_bind, pure_bind]
      cases skip with
      | true => exact hrest _ _
      | false =>
        rw [if_neg Bool.false_ne_true, if_neg Bool.false_ne_true]
        refine (agree_timedOut hR).bind fun late _ => ?_
        split
        · exact .throw _
        · refine agree_advanceGame hmatch fun g g' hg => ?_
          obtain ⟨hscore, hsearch⟩ := hg
          rw [← hmax, ← hscore]
          split
          · exact hrest _ _
          · rename_i hkept
            refine (hsearch ⟨hpursued rfl, not_lt.1 hkept⟩).bind fun result _ => ?_
            refine (agree_timedOut hR).bind fun late _ => ?_
            split
            · exact .pure _
            · cases result with
              | nil => exact .throw _
              | cons b rest =>
                dsimp only
                rw [← hprob]
                split
                · exact .pure _
                · exact hrest _ _

theorem agree_optimize (hR : Clockless R) (hxy : SameSight x y)
    {all offers : List Offer} (hsub : offers ⊆ all)
    (h : ∀ offer ∈ offers, ∀ d ∈ x.draws offer.action, Matched R F search search' x y offer d)
    (best : Fraction) (actions : List PerformAction) :
    Prog.Agree R F (optimize x.conv search x.next (x.hypoGames all) offers best actions)
      (optimize y.conv search' y.next (y.hypoGames all) offers best actions) := by
  induction offers generalizing best actions with
  | nil => exact .pure _
  | cons offer offers ih =>
    obtain ⟨hoffer, hoffers⟩ := List.cons_subset.1 hsub
    have hrest := ih hoffers fun o ho => h o (List.mem_cons_of_mem _ ho)
    rw [optimize, optimize, gamesFor_eq hoffer, gamesFor_eq hoffer, ← hxy.draws_eq]
    refine (agree_tryGames hR hxy (h offer List.mem_cons_self) _ _ _).bind fun winrate _ => ?_
    cases winrate with
    | none => exact .pure _
    | some w =>
      dsimp only
      split
      · exact .pure _
      · split
        · exact hrest _ _
        · split
          · exact hrest _ _
          · exact hrest _ _

/-! ## The search -/

namespace Position

/-- What the search does where the cache does not help: the result, and whether it is stored. -/
def weigh (x : Position κ) (search : Search κ) : SolverM (List BestAction × Bool) := do
  if x.game.dealt = false then
    throw .typeError
  else
    match triviallyWinnable x.conv x.game x.turn with
    | some action => pure ([⟨action, 1⟩], true)
    | none =>
      if ← timedOut then
        throw (.unsolvedGame "timed out")
      else if unwinnableState x.game.state x.turn || bottomDecked x.game.state x.remaining then
        pure (failure, true)
      else
        let offers ← x.offers x.remaining
        if offers.isEmpty then
          pure (failure, false)
        else
          let (bestWinrate, bestActions) ←
            optimize x.conv search x.next (x.hypoGames offers) offers 0 []
          pure (bestActions.map fun a => ⟨some a, bestWinrate⟩, true)

/-- Store the result, if it is to be. -/
def remember (x : Position κ) (result : List BestAction × Bool) : SolverM (List BestAction) := do
  if result.2 then
    storeSimple x.key result.1
  pure result.1

/-- The search looks in the cache first. -/
theorem search_succ (x : Position κ) (n : ℕ) :
    x.search (n + 1) = lookupSimple x.key >>= fun cached =>
      cached.elim (x.weigh (winnable x.conv n) >>= x.remember) pure := by
  rw [search, winnable]
  refine congrArg (lookupSimple x.key >>= ·) (funext fun cached => ?_)
  cases cached with
  | some r => rfl
  | none =>
    rw [Option.elim_none, weigh]
    dsimp only
    by_cases hdealt : x.game.dealt = false
    · rw [if_pos hdealt, if_pos hdealt]
      rfl
    · rw [if_neg hdealt, if_neg hdealt]
      cases triviallyWinnable x.conv x.game x.turn with
      | some action => rfl
      | none =>
        dsimp only
        rw [bind_assoc]
        refine congrArg (timedOut >>= ·) (funext fun late => ?_)
        cases late with
        | true => rfl
        | false =>
          rw [if_neg Bool.false_ne_true, if_neg Bool.false_ne_true]
          split
          · rfl
          · rw [bind_assoc]
            refine congrArg (possibleActions x.conv x.game x.turn x.remaining >>= ·)
              (funext fun offers => ?_)
            split
            · rfl
            · rw [bind_assoc, optimizeFrom, genHypoGames_eq, pure_bind]
              rfl

/-- What a lookup finds. -/
def found (x : Position κ) (s : SolverState) : Option (List BestAction) :=
  if s.caching then s.simple x.key else none

theorem exec_search_succ (x : Position κ) (n : ℕ) (s : SolverState) :
    Prog.exec (x.search (n + 1)) s =
      (x.found s).elim (Prog.exec (x.weigh (winnable x.conv n) >>= x.remember) s)
        fun r => (.ok r, s) := by
  rw [search_succ, lookupSimple, bind_assoc, Prog.exec_bind, Prog.exec_get]
  change Prog.exec (pure (x.found s) >>= _) s = _
  rw [pure_bind]
  cases x.found s <;> rfl

theorem found_uncached (x : Position κ) {s : SolverState} (hs : Uncached s) : x.found s = none :=
  if_neg (by simp [hs.1])

end Position

/-- The position is neither won nor given up at sight. -/
structure Position.Explored (x : Position κ) : Prop where
  dealt : x.game.dealt = true
  untrivial : triviallyWinnable x.conv x.game x.turn = none
  winnable : unwinnableState x.game.state x.turn = false
  kept : bottomDecked x.game.state x.remaining = false

/-- An action is offered, with `rem` missing. -/
def Position.Offered (x : Position κ) (rem : RemainingSet) (offer : Offer) : Prop :=
  ∃ s offers, Uncached s ∧ (Prog.exec (x.offers rem) s).1 = .ok offers ∧ offer ∈ offers

theorem Position.Offered.mem_candidates {rem : RemainingSet} {offer : Offer}
    (h : x.Offered rem offer) : offer.action ∈ candidates x.conv x.game x.turn := by
  obtain ⟨s, offers, -, hok, ho⟩ := h
  exact mem_candidates_of_offers hok ho

/-- Positions of the same sight agree, if the positions after them do. -/
theorem agree_weigh (hR : Clockless R) (hxy : SameSight x y)
    (hoffers : x.Explored → Prog.Agree R F (x.offers x.remaining) (x.offers x.remaining))
    (h : x.Explored → ∀ offer, x.Offered x.remaining offer → ∀ d ∈ x.draws offer.action,
      Matched R F search search' x y offer d) :
    Prog.Agree R F (x.weigh search) (y.weigh search') := by
  have hwin := hxy.of_state (f := fun st => unwinnableState st x.turn) fun _ => rfl
  have hbottom := hxy.of_state (f := fun st => bottomDecked st x.remaining) fun _ => rfl
  rw [Position.weigh, Position.weigh, ← hxy.dealt_eq, ← hxy.trivial_eq, ← hxy.turn_eq,
    ← hxy.remaining_eq, ← hwin, ← hbottom, ← hxy.offers_eq]
  by_cases hdealt : x.game.dealt = false
  · rw [if_pos hdealt, if_pos hdealt]
    exact .throw _
  · rw [if_neg hdealt, if_neg hdealt]
    cases htrivial : triviallyWinnable x.conv x.game x.turn with
    | some action => exact .pure _
    | none =>
      refine (agree_timedOut hR).bind fun late _ => ?_
      split
      · exact .throw _
      · split
        · exact .pure _
        · rename_i hgo
          obtain ⟨hwinnable, hkept⟩ := Bool.or_eq_false_iff.1 (Bool.eq_false_iff.2 hgo)
          have hexplored : x.Explored := ⟨by simpa using hdealt, htrivial, hwinnable, hkept⟩
          refine (hoffers hexplored).bind fun offers hboth => ?_
          obtain ⟨s, t, hst, hok⟩ := hboth
          split
          · exact .pure _
          · refine .bind (agree_optimize hR hxy (List.Subset.refl _) (fun offer ho => ?_) _ _)
              fun best _ => .pure _
            exact h hexplored offer ⟨t, offers, (hR s t hst).2, hok, ho⟩

theorem agree_winnableIfNow_uncached (st : State) (p : ℕ) (action : PerformAction)
    (rem : RemainingSet) :
    Prog.Agree BothUncached F (winnableIfNow st p action rem) (winnableIfNow st p action rem) :=
  agree_winnableIf fun _ _ _ => agree_winnableSimpler_uncached _ _ _ _

/-- The offers agree, if the perfect-information search does. -/
theorem agree_offers (hR : Clockless R) {rem : RemainingSet}
    (h : ∀ action ∈ candidates x.conv x.game x.turn, Prog.Agree R F
      (winnableIfNow x.game.state x.turn action rem) (winnableIfNow x.game.state x.turn action rem)) :
    Prog.Agree R F (x.offers rem) (x.offers rem) := by
  have hoffer : ∀ l ⊆ candidates x.conv x.game x.turn, Prog.Agree R F
      (l.filterMapM (offerIf x.game.state x.turn rem))
      (l.filterMapM (offerIf x.game.state x.turn rem)) :=
    fun l hl => .filterMapM fun a ha => (h a (hl ha)).bind fun _ _ => .pure _
  rw [Position.offers, possibleActions]
  refine (agree_timedOut hR).bind fun late _ => ?_
  split
  · exact .pure _
  · refine (hoffer _ fun a ha => ?_).bind fun plays _ => ?_
    · exact List.mem_append_left _ (List.mem_append_left _ (List.mem_append_left _ ha))
    · refine .bind (m := clueWinnable x.game.state x.turn rem) ?_ fun winnable _ => ?_
      · rw [clueWinnable]
        split
        · exact .pure _
        · exact (h _ (List.mem_append_right _ List.mem_cons_self)).bind fun _ _ => .pure _
      · refine .bind (m := offerDiscards x.conv x.game x.turn rem) ?_ fun discards _ => .pure _
        rw [offerDiscards]
        split
        · refine hoffer _ fun a ha => ?_
          exact List.mem_append_left _ (List.mem_append_right _ ha)
        · exact .pure _

theorem agree_remember_uncached {m m' : SolverM (List BestAction × Bool)}
    (h : Prog.Agree BothUncached F m m') :
    Prog.Agree BothUncached F (m >>= x.remember) (m' >>= y.remember) := by
  refine h.bind fun result _ => ?_
  rw [Position.remember, Position.remember]
  split
  · exact .bind (fun s t hst => .inr ⟨rfl, hst⟩) fun _ _ => .pure _
  · exact .pure _

theorem Position.conv_after {x' : Position κ} {action : PerformAction} {d : Option Remaining}
    (h : x.after action d = .ok x') : x'.conv = x.conv := by
  rw [Position.after] at h
  cases hadv : advanced x.conv (x.hypo d).hypoGame action with
  | error e =>
    rw [hadv] at h
    cases h
  | ok g =>
    rw [hadv] at h
    cases h
    rfl

/-- After the same action, it is enough that the searches agree on the positions reached. -/
theorem Alike.matched (h : Alike x y) {offer : Offer}
    (ho : offer.action ∈ candidates x.conv x.game x.turn) {d : Option Remaining}
    (hd : d ∈ x.draws offer.action)
    (hsearch : ∀ x' y', x.after offer.action d = .ok x' → y.after offer.action d = .ok y' →
      Alike x' y' → x.Pursues offer d x' → Prog.Agree R F (search x'.game x'.turn x'.remaining)
        (search' y'.game y'.turn y'.remaining)) :
    Matched R F search search' x y offer d := by
  have hafter := h.after ho hd
  rw [Matched]
  generalize hx' : x.after offer.action d = a at hafter ⊢
  generalize hy' : y.after offer.action d = b at hafter ⊢
  cases hafter with
  | error e => exact .error e
  | ok hnext =>
    exact .ok ⟨hnext.sight.of_state (f := State.maxScore) fun _ => rfl,
      fun hpursued => hsearch _ _ hx' hy' hnext hpursued⟩

/-- Without caches, positions that look alike have the same outcome. -/
theorem agree_search_alike (n : ℕ) (h : Alike x y) :
    Prog.Agree BothUncached F (x.search n) (y.search n) := by
  induction n generalizing x y with
  | zero => exact .throw _
  | succ n ih =>
    have hclock : Clockless BothUncached := fun s t hst => ⟨hst.1.2, hst.2⟩
    intro s t hst
    rw [x.exec_search_succ, y.exec_search_succ, x.found_uncached hst.1, y.found_uncached hst.2]
    refine agree_remember_uncached
      (agree_weigh hclock h.sight (fun _ => ?_) fun _ offer ho d hd => ?_) s t hst
    · exact agree_offers hclock fun _ _ => agree_winnableIfNow_uncached _ _ _ _
    · refine h.matched ho.mem_candidates hd fun x' y' hx' hy' hnext _ => ?_
      have := ih hnext
      rwa [Position.search, Position.search, Position.conv_after hx', Position.conv_after hy'] at this

end

end HanabiBot.Endgame
