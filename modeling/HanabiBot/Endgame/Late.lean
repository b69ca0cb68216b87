import HanabiBot.Endgame.Alike
import HanabiBot.Endgame.Timed

/-!
# A clock that runs out late

Where the time runs out while `optimize` waits for the search of another position,
it breaks off with no action at all.  In the midst of a search this is a result like
others; at its top, `solve_game` goes on to read the first one.

* `triple_openSearch` — where every offered action loses a critical card, no position
  is searched, and the result is there;
* `breaks_openSearch` — else the search breaks at some clock.
-/

namespace HanabiBot.Endgame

variable {κ : Type} {conv : Convention κ} {g : Game κ} {p : ℕ} {rem : RemainingSet}

/-! ## Breaking -/

/-- The outcome is neither a proper result nor `UnsolvedGame`. -/
def Broken {α : Type} (void : α → Prop) : Except SolverError α → Prop
  | .ok a => void a
  | .error e => ¬ IsUnsolved e

/-- At some clock the outcome is broken. -/
def Breaks {α : Type} (m : SolverM α) (s : SolverState) (void : α → Prop) : Prop :=
  ∃ clock, Broken void (Prog.exec m (s.withClock clock)).1

namespace Breaks

variable {α β : Type} {m : SolverM α} {s : SolverState} {void : α → Prop} {void' : β → Prop}

theorem throw {e : SolverError} (he : ¬ IsUnsolved e) :
    Breaks (throw e : SolverM α) s void := ⟨none, he⟩

/-- What goes on with a broken outcome is broken. -/
theorem bind {f : α → SolverM β} (h : Breaks m s void)
    (hf : ∀ a s', void a → Broken void' (Prog.exec (f a) s').1) : Breaks (m >>= f) s void' := by
  obtain ⟨clock, h⟩ := h
  refine ⟨clock, ?_⟩
  rw [Prog.exec_bind]
  rcases hexec : Prog.exec m (s.withClock clock) with ⟨r, s'⟩
  rw [hexec] at h
  cases r with
  | error e => exact h
  | ok a => exact hf a s' h

/-- A program breaks where what it goes on with does. -/
theorem after {f : α → SolverM β} (hm : Timed False m) (hs : s.clock = none) {a : α}
    {s' : SolverState} (hexec : Prog.exec m s = (.ok a, s'))
    (hf : s'.clock = none → Breaks (f a) s' void') : Breaks (m >>= f) s void' := by
  obtain ⟨k, h⟩ := hm s hs
  have hs' : s'.clock = none := by
    have := h.untimed
    rwa [hexec] at this
  obtain ⟨clock, hbroken⟩ := hf hs'
  cases clock with
  | none =>
    refine ⟨none, ?_⟩
    rw [SolverState.withClock_none hs'] at hbroken
    rwa [SolverState.withClock_none hs, Prog.exec_bind, hexec]
  | some j =>
    refine ⟨some (k + j), ?_⟩
    rw [Prog.exec_bind, h.enough, hexec]
    exact hbroken

theorem timedOut {f : Bool → SolverM β} (hs : s.clock = none) (hf : Breaks (f false) s void') :
    Breaks (timedOut >>= f) s void' := by
  refine after ?_ hs (Endgame.exec_timedOut hs) fun _ => hf
  have := @Timed.timedOut_bind False _ Pure.pure (Timed.pure _) False.elim
  rwa [bind_pure] at this

/-- The clock may run out just when a program has ended. -/
theorem of_late {f : α → SolverM β} {b : β} (hm : Timed False m) (hs : s.clock = none)
    (hb : void' b) : Breaks (m >>= fun a => Endgame.timedOut >>= fun late =>
      if late = true then pure b else f a) s void' := by
  obtain ⟨k, h⟩ := hm s hs
  rcases hexec : Prog.exec m s with ⟨r, s'⟩
  cases r with
  | error e =>
    refine ⟨none, ?_⟩
    rw [SolverState.withClock_none hs, Prog.exec_bind, hexec]
    exact h.error e (by rw [hexec])
  | ok a =>
    refine ⟨some k, ?_⟩
    have henough := h.enough 0
    rw [Nat.add_zero] at henough
    rw [Prog.exec_bind, henough, hexec]
    exact hb

end Breaks

/-! ## Losing a critical card -/

/-- By the rules, the action loses the last copy of a card that counts towards the maximum score. -/
def LosesCritical (g : Game κ) (action : PerformAction) : Prop :=
  ∃ act st, performToAction g.state action (fun o => (g.state.deck.get o).map ActualCard.identity) =
      some act ∧ g.simulateBoard act = some st ∧ st.maxScore < g.state.maxScore

theorem not_losesCritical_of_isClue {action : PerformAction} (h : action.isClue = true) :
    ¬ LosesCritical g action := by
  rintro ⟨act, st, hact, hst, hlt⟩
  cases action with
  | play | discard => cases h
  | anyClue => cases hact
  | clue q target clue =>
    rw [performToAction] at hact
    split at hact
    · cases hact
      cases hst
      exact absurd hlt (lt_irrefl _)
    · cases hact

/-- A legal action lowers the maximum score if it loses a critical card. -/
theorem sat_advanceGame (hlaw : conv.Lawful) (hg : Sane g p) (hne : g.state.endgameTurns ≠ 0)
    (hp : p < g.state.numPlayers) {action : PerformAction} (hlegal : Legal g.state p action) :
    Prog.Sat (fun _ => True) (fun e => e = .gameError ∧ ¬ conv.Returns) (advanceGame conv g action)
      fun g' => (g'.state.maxScore < g.state.maxScore ↔ LosesCritical g action) := by
  by_cases hact : ∀ q, action ≠ .anyClue q
  · obtain ⟨act, hperformed⟩ := exists_performed hg.dealt hp hlegal hact
    have hproceeds : Proceeds g p action act := ⟨hg, hne, hp, hlegal, hperformed⟩
    obtain ⟨st, hst, -⟩ := hproceeds.board
    rw [advanceGame_eq hact, hperformed, Prog.ofOption_some, pure_bind]
    refine Prog.Sat.ofOption (fun g' hsim => ?_) fun hnone => ⟨rfl, fun hreturns => ?_⟩
    · have hmax : g'.state.board.maxScore = st.board.maxScore :=
        congrArg State.maxScore (hlaw.board hproceeds hsim hst)
      rw [show g'.state.maxScore = st.maxScore from hmax]
      constructor
      · exact fun hlt => ⟨act, st, hperformed, hst, hlt⟩
      · rintro ⟨act', st', hperformed', hst', hlt⟩
        rw [hperformed] at hperformed'
        cases hperformed'
        rw [hst] at hst'
        cases hst'
        exact hlt
    · have := hreturns hproceeds
      rw [hnone] at this
      cases this
  · push Not at hact
    obtain ⟨q, rfl⟩ := hact
    exact Prog.Sat.pure (iff_of_false (lt_irrefl _) (not_losesCritical_of_isClue rfl))

/-! ## The offers -/

/-- The actions that `possible_actions` offers in time. -/
def offered (conv : Convention κ) (g : Game κ) (p : ℕ) (rem : RemainingSet) (s : SolverState) :
    List Offer :=
  match (Prog.exec (timelyActions conv g p rem) (s.withClock none)).1 with
  | .ok offers => offers
  | .error _ => []

theorem exec_possibleActions_none {s : SolverState} (hs : s.clock = none) :
    Prog.exec (possibleActions conv g p rem) s = Prog.exec (timelyActions conv g p rem) s := by
  rw [possibleActions_eq, Prog.exec_bind, exec_timedOut hs]
  rfl

/-- Without a clock the offers are found. -/
theorem exec_offered (hfair : Fair conv) (hg : Sane g p) (hne : g.state.endgameTurns ≠ 0)
    {s : SolverState} (hs : s.clock = none) :
    ∃ s', Prog.exec (timelyActions conv g p rem) s = (.ok (offered conv g p rem s), s') := by
  obtain ⟨k, h⟩ := (Timed.timelyActions conv g p rem : Timed False _) s hs
  have hspec := @possibleActions_spec _ conv g p _ rem stable_true hfair hg hne s trivial
  rw [exec_possibleActions_none hs] at hspec
  unfold offered
  rw [SolverState.withClock_none hs]
  rcases hexec : Prog.exec (timelyActions conv g p rem) s with ⟨r, s'⟩
  cases r with
  | error e =>
    rw [hexec] at hspec
    exact absurd hspec.1 (h.error e (by rw [hexec]))
  | ok offers => exact ⟨s', rfl⟩

/-- With a clock they are found, or none, or the time runs out. -/
theorem exec_possibleActions (hfair : Fair conv) (hg : Sane g p) (hne : g.state.endgameTurns ≠ 0)
    {s : SolverState} (hs : s.clock = none) (clock : Option ℕ) :
    (∃ e, IsUnsolved e ∧
      (Prog.exec (possibleActions conv g p rem) (s.withClock clock)).1 = .error e) ∨
    (Prog.exec (possibleActions conv g p rem) (s.withClock clock)).1 = .ok [] ∨
    (Prog.exec (possibleActions conv g p rem) (s.withClock clock)).1 =
      .ok (offered conv g p rem s) := by
  obtain ⟨s', hexec⟩ : ∃ s', Prog.exec (timelyActions conv g p rem) s =
      (.ok (offered conv g p rem s), s') := exec_offered hfair hg hne hs
  obtain ⟨k, h⟩ := (Timed.timelyActions conv g p rem : Timed True _) s hs
  cases clock with
  | none =>
    rw [SolverState.withClock_none hs, exec_possibleActions_none hs, hexec]
    exact .inr (.inr rfl)
  | some j =>
    cases j with
    | zero => exact .inr (.inl rfl)
    | succ j =>
      change (∃ e, IsUnsolved e ∧
        (Prog.exec (timelyActions conv g p rem) (s.withClock (some j))).1 = .error e) ∨
        (Prog.exec (timelyActions conv g p rem) (s.withClock (some j))).1 = .ok [] ∨
        (Prog.exec (timelyActions conv g p rem) (s.withClock (some j))).1 = _
      rcases Nat.lt_or_ge j k with hlt | hge
      · exact .inl (h.early trivial j hlt)
      · have henough := h.enough (j - k)
        rw [Nat.add_sub_of_le hge, hexec] at henough
        rw [henough]
        exact .inr (.inr rfl)

/-- Where nothing is drawn, the draws of a play or discard are not known. -/
theorem winnableDraws_eq_none (h : g.state.cardsLeft = 0) {s : SolverState} :
    ∀ offer ∈ offered conv g p rem s, offer.action.isClue = false → offer.winnableDraws = none := by
  have hif : ∀ action, Prog.Sat (fun _ => True) (fun _ => True)
      (winnableIfNow g.state p action rem) fun r => r.winnableDraws = none := by
    intro action
    rw [winnableIfNow, winnableIf, if_pos (.inr h)]
    exact Prog.Sat.bind (Q := fun _ => True) (fun _ _ => by split <;> exact ⟨trivial, trivial⟩)
      fun _ _ => Prog.Sat.pure rfl
  have hoffers : ∀ actions : List PerformAction, Prog.Sat (fun _ => True) (fun _ => True)
      (actions.filterMapM (offerIf g.state p rem)) fun offers =>
        ∀ offer ∈ offers, offer.winnableDraws = none := by
    intro actions
    refine (Prog.Sat.filterMapM (P := fun _ r => ∀ offer, r = some offer →
      offer.winnableDraws = none) fun action _ => ?_).mono ?_
    · refine (hif action).bind fun r hr => Prog.Sat.pure fun offer ho => ?_
      split at ho
      · cases ho
        exact hr
      · cases ho
    · rintro _ ⟨ps, rfl, -, hP, -⟩ offer ho
      obtain ⟨x, hx, rfl⟩ := List.mem_map.1 ho
      exact hP x hx _ rfl
  have hspec : Prog.Sat (fun _ => True) (fun _ => True) (timelyActions conv g p rem) fun offers =>
      ∀ offer ∈ offers, offer.action.isClue = false → offer.winnableDraws = none := by
    refine (hoffers _).bind fun plays hplays => Prog.Sat.bind (Q := fun _ => True)
      (fun _ _ => by split <;> exact ⟨trivial, trivial⟩) fun winnable _ => ?_
    refine Prog.Sat.bind (Q := fun offers => ∀ offer ∈ offers, offer.winnableDraws = none) ?_
      fun discards hdiscards => Prog.Sat.pure fun offer ho hclue => ?_
    · rw [offerDiscards]
      split
      · exact hoffers _
      · exact Prog.Sat.pure (by simp)
    · simp only [List.mem_append] at ho
      obtain ((ho | ho) | ho) | ho := ho
      · exact hplays offer ho
      · rw [offerClues] at ho
        split at ho
        · obtain ⟨c, -, rfl⟩ := List.mem_map.1 ho
          cases hclue
        · cases ho
      · exact hdiscards offer ho
      · rw [offerAnyClue] at ho
        split at ho
        · rw [List.mem_singleton.1 ho] at hclue
          cases hclue
        · cases ho
  intro offer ho
  unfold offered at ho
  have hs := hspec (s.withClock none) trivial
  revert hs ho
  rcases Prog.exec (timelyActions conv g p rem) (s.withClock none) with ⟨r, s'⟩
  cases r with
  | error e =>
    intro ho
    cases ho
  | ok offers => exact fun ho hs => hs.1 offer ho

/-! ## The games of an offer -/

/-- The games of an offer: the position itself, or those after the draws. -/
theorem gamesFor_offer (conv : Convention κ) (g : Game κ) (p : ℕ) (offers : List Offer)
    (rem : RemainingSet) : ∃ hypoGames, genHypoGames g offers rem = pure hypoGames ∧
      ∀ offer ∈ offers, gamesFor hypoGames offer.action =
        (Position.draws ⟨conv, g, p, rem⟩ offer.action).map (Position.hypo ⟨conv, g, p, rem⟩) :=
  ⟨_, genHypoGames_eq ⟨conv, g, p, rem⟩ offers, fun _ => gamesFor_eq⟩

/-- The position itself, to go on with. -/
def stayHypo (g : Game κ) (rem : RemainingSet) : HypoGame κ :=
  { hypoGame := g, prob := 1, remaining := rem }

theorem gamesFor_stay {hypoGames : HypoGame κ × List (HypoGame κ)} {offer : Offer}
    (h : gamesFor hypoGames offer.action =
      (Position.draws ⟨conv, g, p, rem⟩ offer.action).map (Position.hypo ⟨conv, g, p, rem⟩))
    (hstay : offer.action.isClue = true ∨ rem = []) :
    gamesFor hypoGames offer.action = [stayHypo g rem] := by
  rw [h, Position.draws, if_pos hstay]
  rfl

section

variable {search : Search κ} {next : ℕ} {offer : Offer} {best all left : Fraction}

/-- Going on with the position itself. -/
theorem tryGames_stay : ∃ f : List BestAction → SolverM (Option Fraction),
    tryGames conv search next offer best [stayHypo g rem] all left =
      (timedOut >>= fun late => if late = true then throw (.unsolvedGame "timed out")
        else advanceGame conv g offer.action >>= fun g' =>
          if g'.state.maxScore < g.state.maxScore then pure (some all)
          else search g' next rem >>= fun result => timedOut >>= fun late =>
            if late = true then pure none else f result) :=
  ⟨_, rfl⟩

/-- Where a critical card is lost, no position is searched. -/
theorem triple_tryGames (hlaw : conv.Lawful) (hg : Sane g p) (hne : g.state.endgameTurns ≠ 0)
    (hp : p < g.state.numPlayers) (hlegal : Legal g.state p offer.action)
    (hloses : LosesCritical g offer.action) :
    Prog.Sat (fun _ => True) (Excused conv)
      (tryGames conv search next offer best [stayHypo g rem] all left) fun r => r = some all := by
  obtain ⟨f, heq⟩ := @tryGames_stay _ conv g rem search next offer best all left
  rw [heq]
  refine stable_true.timedOut.bind fun late _ => ?_
  split
  · exact Prog.Sat.throw (.inl ⟨_, rfl⟩)
  · refine Prog.Sat.bind ((sat_advanceGame hlaw hg hne hp hlegal).conseq (fun _ => id)
      (fun _ _ => id) fun _ _ he => ⟨.inr he.1, he.2⟩) fun g' hg' => ?_
    rw [if_pos (hg'.2 hloses)]
    exact Prog.Sat.pure rfl

/-- Where none is lost, one is, and the clock may run out with its search. -/
theorem breaks_tryGames (hlaw : conv.Lawful) (hreturns : conv.Returns) (hg : Sane g p)
    (hne : g.state.endgameTurns ≠ 0) (hp : p < g.state.numPlayers)
    (hlegal : Legal g.state p offer.action) (hkeeps : ¬ LosesCritical g offer.action)
    (hsearch : ∀ g' q rem', Timed False (search g' q rem')) {s : SolverState}
    (hs : s.clock = none) :
    Breaks (tryGames conv search next offer best [stayHypo g rem] all left) s (· = none) := by
  obtain ⟨f, heq⟩ := @tryGames_stay _ conv g rem search next offer best all left
  rw [heq]
  refine Breaks.timedOut hs ?_
  rw [if_neg Bool.false_ne_true]
  have hadvance := sat_advanceGame hlaw hg hne hp hlegal
  rcases hexec : Prog.exec (advanceGame conv g offer.action) s with ⟨r, s'⟩
  cases r with
  | error e =>
    have herror := hadvance.exec_error trivial (e := e) (s := s) (by rw [hexec])
    exact (herror.1.2 @hreturns).elim
  | ok g' =>
    have hok := hadvance.exec_ok trivial (a := g') (s := s) (by rw [hexec])
    refine Breaks.after (Timed.advanceGame conv g offer.action) hs hexec fun hs' => ?_
    rw [if_neg (mt hok.1.1 hkeeps)]
    exact Breaks.of_late (hsearch g' next rem) hs' rfl

end

/-! ## The search over the draws -/

section

variable {search : Search κ} {next : ℕ} {hypoGames : HypoGame κ × List (HypoGame κ)}
  {offers : List Offer} {s : SolverState}

/-- Where every offered action loses a critical card, none is better than the others. -/
theorem triple_optimize (hlaw : conv.Lawful) (hg : Sane g p) (hne : g.state.endgameTurns ≠ 0)
    (hp : p < g.state.numPlayers)
    (hgames : ∀ offer ∈ offers, gamesFor hypoGames offer.action = [stayHypo g []])
    (hlegal : ∀ offer ∈ offers, Legal g.state p offer.action)
    (hloses : ∀ offer ∈ offers, LosesCritical g offer.action) (actions : List PerformAction) :
    Prog.Sat (fun _ => True) (Excused conv) (optimize conv search next hypoGames offers 0 actions)
      fun best => best = (0, actions ++ offers.map Offer.action) := by
  induction offers generalizing actions with
  | nil => exact Prog.Sat.pure (by simp)
  | cons offer offers ih =>
    have hmem := List.mem_cons_self (a := offer) (l := offers)
    have hgo := ih (fun o ho => hgames o (List.mem_cons_of_mem _ ho))
      (fun o ho => hlegal o (List.mem_cons_of_mem _ ho))
      fun o ho => hloses o (List.mem_cons_of_mem _ ho)
    rw [optimize, hgames offer hmem]
    refine (triple_tryGames hlaw hg hne hp (hlegal offer hmem) (hloses offer hmem)).bind
      fun r hr => ?_
    subst hr
    exact (hgo (actions ++ [offer.action])).mono (by simp)

/-- The first action that loses none comes to its search. -/
theorem breaks_optimize (hlaw : conv.Lawful) (hreturns : conv.Returns) (hg : Sane g p)
    (hne : g.state.endgameTurns ≠ 0) (hp : p < g.state.numPlayers)
    (hgames : ∀ offer ∈ offers, gamesFor hypoGames offer.action = [stayHypo g rem])
    (hlegal : ∀ offer ∈ offers, Legal g.state p offer.action)
    (hkeeps : ∃ offer ∈ offers, ¬ LosesCritical g offer.action)
    (hsearch : ∀ g' q rem', Timed False (search g' q rem')) (hs : s.clock = none)
    (actions : List PerformAction) :
    Breaks (optimize conv search next hypoGames offers 0 actions) s fun best => best.2 = [] := by
  induction offers generalizing s actions with
  | nil =>
    obtain ⟨_, hnil, -⟩ := hkeeps
    cases hnil
  | cons offer offers ih =>
    have hmem := List.mem_cons_self (a := offer) (l := offers)
    rw [optimize, hgames offer hmem]
    by_cases hloses : LosesCritical g offer.action
    · have hrest : ∃ o ∈ offers, ¬ LosesCritical g o.action := by
        obtain ⟨o, ho, hno⟩ := hkeeps
        obtain rfl | ho := List.mem_cons.1 ho
        · exact absurd hloses hno
        · exact ⟨o, ho, hno⟩
      have hskip : Prog.Sat (fun _ => True) (Excused conv)
          (tryGames conv search next offer 0 [stayHypo g rem] 0 1) fun r => r = some 0 :=
        triple_tryGames hlaw hg hne hp (hlegal offer hmem) hloses
      have htimed := Timed.tryGames hsearch conv next offer 0 [stayHypo g rem] 0 1
      obtain ⟨k, hruns⟩ := htimed s hs
      rcases hexec : Prog.exec (tryGames conv search next offer 0 [stayHypo g rem] 0 1) s with ⟨r, s'⟩
      cases r with
      | error e =>
        refine ⟨none, ?_⟩
        rw [SolverState.withClock_none hs, Prog.exec_bind, hexec]
        exact hruns.error e (by rw [hexec])
      | ok r =>
        have hok := hskip.exec_ok trivial (a := r) (s := s) (by rw [hexec])
        obtain ⟨rfl, -⟩ := hok
        refine Breaks.after htimed hs hexec fun hs' => ?_
        exact ih (fun o ho => hgames o (List.mem_cons_of_mem _ ho))
          (fun o ho => hlegal o (List.mem_cons_of_mem _ ho)) hrest hs' _
    · refine (breaks_tryGames hlaw hreturns hg hne hp (hlegal offer hmem) hloses hsearch hs).bind
        fun r s' hr => ?_
      subst hr
      rfl

/-- With copies missing but no card left, the first offer breaks. -/
theorem breaks_optimize_missing (hlaw : conv.Lawful) (hreturns : conv.Returns) (hg : Sane g p)
    (hne : g.state.endgameTurns ≠ 0) (hp : p < g.state.numPlayers) (hrem : rem ≠ [])
    (hgames : ∀ offer ∈ offers, gamesFor hypoGames offer.action =
      (Position.draws ⟨conv, g, p, rem⟩ offer.action).map (Position.hypo ⟨conv, g, p, rem⟩))
    (hlegal : ∀ offer ∈ offers, Legal g.state p offer.action)
    (hdraws : ∀ offer ∈ offers, offer.action.isClue = false → offer.winnableDraws = none)
    (hoffers : offers ≠ []) (hsearch : ∀ g' q rem', Timed False (search g' q rem'))
    (hs : s.clock = none) :
    Breaks (optimize conv search next hypoGames offers 0 []) s fun best => best.2 = [] := by
  obtain ⟨offer, offers, rfl⟩ := List.exists_cons_of_ne_nil hoffers
  have hmem := List.mem_cons_self (a := offer) (l := offers)
  rw [optimize]
  cases hclue : offer.action.isClue with
  | true =>
    rw [gamesFor_stay (hgames offer hmem) (.inl hclue)]
    refine (breaks_tryGames hlaw hreturns hg hne hp (hlegal offer hmem)
      (not_losesCritical_of_isClue hclue) hsearch hs).bind fun r s' hr => ?_
    subst hr
    rfl
  | false =>
    obtain ⟨r, rem, rfl⟩ := List.exists_cons_of_ne_nil hrem
    rw [hgames offer hmem, Position.draws, if_neg (by simp [hclue]), List.map_cons, List.map_cons,
      tryGames, hdraws offer hmem hclue]
    exact Breaks.throw Timed.typeError

end

/-- What `winnable` does with a position that is neither in the caches nor won or lost at sight. -/
def openSearch (conv : Convention κ) (search : Search κ) (g : Game κ) (playerTurn : ℕ)
    (remainingIds : RemainingSet) : SolverM (List BestAction) := do
  let offers ← possibleActions conv g playerTurn remainingIds
  if offers.isEmpty then
    pure failure
  else
    let (bestWinrate, bestActions) ← optimizeFrom conv search g playerTurn offers remainingIds
    let result := bestActions.map fun a => ⟨some a, bestWinrate⟩
    storeSimple (hash g ++ [.num playerTurn]) result
    pure result

/-- Of the actions that are offered in time, every one loses a critical card, and no copies are
missing; or none is offered. -/
def NoSearch (conv : Convention κ) (g : Game κ) (p : ℕ) (rem : RemainingSet) (s : SolverState) :
    Prop :=
  offered conv g p rem s = [] ∨
    rem = [] ∧ ∀ offer ∈ offered conv g p rem s, LosesCritical g offer.action

section

variable {search : Search κ} {s : SolverState}

/-- A result of the search from which `solve_game` concludes that there is no winning strategy. -/
def Loses (result : List BestAction) : Prop :=
  ∃ best rest, result = best :: rest ∧ best.winrate.numerator = 0

theorem loses_failure : Loses failure := ⟨_, _, rfl, rfl⟩

/-- Where nothing is to be searched, the result is there whatever the clock. -/
theorem openSearch_loses (hlaw : conv.Lawful) (hfair : Fair conv) (hg : Sane g p)
    (hne : g.state.endgameTurns ≠ 0) (hp : p < g.state.numPlayers) (hs : s.clock = none)
    (hno : NoSearch conv g p rem s) (clock : Option ℕ) {r : Except SolverError (List BestAction)}
    (hr : (Prog.exec (openSearch conv search g p rem) (s.withClock clock)).1 = r) :
    (∃ e, r = .error e ∧ Excused conv e) ∨ ∃ result, r = .ok result ∧ Loses result := by
  rw [openSearch, Prog.exec_bind] at hr
  have hposs := @exec_possibleActions _ conv g p rem hfair hg hne s hs clock
  revert hposs hr
  rcases hexec : Prog.exec (possibleActions conv g p rem) (s.withClock clock) with ⟨offers, s'⟩
  rintro hr (⟨e, he, rfl⟩ | rfl | rfl)
  · exact .inl ⟨e, hr.symm, .inl he⟩
  · exact .inr ⟨_, hr.symm, loses_failure⟩
  · dsimp only at hr
    split at hr
    · exact .inr ⟨_, hr.symm, loses_failure⟩
    · rename_i hsome
      obtain hnil | ⟨rfl, hloses⟩ := hno
      · rw [hnil] at hsome
        exact absurd rfl hsome
      obtain ⟨hypoGames, hgen, hgames⟩ := gamesFor_offer conv g p (offered conv g p [] s) []
      have hlegal : ∀ offer ∈ offered conv g p [] s,
          OfferOk g p offer ∧ offer.action ∈ candidates conv g p :=
        exec_offers hfair hg hne (congrArg Prod.fst hexec)
      rw [optimizeFrom, hgen, pure_bind] at hr
      have hspec := @triple_optimize _ conv g p search (g.state.nextPlayerIndex p) hypoGames _ hlaw
        hg hne hp (fun offer ho => gamesFor_stay (hgames offer ho) (.inr rfl))
        (fun offer ho => (hlegal offer ho).1.legal) hloses [] s' trivial
      rw [Prog.exec_bind] at hr
      revert hr hspec
      rcases Prog.exec (optimize conv search (g.state.nextPlayerIndex p) hypoGames
        (offered conv g p [] s) 0 []) s' with ⟨best, s''⟩
      cases best with
      | error e => exact fun hr hspec => .inl ⟨e, hr.symm, hspec.1⟩
      | ok best =>
        rintro hr ⟨rfl, -⟩
        obtain ⟨offer, offers, hcons⟩ := List.exists_cons_of_ne_nil
          (List.isEmpty_iff.not.1 hsome)
        rw [hcons] at hr
        exact .inr ⟨_, hr.symm, _, _, rfl, rfl⟩

/-- Else the clock may run out with a search, which leaves no action. -/
theorem breaks_openSearch (hlaw : conv.Lawful) (hfair : Fair conv) (hreturns : conv.Returns)
    (hg : Sane g p) (hne : g.state.endgameTurns ≠ 0) (hp : p < g.state.numPlayers)
    (hleft : g.state.cardsLeft = 0) (hs : s.clock = none) (hsome : ¬ NoSearch conv g p rem s)
    (hsearch : ∀ g' q rem', Timed False (search g' q rem')) :
    Breaks (openSearch conv search g p rem) s (· = []) := by
  obtain ⟨hnonempty, hkeeps⟩ := not_or.1 hsome
  obtain ⟨s', hexec⟩ : ∃ s', Prog.exec (timelyActions conv g p rem) s =
      (.ok (offered conv g p rem s), s') := exec_offered hfair hg hne hs
  rw [← exec_possibleActions_none hs] at hexec
  have hlegal := exec_offers hfair hg hne (congrArg Prod.fst hexec)
  refine Breaks.after (Timed.possibleActions conv g p rem) hs hexec fun hs' => ?_
  rw [if_neg (by simpa using hnonempty)]
  obtain ⟨hypoGames, hgen, hgames⟩ := gamesFor_offer conv g p (offered conv g p rem s) rem
  rw [optimizeFrom, hgen, pure_bind]
  have hbreaks : Breaks (optimize conv search (g.state.nextPlayerIndex p) hypoGames
      (offered conv g p rem s) 0 []) s' fun best => best.2 = [] := by
    by_cases hrem : rem = []
    · refine breaks_optimize hlaw hreturns hg hne hp
        (fun offer ho => gamesFor_stay (hgames offer ho) (.inr hrem))
        (fun offer ho => (hlegal offer ho).1.legal) ?_ hsearch hs' []
      by_contra hall
      push Not at hall
      exact hkeeps ⟨hrem, hall⟩
    · exact breaks_optimize_missing hlaw hreturns hg hne hp hrem hgames
        (fun offer ho => (hlegal offer ho).1.legal) (winnableDraws_eq_none hleft) hnonempty hsearch hs'
  refine hbreaks.bind fun best s'' hbest => ?_
  obtain ⟨rate, actions⟩ := best
  obtain rfl : actions = [] := hbest
  rfl

end

end HanabiBot.Endgame
