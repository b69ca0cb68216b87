import HanabiBot.Endgame.Contract

/-!
# `optimize` is exact

`optimize` adds up the winrates of an action over the games it may lead to, but it
gives up on an action that cannot reach the best winrate any more, and stops at the
first action that always wins.  Draws that it skips are not taken from the remaining
probability, so that is an upper bound at every point.

The recursive search is any `search` that returns a winrate for every game.

* `tryGames_exact` — the winrate of an action is its `rate`, or both are below the
  best winrate;
* `optimize_exact` — the returned winrate is the greatest rate of an action, and
  every returned action has it.
-/

namespace HanabiBot.Endgame

variable {κ : Type}

/-- What `optimize` is given: how each game goes on, and what the search says of it. -/
structure Outlook (κ : Type) where
  conv : Convention κ
  search : Search κ
  /-- The player to move next. -/
  turn : ℕ
  /-- The game after an action. -/
  next : Game κ → PerformAction → Game κ
  /-- The winrate of a game. -/
  winrate : Game κ → RemainingSet → Fraction
  search_eq : ∀ g rem, ∃ action rest, search g turn rem = pure (⟨action, winrate g rem⟩ :: rest)
  isRate : ∀ g rem, IsRate (winrate g rem)

namespace Outlook

variable (ol : Outlook κ)

/-- The draw of a game, if there is one, is winnable. -/
def drawWins (offer : Offer) (hypo : HypoGame κ) : Bool :=
  match hypo.drew with
  | none => true
  | some id => (offer.winnableDraws.getD []).contains id

/-- The games of an action whose draw is winnable and that lose no critical card. -/
def counts (offer : Offer) (hypo : HypoGame κ) : Bool :=
  drawWins offer hypo && decide (hypo.hypoGame.state.maxScore ≤ (ol.next hypo.hypoGame offer.action).state.maxScore)

/-- The winrate of a game that an action leads to, times how likely it is. -/
def share (offer : Offer) (hypo : HypoGame κ) : ℚ :=
  if ol.counts offer hypo then
    hypo.prob.value * (ol.winrate (ol.next hypo.hypoGame offer.action) hypo.remaining).value
  else 0

/-- The winrate of an action over all games it leads to. -/
def rate (hypoGames : HypoGame κ × List (HypoGame κ)) (offer : Offer) : ℚ :=
  ((gamesFor hypoGames offer.action).map (ol.share offer)).sum

/-- The action can be taken in a game, and the game has a probability. -/
structure Ready (offer : Offer) (hypo : HypoGame κ) : Prop where
  prob : hypo.prob.Pos
  prob_nonneg : 0 ≤ hypo.prob.value
  draws : hypo.drew.isSome = true → offer.winnableDraws.isSome = true
  advance : advanceGame ol.conv hypo.hypoGame offer.action =
    pure (ol.next hypo.hypoGame offer.action)

variable {ol} {offer : Offer} {hypo : HypoGame κ} {hypoGames : List (HypoGame κ)} {s : SolverState}

theorem share_nonneg (h : ol.Ready offer hypo) : 0 ≤ ol.share offer hypo := by
  unfold share
  split
  · exact mul_nonneg h.prob_nonneg (ol.isRate _ _).nonneg
  · exact le_rfl

theorem share_le (h : ol.Ready offer hypo) : ol.share offer hypo ≤ hypo.prob.value := by
  unfold share
  split
  · exact mul_le_of_le_one_right h.prob_nonneg (ol.isRate _ _).le_one
  · exact h.prob_nonneg

theorem sum_share_le (h : ∀ hypo ∈ hypoGames, ol.Ready offer hypo) :
    (hypoGames.map (ol.share offer)).sum ≤ (hypoGames.map fun hypo => hypo.prob.value).sum :=
  List.sum_le_sum fun hypo hm => share_le (h hypo hm)

theorem sum_share_nonneg (h : ∀ hypo ∈ hypoGames, ol.Ready offer hypo) :
    0 ≤ (hypoGames.map (ol.share offer)).sum := by
  refine List.sum_nonneg fun q hq => ?_
  obtain ⟨hypo, hm, rfl⟩ := List.mem_map.1 hq
  exact share_nonneg (h hypo hm)

theorem exec_unwinnableDraw (h : ol.Ready offer hypo) :
    Prog.exec (unwinnableDraw offer.winnableDraws hypo.drew) s =
      (.ok (!drawWins offer hypo), s) := by
  have hdraws := h.draws
  unfold drawWins
  cases hdrew : hypo.drew with
  | none => rfl
  | some id =>
    rw [hdrew] at hdraws
    obtain ⟨draws, hsome⟩ := Option.isSome_iff_exists.1 (hdraws rfl)
    rw [hsome]
    rfl

/-- One game of the inner loop: it is skipped, or its share is added and the loop may stop. -/
theorem exec_tryGames_cons (hs : s.clock = none) (h : ol.Ready offer hypo)
    (best all rem : Fraction) :
    Prog.exec (tryGames ol.conv ol.search ol.turn offer best (hypo :: hypoGames) all rem) s =
      if ol.counts offer hypo then
        let all' := all.plus (hypo.prob.multiply
          (ol.winrate (ol.next hypo.hypoGame offer.action) hypo.remaining))
        let rem' := rem.subtract hypo.prob
        if (all'.plus rem').lessThan best then (.ok (some all'), s)
        else Prog.exec (tryGames ol.conv ol.search ol.turn offer best hypoGames all' rem') s
      else Prog.exec (tryGames ol.conv ol.search ol.turn offer best hypoGames all rem) s := by
  rw [tryGames, Prog.exec_bind, exec_unwinnableDraw h]
  dsimp only
  cases hdraw : drawWins offer hypo with
  | false =>
    rw [counts, hdraw, Bool.false_and, if_neg Bool.false_ne_true]
    rfl
  | true =>
    rw [counts, hdraw, Bool.true_and, Bool.not_true, if_neg Bool.false_ne_true, Prog.exec_bind,
      exec_timedOut hs]
    dsimp only
    rw [if_neg Bool.false_ne_true, h.advance, pure_bind]
    by_cases hlost : (ol.next hypo.hypoGame offer.action).state.maxScore < hypo.hypoGame.state.maxScore
    · have hdrop : decide (hypo.hypoGame.state.maxScore ≤
          (ol.next hypo.hypoGame offer.action).state.maxScore) = false := by simpa using hlost
      rw [if_pos hlost, hdrop, if_neg Bool.false_ne_true]
    · have hkeep : decide (hypo.hypoGame.state.maxScore ≤
          (ol.next hypo.hypoGame offer.action).state.maxScore) = true := by simpa using hlost
      obtain ⟨action, rest, hsearch⟩ :=
        ol.search_eq (ol.next hypo.hypoGame offer.action) hypo.remaining
      rw [if_neg hlost, hsearch, pure_bind, Prog.exec_bind, exec_timedOut hs, hkeep, if_pos rfl]
      dsimp only
      rw [if_neg Bool.false_ne_true]
      split_ifs
      · rfl
      · rfl

/-- The winrate that the inner loop ends with is the one of all games, or too low, and then so is
the one of all games. -/
theorem tryGames_exact (hs : s.clock = none) (best : Fraction) (hbest : best.Pos)
    (hready : ∀ hypo ∈ hypoGames, ol.Ready offer hypo) {all rem : Fraction} (hall : all.Pos)
    (hrem : rem.Pos) (hle : (hypoGames.map fun hypo => hypo.prob.value).sum ≤ rem.value) :
    ∃ w, Prog.exec (tryGames ol.conv ol.search ol.turn offer best hypoGames all rem) s =
        (.ok (some w), s) ∧ w.Pos ∧
      (w.value = all.value + (hypoGames.map (ol.share offer)).sum ∨
        w.value < best.value ∧ all.value + (hypoGames.map (ol.share offer)).sum < best.value) := by
  induction hypoGames generalizing all rem with
  | nil =>
    refine ⟨all, rfl, hall, Or.inl ?_⟩
    simp
  | cons hypo hypoGames ih =>
    have hhypo := hready hypo List.mem_cons_self
    have hrest : ∀ x ∈ hypoGames, ol.Ready offer x := fun x hx => hready x (List.mem_cons_of_mem _ hx)
    rw [List.map_cons, List.sum_cons] at hle
    rw [exec_tryGames_cons hs hhypo, List.map_cons, List.sum_cons]
    have hprob := hhypo.prob_nonneg
    by_cases hcounts : ol.counts offer hypo = true
    · have hwin := ol.isRate (ol.next hypo.hypoGame offer.action) hypo.remaining
      have hmul := hhypo.prob.multiply hwin.pos
      have hall' := hall.plus hmul
      have hrem' := hrem.subtract hhypo.prob
      have hshare : ol.share offer hypo = hypo.prob.value *
          (ol.winrate (ol.next hypo.hypoGame offer.action) hypo.remaining).value := if_pos hcounts
      have hvalue := Fraction.value_plus hall hmul
      rw [Fraction.value_multiply hhypo.prob hwin.pos, ← hshare] at hvalue
      have hleft := Fraction.value_subtract hrem hhypo.prob
      rw [if_pos hcounts]
      dsimp only
      split
      · next hlow =>
        -- what is left cannot bring the winrate up to the best one
        rw [Fraction.lessThan_iff (hall'.plus hrem') hbest, Fraction.value_plus hall' hrem', hvalue,
          hleft] at hlow
        have h1 := sum_share_le hrest
        have h2 := sum_share_nonneg hrest
        refine ⟨_, rfl, hall', Or.inr ⟨?_, ?_⟩⟩
        · rw [hvalue]
          linarith
        · linarith
      · obtain ⟨w, hw, hpos, hres⟩ := ih hrest hall' hrem' (by rw [hleft]; linarith)
        refine ⟨w, hw, hpos, ?_⟩
        rwa [hvalue, add_assoc] at hres
    · have hshare : ol.share offer hypo = 0 := if_neg hcounts
      rw [if_neg hcounts, hshare, zero_add]
      exact ih hrest hall hrem (by linarith)

/-- An action that `optimize` can try: its games have probabilities of at most 1 together. -/
structure Offered (hypoGames : HypoGame κ × List (HypoGame κ)) (offer : Offer) : Prop where
  ready : ∀ hypo ∈ gamesFor hypoGames offer.action, ol.Ready offer hypo
  total : ((gamesFor hypoGames offer.action).map fun hypo => hypo.prob.value).sum ≤ 1

/-- What is known after some actions: the best winrate is the greatest rate, and the best actions
have it. -/
structure Best (hypoGames : HypoGame κ × List (HypoGame κ)) (tried : List Offer) (best : Fraction)
    (actions : List PerformAction) : Prop where
  pos : best.Pos
  le_one : best.value ≤ 1
  bound : ∀ offer ∈ tried, ol.rate hypoGames offer ≤ best.value
  reached : tried = [] ∧ best.value = 0 ∨ ∃ offer ∈ tried, ol.rate hypoGames offer = best.value
  attained : ∀ a ∈ actions, ∃ offer ∈ tried, offer.action = a ∧ ol.rate hypoGames offer = best.value

theorem rate_nonneg {hypoGames : HypoGame κ × List (HypoGame κ)}
    (h : ol.Offered hypoGames offer) : 0 ≤ ol.rate hypoGames offer := sum_share_nonneg h.ready

theorem rate_le_one {hypoGames : HypoGame κ × List (HypoGame κ)}
    (h : ol.Offered hypoGames offer) : ol.rate hypoGames offer ≤ 1 :=
  (sum_share_le h.ready).trans h.total

/-- One action of the outer loop. -/
theorem exec_optimize_cons (hs : s.clock = none) {hypoGames : HypoGame κ × List (HypoGame κ)}
    (offers : List Offer) (h : ol.Offered hypoGames offer) {best : Fraction} (hbest : best.Pos)
    (actions : List PerformAction) :
    ∃ w : Fraction, w.Pos ∧
      (w.value = ol.rate hypoGames offer ∨ w.value < best.value ∧ ol.rate hypoGames offer < best.value) ∧
      Prog.exec (optimize ol.conv ol.search ol.turn hypoGames (offer :: offers) best actions) s =
        if w.equals 1 then (.ok (w, [offer.action]), s)
        else if best.lessThan w then
          Prog.exec (optimize ol.conv ol.search ol.turn hypoGames offers w [offer.action]) s
        else if w.equals best then
          Prog.exec (optimize ol.conv ol.search ol.turn hypoGames offers best
            (actions ++ [offer.action])) s
        else Prog.exec (optimize ol.conv ol.search ol.turn hypoGames offers best actions) s := by
  obtain ⟨w, hw, hpos, hres⟩ := tryGames_exact hs best hbest h.ready Fraction.pos_zero
    Fraction.pos_one (by simpa using h.total)
  rw [Fraction.value_zero, zero_add] at hres
  refine ⟨w, hpos, hres, ?_⟩
  rw [optimize, Prog.exec_bind, hw]
  dsimp only
  split_ifs <;> rfl

section

variable {hypoGames : HypoGame κ × List (HypoGame κ)} {tried offers : List Offer}
  {best w : Fraction} {actions : List PerformAction}

theorem mem_tried (tried : List Offer) (offer : Offer) : offer ∈ tried ++ [offer] :=
  List.mem_append_right _ (List.mem_singleton_self _)

/-- An action that is better than all before. -/
theorem Best.better (h : ol.Best hypoGames tried best actions) (hoffer : ol.Offered hypoGames offer)
    (hpos : w.Pos) (hrate : ol.rate hypoGames offer = w.value) (hlt : best.value ≤ w.value) :
    ol.Best hypoGames (tried ++ [offer]) w [offer.action] := by
  refine ⟨hpos, ?_, ?_, Or.inr ⟨offer, mem_tried tried offer, hrate⟩, ?_⟩
  · rw [← hrate]
    exact rate_le_one hoffer
  · intro x hx
    obtain hx | hx := List.mem_append.1 hx
    · exact (h.bound x hx).trans hlt
    · rw [List.mem_singleton.1 hx, hrate]
  · intro a ha
    rw [List.mem_singleton.1 ha]
    exact ⟨offer, mem_tried tried offer, rfl, hrate⟩

/-- An action that is as good as the best before. -/
theorem Best.tie (h : ol.Best hypoGames tried best actions)
    (hrate : ol.rate hypoGames offer = best.value) :
    ol.Best hypoGames (tried ++ [offer]) best (actions ++ [offer.action]) := by
  refine ⟨h.pos, h.le_one, ?_, Or.inr ⟨offer, mem_tried tried offer, hrate⟩, ?_⟩
  · intro x hx
    obtain hx | hx := List.mem_append.1 hx
    · exact h.bound x hx
    · rw [List.mem_singleton.1 hx, hrate]
  · intro a ha
    obtain ha | ha := List.mem_append.1 ha
    · obtain ⟨x, hx, hrest⟩ := h.attained a ha
      exact ⟨x, List.mem_append_left _ hx, hrest⟩
    · rw [List.mem_singleton.1 ha]
      exact ⟨offer, mem_tried tried offer, rfl, hrate⟩

/-- An action that is worse than the best before. -/
theorem Best.worse (h : ol.Best hypoGames tried best actions) (hoffer : ol.Offered hypoGames offer)
    (hrate : ol.rate hypoGames offer < best.value) :
    ol.Best hypoGames (tried ++ [offer]) best actions := by
  refine ⟨h.pos, h.le_one, ?_, ?_, ?_⟩
  · intro x hx
    obtain hx | hx := List.mem_append.1 hx
    · exact h.bound x hx
    · rw [List.mem_singleton.1 hx]
      exact hrate.le
  · obtain ⟨-, hzero⟩ | ⟨x, hx, hreached⟩ := h.reached
    · have := rate_nonneg hoffer
      linarith
    · exact Or.inr ⟨x, List.mem_append_left _ hx, hreached⟩
  · intro a ha
    obtain ⟨x, hx, hrest⟩ := h.attained a ha
    exact ⟨x, List.mem_append_left _ hx, hrest⟩

/-- An action that always wins is best, whatever comes after. -/
theorem Best.always (h : ol.Best hypoGames tried best actions) (hval : best.value = 1)
    (hoffers : ∀ offer ∈ offers, ol.Offered hypoGames offer) :
    ol.Best hypoGames (tried ++ offers) best actions := by
  refine ⟨h.pos, h.le_one, ?_, ?_, ?_⟩
  · intro x hx
    obtain hx | hx := List.mem_append.1 hx
    · exact h.bound x hx
    · rw [hval]
      exact rate_le_one (hoffers x hx)
  · obtain ⟨-, hzero⟩ | ⟨x, hx, hreached⟩ := h.reached
    · rw [hval] at hzero
      exact absurd hzero one_ne_zero
    · exact Or.inr ⟨x, List.mem_append_left _ hx, hreached⟩
  · intro a ha
    obtain ⟨x, hx, hrest⟩ := h.attained a ha
    exact ⟨x, List.mem_append_left _ hx, hrest⟩

/-- The outer loop keeps what is known. -/
theorem optimize_best (hs : s.clock = none) (hoffers : ∀ offer ∈ offers, ol.Offered hypoGames offer)
    (hbest : ol.Best hypoGames tried best actions) :
    ∃ best' actions', Prog.exec (optimize ol.conv ol.search ol.turn hypoGames offers best actions) s =
        (.ok (best', actions'), s) ∧ ol.Best hypoGames (tried ++ offers) best' actions' := by
  induction offers generalizing tried best actions with
  | nil =>
    refine ⟨best, actions, rfl, ?_⟩
    rwa [List.append_nil]
  | cons offer offers ih =>
    have hoffer := hoffers offer List.mem_cons_self
    have hrest : ∀ x ∈ offers, ol.Offered hypoGames x :=
      fun x hx => hoffers x (List.mem_cons_of_mem _ hx)
    have hassoc : tried ++ offer :: offers = (tried ++ [offer]) ++ offers := by simp
    obtain ⟨w, hpos, hres, hexec⟩ := exec_optimize_cons hs offers hoffer hbest.pos actions
    rw [hexec, hassoc]
    -- a winrate that is not below the best one is the rate of the action
    have hrate : ¬ w.value < best.value → ol.rate hypoGames offer = w.value := by
      intro hnot
      obtain heq | ⟨hlow, -⟩ := hres
      · exact heq.symm
      · exact absurd hlow hnot
    split_ifs with hone hless heq
    · rw [Fraction.equals_iff hpos Fraction.pos_one, Fraction.value_one] at hone
      have hle := hbest.le_one
      refine ⟨w, [offer.action], rfl, Best.always ?_ hone hrest⟩
      exact hbest.better hoffer hpos (hrate (by linarith)) (by linarith)
    · rw [Fraction.lessThan_iff hbest.pos hpos] at hless
      exact ih hrest (hbest.better hoffer hpos (hrate hless.not_gt) hless.le)
    · rw [Fraction.equals_iff hpos hbest.pos] at heq
      exact ih hrest (hbest.tie ((hrate heq.not_lt).trans heq))
    · rw [Fraction.lessThan_iff hbest.pos hpos] at hless
      rw [Fraction.equals_iff hpos hbest.pos] at heq
      have hlow : w.value < best.value := lt_of_le_of_ne (not_lt.1 hless) heq
      refine ih hrest (hbest.worse hoffer ?_)
      obtain hres | ⟨-, hres⟩ := hres
      · rwa [← hres]
      · exact hres

/-- **`optimize` is exact**: without a timeout it returns the greatest rate of an action, and only
actions that have it. -/
theorem optimize_exact (hs : s.clock = none)
    (hoffers : ∀ offer ∈ offers, ol.Offered hypoGames offer) :
    ∃ best actions, Prog.exec (optimize ol.conv ol.search ol.turn hypoGames offers 0 []) s =
        (.ok (best, actions), s) ∧
      (offers ≠ [] → IsGreatest {q | ∃ offer ∈ offers, ol.rate hypoGames offer = q} best.value) ∧
      ∀ a ∈ actions, ∃ offer ∈ offers, offer.action = a ∧ ol.rate hypoGames offer = best.value := by
  have hstart : ol.Best hypoGames [] 0 [] :=
    ⟨Fraction.pos_zero, by simp, by simp, Or.inl ⟨rfl, Fraction.value_zero⟩, by simp⟩
  obtain ⟨best, actions, hexec, hbest⟩ := optimize_best hs hoffers hstart
  rw [List.nil_append] at hbest
  refine ⟨best, actions, hexec, ?_, hbest.attained⟩
  intro hne
  constructor
  · obtain ⟨hnil, -⟩ | hreached := hbest.reached
    · exact absurd hnil hne
    · exact hreached
  · rintro q ⟨offer, hmem, rfl⟩
    exact hbest.bound offer hmem

end

/-- Two cards are left, a red 1 and a red 2, and one of four cards is to be played; `data` is the
card that was played last. -/
def lastDraws : Game ℕ where
  state :=
    { State.fresh { suits := ["Red"], shortForms := ['r'] } 2 0 {} with
      hands := fun p => if p = 0 then [3, 2, 1, 0] else [7, 6, 5, 4]
      deck := [0, 1, 2, 3].foldl (fun deck o => deck.set o ⟨none⟩) .empty
      cardsLeft := 2
      cardOrder := 7 }
  players _ := { playerIndex := none, allPossible := .full 1, allInferred := .full 1 }
  common := { playerIndex := none, allPossible := .full 1, allInferred := .full 1 }
  deckIds := .empty
  data := 0

/-- The cards that are left. -/
def twoLeft : RemainingSet :=
  [{ id := ⟨0, 1⟩, missing := 1 }, { id := ⟨0, 2⟩, missing := 1 }]

/-- The games after a clue, and those after a draw. -/
def lastHypos : HypoGame ℕ × List (HypoGame ℕ) :=
  ({ hypoGame := lastDraws, prob := 1, remaining := twoLeft },
    twoLeft.map (drawnHypo lastDraws twoLeft))

/-- Four plays and a clue. The second play can only win with the red 1. -/
def fivePlans : List Offer :=
  [⟨.play 0 0, some [⟨0, 1⟩, ⟨0, 2⟩]⟩, ⟨.play 0 1, some [⟨0, 1⟩]⟩,
    ⟨.play 0 2, some [⟨0, 1⟩, ⟨0, 2⟩]⟩, ⟨.play 0 3, some [⟨0, 1⟩, ⟨0, 2⟩]⟩, ⟨.anyClue 0, some []⟩]

/-- The winrate after a play, by the card and by whether the red 1 was drawn. -/
def playedRate (card : ℕ) (rem : RemainingSet) : Fraction :=
  let drewOne := rem.head?.any fun r => r.id.rank == 2
  if card = 2 ∧ drewOne = true then 0
  else if (card = 0 ∧ drewOne = false) ∨ (card = 3 ∧ drewOne = true) then ⟨1, 2⟩
  else 1

theorem isRate_playedRate (card : ℕ) (rem : RemainingSet) : IsRate (playedRate card rem) := by
  unfold playedRate
  dsimp only
  split
  · exact isRate_zero
  · split
    · exact ⟨show (0 : ℤ) < 2 by decide, by norm_num [Fraction.value], by norm_num [Fraction.value]⟩
    · exact isRate_one

/-- The game after an action, with the card that was played. -/
def playCard (g : Game ℕ) : PerformAction → Game ℕ
  | .play _ o | .discard _ o => { g with data := o }
  | .clue .. => g
  | .anyClue _ =>
    { g with
      state :=
        { g.state with
          clueTokens := g.state.clueTokens - 1
          turnCount := g.state.turnCount + 1
          endgameTurns := Basics.tick g.state.endgameTurns } }

/-- The same, by the action that is handled. -/
def simulateCard (g : Game ℕ) : Action → Option (Game ℕ)
  | .play o _ _ | .discard o _ _ _ => some { g with data := o }
  | _ => some g

def byCard : Outlook ℕ where
  conv :=
    { simulateAction := simulateCard
      thinksPlayables := fun _ _ => []
      findClues := fun _ _ => []
      findDiscards := fun _ _ => [] }
  search g _ rem := pure [⟨none, playedRate g.data rem⟩]
  turn := 1
  next := playCard
  winrate g rem := playedRate g.data rem
  search_eq _ _ := ⟨none, [], rfl⟩
  isRate _ _ := isRate_playedRate _ _

/-- Each of them may be taken in the games it leads to. -/
theorem offered_fivePlans : ∀ offer ∈ fivePlans, byCard.Offered lastHypos offer := by
  have hdrawn : ∀ r ∈ twoLeft, (drawnHypo lastDraws twoLeft r).prob = ⟨1, 2⟩ := by decide
  have hplay : ∀ o < 4, ∀ draws, byCard.Offered lastHypos ⟨.play 0 o, some draws⟩ := by
    intro o ho draws
    refine ⟨fun hypo hmem => ?_, ?_⟩
    · obtain ⟨r, hr, rfl⟩ := List.mem_map.1 hmem
      refine ⟨?_, ?_, fun _ => rfl, ?_⟩
      · rw [hdrawn r hr]
        exact show (0 : ℤ) < 2 by decide
      · rw [hdrawn r hr]
        norm_num [Fraction.value]
      · simp only [twoLeft, List.mem_cons, List.not_mem_nil, or_false] at hr
        interval_cases o <;> obtain rfl | rfl := hr <;> rfl
    · have hvalues : twoLeft.map (fun r => (drawnHypo lastDraws twoLeft r).prob.value) =
          twoLeft.map fun _ => (⟨1, 2⟩ : Fraction).value :=
        List.map_congr_left fun r hr => congrArg Fraction.value (hdrawn r hr)
      change ((twoLeft.map (drawnHypo lastDraws twoLeft)).map fun hypo => hypo.prob.value).sum ≤ 1
      rw [List.map_map]
      refine (congrArg List.sum hvalues).trans_le ?_
      norm_num [twoLeft, Fraction.value]
  have hclue : byCard.Offered lastHypos ⟨.anyClue 0, some []⟩ := by
    refine ⟨fun hypo hmem => ?_, by simp [gamesFor, PerformAction.isClue, lastHypos]⟩
    rw [List.mem_singleton.1 hmem]
    exact ⟨Fraction.pos_one, by simp [lastHypos], fun _ => rfl, rfl⟩
  simp only [fivePlans, List.forall_mem_cons]
  exact ⟨hplay 0 (by decide) _, hplay 1 (by decide) _, hplay 2 (by decide) _,
    hplay 3 (by decide) _, hclue, by simp⟩

/-- The first and the fourth play win three times in four. The second play, whose other draw is
skipped, and the clue do worse, and the third play is given up after the first draw. -/
theorem optimize_exact_fivePlans :
    (Prog.exec (optimize byCard.conv byCard.search byCard.turn lastHypos fivePlans 0 []) {}).1 =
        .ok (⟨3, 4⟩, [.play 0 0, .play 0 3]) ∧
      IsGreatest {q | ∃ offer ∈ fivePlans, byCard.rate lastHypos offer = q} (3 / 4) := by
  have hexec : (Prog.exec (optimize byCard.conv byCard.search byCard.turn lastHypos fivePlans 0 [])
      {}).1 = .ok (⟨3, 4⟩, [.play 0 0, .play 0 3]) := by decide +kernel
  obtain ⟨best, actions, hexec', hgreatest, -⟩ := optimize_exact (s := {}) rfl offered_fivePlans
  rw [hexec'] at hexec
  cases hexec
  have hvalue : (⟨3, 4⟩ : Fraction).value = 3 / 4 := by norm_num [Fraction.value]
  exact ⟨congrArg Prod.fst hexec', hvalue ▸ hgreatest (by decide)⟩

end Outlook

end HanabiBot.Endgame
