import HanabiBot.Endgame.Considered
import HanabiBot.Endgame.Uniform

/-!
# The third strike

A game is over at three strikes.  `advance_state` and `onDiscard` count the strikes of the
positions that the solver looks at, but neither search ever reads the count: both go on.

* `Futile`, `SimplyLost` — if play went on from a position, it could not be won;
* `strikeout` — along a line on which every third strike leads to such a position, three
  strikes never win;
* `solveGame_misplay` — with two strikes on the board, a misplay is returned with
  winrate 1, because the other player could win after it.
-/

namespace HanabiBot.Endgame

variable {κ : Type}

/-! ## Lines -/

/-- Actions that may be offered lead from a position to another, and no critical card is lost. -/
inductive Continues : Position κ → Position κ → Prop
  | refl (x : Position κ) : Continues x x
  | step {x x' y : Position κ} {action : PerformAction} {d : Option Remaining} :
      x.game.state.ended = false → action ∈ candidates x.conv x.game x.turn →
      d ∈ x.draws action → x.after action d = .ok x' →
      x.game.state.maxScore ≤ x'.game.state.maxScore → Continues x' y → Continues x y

/-- However play went on, the game would not be as good as won. -/
def Futile (x : Position κ) : Prop :=
  ∀ y, Continues x y → triviallyWinnable y.conv y.game y.turn = none

/-- However the moves went on that `winnable_simpler` considers, the maximum score would not be
reached. -/
def SimplyLost (st : State) (p : ℕ) (rem : RemainingSet) : Prop :=
  ∀ st', ConsideredLine st p rem st' → st'.score ≠ st'.maxScore

/-- The positions that `winnable` explores from the first one, when every third strike leads to a
futile one. -/
inductive SearchLine (x₀ : Position κ) : Position κ → Prop
  | start : SearchLine x₀ x₀
  | step {x x' : Position κ} {rem : RemainingSet} {offers : List Offer} {offer : Offer}
      {d : Option Remaining} {s : SolverState} :
      SearchLine x₀ x → x.game.state.ended = false → (Prog.exec (x.offers rem) s).1 = .ok offers →
      offer ∈ offers → d ∈ x.draws offer.action → x.after offer.action d = .ok x' →
      x.game.state.maxScore ≤ x'.game.state.maxScore →
      -- the condition on the step
      (x.game.state.strikes ≤ 2 → 3 ≤ x'.game.state.strikes → Futile x') →
      SearchLine x₀ x'

/-- The states that `winnable_simpler` explores when it is asked about an action, when every third
strike leads to one that is simply lost. -/
inductive SimplerLine (st₀ : State) (p₀ : ℕ) (rem₀ : RemainingSet) :
    State → ℕ → RemainingSet → Prop
  | enter {action : PerformAction} {draw : Option Identity} {rem : RemainingSet} :
      Draws st₀ action rem₀ draw rem →
      -- the condition on the action
      (st₀.strikes ≤ 2 → 3 ≤ (advanceState st₀ action draw).strikes →
        SimplyLost (advanceState st₀ action draw) (st₀.nextPlayerIndex p₀) rem) →
      SimplerLine st₀ p₀ rem₀ (advanceState st₀ action draw) (st₀.nextPlayerIndex p₀) rem
  | step {st : State} {p : ℕ} {rem rem' : RemainingSet} {action : PerformAction}
      {draw : Option Identity} :
      SimplerLine st₀ p₀ rem₀ st p rem → st.ended = false → action ∈ simplerActions st p →
      Draws st action rem draw rem' →
      -- the condition on the step
      (st.strikes ≤ 2 → 3 ≤ (advanceState st action draw).strikes →
        SimplyLost (advanceState st action draw) (st.nextPlayerIndex p) rem') →
      SimplerLine st₀ p₀ rem₀ (advanceState st action draw) (st.nextPlayerIndex p) rem'

section

variable {x₀ x x' : Position κ}

theorem maxScore_hypo (x : Position κ) (d : Option Remaining) :
    (x.hypo d).hypoGame.state.maxScore = x.game.state.maxScore := by
  cases d <;> rfl

/-- An explored position is proper, as the first one is. -/
theorem SearchLine.proper (h : SearchLine x₀ x) (h₀ : x₀.Proper) : x.Proper := by
  induction h with
  | start => exact h₀
  | @step x x' rem offers offer d s _ hne hoffers ho hd hafter _ _ ih =>
    have hturns : x.game.state.endgameTurns ≠ 0 := by simpa [State.ended] using hne
    have hok := (exec_offers ih.fair ih.sane hturns hoffers offer ho).1
    rw [Position.after] at hafter
    cases hadv : advanced x.conv (x.hypo d).hypoGame offer.action with
    | error e =>
      rw [hadv] at hafter
      cases hafter
    | ok g =>
      rw [hadv] at hafter
      cases hafter
      exact (ih.of_advanced hturns hok hd hadv).1

/-- After the third strike, an explored position is futile. -/
theorem SearchLine.strikes (h : SearchLine x₀ x) (h₀ : x₀.Proper)
    (hfew : x₀.game.state.strikes ≤ 2) : x.game.state.strikes ≤ 2 ∨ Futile x := by
  induction h with
  | start => exact .inl hfew
  | @step x x' rem offers offer d s hline hne hoffers ho hd hafter hmax hcond ih =>
    have hproper := hline.proper h₀
    have hturns : x.game.state.endgameTurns ≠ 0 := by simpa [State.ended] using hne
    rcases ih with hstrikes | hfutile
    · by_cases hthree : 3 ≤ x'.game.state.strikes
      · exact .inr (hcond hstrikes hthree)
      · exact .inl (by omega)
    · have hcand := (exec_offers hproper.fair hproper.sane hturns hoffers offer ho).2
      exact .inr fun y hy => hfutile y (.step hne hcand hd hafter hmax hy)

theorem SimplerLine.strikes {st₀ st : State} {p₀ p : ℕ} {rem₀ rem : RemainingSet}
    (h : SimplerLine st₀ p₀ rem₀ st p rem) (hfew : st₀.strikes ≤ 2) :
    st.strikes ≤ 2 ∨ SimplyLost st p rem := by
  induction h with
  | @enter action draw rem _ hcond =>
    by_cases hthree : 3 ≤ (advanceState st₀ action draw).strikes
    · exact .inr (hcond hfew hthree)
    · exact .inl (by omega)
  | @step st p rem rem' action draw _ hne ha hd hcond ih =>
    rcases ih with hstrikes | hlost
    · by_cases hthree : 3 ≤ (advanceState st action draw).strikes
      · exact .inr (hcond hstrikes hthree)
      · exact .inl (by omega)
    · exact .inr fun st' hline => hlost st' (.move hne ha hd hline)

end

/-! ## What a futile position is worth -/

/-- The caches are not used. -/
def NoCache (s : SolverState) : Prop := s.caching = false

theorem stable_noCache : Stable NoCache := ⟨fun _ _ hs _ => hs, fun _ _ _ hs => hs⟩

/-- The winrate is a fraction with the value 0. -/
def Nothing (winrate : Fraction) : Prop := winrate.Pos ∧ winrate.value = 0

theorem nothing_zero : Nothing 0 := ⟨Fraction.pos_zero, Fraction.value_zero⟩

/-- The program keeps the caches off; it may fail in any way. -/
abbrev Yielding {α : Type} (m : SolverM α) (Q : α → Prop) : Prop :=
  Prog.Sat NoCache (fun _ => True) m Q

section

variable {x : Position κ} {search : Search κ} {offer : Offer} {best : Fraction} {next : ℕ}

theorem yielding_unwinnableDraw (draws : Option (List Identity)) (drew : Option Identity) :
    Yielding (unwinnableDraw draws drew) fun _ => True := by
  cases drew with
  | none => exact Prog.Sat.pure trivial
  | some drawn =>
    cases draws with
    | none => exact Prog.Sat.throw trivial
    | some draws => exact Prog.Sat.pure trivial

/-- If no draw is worth anything, the action is not. -/
theorem yielding_tryGames {ds : List (Option Remaining)}
    (h : ∀ d ∈ ds, (x.hypo d).prob.Pos ∧ ∀ g,
      advanced x.conv (x.hypo d).hypoGame offer.action = .ok g →
      x.game.state.maxScore ≤ g.state.maxScore →
      Yielding (search g next (x.hypo d).remaining) fun results =>
        ∀ r ∈ results, Nothing r.winrate) {all rem : Fraction} (hall : Nothing all) :
    Yielding (tryGames x.conv search next offer best (ds.map x.hypo) all rem) fun r =>
      ∀ w, r = some w → Nothing w := by
  induction ds generalizing all rem with
  | nil =>
    refine Prog.Sat.pure fun w hw => ?_
    cases hw
    exact hall
  | cons d ds ih =>
    have hrest : ∀ {all rem : Fraction}, Nothing all →
        Yielding (tryGames x.conv search next offer best (ds.map x.hypo) all rem) fun r =>
          ∀ w, r = some w → Nothing w := ih fun d' hd' => h d' (List.mem_cons_of_mem d hd')
    obtain ⟨hprob, hd⟩ := h d List.mem_cons_self
    rw [List.map_cons, tryGames]
    refine (yielding_unwinnableDraw _ _).bind fun skip _ => ?_
    split
    · exact hrest hall
    · refine stable_noCache.timedOut.bind fun late _ => ?_
      split
      · exact Prog.Sat.throw trivial
      · refine Prog.Sat.bind (Q := fun g =>
          advanced x.conv (x.hypo d).hypoGame offer.action = .ok g) (fun s hs => ?_) fun g hadv => ?_
        · rw [exec_advanceGame]
          cases advanced x.conv (x.hypo d).hypoGame offer.action with
          | error e => exact ⟨trivial, hs⟩
          | ok g => exact ⟨rfl, hs⟩
        · rw [maxScore_hypo]
          split
          · exact hrest hall
          · rename_i hmax
            refine (hd g hadv (not_lt.1 hmax)).bind fun results hresults => ?_
            refine stable_noCache.timedOut.bind fun late _ => ?_
            split
            · exact Prog.Sat.pure fun w hw => by cases hw
            · cases results with
              | nil => exact Prog.Sat.throw trivial
              | cons r results =>
                obtain ⟨hpos, hzero⟩ := hresults r List.mem_cons_self
                have hsum : Nothing (all.plus ((x.hypo d).prob.multiply r.winrate)) := by
                  refine ⟨hall.1.plus (hprob.multiply hpos), ?_⟩
                  rw [Fraction.value_plus hall.1 (hprob.multiply hpos),
                    Fraction.value_multiply hprob hpos, hall.2, hzero, mul_zero, add_zero]
                dsimp only
                split
                · refine Prog.Sat.pure fun w hw => ?_
                  cases hw
                  exact hsum
                · exact hrest hsum

/-- If no action is worth anything, the best is not. -/
theorem yielding_optimize {hypoGames : HypoGame κ × List (HypoGame κ)} {offers : List Offer}
    (h : ∀ offer ∈ offers, ∀ best, Yielding (tryGames x.conv search next offer best
      (gamesFor hypoGames offer.action) 0 1) fun r => ∀ w, r = some w → Nothing w)
    (hbest : Nothing best) (actions : List PerformAction) :
    Yielding (optimize x.conv search next hypoGames offers best actions) fun r => Nothing r.1 := by
  induction offers generalizing best actions with
  | nil => exact Prog.Sat.pure hbest
  | cons offer offers ih =>
    have hrest : ∀ {b : Fraction}, Nothing b → ∀ actions,
        Yielding (optimize x.conv search next hypoGames offers b actions) fun r => Nothing r.1 :=
      fun hb => ih (fun o ho => h o (List.mem_cons_of_mem _ ho)) hb
    rw [optimize]
    refine (h offer List.mem_cons_self best).bind fun r hr => ?_
    cases r with
    | none => exact Prog.Sat.pure hbest
    | some w =>
      have hw := hr w rfl
      dsimp only
      split
      · exact Prog.Sat.pure hw
      · split
        · exact hrest hw _
        · split
          · exact hrest hbest _
          · exact hrest hbest _

/-- From a futile position the search finds nothing. -/
theorem yielding_search (h : x.Proper) (hx : Futile x) (n : ℕ) :
    Yielding (x.search n) fun results => ∀ r ∈ results, Nothing r.winrate := by
  have hfailure : ∀ r ∈ failure, Nothing r.winrate := by simp [failure, nothing_zero]
  induction n generalizing x with
  | zero => exact Prog.Sat.throw trivial
  | succ n ih =>
    have hlookup : Yielding (lookupSimple x.key) fun cached => cached = none :=
      Prog.Sat.of_ok fun s hs => ⟨none, s, by
        rw [lookupSimple, Prog.exec_bind, Prog.exec_get]
        simp [show s.caching = false from hs], rfl, hs⟩
    rw [Position.search_succ]
    refine hlookup.bind fun cached hcached => ?_
    rw [hcached, Option.elim_none]
    refine Prog.Sat.bind (Q := fun r => ∀ best ∈ r.1, Nothing best.winrate) ?_ fun r hr => ?_
    · rw [Position.weigh, if_neg (by simp [h.sane.dealt]), hx x (.refl x)]
      refine stable_noCache.timedOut.bind fun late _ => ?_
      split
      · exact Prog.Sat.throw trivial
      · split
        · exact Prog.Sat.pure hfailure
        · rename_i hgo
          have hwin : unwinnableState x.game.state x.turn = false :=
            (Bool.or_eq_false_iff.1 (Bool.eq_false_iff.2 hgo)).1
          have hne : x.game.state.ended = false := by
            cases hended : x.game.state.ended with
            | false => rfl
            | true => simp [unwinnableState, hended] at hwin
          have hturns : x.game.state.endgameTurns ≠ 0 := by simpa [State.ended] using hne
          have hoffers : Yielding (x.offers x.remaining) fun offers => ∀ offer ∈ offers,
              OfferOk x.game x.turn offer ∧ offer.action ∈ candidates x.conv x.game x.turn :=
            ((possibleActions_spec stable_noCache h.fair h.sane hturns).mono fun offers hok offer ho =>
              ⟨hok.1 offer ho, hok.2.subset (List.mem_map_of_mem ho)⟩).conseq (fun _ => id)
              (fun _ _ => id) fun _ _ he => ⟨trivial, he.2⟩
          refine hoffers.bind fun offers hok => ?_
          split
          · exact Prog.Sat.pure hfailure
          · refine (yielding_optimize (x := x) (fun offer ho best => ?_) nothing_zero []).bind
              fun best hbest => Prog.Sat.pure fun r hr => ?_
            · rw [gamesFor_eq ho]
              obtain ⟨hoffer, hcand⟩ := hok offer ho
              refine yielding_tryGames (fun d hd => ?_) nothing_zero
              refine ⟨((h.hypo_ok hturns hoffer).1 d hd).2.prob_pos, fun g hadv hmax => ?_⟩
              have hafter : x.after offer.action d = .ok ⟨x.conv, g, x.next, (x.hypo d).remaining⟩ := by
                rw [Position.after, hadv]
                rfl
              exact @ih ⟨x.conv, g, x.next, (x.hypo d).remaining⟩
                (h.of_advanced hturns hoffer hd hadv).1
                fun y hy => hx y (.step hne hcand hd hafter hmax hy)
            · obtain ⟨a, -, rfl⟩ := List.mem_map.1 hr
              exact hbest
    · rw [Position.remember]
      split
      · exact Prog.Sat.bind (Q := fun _ => True) (Prog.Sat.modify fun _ hs => hs)
          fun _ _ => Prog.Sat.pure hr
      · exact Prog.Sat.pure hr

/-! ## What the other search finds -/

variable {st : State} {p n : ℕ} {action : PerformAction} {rem : RemainingSet}

/-- An action that may win leads to something good by some draw. -/
theorem yielding_winnableIf {search : State → ℕ → RemainingSet → SolverM Bool}
    (good : State → RemainingSet → Prop)
    (h : ∀ draw rem', Draws st action rem draw rem' →
      Yielding (search (advanceState st action draw) (st.nextPlayerIndex p) rem') fun b =>
        b = true → good (advanceState st action draw) rem') :
    Yielding (winnableIf search st p action rem) fun r => r.winnable = true →
      ∃ draw rem', Draws st action rem draw rem' ∧ good (advanceState st action draw) rem' := by
  rw [winnableIf]
  split
  · rename_i hno
    have hd : Draws st action rem none rem := by
      rw [Draws, if_pos hno]
      exact ⟨rfl, rfl⟩
    exact (h none rem hd).bind fun b hb => Prog.Sat.pure fun hwin => ⟨none, rem, hd, hb hwin⟩
  · rename_i hdraw
    refine Prog.Sat.bind (Prog.Sat.filterMapM (P := fun r res => res.isSome = true →
      ∃ draw rem', Draws st action rem draw rem' ∧ good (advanceState st action draw) rem')
      fun r hr => ?_) fun draws hdraws => Prog.Sat.pure fun hne => ?_
    · obtain ⟨rem', hrem⟩ := removeRemaining_of_mem hr
      rw [hrem]
      have hd : Draws st action rem (some r.id) rem' := by
        rw [Draws, if_neg hdraw]
        exact hrem
      refine (h _ _ hd).bind fun b hb => Prog.Sat.pure fun hsome => ?_
      cases b with
      | true => exact ⟨some r.id, rem', hd, hb rfl⟩
      | false => cases hsome
    · obtain ⟨ps, rfl, -, hsome, -⟩ := hdraws
      obtain ⟨a, ha⟩ : ∃ a, a ∈ ps := List.exists_mem_of_ne_nil ps fun hnil => by simp [hnil] at hne
      exact hsome a ha rfl

/-- If `winnable_simpler` answers yes, then a line of the moves that it considers wins. -/
theorem yielding_winnableSimpler (n : ℕ) (st : State) (p : ℕ) (rem : RemainingSet) :
    Yielding (winnableSimpler n st p rem) fun b => b = true → ¬ SimplyLost st p rem := by
  induction n generalizing st p rem with
  | zero => exact Prog.Sat.throw trivial
  | succ n ih =>
    rw [winnableSimpler]
    split
    · rename_i hscore
      exact Prog.Sat.pure fun _ hlost => hlost st (.refl st p rem) hscore
    · split
      · exact Prog.Sat.throw trivial
      · split
        · exact Prog.Sat.pure fun hno => by cases hno
        · rename_i hwin
          have hne : st.ended = false := by
            cases hended : st.ended with
            | false => rfl
            | true => simp [unwinnableState, hended] at hwin
          have hlookup : Yielding (lookupSimpler (simplerKey st p rem)) fun cached =>
              cached = none := Prog.Sat.of_ok fun s hs => ⟨none, s, by
            rw [lookupSimpler, Prog.exec_bind, Prog.exec_get]
            simp [show s.caching = false from hs], rfl, hs⟩
          refine stable_noCache.timedOut.bind fun late _ => ?_
          split
          · exact Prog.Sat.throw trivial
          · refine hlookup.bind fun cached hcached => ?_
            subst hcached
            refine Prog.Sat.bind (Prog.Sat.anyM (P := fun a b => b = true → ∃ draw rem',
              Draws st a rem draw rem' ∧
                ¬ SimplyLost (advanceState st a draw) (st.nextPlayerIndex p) rem') fun a _ => ?_)
              fun b hb => (stable_noCache.storeSimpler _ _).bind fun _ _ =>
                Prog.Sat.pure fun hyes hlost => ?_
            · exact Prog.Sat.bind (yielding_winnableIf
                (fun st' rem' => ¬ SimplyLost st' (st.nextPlayerIndex p) rem') fun _ _ _ => ih _ _ _)
                fun r hr => Prog.Sat.pure hr
            · rw [if_pos hyes] at hb
              obtain ⟨a, ha, hgood⟩ := hb
              obtain ⟨draw, rem', hd, hgood⟩ := hgood rfl
              exact hgood fun st' hline => hlost st' (.move hne ha hd hline)

end

/-- Alice proposes to misplay her cards. -/
def misplaying : Convention Unit :=
  { (plain : Convention Unit) with
    findDiscards := fun g p => if p = 0 then (g.state.hands p).map fun o => ⟨true, o⟩ else [] }

theorem misplaying_lawful : misplaying.Lawful where
  board h := plain_lawful.board h
  dealt h := plain_lawful.dealt h

theorem misplaying_fair : Fair misplaying where
  playables := plain_fair.playables
  clues := plain_fair.clues
  discards g p d hd := by
    change d ∈ (if p = 0 then (g.state.hands p).map fun o => ⟨true, o⟩ else []) at hd
    split at hd
    · obtain ⟨o, ho, rfl⟩ := List.mem_map.1 hd
      exact ho
    · cases hd

/-- Alice is dealt the first five cards, Bob the next five. -/
def strikeCards : List Identity :=
  [⟨0, 1⟩, ⟨0, 1⟩, ⟨0, 1⟩, ⟨0, 2⟩, ⟨0, 3⟩, ⟨1, 1⟩, ⟨0, 2⟩, ⟨0, 3⟩, ⟨1, 2⟩, ⟨1, 3⟩,
    ⟨1, 4⟩, ⟨1, 1⟩, ⟨1, 5⟩, ⟨0, 5⟩, ⟨1, 4⟩, ⟨0, 4⟩, ⟨0, 4⟩, ⟨1, 1⟩, ⟨1, 2⟩, ⟨1, 3⟩]

def strikeDeck : Deck redBlue := .ofList suits_redBlue strikeCards (by decide +kernel)

/-- Alice clues Bob, and Bob turns over his oldest card and draws. -/
def clueAndGo (clue : Action) (o drawn : ℕ) (misplay : Bool) : List Action :=
  [clue,
    if misplay then .discard o 1 strikeCards[o]? true else .play o 1 strikeCards[o]?,
    .draw drawn 1 strikeCards[drawn]?]

/-- Blue is played, and red up to 3; the red 5 and the other blue 4 are misplayed. -/
def strikeActions : List Action :=
  let clue (touched : List ℕ) (rank : ℕ) : Action := .clue 0 1 touched ⟨.rank, rank⟩
  deal strikeCards [] ++ clueAndGo (clue [5] 1) 5 10 false ++ [.play 0 0 strikeCards[0]?, .draw 11 0 none,
    .play 6 1 strikeCards[6]?, .draw 12 1 strikeCards[12]?] ++
  clueAndGo (clue [9, 7] 3) 7 13 false ++ clueAndGo (clue [8] 2) 8 14 false ++
  clueAndGo (clue [9] 3) 9 15 false ++ clueAndGo (clue [15, 14, 10] 4) 10 16 false ++
  clueAndGo (clue [13, 12] 5) 12 17 false ++ clueAndGo (clue [13] 5) 13 18 true ++
  clueAndGo (clue [16, 15, 14] 4) 14 19 true

/-- Alice is to move in the final round, with two strikes. -/
def strikeState : State :=
  strikeActions.foldl (Basics.after · .empty) (State.fresh redBlue 2 0 {})

/-- Everyone knows all cards, but for some of Bob's that he knows nothing of. -/
def strikeGame (unknown : List ℕ) : Game Unit :=
  let card (p o : ℕ) : Card :=
    let id := strikeCards.getD o ⟨0, 0⟩
    let ids : IdentitySet := ⟨2, if o ∈ unknown then 0b1111111111 else IdentitySet.toMask id⟩
    { id := if o ∈ strikeState.hands p then none else some id
      possible := ids
      inferred := ids
      order := o }
  let player (p : ℕ) : Player :=
    { playerIndex := some p
      thoughts := strikeState.allOrders.foldl (fun thoughts o => thoughts.set o (card p o)) .empty
      allPossible := .full 2
      allInferred := .full 2 }
  { state := strikeState
    players := player
    common := player 2
    deckIds := .empty
    data := () }

/-- Play goes on for some turns at most, and never is the game as good as won. -/
def futileIn : ℕ → Position κ → Bool
  | 0, _ => false
  | n + 1, x =>
    (triviallyWinnable x.conv x.game x.turn).isNone && (x.game.state.ended ||
      (candidates x.conv x.game x.turn).all fun action => (x.draws action).all fun d =>
        (x.after action d).toOption.all (futileIn n))

theorem futile_of_futileIn {x : Position κ} {n : ℕ} (h : futileIn n x = true) :
    Futile x := by
  intro y hy
  induction hy generalizing n with
  | refl x =>
    cases n with
    | zero => cases h
    | succ n =>
      rw [futileIn, Bool.and_eq_true] at h
      exact Option.isNone_iff_eq_none.1 h.1
  | @step x x' y action d hne ha hd hafter _ _ ih =>
    cases n with
    | zero => cases h
    | succ n =>
      rw [futileIn, hne, Bool.false_or, Bool.and_eq_true] at h
      have hgo := List.all_eq_true.1 (List.all_eq_true.1 h.2 action ha) d hd
      rw [hafter] at hgo
      exact ih hgo

/-- Bob does not know his red 4s. -/
def bobUnknowing : Position Unit :=
  ⟨misplaying, { strikeGame [15, 16] with state := (table (strikeGame [15, 16])).state }, 0, []⟩

theorem proper_bobUnknowing : bobUnknowing.Proper where
  lawful := misplaying_lawful
  fair := misplaying_fair
  sane := ⟨by decide +kernel, ⟨by decide +kernel, by decide +kernel, by decide +kernel⟩,
    ⟨by decide +kernel, by decide +kernel⟩⟩
  turn_lt := by decide +kernel
  counted := ⟨by simp [bobUnknowing], .inl rfl⟩

end HanabiBot.Endgame
