import HanabiBot.Endgame.Plain
import HanabiBot.Endgame.Solve

/-!
# The winrate after sampling

The `monte_carlo` step of `solve_game` is to keep the probabilities of the arrangements,
so that the winrate it returns is one.  The probability of the group without trash counts
twice (`mass_sample`).

* `solveGame_rate` — if the probabilities that are searched sum to 1, the winrate is
  between 0 and 1;
* `massKept_iff` — they do exactly if every feasible arrangement has trash, and
  `lastFive_counted_twice` is a game where one has none.
-/

namespace HanabiBot.Endgame

variable {κ : Type} {conv : Convention κ} {g : Game κ} {p : ℕ} {arrs : List Arrangement}

/-- `solve_game` samples these arrangements, and there is one. -/
structure Samples (g : Game κ) (arrs : List Arrangement) : Prop where
  few : ((remainingIds g).filter fun r => !g.state.isBasicTrash r.id && r.all).length ≤ 2
  unknown : g.state.cardsLeft + (table g).unknownOwn.length ≠ 0
  arrange_eq : arrange (table g) (remainingIds g) = pure arrs
  feasible : arrs ≠ []

/-- In no sampled game is an action proposed twice. -/
def ProposesOnce (conv : Convention κ) (g : Game κ) (p : ℕ) (arrs : List Arrangement) : Prop :=
  ∀ arr ∈ searchedGames (table g) true arrs, (candidates conv arr.hypoGame p).Nodup

/-- The sampled arrangements have all of the probability, and the winrate that is returned is
between 0 and 1. -/
structure MassKept (conv : Convention κ) (g : Game κ) (p : ℕ) (arrs : List Arrangement) : Prop where
  mass_eq : mass (sample (table g).state arrs) = 1
  rate : ∀ {δ : Type} [LinearOrder δ] (toDecimal : Fraction → δ) (time : Option ℕ),
    Prog.Triple (Sound False) (solveGame toDecimal conv true time g p)
      (fun best s => IsRate best.winrate ∧ Sound False s) fun _ _ => True

/-! ## The winrate -/

/-- The clock is nothing to caches that hold winrates. -/
theorem sound_clock {s : SolverState} (h : Sound False s) (time : Option ℕ) :
    Sound False { s with clock := time } :=
  fun key result hr => ⟨False.elim, (h key result hr).2⟩

/-- An action is credited at most with the probability of the arrangement. -/
theorem creditOf_le {outcome : Outcome κ} {a : PerformAction} (hprob : 0 ≤ outcome.1.prob.value)
    (hrate : IsRate outcome.2.1) (honce : outcome.2.2.Nodup) :
    0 ≤ creditOf a outcome ∧ creditOf a outcome ≤ outcome.1.prob.value := by
  have hcount : (outcome.2.2.count a : ℚ) ≤ 1 := by
    exact_mod_cast List.nodup_iff_count_le_one.1 honce a
  have hnonneg : 0 ≤ outcome.2.1.value * outcome.1.prob.value := mul_nonneg hrate.nonneg hprob
  have hle : outcome.2.1.value * outcome.1.prob.value ≤ outcome.1.prob.value :=
    mul_le_of_le_one_left hprob hrate.le_one
  unfold creditOf
  constructor
  · positivity
  · exact (mul_le_of_le_one_left hnonneg hcount).trans hle

/-- The sampled games have the probabilities of the arrangements. -/
theorem searchedGames_prob (hne : sample (table g).state arrs ≠ []) :
    (searchedGames (table g) true arrs).map (fun arr => arr.prob) =
      (sample (table g).state arrs).map fun arr => arr.prob := by
  rw [searchedGames, if_pos rfl, arrangedGames, if_neg (by simpa using hne), List.map_map]
  rfl

/-- The arrangements are the feasible ones, and their probabilities sum to 1. -/
theorem Samples.spec (h : Samples g arrs) : (∀ arr ∈ arrs, Weighted arr) ∧ mass arrs = 1 ∧
    ∀ ids, (∃ arr ∈ arrs, arr.ids = ids) ↔ Feasible (table g) (remainingIds g) ids := by
  obtain hthrow | ⟨arrs', harr, harrs, hmass, hfeasible⟩ :=
    arrange_spec (table g) (missing_pos_remainingIds g)
  · exact absurd (hthrow.symm.trans h.arrange_eq) (Prog.throw_ne_pure {} _ _)
  · obtain rfl : arrs = arrs' := Prog.pure_inj {} (h.arrange_eq.symm.trans harr)
    exact ⟨fun arr harr => (harrs arr harr).weighted, hmass h.feasible, hfeasible⟩

/-- If the sampled probabilities sum to 1, the winrate is between 0 and 1. -/
theorem solveGame_rate {δ : Type} [LinearOrder δ] (toDecimal : Fraction → δ) (hlaw : conv.Lawful)
    (hfair : Fair conv) (hg : Sane g p) (hne : g.state.endgameTurns ≠ 0) (hp : p < g.state.numPlayers)
    (hsamples : Samples g arrs) (honce : ProposesOnce conv g p arrs)
    (hmass : mass (sample (table g).state arrs) = 1) (time : Option ℕ) :
    Prog.Triple (Sound False) (solveGame toDecimal conv true time g p)
      (fun best s => IsRate best.winrate ∧ Sound False s) fun _ _ => True := by
  have hweighted := @weighted_sample (table g).state _ hsamples.spec.1
  have hnonempty : sample (table g).state arrs ≠ [] := by
    intro hnil
    rw [hnil] at hmass
    simp [mass] at hmass
  refine (solveGame_spec toDecimal hlaw hfair hg hne hp hsamples.unknown true time).conseq
    (fun s hs => sound_clock hs time) (fun best s hbest => ⟨?_, hbest.2⟩) fun _ _ _ => trivial
  obtain ⟨⟨arrs', a, outcomes, harrange, hanswer⟩, -⟩ := hbest
  obtain rfl : arrs = arrs' := Prog.pure_inj {} (hsamples.arrange_eq.symm.trans harrange)
  have hprobs := searchedGames_prob hnonempty
  have hnonneg : ∀ arr ∈ searchedGames (table g) true arrs, 0 ≤ arr.prob.value := by
    intro arr harr
    have hprob := List.mem_map_of_mem (f := fun arr : ArrangedGame κ => arr.prob) harr
    rw [hprobs] at hprob
    obtain ⟨prev, hprev, heq⟩ := List.mem_map.1 hprob
    rw [← heq]
    exact (hweighted prev hprev).2.le
  have hcredit : ∀ outcome ∈ outcomes, 0 ≤ creditOf a outcome ∧
      creditOf a outcome ≤ outcome.1.prob.value := by
    intro outcome ho
    have hmem : outcome.1 ∈ searchedGames (table g) true arrs :=
      hanswer.games_eq ▸ List.mem_map_of_mem ho
    obtain ⟨hrate, hsub⟩ := hanswer.outcome outcome ho
    exact creditOf_le (hnonneg _ hmem) hrate (hsub.nodup (honce _ hmem))
  refine ⟨hanswer.pos, ?_, ?_⟩
  · rw [hanswer.winrate_eq]
    refine List.sum_nonneg fun q hq => ?_
    obtain ⟨outcome, ho, rfl⟩ := List.mem_map.1 hq
    exact (hcredit outcome ho).1
  · calc best.winrate.value = (outcomes.map (creditOf a)).sum := hanswer.winrate_eq
      _ ≤ (outcomes.map fun outcome => outcome.1.prob.value).sum :=
        List.sum_le_sum fun outcome ho => (hcredit outcome ho).2
      _ = (((outcomes.map Prod.fst).map fun arr => arr.prob).map Fraction.value).sum := by
        rw [List.map_map, List.map_map]
        rfl
      _ = mass (sample (table g).state arrs) := by
        rw [hanswer.games_eq, hprobs, List.map_map]
        rfl
      _ = 1 := hmass

/-! ## The mass -/

/-- The probabilities of the sampled arrangements sum to 1 exactly if there is trash in every
feasible arrangement; where no action is proposed twice, that is also when the winrate is one. -/
theorem massKept_iff (hlaw : conv.Lawful) (hfair : Fair conv) (hg : Sane g p)
    (hne : g.state.endgameTurns ≠ 0) (hp : p < g.state.numPlayers) (h : Samples g arrs) :
    (mass (sample (table g).state arrs) = 1 ↔ ∀ ids, Feasible (table g) (remainingIds g) ids →
      ∃ id ∈ ids, g.state.isBasicTrash id = true) ∧
    (ProposesOnce conv g p arrs → (MassKept conv g p arrs ↔
      ∀ ids, Feasible (table g) (remainingIds g) ids →
        ∃ id ∈ ids, g.state.isBasicTrash id = true)) := by
  obtain ⟨hweighted, hmass, hfeasible⟩ := h.spec
  have hiff := @mass_sample_eq_iff (table g).state arrs hweighted
  rw [hmass] at hiff
  have htrash : (∀ arr ∈ arrs, ∃ id ∈ arr.ids, (table g).state.isBasicTrash id = true) ↔
      ∀ ids, Feasible (table g) (remainingIds g) ids →
        ∃ id ∈ ids, g.state.isBasicTrash id = true := by
    constructor
    · intro hall ids hids
      obtain ⟨arr, harr, rfl⟩ := (hfeasible ids).2 hids
      exact hall arr harr
    · exact fun hall arr harr => hall arr.ids ((hfeasible arr.ids).1 ⟨arr, harr, rfl⟩)
  rw [← htrash, ← hiff]
  refine ⟨Iff.rfl, fun honce => ⟨MassKept.mass_eq, fun hsum => ⟨hsum, fun toDecimal time => ?_⟩⟩⟩
  exact solveGame_rate toDecimal hlaw hfair hg hne hp h honce hsum time

/-- Alice is dealt the first five cards, Bob the next five.  A red card is discarded by Bob, another
one drawn by Alice, and the last card of the deck is red 2. -/
def lastFiveCards (discarded drawn : Identity) : List Identity :=
  [⟨0, 1⟩, ⟨0, 1⟩, ⟨1, 1⟩, ⟨1, 1⟩, ⟨1, 1⟩, ⟨0, 4⟩, ⟨1, 2⟩, ⟨1, 3⟩, ⟨1, 4⟩, ⟨1, 3⟩,
    ⟨1, 2⟩, ⟨1, 4⟩, ⟨1, 5⟩, ⟨0, 1⟩, ⟨0, 2⟩, ⟨0, 3⟩, discarded, drawn, ⟨0, 4⟩, ⟨0, 2⟩]

def lastFiveDeck : Deck redBlue :=
  .ofList suits_redBlue (lastFiveCards ⟨0, 3⟩ ⟨0, 5⟩) (by decide +kernel)

/-- Blue is played, and red up to 3.  Alice is told of her 1s, and of the red cards. -/
def lastFiveActions (cards : List Identity) : List Action :=
  let draw (o p : ℕ) : Action := .draw o p (if p = 0 then none else cards[o]?)
  let play (o p drawn : ℕ) : List Action := [.play o p cards[o]?, draw drawn p]
  (List.range 10).map (fun o => draw o (o / 5)) ++
  play 4 0 10 ++ [.clue 1 0 [3, 2, 1, 0] ⟨.rank, 1⟩] ++ play 10 0 11 ++ play 9 1 12 ++
  play 11 0 13 ++ play 12 1 14 ++ play 13 0 15 ++ play 14 1 16 ++ play 15 0 17 ++
  [.clue 1 0 [17, 1, 0] ⟨.colour, 0⟩, .clue 0 1 [8, 5] ⟨.rank, 4⟩,
    .discard 16 1 cards[16]? false, draw 18 1]

/-- Alice is to move.  Her newest card is red 2 or the red card that is not seen, and the other one
of the two is left in the deck. -/
def lastFive (discarded drawn : Identity) : Game Unit :=
  let cards := lastFiveCards discarded drawn
  let card (o : ℕ) : Card :=
    let mask := IdentitySet.identitiesToMask (if o = 17 then [⟨0, 2⟩, drawn] else [cards.getD o drawn])
    { id := if o < 4 ∨ o = 17 then none else cards[o]?
      possible := ⟨2, mask⟩
      inferred := ⟨2, mask⟩
      order := o }
  let player : Player :=
    { playerIndex := some 0
      thoughts := [17, 3, 2, 1, 0, 18, 8, 7, 6, 5].foldl (fun thoughts o => thoughts.set o (card o))
        .empty
      allPossible := .full 2
      allInferred := .full 2 }
  { state := (lastFiveActions cards).foldl (Basics.after · .empty) (State.fresh redBlue 2 0 {})
    players := fun _ => player
    common := player
    deckIds := .empty
    data := () }

/-- The arrangements of `lastFive`. -/
def lastFiveArrs (discarded drawn : Identity) : List Arrangement :=
  normalize (expansions (table (lastFive discarded drawn)) (remainingIds (lastFive discarded drawn)) 1)

/-- Red 3 and red 5 are discarded and drawn by Alice, in either order. -/
theorem samples_lastFive {discarded drawn : Identity}
    (h : discarded = ⟨0, 5⟩ ∧ drawn = ⟨0, 3⟩ ∨ discarded = ⟨0, 3⟩ ∧ drawn = ⟨0, 5⟩) :
    Samples (lastFive discarded drawn) (lastFiveArrs discarded drawn) := by
  obtain ⟨rfl, rfl⟩ | ⟨rfl, rfl⟩ := h
  · refine ⟨by decide +kernel, by decide +kernel, ?_, by decide +kernel⟩
    rw [arrange_eq]
    exact if_neg (by decide +kernel)
  · refine ⟨by decide +kernel, by decide +kernel, ?_, by decide +kernel⟩
    rw [arrange_eq]
    exact if_neg (by decide +kernel)

theorem sane_lastTwo : Sane (lastFive ⟨0, 5⟩ ⟨0, 3⟩) 0 :=
  ⟨by decide +kernel, ⟨by decide +kernel, by decide +kernel, by decide +kernel⟩,
    ⟨by decide +kernel, by decide +kernel⟩⟩

/-- If the red 5 is discarded, both cards are trash, and the probability is kept. -/
theorem massKept_lastTwo :
    MassKept plain (lastFive ⟨0, 5⟩ ⟨0, 3⟩) 0 (lastFiveArrs ⟨0, 5⟩ ⟨0, 3⟩) := by
  have hsamples := samples_lastFive (.inl ⟨rfl, rfl⟩)
  refine ((massKept_iff (p := 0) plain_lawful plain_fair sane_lastTwo (by decide +kernel)
    (by decide +kernel) hsamples).2 (by unfold ProposesOnce; decide +kernel)).2 fun ids hids => ?_
  obtain ⟨arr, harr, rfl⟩ := (mem_expansions_iff (missing_pos_remainingIds _)).2 hids
  have htrash : ∀ arr ∈ expansions (table (lastFive ⟨0, 5⟩ ⟨0, 3⟩))
      (remainingIds (lastFive ⟨0, 5⟩ ⟨0, 3⟩)) 1,
      ∃ id ∈ arr.ids, (lastFive ⟨0, 5⟩ ⟨0, 3⟩).state.isBasicTrash id = true := by decide +kernel
  exact htrash arr harr

/-- If a red 3 is discarded, Alice's card may be the red 5; the arrangements are searched twice. -/
theorem lastFive_counted_twice :
    (∃ acts, Run lastFiveDeck 2 0 {} acts (lastFive ⟨0, 3⟩ ⟨0, 5⟩).state) ∧
      Samples (lastFive ⟨0, 3⟩ ⟨0, 5⟩) (lastFiveArrs ⟨0, 3⟩ ⟨0, 5⟩) ∧
      mass (sample (table (lastFive ⟨0, 3⟩ ⟨0, 5⟩)).state (lastFiveArrs ⟨0, 3⟩ ⟨0, 5⟩)) = 2 ∧
      ∀ (conv : Convention Unit) p,
        ¬ MassKept conv (lastFive ⟨0, 3⟩ ⟨0, 5⟩) p (lastFiveArrs ⟨0, 3⟩ ⟨0, 5⟩) := by
  have htwice : mass (sample (table (lastFive ⟨0, 3⟩ ⟨0, 5⟩)).state
      (lastFiveArrs ⟨0, 3⟩ ⟨0, 5⟩)) = 2 := by decide +kernel
  refine ⟨Run.fresh.append (by decide +kernel), samples_lastFive (.inr ⟨rfl, rfl⟩), htwice,
    fun conv p h => ?_⟩
  have hone := h.mass_eq
  rw [htwice] at hone
  norm_num at hone

end HanabiBot.Endgame
