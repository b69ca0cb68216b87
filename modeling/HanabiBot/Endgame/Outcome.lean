import HanabiBot.Endgame.BottomDeck
import HanabiBot.Endgame.Late
import HanabiBot.Endgame.Remaining
import HanabiBot.Endgame.Solve
import HanabiBot.Endgame.Trivial
import HanabiBot.Endgame.Uniform

/-!
# What `solve_game` comes to

It is to return a legal action, or to throw `UnsolvedGame`, whenever the clock runs out.
Where some card is unknown or left it does, unless the assertion fails.  Where none is, the
action may be the one of `trivially_winnable`, which looks neither at the clue tokens nor at
whether there is a card to discard; and a search that outlasts the clock leaves no action.

* `winnable_legal` — the search returns legal actions;
* `openSearch_breaks` — a search of another position breaks where the clock runs out with it;
* `solveGame_outcome` — for every clock the outcome is as it is to be in the games of
  `Answerable`, and in no others;
* `illegalDiscard` — a game that is reached where it is not.
-/

namespace HanabiBot.Endgame

variable {κ : Type} {conv : Convention κ} {g : Game κ} {p : ℕ} {rem : RemainingSet}

/-! ## The search -/

/-- A winrate that is not 0 comes with a legal action. -/
def Wins (st : State) (p : ℕ) (result : List BestAction) : Prop :=
  ∀ best ∈ result, best.winrate.numerator ≠ 0 → ∃ a, best.action = some a ∧ Legal st p a

theorem wins_failure {st : State} : Wins st p failure := by
  intro best hbest hne
  rw [failure, List.mem_singleton] at hbest
  rw [hbest] at hne
  exact absurd rfl hne

/-- The search of a position that is not in the caches, as none is when they have been cleared. -/
def Cold (g : Game κ) (p : ℕ) (s : SolverState) : Prop :=
  Sound True s ∧ s.simple (hash g ++ [.num p]) = none

theorem lookupSimple_cold {E : SolverError → SolverState → Prop} :
    Prog.Triple (Cold g p) (lookupSimple (hash g ++ [.num p]))
      (fun cached s => cached = none ∧ Cold g p s) E := by
  intro s hs
  rw [lookupSimple, Prog.exec_bind, Prog.exec_get]
  refine ⟨?_, hs⟩
  rw [hs.2]
  exact ite_self _

/-- Where the game is not trivially winnable, the search returns legal actions. -/
theorem winnable_legal {fuel : ℕ} (hlaw : conv.Lawful)
    (hfair : Fair conv) (hg : Sane g p) (hp : p < g.state.numPlayers)
    (hc : Counted rem g.state.cardsLeft) (hfuel : depthBound g.state < fuel + 1)
    (htrivial : triviallyWinnable conv g p = none) :
    Prog.Triple (Cold g p) (winnable conv (fuel + 1) g p rem)
      (fun result _ => Wins g.state p result) fun _ _ => True := by
  have hstore : ∀ key result, Wins g.state p result → Prog.Triple (Sound True)
      (do storeSimple key result; pure result : SolverM (List BestAction))
      (fun r _ => Wins g.state p r) fun _ _ => True := fun key result hr =>
    Prog.Triple.bind (Q := fun _ _ => True) (fun _ _ => trivial) fun _ =>
      Prog.Triple.pure fun _ _ => hr
  rw [winnable]
  refine lookupSimple_cold.bind fun cached => ?_
  refine Prog.Triple.assume (fun s hs => hs.1) fun hcached => ?_
  subst hcached
  refine Prog.Triple.conseq (P := Sound True) ?_ (fun s hs => hs.2.1) (fun _ _ => id) fun _ _ => id
  dsimp only
  rw [if_neg (by simp [hg.dealt]), htrivial]
  refine triple_timedOut.bind fun late => ?_
  split
  · exact Prog.Triple.throw fun _ _ => trivial
  · refine Prog.Triple.conseq (P := Sound True) ?_ (fun s hs => hs.2) (fun _ _ => id)
      fun _ _ => id
    split
    · exact hstore _ _ wins_failure
    · rename_i hwin
      have hne : g.state.endgameTurns ≠ 0 := by
        intro h0
        simp [unwinnableState, State.ended, h0] at hwin
      refine Prog.Triple.bind ((possibleActions_spec stable_sound hfair hg hne).conseq
        (fun _ => id) (fun _ _ => id) fun _ _ _ => trivial) fun offers => ?_
      refine Prog.Triple.assume (fun s hs => hs.1.1) fun hoffers => ?_
      split
      · exact Prog.Triple.pure fun _ _ => wins_failure
      · refine Prog.Triple.bind ((optimizeFrom_spec hlaw
          (fun g' p' rem' h1 h2 h3 h4 => winnable_spec hlaw hfair fuel g' p' rem' h1 h2 h3
            (by omega)) hg hne hp hc hoffers).conseq (fun s hs => hs.2) (fun _ _ => id)
            fun _ _ _ => trivial) fun best => ?_
        refine Prog.Triple.assume (fun s hs => hs.1.offered) fun hoffered => ?_
        refine (hstore _ _ ?_).conseq (fun s hs => hs.2) (fun _ _ => id) fun _ _ => id
        intro r hr _
        obtain ⟨a, ha, rfl⟩ := List.mem_map.1 hr
        obtain ⟨offer, ho, rfl⟩ := List.mem_map.1 (hoffered.subset ha)
        exact ⟨_, rfl, (hoffers offer ho).legal⟩


/-! ## The outcome -/

/-- The outcome is a legal action, or `UnsolvedGame`, or an error of the game that handles one. -/
def Contract (conv : Convention κ) (st : State) (p : ℕ) : Except SolverError BestAction → Prop
  | .ok best => ∃ a, best.action = some a ∧ Legal st p a
  | .error e => Excused conv e

theorem contract_of_triple {st : State} {P : SolverState → Prop} {m : SolverM BestAction}
    {s : SolverState}
    (h : Prog.Triple P m (fun best _ => ∃ a, best.action = some a ∧ Legal st p a)
      fun e _ => Excused conv e) (hs : P s) : Contract conv st p (Prog.exec m s).1 := by
  cases hrun : (Prog.exec m s).1 with
  | ok best => exact h.exec_ok hs hrun
  | error e => exact h.exec_error hs hrun

/-- `hypo_game`: the game with the identities of our own cards written on them. -/
def knownGame (g : Game κ) : Game κ := { g with state := (table g).state }

/-- Too many useful cards have not been seen at all. -/
def Hopeless (g : Game κ) : Prop :=
  2 < ((remainingIds g).filter fun r => !g.state.isBasicTrash r.id && r.all).length

/-- All cards are known, and none is left. -/
def AllKnown (g : Game κ) : Prop := g.state.cardsLeft + (table g).unknownOwn.length = 0

instance (g : Game κ) : Decidable (AllKnown g) :=
  inferInstanceAs (Decidable (g.state.cardsLeft + (table g).unknownOwn.length = 0))

/-- The search gives the position up at sight. -/
def GivenUp (st : State) (p : ℕ) (rem : RemainingSet) : Prop :=
  (unwinnableState st p || bottomDecked st rem) = true

instance (st : State) (p : ℕ) (rem : RemainingSet) : Decidable (GivenUp st p rem) :=
  inferInstanceAs (Decidable (_ = true))

/-- Where the outcome is as it is to be, whatever the clock: the copies add up, or there is no
arrangement; the action of `trivially_winnable`, where it is returned, can be taken; and no other
position has to be searched where all cards are known. -/
structure Answerable (conv : Convention κ) (g : Game κ) (p : ℕ) (s : SolverState) : Prop where
  assertion : ¬ AllKnown g → CountsAdd g ∨ ∀ ids, ¬ Feasible (table g) (remainingIds g) ids
  trivial : AllKnown g → (triviallyWinnable conv (knownGame g) p).isSome →
    startPlayables conv (knownGame g) p = [] → g.state.hands p ≠ [] ∧ g.state.clueTokens < 8
  search : AllKnown g → triviallyWinnable conv (knownGame g) p = none →
    GivenUp (knownGame g).state p (remainingIds g) ∨ NoSearch conv (knownGame g) p (remainingIds g) s

theorem endgameTurns_ne_of_not_givenUp {st : State} (h : ¬ GivenUp st p rem) :
    st.endgameTurns ≠ 0 := by
  intro hzero
  simp [GivenUp, unwinnableState, State.ended, hzero] at h

/-- A game in progress that is not won yet, with player `p` to move. -/
structure Playing {v : Variant} (dk : Deck v) (n our : ℕ) (options : TableOptions)
    (acts : List Action) (g : Game κ) (p : ℕ) : Prop where
  run : Run dk n our options acts g.state
  two_le : 2 ≤ n
  le_six : n ≤ 6
  dealt : g.dealt = true
  stocked : Stocked g.state p
  inProgress : g.state.endgameTurns ≠ 0
  score_lt : g.state.score < g.state.maxScore
  player_lt : p < g.state.numPlayers

section

variable {v : Variant} {dk : Deck v} {n our : ℕ} {options : TableOptions} {acts : List Action}

theorem Playing.sane (h : Playing dk n our options acts g p) : Sane g p :=
  sane_of_run h.run h.two_le h.le_six h.dealt h.stocked

theorem Playing.sane_known (h : Playing dk n our options acts g p) : Sane (knownGame g) p :=
  h.sane.withDeck (fun _ ho => isSome_get_writeIds _ ho) g.deckIds

theorem Playing.no_cards (h : Playing dk n our options acts g p) (hknown : AllKnown g) :
    g.state.cardsLeft = 0 ∧ (table g).unknownOwn.length = 0 := by
  rw [AllKnown] at hknown
  obtain ⟨hpos, -⟩ | ⟨hzero, -⟩ := h.sane.state.clocked <;> omega

end

/-- The assertion fails if the copies do not add up and there is an arrangement. -/
theorem arrange_throws_iff : arrange (table g) (remainingIds g) = throw .assertion ↔
    ¬ (CountsAdd g ∨ ∀ ids, ¬ Feasible (table g) (remainingIds g) ids) := by
  have hpos := missing_pos_remainingIds g
  constructor
  · rintro hthrow (hadd | hnone)
    · rw [@arrange_of_total _ (table g) _ hpos (totalMissing_eq hadd)] at hthrow
      exact Prog.throw_ne_pure {} _ _ hthrow.symm
    · obtain hnil : expansions (table g) (remainingIds g) (table g).unknownOwn.length = [] := by
        refine List.eq_nil_iff_forall_not_mem.2 fun arr harr => ?_
        exact hnone arr.ids ((mem_expansions_iff hpos).1 ⟨arr, harr, rfl⟩)
      rw [arrange_eq, hnil] at hthrow
      exact Prog.throw_ne_pure {} _ _ hthrow.symm
  · intro hbad
    obtain ⟨hadd, hsome⟩ := not_or.1 hbad
    push Not at hsome
    obtain ⟨ids, hids⟩ := hsome
    obtain ⟨arr, harr, -⟩ := (mem_expansions_iff hpos).2 hids
    rw [arrange_eq, if_pos]
    refine List.any_eq_true.2 ⟨arr, harr, ?_⟩
    have hsum := (expanded_of_mem hpos harr).total_eq
    rw [bne_iff_ne]
    intro hleft
    refine hadd ?_
    rw [CountsAdd, ← totalMissing_remainingIds]
    change _ = (table g).state.cardsLeft + _
    omega

/-- With every card known, nothing remains. -/
theorem remainingIds_eq_nil (hknown : AllKnown g) (hadd : CountsAdd g) : remainingIds g = [] := by
  have htotal := totalMissing_eq hadd
  rw [AllKnown] at hknown
  by_contra hne
  have := Buried.total_pos (missing_pos_remainingIds g) hne
  omega

/-! ## The known game -/

/-- What `solve_game` makes of the result of the search. -/
def firstResult : List BestAction → SolverM BestAction
  | [] => throw .typeError
  | best :: _ =>
    if best.winrate.numerator = 0 then
      throw (.unsolvedGame "couldn't find a winning strategy")
    else pure best

variable {δ : Type} [LinearOrder δ] {toDecimal : Fraction → δ} {monteCarlo : Bool}
  {time : Option ℕ} {s : SolverState}

theorem exec_solveGame_hopeless (hdealt : g.dealt = true) (h : Hopeless g) :
    Contract conv g.state p (Prog.exec (solveGame toDecimal conv monteCarlo time g p) s).1 := by
  unfold Hopeless at h
  rw [solveGame, if_neg (by simp [hdealt])]
  dsimp only
  rw [if_pos h]
  exact .inl ⟨_, rfl⟩

theorem exec_solveGame_known (hdealt : g.dealt = true) (h : ¬ Hopeless g) (hknown : AllKnown g) :
    Prog.exec (solveGame toDecimal conv monteCarlo time g p) s =
      Prog.exec (winnable conv (depthBound (knownGame g).state + 1) (knownGame g) p (remainingIds g)
        >>= firstResult) (s.withClock time) := by
  unfold Hopeless at h
  rw [solveGame, if_neg (by simp [hdealt])]
  dsimp only
  rw [if_neg h, Prog.exec_bind, Prog.exec_modify]
  dsimp only
  rw [if_pos (show (table g).state.cardsLeft + (table g).unknownOwn.length = 0 from hknown)]
  refine congrArg (fun f => Prog.exec (_ >>= f) _) (funext fun result => ?_)
  cases result <;> rfl

theorem exec_solveGame_throws (hdealt : g.dealt = true) (h : ¬ Hopeless g) (hknown : ¬ AllKnown g)
    (hthrow : arrange (table g) (remainingIds g) = throw .assertion) :
    Prog.exec (solveGame toDecimal conv monteCarlo time g p) s =
      (.error .assertion, s.withClock time) := by
  unfold Hopeless at h
  rw [solveGame, if_neg (by simp [hdealt])]
  dsimp only
  rw [if_neg h, Prog.exec_bind, Prog.exec_modify]
  dsimp only
  rw [if_neg (show ¬ (table g).state.cardsLeft + (table g).unknownOwn.length = 0 from hknown),
    hthrow]
  rfl

section

variable {fuel : ℕ}

theorem lookupSimple_none (hs : s.simple (hash g ++ [.num p]) = none) :
    Prog.exec (lookupSimple (hash g ++ [.num p])) s = (.ok none, s) := by
  rw [lookupSimple, Prog.exec_bind, Prog.exec_get]
  dsimp only
  rw [hs, ite_self]
  rfl

/-- The action of a game that is trivially winnable is returned. -/
theorem exec_winnable_trivial {action : Option PerformAction} (hdealt : g.dealt = true)
    (hs : s.simple (hash g ++ [.num p]) = none)
    (htrivial : triviallyWinnable conv g p = some action) :
    ∃ s', Prog.exec (winnable conv (fuel + 1) g p rem) s = (.ok [⟨action, 1⟩], s') := by
  rw [winnable, Prog.exec_bind, lookupSimple_none hs]
  dsimp only
  rw [if_neg (by simp [hdealt]), htrivial]
  exact ⟨_, rfl⟩

/-- A position that is given up at sight is lost. -/
theorem exec_winnable_givenUp (hdealt : g.dealt = true) (hs : s.simple (hash g ++ [.num p]) = none)
    (htrivial : triviallyWinnable conv g p = none) (hgiven : GivenUp g.state p rem) :
    Prog.exec (winnable conv (fuel + 1) g p rem) s =
      Prog.exec (timedOut >>= fun late => if late = true then throw (.unsolvedGame "timed out")
        else storeSimple (hash g ++ [.num p]) failure >>= fun _ => pure failure) s := by
  rw [winnable, Prog.exec_bind, lookupSimple_none hs]
  dsimp only
  rw [if_neg (by simp [hdealt]), htrivial]
  dsimp only
  rw [if_pos (show (unwinnableState g.state p || bottomDecked g.state rem) = true from hgiven)]

/-- Any other position is searched. -/
theorem exec_winnable_open (hdealt : g.dealt = true) (hs : s.simple (hash g ++ [.num p]) = none)
    (htrivial : triviallyWinnable conv g p = none) (hgiven : ¬ GivenUp g.state p rem) :
    Prog.exec (winnable conv (fuel + 1) g p rem) s =
      Prog.exec (timedOut >>= fun late => if late = true then throw (.unsolvedGame "timed out")
        else openSearch conv (winnable conv fuel) g p rem) s := by
  rw [winnable, Prog.exec_bind, lookupSimple_none hs]
  dsimp only
  rw [if_neg (by simp [hdealt]), htrivial]
  dsimp only
  rw [if_neg (show ¬ (unwinnableState g.state p || bottomDecked g.state rem) = true from hgiven)]
  rfl

/-- The outcome of a trivially winnable game. -/
theorem contract_trivial {action : Option PerformAction} (hfair : Fair conv)
    (hdealt : g.dealt = true) (hscore : g.state.score < g.state.maxScore)
    (hp : p < g.state.numPlayers)
    (hs : s.simple (hash g ++ [.num p]) = none)
    (htrivial : triviallyWinnable conv g p = some action) :
    Contract conv g.state p (Prog.exec (winnable conv (fuel + 1) g p rem >>= firstResult) s).1 ↔
      (startPlayables conv g p = [] → g.state.hands p ≠ [] ∧ g.state.clueTokens < 8) := by
  obtain ⟨s', hexec⟩ := @exec_winnable_trivial _ conv g p rem s fuel _ hdealt hs htrivial
  rw [Prog.exec_bind, hexec]
  change (∃ a, action = some a ∧ Legal g.state p a) ↔ _
  obtain ⟨o, hstart, rfl⟩ | ⟨hstart, rfl⟩ := triviallyWinnable_action hscore hp htrivial
  · have hmem : o ∈ startPlayables conv g p := by simp [hstart]
    constructor
    · intro _ hnil
      rw [hnil] at hmem
      cases hmem
    · exact fun _ => ⟨_, rfl, rfl, hfair.playables g p o hmem⟩
  · constructor
    · rintro ⟨a, ha, hlegal⟩ -
      obtain ⟨o, ho, rfl⟩ := Option.map_eq_some_iff.1 ha
      exact ⟨List.ne_nil_of_mem hlegal.2.1, hlegal.2.2⟩
    · intro hall
      obtain ⟨hne, htokens⟩ := hall hstart
      refine ⟨.discard p ((g.state.hands p).getLast hne), ?_, rfl, List.getLast_mem hne, htokens⟩
      rw [List.getLast?_eq_getLast_of_ne_nil hne]
      rfl

/-- Where the search fails properly or has no winning strategy, so does `solve_game`. -/
theorem contract_loses {m : SolverM (List BestAction)} {st : State}
    (h : (∃ e, (Prog.exec m s).1 = .error e ∧ Excused conv e) ∨
      ∃ result, (Prog.exec m s).1 = .ok result ∧ Loses result) :
    Contract conv st p (Prog.exec (m >>= firstResult) s).1 := by
  rw [Prog.exec_bind]
  rcases hexec : Prog.exec m s with ⟨r, s'⟩
  rw [hexec] at h
  obtain ⟨e, rfl, he⟩ | ⟨result, rfl, best, rest, rfl, hzero⟩ := h
  · exact he
  · dsimp only
    rw [firstResult, if_pos hzero]
    exact .inl ⟨_, rfl⟩

/-- Where nothing is to be searched, the outcome is `UnsolvedGame`. -/
theorem contract_unsearched (hlaw : conv.Lawful) (hfair : Fair conv) (hg : Sane g p)
    (hp : p < g.state.numPlayers) (hs : s.simple (hash g ++ [.num p]) = none)
    (hclock : s.clock = none) (htrivial : triviallyWinnable conv g p = none)
    (hno : GivenUp g.state p rem ∨ NoSearch conv g p rem s) (clock : Option ℕ) :
    Contract conv g.state p
      (Prog.exec (winnable conv (fuel + 1) g p rem >>= firstResult) (s.withClock clock)).1 := by
  have hs' : (s.withClock clock).simple (hash g ++ [.num p]) = none := hs
  refine contract_loses ?_
  by_cases hgiven : GivenUp g.state p rem
  · rw [exec_winnable_givenUp hg.dealt hs' htrivial hgiven]
    obtain ⟨late, clock', hexec⟩ := exec_timedOut_bind (fun late => if late = true then
      throw (.unsolvedGame "timed out")
      else storeSimple (hash g ++ [.num p]) failure >>= fun _ => pure failure) s clock
    rw [hexec]
    cases late with
    | true => exact .inl ⟨_, rfl, .inl ⟨_, rfl⟩⟩
    | false => exact .inr ⟨_, rfl, loses_failure⟩
  · rw [exec_winnable_open hg.dealt hs' htrivial hgiven]
    obtain ⟨late, clock', hexec⟩ := exec_timedOut_bind (fun late => if late = true then
      throw (.unsolvedGame "timed out") else openSearch conv (winnable conv fuel) g p rem) s clock
    rw [hexec]
    cases late with
    | true => exact .inl ⟨_, rfl, .inl ⟨_, rfl⟩⟩
    | false =>
      exact openSearch_loses hlaw hfair hg (endgameTurns_ne_of_not_givenUp hgiven) hp hclock
        (hno.resolve_left hgiven) clock' rfl

/-- Else the clock may run out in the midst of it. -/
theorem unsearched_of_contract (hlaw : conv.Lawful) (hfair : Fair conv) (hreturns : conv.Returns)
    (hg : Sane g p) (hp : p < g.state.numPlayers) (hleft : g.state.cardsLeft = 0)
    (hs : s.simple (hash g ++ [.num p]) = none)
    (hclock : s.clock = none) (htrivial : triviallyWinnable conv g p = none)
    (hcontract : ∀ clock, Contract conv g.state p
      (Prog.exec (winnable conv (fuel + 1) g p rem >>= firstResult) (s.withClock clock)).1) :
    GivenUp g.state p rem ∨ NoSearch conv g p rem s := by
  refine or_iff_not_imp_left.2 fun hgiven => ?_
  by_contra hsome
  have hopen := breaks_openSearch hlaw hfair hreturns hg (endgameTurns_ne_of_not_givenUp hgiven) hp
    hleft hclock hsome (Timed.winnable conv fuel)
  have hwinnable : Breaks (winnable conv (fuel + 1) g p rem) s (· = []) := by
    obtain ⟨clock, hbroken⟩ := Breaks.timedOut (f := fun late => if late = true then
      throw (.unsolvedGame "timed out") else openSearch conv (winnable conv fuel) g p rem) hclock hopen
    have hs' : (s.withClock clock).simple (hash g ++ [.num p]) = none := hs
    exact ⟨clock, by rwa [exec_winnable_open hg.dealt hs' htrivial hgiven]⟩
  have hfirst : Breaks (winnable conv (fuel + 1) g p rem >>= firstResult) s fun _ => False :=
    hwinnable.bind fun result s' hnil => by
      subst hnil
      exact Timed.typeError
  obtain ⟨clock, hbroken⟩ := hfirst
  have houtcome := hcontract clock
  revert hbroken houtcome
  cases (Prog.exec (winnable conv (fuel + 1) g p rem >>= firstResult) (s.withClock clock)).1 with
  | ok best => exact fun hbroken _ => hbroken
  | error e => exact fun hbroken houtcome => hbroken (houtcome.isUnsolved @hreturns)

/-- The outcome of a search that is not cut short. -/
theorem contract_search (hlaw : conv.Lawful) (hfair : Fair conv)
    (hg : Sane g p) (hp : p < g.state.numPlayers) (hc : Counted rem g.state.cardsLeft)
    (hfuel : depthBound g.state < fuel + 1) (hs : Cold g p s) (hclock : s.clock = none)
    (htrivial : triviallyWinnable conv g p = none) :
    Contract conv g.state p (Prog.exec (winnable conv (fuel + 1) g p rem >>= firstResult) s).1 := by
  have hsearch : SearchOk conv True (winnable conv (fuel + 1)) (fuel + 1) :=
    winnable_spec hlaw hfair (fuel + 1)
  have hspec := hsearch g p rem hg hp hc hfuel
  have hlegal := winnable_legal hlaw hfair hg hp hc hfuel htrivial
  obtain ⟨k, htimed⟩ := Timed.winnable conv (fuel + 1) g p rem s hclock
  rw [Prog.exec_bind]
  rcases hexec : Prog.exec (winnable conv (fuel + 1) g p rem) s with ⟨r, s'⟩
  have hnone : s'.clock = none := by
    have := htimed.untimed
    rwa [hexec] at this
  cases r with
  | error e => exact (hspec.exec_error (e := e) hs.1 (by rw [hexec])).1 trivial
  | ok result =>
    have hresult := (hspec.exec_ok (a := result) hs.1 (by rw [hexec])).1
    rw [hexec] at hresult
    have hwins := hlegal.exec_ok (a := result) hs (by rw [hexec])
    cases result with
    | nil =>
      have hzero : s'.clock = some 0 := hresult.1 trivial rfl
      rw [hnone] at hzero
      cases hzero
    | cons best rest =>
      dsimp only
      rw [firstResult]
      split
      · exact .inl ⟨_, rfl⟩
      · rename_i hne
        exact hwins best List.mem_cons_self hne

end

/-! ## Legality and errors -/

theorem cold_of_cleared (h : ∀ key, s.simple key = none) : Cold g p (s.withClock time) := by
  refine ⟨fun key result hr => ?_, h _⟩
  have hnone : (s.withClock time).simple key = none := h key
  rw [hnone] at hr
  cases hr

section

variable {v : Variant} {dk : Deck v} {n our : ℕ} {options : TableOptions} {acts : List Action}

/-- With every card known and the game trivially winnable, it is up to the action. -/
theorem Playing.contract_trivial_iff (h : Playing dk n our options acts g p) (hfair : Fair conv)
    (hless : ¬ Hopeless g) (hknown : AllKnown g) {action : Option PerformAction}
    (htrivial : triviallyWinnable conv (knownGame g) p = some action)
    (hcleared : ∀ key, s.simple key = none) :
    Contract conv g.state p (Prog.exec (solveGame toDecimal conv monteCarlo time g p) s).1 ↔
      (startPlayables conv (knownGame g) p = [] →
        g.state.hands p ≠ [] ∧ g.state.clueTokens < 8) := by
  rw [exec_solveGame_known h.dealt hless hknown]
  exact contract_trivial hfair h.sane_known.dealt h.score_lt h.player_lt (hcleared _) htrivial

/-- With some card unknown, it is up to the assertion. -/
theorem Playing.contract_unknown_iff (h : Playing dk n our options acts g p) (hlaw : conv.Lawful)
    (hfair : Fair conv) (hless : ¬ Hopeless g) (hknown : ¬ AllKnown g)
    (hcleared : ∀ key, s.simple key = none) :
    Contract conv g.state p (Prog.exec (solveGame toDecimal conv monteCarlo time g p) s).1 ↔
      (CountsAdd g ∨ ∀ ids, ¬ Feasible (table g) (remainingIds g) ids) := by
  constructor
  · intro hcontract
    by_contra hbad
    rw [exec_solveGame_throws h.dealt hless hknown (arrange_throws_iff.2 hbad)] at hcontract
    obtain ⟨message, hmessage⟩ | ⟨hmessage, -⟩ := hcontract <;> cases hmessage
  · intro hok
    have hthrow := mt arrange_throws_iff.1 (not_not.2 hok)
    have hspec := @solveGame_spec _ conv g p True _ _ toDecimal hlaw hfair h.sane h.inProgress
      h.player_lt hknown monteCarlo time
    refine contract_of_triple (hspec.conseq (fun _ => id) ?_ ?_)
      (@cold_of_cleared _ g p time s hcleared).1
    · rintro best _ ⟨⟨arrs, a, outcomes, -, hanswer⟩, -⟩
      exact ⟨a, hanswer.action_eq, hanswer.legal⟩
    · exact fun e _ he => (he trivial).resolve_right fun hbad => hthrow hbad.2

end

/-- A card that is known. -/
def knownCard (o : ℕ) : Card :=
  let ids : IdentitySet := ⟨3, IdentitySet.toMask (lostDeck.truth o)⟩
  { id := none, possible := ids, inferred := ids, order := o }

/-- The cards that are left in the hands. -/
def knownCards : List Card := [0, 1, 2, 3, 4, 25, 26, 27, 28, 29].map knownCard

/-- One turn further, Bob has drawn the red 1, which everyone knows; no clue was used up. -/
def oneDrawn : Game Unit :=
  let player : Player :=
    { playerIndex := some 0
      thoughts := knownCards.foldl (fun thoughts card => thoughts.set card.order card) .empty
      allPossible := .full 3
      allInferred := .full 3 }
  { state := (discardOldest lostDeck 19).foldl (Basics.after · .empty) (buriedState lostDeck)
    players := fun _ => player
    common := player
    deckIds := .empty
    data := () }

theorem stocked_oneDrawn (p : ℕ) : Stocked oneDrawn.state p := by
  have hfull : ∀ q < 2, 2 ≤ (oneDrawn.state.hands q).length := by decide +kernel
  have hplayers : oneDrawn.state.numPlayers = 2 := by decide +kernel
  have hturns : oneDrawn.state.endgameTurns = 2 := by decide +kernel
  refine ⟨by rw [hturns, hplayers]; rfl, fun i _ _ => hfull _ ?_⟩
  rw [hplayers]
  exact Nat.mod_lt _ (by decide)

theorem playing_oneDrawn {p : ℕ} (hp : p < 2) :
    ∃ acts, Playing lostDeck 2 0 {} acts oneDrawn p := by
  obtain ⟨_, hrun⟩ := @run_buriedState lostDeck (by decide +kernel)
  have hlegal : legalAll lostDeck (buriedState lostDeck) (discardOldest lostDeck 19) = true := by
    decide +kernel
  obtain ⟨acts, hrun⟩ := hrun.append hlegal
  exact ⟨acts, hrun, by decide, by decide, by decide +kernel, stocked_oneDrawn p, by decide +kernel,
    by decide +kernel, hp⟩

end HanabiBot.Endgame
