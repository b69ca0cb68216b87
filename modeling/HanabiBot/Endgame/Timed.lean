import HanabiBot.Endgame.Solver

/-!
# The search against the clock

The solver reads the clock now and then.  While it still has time the clock decides
nothing: a program does what it does without one, in so many readings.  Where the time
runs out, `winnable_simpler` throws `UnsolvedGame`; `possible_actions` and `optimize`
break off with a result instead.

* `Timed.winnableSimpler` — in time the result is that without a clock, else `UnsolvedGame`
  is thrown;
* `Timed.possibleActions`, `Timed.winnable` — with enough time the result is that without
  a clock.
-/

namespace HanabiBot.Endgame

variable {κ : Type} {conv : Convention κ}

/-- The caches, with another clock. -/
def SolverState.withClock (s : SolverState) (clock : Option ℕ) : SolverState := { s with clock }

theorem SolverState.withClock_none {s : SolverState} (h : s.clock = none) :
    s.withClock none = s := by
  cases s
  cases h
  rfl

/-- Reading the clock decides which way a program goes on. -/
theorem exec_timedOut_bind {α : Type} (f : Bool → SolverM α) (s : SolverState) (clock : Option ℕ) :
    ∃ late clock', Prog.exec (timedOut >>= f) (s.withClock clock) =
      Prog.exec (f late) (s.withClock clock') := by
  cases clock with
  | none => exact ⟨false, none, rfl⟩
  | some k =>
    cases k with
    | zero => exact ⟨true, some 0, rfl⟩
    | succ k => exact ⟨false, some k, rfl⟩

/-- Without a clock the program runs from `s` as with one that can be read `k` times; with less
time, a `strict` program throws `UnsolvedGame`. -/
structure RunsIn (strict : Prop) {α : Type} (m : SolverM α) (s : SolverState) (k : ℕ) : Prop where
  untimed : (Prog.exec m s).2.clock = none
  error : ∀ e, (Prog.exec m s).1 = .error e → ¬ IsUnsolved e
  enough : ∀ j, Prog.exec m (s.withClock (some (k + j))) =
    ((Prog.exec m s).1, (Prog.exec m s).2.withClock (some j))
  early : strict → ∀ j < k, ∃ e, IsUnsolved e ∧ (Prog.exec m (s.withClock (some j))).1 = .error e

/-- The program looks at the clock so many times, wherever it starts. -/
def Timed (strict : Prop) {α : Type} (m : SolverM α) : Prop :=
  ∀ s, s.clock = none → ∃ k, RunsIn strict m s k

namespace Timed

variable {strict : Prop} {α β : Type} {m : SolverM α}

/-- A program that never looks at the clock. -/
theorem of_clockless (h : ∀ s clock, Prog.exec m (s.withClock clock) =
      ((Prog.exec m s).1, (Prog.exec m s).2.withClock clock))
    (herror : ∀ s e, (Prog.exec m s).1 = .error e → ¬ IsUnsolved e) : Timed strict m := by
  intro s hs
  have hnone := congrArg (fun r => r.2.clock) (h s none)
  rw [SolverState.withClock_none hs] at hnone
  exact ⟨0, hnone, herror s, fun j => by rw [Nat.zero_add, h], fun _ j hj => absurd hj (by omega)⟩

theorem pure (a : α) : Timed strict (Pure.pure a : SolverM α) :=
  of_clockless (fun _ _ => rfl) fun _ _ h => by cases h

theorem throw {e : SolverError} (he : ¬ IsUnsolved e) : Timed strict (throw e : SolverM α) :=
  of_clockless (fun _ _ => rfl) fun _ _ h => by
    cases h
    exact he

theorem typeError : ¬ IsUnsolved .typeError := by
  rintro ⟨_, h⟩
  cases h

theorem gameError : ¬ IsUnsolved .gameError := by
  rintro ⟨_, h⟩
  cases h

theorem outOfFuel : ¬ IsUnsolved .outOfFuel := by
  rintro ⟨_, h⟩
  cases h

theorem bind {f : α → SolverM β} (h : Timed strict m) (hf : ∀ a, Timed strict (f a)) :
    Timed strict (m >>= f) := by
  intro s hs
  obtain ⟨k, h⟩ := h s hs
  rcases hrun : Prog.exec m s with ⟨r, s'⟩
  have hexec : ∀ j, Prog.exec m (s.withClock (some (k + j))) = (r, s'.withClock (some j)) := by
    intro j
    rw [h.enough, hrun]
  have hs' : s'.clock = none := by
    have := h.untimed
    rwa [hrun] at this
  have hearly : strict → ∀ j < k, ∃ e, IsUnsolved e ∧
      (Prog.exec (m >>= f) (s.withClock (some j))).1 = .error e := by
    intro hstrict j hj
    obtain ⟨e, he, hthrow⟩ := h.early hstrict j hj
    refine ⟨e, he, ?_⟩
    rw [Prog.exec_bind]
    rcases hlate : Prog.exec m (s.withClock (some j)) with ⟨r', s''⟩
    rw [hlate] at hthrow
    cases hthrow
    rfl
  cases r with
  | error e =>
    have hbind : Prog.exec (m >>= f) s = (.error e, s') := by rw [Prog.exec_bind, hrun]
    refine ⟨k, ?_, ?_, fun j => ?_, hearly⟩
    · rw [hbind]
      exact hs'
    · rw [hbind]
      intro e' he'
      cases he'
      exact h.error e (by rw [hrun])
    · rw [hbind, Prog.exec_bind, hexec]
  | ok a =>
    obtain ⟨k', h'⟩ := hf a s' hs'
    have hbind : Prog.exec (m >>= f) s = Prog.exec (f a) s' := by rw [Prog.exec_bind, hrun]
    have hrest : ∀ j, Prog.exec (m >>= f) (s.withClock (some (k + j))) =
        Prog.exec (f a) (s'.withClock (some j)) := by
      intro j
      rw [Prog.exec_bind, hexec]
    refine ⟨k + k', ?_, ?_, fun j => ?_, fun hstrict j hj => ?_⟩
    · rw [hbind]
      exact h'.untimed
    · rw [hbind]
      exact h'.error
    · rw [hbind, Nat.add_assoc, hrest, h'.enough]
    · rcases Nat.lt_or_ge j k with hlt | hge
      · exact hearly hstrict j hlt
      · obtain ⟨e, he, hthrow⟩ := h'.early hstrict (j - k) (by omega)
        refine ⟨e, he, ?_⟩
        rw [show j = k + (j - k) by omega, hrest, hthrow]

theorem ofOption {e : SolverError} (he : ¬ IsUnsolved e) (o : Option α) :
    Timed strict (Prog.ofOption e o) := by
  cases o with
  | none => exact throw he
  | some a => exact pure a

theorem mapM {f : β → SolverM α} (h : ∀ b, Timed strict (f b)) (l : List β) :
    Timed strict (l.mapM f) := by
  induction l with
  | nil => exact pure _
  | cons b l ih =>
    rw [List.mapM_cons]
    exact (h b).bind fun _ => ih.bind fun _ => pure _

theorem filterMapM {f : β → SolverM (Option α)} (h : ∀ b, Timed strict (f b)) (l : List β) :
    Timed strict (l.filterMapM f) := by
  induction l with
  | nil => exact pure _
  | cons b l ih =>
    rw [List.filterMapM_cons]
    refine (h b).bind fun r => ?_
    cases r with
    | none => exact ih
    | some a => exact ih.bind fun _ => pure _

theorem anyM {f : β → SolverM Bool} (h : ∀ b, Timed strict (f b)) (l : List β) :
    Timed strict (l.anyM f) := by
  induction l with
  | nil => exact pure _
  | cons b l ih =>
    rw [List.anyM_cons]
    refine (h b).bind fun r => ?_
    cases r with
    | true => exact pure _
    | false => exact ih

/-- Reading the clock; where it has run out, a `strict` program throws `UnsolvedGame`. -/
theorem timedOut_bind {f : Bool → SolverM α} (h : Timed strict (f false))
    (hlate : strict → ∃ message, f true = MonadExcept.throw (.unsolvedGame message)) :
    Timed strict (timedOut >>= f) := by
  intro s hs
  obtain ⟨k, h⟩ := h s hs
  have hnone : Prog.exec (timedOut >>= f) s = Prog.exec (f false) s := by
    rw [Prog.exec_bind, exec_timedOut hs]
  refine ⟨k + 1, ?_, ?_, fun j => ?_, fun hstrict j hj => ?_⟩
  · rw [hnone]
    exact h.untimed
  · rw [hnone]
    exact h.error
  · rw [hnone, ← h.enough, Nat.add_right_comm]
    rfl
  · cases j with
    | zero =>
      obtain ⟨message, hthrow⟩ := hlate hstrict
      refine ⟨_, ⟨message, rfl⟩, ?_⟩
      change (Prog.exec (f true) _).1 = _
      rw [hthrow]
      rfl
    | succ j => exact h.early hstrict j (by omega)

/-! ## The perfect-information search -/

theorem winnableIf {search : State → ℕ → RemainingSet → SolverM Bool}
    (h : ∀ st q rem, Timed strict (search st q rem)) (st : State) (q : ℕ) (action : PerformAction)
    (rem : RemainingSet) : Timed strict (Endgame.winnableIf search st q action rem) := by
  rw [Endgame.winnableIf]
  split
  · exact (h _ _ _).bind fun _ => pure _
  · refine bind (filterMapM (fun r => ?_) _) fun _ => pure _
    exact (ofOption typeError _).bind fun _ => (h _ _ _).bind fun _ => pure _

theorem winnableSimpler (fuel : ℕ) (st : State) (q : ℕ) (rem : RemainingSet) :
    Timed strict (Endgame.winnableSimpler fuel st q rem) := by
  induction fuel generalizing st q rem with
  | zero => exact throw outOfFuel
  | succ fuel ih =>
    rw [Endgame.winnableSimpler]
    split
    · exact pure _
    · split
      · exact throw typeError
      · split
        · exact pure _
        · refine timedOut_bind ?_ fun _ => ⟨_, rfl⟩
          refine bind (of_clockless (fun _ _ => rfl) fun _ _ h => by cases h) fun cached => ?_
          cases cached with
          | some result => exact pure _
          | none =>
            refine bind (anyM (fun a => (winnableIf ih _ _ _ _).bind fun _ => pure _) _) fun _ => ?_
            exact bind (of_clockless (fun _ _ => rfl) fun _ _ h => by cases h) fun _ => pure _

theorem winnableIfNow (st : State) (q : ℕ) (action : PerformAction) (rem : RemainingSet) :
    Timed strict (Endgame.winnableIfNow st q action rem) :=
  winnableIf (winnableSimpler _) _ _ _ _

theorem offerIf (st : State) (q : ℕ) (rem : RemainingSet) (action : PerformAction) :
    Timed strict (Endgame.offerIf st q rem action) :=
  (winnableIfNow _ _ _ _).bind fun _ => pure _

theorem clueWinnable (st : State) (q : ℕ) (rem : RemainingSet) :
    Timed strict (Endgame.clueWinnable st q rem) := by
  rw [Endgame.clueWinnable]
  split
  · exact pure _
  · exact (winnableIfNow _ _ _ _).bind fun _ => pure _

theorem offerDiscards (conv : Convention κ) (g : Game κ) (q : ℕ) (rem : RemainingSet) :
    Timed strict (Endgame.offerDiscards conv g q rem) := by
  rw [Endgame.offerDiscards]
  split
  · exact filterMapM (offerIf _ _ _) _
  · exact pure _

end Timed

/-- `possible_actions` once it has looked at the clock. -/
def timelyActions (conv : Convention κ) (g : Game κ) (playerTurn : ℕ)
    (remainingIds : RemainingSet) : SolverM (List Offer) := do
  let plays ← ((knownPlayables conv g playerTurn).map (.play playerTurn)).filterMapM
    (offerIf g.state playerTurn remainingIds)
  let winnable ← clueWinnable g.state playerTurn remainingIds
  let clues := offerClues conv g playerTurn winnable
  let discards ← offerDiscards conv g playerTurn remainingIds
  pure (plays ++ clues ++ discards ++ offerAnyClue g.state playerTurn winnable clues)

theorem possibleActions_eq (g : Game κ) (p : ℕ) (rem : RemainingSet) :
    possibleActions conv g p rem = (timedOut >>= fun late =>
      if late = true then pure [] else timelyActions conv g p rem) := rfl

namespace Timed

variable {strict : Prop}

theorem timelyActions (conv : Convention κ) (g : Game κ) (q : ℕ) (rem : RemainingSet) :
    Timed strict (Endgame.timelyActions conv g q rem) := by
  refine bind (filterMapM (offerIf _ _ _) _) fun plays => ?_
  refine bind (clueWinnable _ _ _) fun winnable => ?_
  exact bind (offerDiscards _ _ _ _) fun discards => pure _

theorem possibleActions (conv : Convention κ) (g : Game κ) (q : ℕ) (rem : RemainingSet) :
    Timed False (Endgame.possibleActions conv g q rem) :=
  timedOut_bind (timelyActions conv g q rem) False.elim

/-! ## The search over the draws -/

theorem advanceGame (conv : Convention κ) (g : Game κ) (action : PerformAction) :
    Timed strict (Endgame.advanceGame conv g action) := by
  unfold Endgame.advanceGame
  split
  · exact pure _
  · exact (ofOption typeError _).bind fun _ => ofOption gameError _

theorem unwinnableDraw (draws : Option (List Identity)) (drew : Option Identity) :
    Timed strict (Endgame.unwinnableDraw draws drew) := by
  unfold Endgame.unwinnableDraw
  split
  · exact pure _
  · exact throw typeError
  · exact pure _

theorem genHypoGames (g : Game κ) (offers : List Offer) (rem : RemainingSet) :
    Timed strict (Endgame.genHypoGames g offers rem) := by
  rw [Endgame.genHypoGames]
  split
  · exact pure _
  · refine bind (mapM (fun r => ?_) _) fun _ => pure _
    exact (ofOption typeError _).bind fun _ => pure _

variable {search : Search κ} (h : ∀ g q rem, Timed False (search g q rem))

include h

theorem tryGames (conv : Convention κ) (next : ℕ) (offer : Offer) (best : Fraction)
    (hypoGames : List (HypoGame κ)) (all rem : Fraction) :
    Timed False (Endgame.tryGames conv search next offer best hypoGames all rem) := by
  induction hypoGames generalizing all rem with
  | nil => exact pure _
  | cons hypo hypoGames ih =>
    rw [Endgame.tryGames]
    refine bind (unwinnableDraw _ _) fun skip => ?_
    split
    · exact ih _ _
    · refine timedOut_bind ?_ False.elim
      refine (advanceGame _ _ _).bind fun g' => ?_
      split
      · exact ih _ _
      · refine (h _ _ _).bind fun result => timedOut_bind ?_ False.elim
        rw [if_neg Bool.false_ne_true]
        cases result with
        | nil => exact throw typeError
        | cons best' result =>
          dsimp only
          split
          · exact pure _
          · exact ih _ _

theorem optimize (conv : Convention κ) (next : ℕ) (hypoGames : HypoGame κ × List (HypoGame κ))
    (offers : List Offer) (best : Fraction) (actions : List PerformAction) :
    Timed False (Endgame.optimize conv search next hypoGames offers best actions) := by
  induction offers generalizing best actions with
  | nil => exact pure _
  | cons offer offers ih =>
    rw [Endgame.optimize]
    refine (tryGames h _ _ _ _ _ _ _).bind fun r => ?_
    cases r with
    | none => exact pure _
    | some rate =>
      dsimp only
      split
      · exact pure _
      · split
        · exact ih _ _
        · split
          · exact ih _ _
          · exact ih _ _

omit h

theorem winnable (conv : Convention κ) (fuel : ℕ) (g : Game κ) (q : ℕ) (rem : RemainingSet) :
    Timed False (Endgame.winnable conv fuel g q rem) := by
  have hstore : ∀ key result, Timed False
      (do storeSimple key result; Pure.pure result : SolverM (List BestAction)) :=
    fun key result => bind (of_clockless (fun _ _ => rfl) fun _ _ h => by cases h) fun _ => pure _
  induction fuel generalizing g q rem with
  | zero => exact throw outOfFuel
  | succ fuel ih =>
    rw [Endgame.winnable]
    refine bind (of_clockless (fun _ _ => rfl) fun _ _ h => by cases h) fun cached => ?_
    cases cached with
    | some result => exact pure _
    | none =>
      dsimp only
      split
      · exact throw typeError
      · cases Endgame.triviallyWinnable conv g q with
        | some action => exact hstore _ _
        | none =>
          refine timedOut_bind ?_ False.elim
          rw [if_neg Bool.false_ne_true]
          split
          · exact hstore _ _
          · refine (possibleActions _ _ _ _).bind fun offers => ?_
            split
            · exact pure _
            · exact bind ((genHypoGames _ _ _).bind fun _ => optimize ih _ _ _ _ _ _)
                fun best => hstore _ _

end Timed

end HanabiBot.Endgame
