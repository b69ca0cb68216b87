import HanabiBot.Lib.Prog
import HanabiBot.Tools.Fraction
import HanabiBot.Endgame.Unwinnable

/-!
# The perfect-information search

`winnable_simpler` asks whether the game could still be won if everyone saw
their own cards.  It tries every playable card, one clue and one discard, and
for each every identity that may be drawn, and remembers its answers in
`simpler_cache`.

The search and the solver above it run in `SolverM`: they share the two caches
and the clock, and fail with a `SolverError`.  A recursive call takes one unit of
`fuel`: `sat_winnableSimpler` says how much is enough.
-/

namespace HanabiBot.Endgame

/-- The errors of the solver: `UnsolvedGame`, a failed assertion, a `TypeError`, an error
of the game that handles an action, and the recursion running out of fuel. -/
inductive SolverError
  | unsolvedGame (message : String)
  | assertion
  | typeError
  | gameError
  | outOfFuel
  deriving DecidableEq, Repr

/-- An identity of which some copies are unseen: `{ id, missing, all }`. -/
structure Remaining where
  id : Identity
  missing : ℕ
  all : Bool := false
  deriving DecidableEq, Repr

/-- `RemainingSet`. -/
abbrev RemainingSet := List Remaining

/-- A piece of a cache key between two commas. -/
inductive KeyToken
  /-- The empty string: a hole of an array, or the join of an empty one. -/
  | empty
  /-- `xx`. -/
  | unknown
  | card (name : Variant.CardName)
  | num (n : ℤ)
  /-- `JSON.stringify` of the actions of a turn. -/
  | actions (acts : Option (List Action))
  /-- `JSON.stringify` of a `RemainingSet`. -/
  | remaining (rem : RemainingSet)
  deriving DecidableEq

/-- A cache key, cut at its commas. -/
abbrev Key := List KeyToken

/-- A best action found for a position, and the winrate of the position. The action is
`none` where the source has `undefined`, or a discard of `undefined`. -/
structure BestAction where
  action : Option PerformAction
  winrate : Fraction
  deriving DecidableEq

/-- The caches and the clock. -/
structure SolverState where
  /-- `simple_cache`. -/
  simple : Key → Option (List BestAction) := fun _ => none
  /-- `simpler_cache`. -/
  simpler : Key → Option Bool := fun _ => none
  /-- How often the clock can still be read before it is past the timeout, if it ever is. -/
  clock : Option ℕ := none
  /-- Whether the caches are used; they are emptied at every lookup if not. -/
  caching : Bool := true

abbrev SolverM (α : Type) := Prog SolverState SolverError α

/-! ## The caches and the clock -/

/-- `Date.now() > timeout`. -/
def timedOut : SolverM Bool := do
  let s ← get
  match s.clock with
  | none => pure false
  | some 0 => pure true
  | some (k + 1) =>
    modify fun s => { s with clock := some k }
    pure false

/-- A clock that never runs out decides nothing. -/
theorem exec_timedOut {s : SolverState} (hs : s.clock = none) :
    Prog.exec timedOut s = (.ok false, s) := by
  rw [timedOut, Prog.exec_bind, Prog.exec_get]
  simp [hs]

/-- `simpler_cache.get(hash)`. -/
def lookupSimpler (hash : Key) : SolverM (Option Bool) := do
  let s ← get
  pure (if s.caching then s.simpler hash else none)

/-- `simpler_cache.set(hash, winnable)`. -/
def storeSimpler (hash : Key) (winnable : Bool) : SolverM PUnit :=
  modify fun s => { s with simpler := Function.update s.simpler hash (some winnable) }

/-- `logCard` of an entry of the deck, as a piece of a key. -/
def logCard (v : Variant) : Option ActualCard → KeyToken
  | none => .empty
  | some ⟨none⟩ => .unknown
  | some ⟨some id⟩ => .card (v.logCard id)

/-- `arr.join()`, as pieces of a key. -/
def join : Key → Key
  | [] => [.empty]
  | key => key

/-- `hash_state`. -/
def hashState (st : State) : Key :=
  join (st.deck.toList.map (logCard st.variant)) ++
    join (st.allOrders.map fun o => logCard st.variant (st.deck.get o)) ++
    [.num st.clueTokens, .num st.endgameTurns]

/-! ## The actions that are tried -/

/-- Some hand out of the given ones holds the card after this one. -/
def connecting (st : State) (hands : List (List ℕ)) (id : Identity) : Bool :=
  hands.any fun hand => hand.any fun o => st.identityOf o == some ⟨id.suitIndex, id.rank + 1⟩

/-- Whether the comparison of `get_playables` puts the first card before the second. -/
def playsBefore (st : State) (playerTurn : ℕ) (card1 card2 : Identity) : Bool :=
  let others := ((List.range st.numPlayers).filter (· != playerTurn)).map st.hands
  let conn1 := connecting st others card1
  let conn2 := connecting st others card2
  if conn1 && !conn2 then true
  else if conn2 && !conn1 then false
  else
    let connSelf1 := connecting st [st.hands playerTurn] card1
    let connSelf2 := connecting st [st.hands playerTurn] card2
    if connSelf1 && !connSelf2 then true
    else if connSelf2 && !connSelf1 then false
    else if st.isCritical card1 && st.isCritical card2 then decide (card1.rank < card2.rank)
    else if st.isCritical card1 && !st.isCritical card2 then true
    else if !st.isCritical card1 && st.isCritical card2 then false
    else decide (card1.rank < card2.rank)

/-- `get_playables`: the playable cards of the player, sorted. -/
def getPlayables (st : State) (playerTurn : ℕ) : List ℕ :=
  let playables := (st.hands playerTurn).filter fun o => st.isPlayableCard (st.identityOf o)
  playables.insertionSort fun a b =>
    (match st.identityOf a, st.identityOf b with
      | some card1, some card2 => playsBefore st playerTurn card2 card1
      | _, _ => false) = false

/-- The card has no identity or is basic trash. -/
def discardable (st : State) (o : ℕ) : Bool :=
  match st.identityOf o with
  | none => true
  | some id => st.isBasicTrash id

/-- The `possible_actions` of `winnable_simpler`. -/
def simplerActions (st : State) (playerTurn : ℕ) : List PerformAction :=
  (getPlayables st playerTurn).map (.play playerTurn) ++
    (if 0 < st.clueTokens then [.anyClue playerTurn] else []) ++
    match (st.hands playerTurn).find? (discardable st) with
    | some o => if 0 ≤ st.pace then [.discard playerTurn o] else []
    | none => []

/-- `remove_remaining`: it throws on an identity that is not in the set. -/
def removeRemaining : RemainingSet → Identity → Option RemainingSet
  | [], _ => none
  | r :: rem, id =>
    if r.id = id then
      some (if r.missing = 1 then rem else { r with missing := r.missing - 1 } :: rem)
    else (removeRemaining rem id).map (r :: ·)

/-! ## The search -/

/-- The result of `winnable_if`; `winnable_draws` is missing when nothing is drawn. -/
structure WinnableIf where
  winnable : Bool
  winnableDraws : Option (List Identity)

/-- `winnable_if`, for the search it calls. -/
def winnableIf (search : State → ℕ → RemainingSet → SolverM Bool) (st : State) (playerTurn : ℕ)
    (action : PerformAction) (remainingIds : RemainingSet) : SolverM WinnableIf :=
  let next := st.nextPlayerIndex playerTurn
  if action.isClue = true ∨ st.cardsLeft = 0 then do
    let winnable ← search (advanceState st action none) next remainingIds
    pure ⟨winnable, none⟩
  else do
    let winnableDraws ← remainingIds.filterMapM fun r => do
      let newRemaining ← Prog.ofOption .typeError (removeRemaining remainingIds r.id)
      let winnable ← search (advanceState st action (some r.id)) next newRemaining
      pure (if winnable then some r.id else none)
    pure ⟨!winnableDraws.isEmpty, some winnableDraws⟩

/-- Every card in a hand has an entry in the deck; reading one that has none throws. -/
def dealtState (st : State) : Bool := st.allOrders.all fun o => (st.deck.get o).isSome

/-- `winnable_simpler`. -/
def winnableSimpler : ℕ → State → ℕ → RemainingSet → SolverM Bool
  | 0, _, _, _ => throw .outOfFuel
  | fuel + 1, st, playerTurn, remainingIds => do
    if st.score = st.maxScore then
      pure true
    else if dealtState st = false then
      throw .typeError
    else if unwinnableState st playerTurn = true then
      pure false
    else if ← timedOut then
      throw (.unsolvedGame "timed out")
    else
      let hash := hashState st ++ [.num playerTurn, .remaining remainingIds]
      match ← lookupSimpler hash with
      | some cachedResult => pure cachedResult
      | none =>
        let winnable ← (simplerActions st playerTurn).anyM fun action => do
          let result ← winnableIf (winnableSimpler fuel) st playerTurn action remainingIds
          pure result.winnable
        storeSimpler hash winnable
        pure winnable

/-- A bound on the number of turns that are left. -/
def depthBound (st : State) : ℕ :=
  if st.endgameTurns = -1 then
    10 * st.cardsLeft.toNat + st.clueTokens.toNat + st.numPlayers + 1
  else st.endgameTurns.toNat

variable {st : State} {action : PerformAction} {draw : Option Identity} {o : ℕ}

/-! ## The end of the game comes nearer -/

/-- The clock of the final round runs exactly when no card is left. -/
def Clocked (st : State) : Prop :=
  (0 < st.cardsLeft ∧ st.endgameTurns = -1) ∨ (st.cardsLeft = 0 ∧ 0 ≤ st.endgameTurns)

instance (st : State) : Decidable (Clocked st) := by
  unfold Clocked
  infer_instance

theorem isClue_of_card?_eq_none (h : action.card? = none) : action.isClue = true := by
  cases action <;> simp_all [PerformAction.card?, PerformAction.isClue]

theorem advanceState_of_isClue (h : action.isClue = true) : advanceState st action draw =
    { st with
      turnCount := st.turnCount + 1
      clueTokens := st.clueTokens - 1
      endgameTurns := Basics.tick st.endgameTurns } := by
  cases action with
  | play => cases h
  | discard => cases h
  | clue | anyClue =>
    simp only [advanceState, Basics.tick, ne_eq, ite_not]
    split <;> simp_all

theorem advanceState_of_card (h : action.card? = some o) :
    ∃ playStacks discardStacks clueTokens strikes, clueTokens ≤ st.clueTokens + 1 ∧
      advanceState st action draw = removeAndDrawNew st
        { st with
          turnCount := st.turnCount + 1, playStacks, discardStacks, clueTokens, strikes }
        action.playerIndex o draw := by
  cases action with
  | clue => cases h
  | anyClue => cases h
  | play q target =>
    cases h
    cases hid : st.identityOf o with
    | none =>
      exact ⟨st.playStacks, st.discardStacks, st.clueTokens, st.strikes + 1, by omega, by
        simp only [advanceState, hid]; rfl⟩
    | some id =>
      cases hplay : st.isPlayable id with
      | true =>
        refine ⟨_, st.discardStacks,
          if id.rank = 5 then min (st.clueTokens + 1) 8 else st.clueTokens, st.strikes, ?_, by
          simp only [advanceState, hid, hplay, if_true]; rfl⟩
        split <;> omega
      | false =>
        exact ⟨st.playStacks, _, st.clueTokens, st.strikes + 1, by omega, by
          simp only [advanceState, hid, hplay, Bool.false_eq_true, if_false, updateDiscards]; rfl⟩
  | discard q target =>
    cases h
    cases hid : st.identityOf o with
    | none =>
      exact ⟨st.playStacks, st.discardStacks, min (st.clueTokens + 1) 8, st.strikes, by omega, by
        simp only [advanceState, hid]; rfl⟩
    | some id =>
      exact ⟨st.playStacks, _, min (st.clueTokens + 1) 8, st.strikes, by omega, by
        simp only [advanceState, hid, updateDiscards]; rfl⟩

theorem numPlayers_advanceState : (advanceState st action draw).numPlayers = st.numPlayers := by
  cases hc : action.card? with
  | none =>
    rw [advanceState_of_isClue (isClue_of_card?_eq_none hc)]
  | some o =>
    obtain ⟨ps, ds, ct, sk, -, heq⟩ := @advanceState_of_card st _ draw _ hc
    rw [heq, removeAndDrawNew]
    split <;> rfl

theorem variant_advanceState : (advanceState st action draw).variant = st.variant := by
  cases hc : action.card? with
  | none =>
    rw [advanceState_of_isClue (isClue_of_card?_eq_none hc)]
  | some o =>
    obtain ⟨ps, ds, ct, sk, -, heq⟩ := @advanceState_of_card st _ draw _ hc
    rw [heq, removeAndDrawNew]
    split <;> rfl

/-- A turn keeps the clock in order and brings the end of the game nearer, unless it gives
a clue without a token. -/
theorem Clocked.advanceState (h : Clocked st) (hne : st.endgameTurns ≠ 0) :
    Clocked (advanceState st action draw) ∧
      depthBound (Endgame.advanceState st action draw) ≤ depthBound st ∧
      ((action.isClue = true → 0 < st.clueTokens) →
        depthBound (Endgame.advanceState st action draw) < depthBound st) := by
  cases hc : action.card? with
  | none =>
    have ha := isClue_of_card?_eq_none hc
    rw [advanceState_of_isClue ha]
    rcases h with ⟨hleft, he⟩ | ⟨hleft, he⟩
    · refine ⟨Or.inl ⟨hleft, by rw [he, Basics.tick_neg_one]⟩, ?_⟩
      rw [depthBound, depthBound, he, Basics.tick_neg_one, if_pos rfl, if_pos rfl]
      dsimp only
      refine ⟨by omega, fun hclue => ?_⟩
      have := hclue ha
      omega
    · have htick : Basics.tick st.endgameTurns = st.endgameTurns - 1 :=
        Basics.tick_of_ne (by omega)
      refine ⟨Or.inr ⟨hleft, by dsimp only; omega⟩, ?_⟩
      simp only [depthBound, htick]
      rw [if_neg (by omega), if_neg (by omega)]
      exact ⟨by omega, fun _ => by omega⟩
  | some o =>
    obtain ⟨ps, ds, ct, sk, hct, heq⟩ := @advanceState_of_card st _ draw _ hc
    rw [heq, removeAndDrawNew]
    refine ⟨?_, ?_⟩
    · rcases h with ⟨hleft, he⟩ | ⟨hleft, he⟩
      · rw [if_pos he]
        by_cases h1 : st.cardsLeft - 1 = 0
        · refine Or.inr ⟨h1, ?_⟩
          simp only [h1, if_true]
          omega
        · refine Or.inl ⟨?_, ?_⟩
          · dsimp only
            omega
          · simp only [h1, if_false, he]
      · rw [if_neg (by omega)]
        exact Or.inr ⟨hleft, by dsimp only; omega⟩
    · refine (fun hlt => ⟨Nat.le_of_lt hlt, fun _ => hlt⟩ : _ < _ → _) ?_
      rcases h with ⟨hleft, he⟩ | ⟨hleft, he⟩
      · rw [if_pos he]
        by_cases h1 : st.cardsLeft - 1 = 0
        · simp only [depthBound, h1, if_true, he]
          split <;> omega
        · simp only [depthBound, h1, if_false, he, if_true]
          omega
      · rw [if_neg (by omega)]
        simp only [depthBound]
        rw [if_neg (by omega), if_neg (by omega)]
        omega

/-- After a turn, every card in a hand still has an entry in the deck. -/
theorem dealtState_advanceState (h : dealtState st = true) :
    dealtState (advanceState st action draw) = true := by
  simp only [dealtState, List.all_eq_true] at h ⊢
  intro x hx
  obtain ⟨q, hq, hxq⟩ := State.mem_allOrders.1 hx
  rw [numPlayers_advanceState] at hq
  have hold : ∀ y, y ∈ st.hands q → (st.deck.get y).isSome = true :=
    fun y hy => h y (State.mem_allOrders.2 ⟨q, hq, hy⟩)
  cases hc : action.card? with
  | none =>
    rw [advanceState_of_isClue (isClue_of_card?_eq_none hc)] at hxq ⊢
    exact hold x hxq
  | some o =>
    obtain ⟨ps, ds, ct, sk, -, heq⟩ := @advanceState_of_card st _ draw _ hc
    rw [heq] at hxq ⊢
    have hsub : ∀ y, y ∈ Basics.removeCard st.hands action.playerIndex o q → y ∈ st.hands q :=
      fun y hy => Basics.mem_removeCard hy
    have hget : ∀ y, (st.deck.get y).isSome = true ∨ y = (st.cardOrder + 1).toNat →
        ((if (st.deck.get (st.cardOrder + 1).toNat).isNone then
          st.deck.set (st.cardOrder + 1).toNat ⟨draw⟩ else st.deck).get y).isSome = true := by
      intro y hy
      split
      · rw [SparseArray.get_set]
        split
        · rfl
        · exact hy.resolve_right (by assumption)
      · rename_i hn
        rcases hy with hy | rfl
        · exact hy
        · exact Option.isSome_iff_ne_none.2 (by simpa using hn)
    rw [removeAndDrawNew] at hxq ⊢
    split at hxq
    · rename_i he
      rw [if_pos he]
      refine hget x ?_
      dsimp only at hxq
      by_cases hqp : q = action.playerIndex
      · subst hqp
        rw [Function.update_self] at hxq
        rcases List.mem_cons.1 hxq with rfl | hxq
        · exact Or.inr rfl
        · exact Or.inl (hold x (hsub x hxq))
      · rw [Function.update_of_ne hqp] at hxq
        exact Or.inl (hold x (hsub x hxq))
    · rename_i he
      rw [if_neg he]
      exact hget x (Or.inl (hold x (hsub x hxq)))

theorem removeRemaining_of_mem {rem : RemainingSet} {r : Remaining} (h : r ∈ rem) :
    ∃ rem', removeRemaining rem r.id = some rem' := by
  induction rem with
  | nil => cases h
  | cons a rem ih =>
    rw [removeRemaining]
    split
    · exact ⟨_, rfl⟩
    · rename_i hne
      obtain ⟨rem', hrem⟩ := ih ((List.mem_cons.1 h).resolve_left fun heq => hne (heq ▸ rfl))
      exact ⟨_, by rw [hrem]; rfl⟩

/-! ## The search returns -/

/-- `UnsolvedGame`. -/
def IsUnsolved (e : SolverError) : Prop := ∃ message, e = .unsolvedGame message

/-- An invariant that reading the clock and writing to `simpler_cache` keep. -/
structure Stable (I : SolverState → Prop) : Prop where
  clock : ∀ s k, I s → s.clock = some (k + 1) → I { s with clock := some k }
  simpler : ∀ s hash b, I s → I { s with simpler := Function.update s.simpler hash (some b) }

section

variable {I : SolverState → Prop} {E : SolverError → Prop}

theorem Stable.timedOut (hI : Stable I) : Prog.Sat I E timedOut fun _ => True := by
  intro s hs
  rw [Endgame.timedOut, Prog.exec_bind, Prog.exec_get]
  cases hc : s.clock with
  | none => simpa [hc] using hs
  | some k =>
    cases k with
    | zero => simpa [hc] using hs
    | succ k =>
      simp only [hc]
      exact ⟨trivial, hI.clock s k hs hc⟩

theorem sat_lookupSimpler (hash : Key) : Prog.Sat I E (lookupSimpler hash) fun _ => True :=
  Prog.Sat.get.bind fun _ _ => Prog.Sat.pure trivial

theorem Stable.storeSimpler (hI : Stable I) (hash : Key) (b : Bool) :
    Prog.Sat I E (storeSimpler hash b) fun _ => True :=
  Prog.Sat.modify fun s hs => hI.simpler s hash b hs

theorem sat_winnableIf {search : State → ℕ → RemainingSet → SolverM Bool} {p : ℕ} {rem : RemainingSet}
    (h : ∀ draw rem', Prog.Sat I E
      (search (advanceState st action draw) (st.nextPlayerIndex p) rem') fun _ => True) :
    Prog.Sat I E (winnableIf search st p action rem) fun r =>
      r.winnableDraws = none → action.isClue = true ∨ st.cardsLeft = 0 := by
  rw [winnableIf]
  split
  · rename_i hc
    exact (h _ _).bind fun _ _ => Prog.Sat.pure fun _ => hc
  · refine Prog.Sat.bind (Q := fun _ => True) ?_ fun _ _ => Prog.Sat.pure (by simp)
    refine (Prog.Sat.filterMapM (P := fun _ _ => True) fun r hr => ?_).mono fun _ _ => trivial
    obtain ⟨rem', hrem⟩ := removeRemaining_of_mem hr
    rw [hrem]
    exact (h _ _).bind fun _ _ => Prog.Sat.pure trivial

theorem isClue_of_mem_simplerActions {p : ℕ} (h : action ∈ simplerActions st p)
    (ha : action.isClue = true) : 0 < st.clueTokens := by
  simp only [simplerActions, List.mem_append, List.mem_map] at h
  rcases h with (⟨o, -, rfl⟩ | h) | h
  · cases ha
  · split at h
    · assumption
    · cases h
  · split at h
    · split at h
      · rw [List.mem_singleton.1 h] at ha
        cases ha
      · cases h
    · cases h

/-- With enough fuel the search gives an answer, or the time is over. -/
theorem sat_winnableSimpler (hI : Stable I) {fuel : ℕ} {p : ℕ} {rem : RemainingSet}
    (hdealt : dealtState st = true) (hc : Clocked st) (hfuel : depthBound st < fuel) :
    Prog.Sat I IsUnsolved (winnableSimpler fuel st p rem) fun _ => True := by
  induction fuel generalizing st p rem with
  | zero => omega
  | succ fuel ih =>
    rw [winnableSimpler]
    split
    · exact Prog.Sat.pure trivial
    · rw [if_neg (by simp [hdealt])]
      split
      · exact Prog.Sat.pure trivial
      · rename_i hwin
        have hne : st.endgameTurns ≠ 0 := by
          intro h0
          simp [unwinnableState, State.ended, h0] at hwin
        refine hI.timedOut.bind fun late _ => ?_
        split
        · exact Prog.Sat.throw ⟨_, rfl⟩
        · refine (sat_lookupSimpler _).bind fun cached _ => ?_
          split
          · exact Prog.Sat.pure trivial
          · refine Prog.Sat.bind (Q := fun _ => True) ?_ fun b _ =>
              (hI.storeSimpler _ _).bind fun _ _ => Prog.Sat.pure trivial
            refine (Prog.Sat.anyM (P := fun _ _ => True) fun a ha => ?_).mono fun _ _ => trivial
            refine (sat_winnableIf fun draw rem' => ?_).bind fun _ _ => Prog.Sat.pure trivial
            obtain ⟨hc', -, hlt⟩ := @Clocked.advanceState _ a draw hc hne
            have := hlt (isClue_of_mem_simplerActions ha)
            exact ih (dealtState_advanceState hdealt) hc' (by omega)

end

end HanabiBot.Endgame
