import HanabiBot.Basics.Card
import HanabiBot.Lib.Counting
import HanabiBot.Lib.Fuel

/-!
# Hypothetical plays

`update_hypo_stacks` of `src/basics/Player.js` plays every card that a player thinks of
as playable, over and over, until nothing more can play.  A card whose identity is known
goes on its stack; any other is an unknown play.  Once all cards of a promised link are
unknown plays, the promised identity goes on its stack as well.

`advances` keeps the identities put on the stacks, each with the card that was played for
it, or none for a link.

Two errors of the source are left out: where it throws at a card in hand without a thought,
or at a fulfilled link that promises no identity, the loop goes on here.

* `updateHypoStacks_balanced` — the computation ends, the stacks grow rank by rank, and
  the score grows by one for each play and by one more for each link;
* `promised_counted_twice` — two plays that are worth three points.
-/

namespace HanabiBot

/-- An element of `play_links`: once the orders have played, the connected card plays. -/
structure PlayLink where
  orders : List ℕ
  connected : ℕ

/-- A waiting connection, as far as the hypo stacks depend on it. -/
structure FocusConnection where
  focus : ℕ
  inference : Identity

/-- `Player`, with the connections that the hypo stacks depend on. -/
structure LinkedPlayer extends Player where
  playLinks : List PlayLink := []
  waitingConnections : List FocusConnection := []

/-- What `update_hypo_stacks` computes. -/
structure Hypo where
  hypoStacks : ℕ → ℕ
  unknownPlays : List ℕ := []
  hypoPlays : List ℕ := []
  /-- `hypo_map[suitIndex][rank]`. -/
  hypoMap : ℕ → ℕ → Option ℕ := fun _ _ => none
  advances : List (Identity × Option ℕ) := []

/-- `hypo_score`. -/
def Hypo.hypoScore (hypo : Hypo) (state : State) : ℕ :=
  ∑ s ∈ Finset.range state.variant.suits.length, hypo.hypoStacks s + hypo.unknownPlays.length

/-- The advances made for a promised link. -/
def Hypo.linkAdvances (hypo : Hypo) : ℕ := hypo.advances.countP (·.2.isNone)

/-- The variables of the loop. -/
structure HypoVars extends Hypo where
  goodTouchElim : IdentitySet
  duplicatedPlays : List (Identity × List ℕ) := []
  foundNewPlayable : Bool := true

namespace HypoVars

/-- Whether the identity is next on its stack; past the suits there is no stack. -/
def isNext (state : State) (vars : HypoVars) (id : Identity) : Bool :=
  decide (id.suitIndex < state.variant.suits.length) &&
    id.rank == vars.hypoStacks id.suitIndex + 1

/-- `delayed_playable`. -/
def delayedPlayable (state : State) (vars : HypoVars) (poss : List Identity) : Bool :=
  let remainingPoss := poss.filter fun c => !vars.goodTouchElim.has c
  !remainingPoss.isEmpty && remainingPoss.all (vars.isNext state)

/-- Puts an identity on its stack. -/
def advance (vars : HypoVars) (id : Identity) (order : Option ℕ) : HypoVars :=
  { vars with
    hypoStacks := Function.update vars.hypoStacks id.suitIndex id.rank
    goodTouchElim := vars.goodTouchElim.union (IdentitySet.toMask id)
    advances := vars.advances ++ [(id, order)] }

/-- `duplicated_plays.set(hash, (duplicated_plays.get(hash) ?? [existing]).concat(order))`. -/
def addDuplicate (vars : HypoVars) (id : Identity) (existing order : ℕ) : HypoVars :=
  { vars with
    duplicatedPlays :=
      if vars.duplicatedPlays.any (·.1 == id) then
        vars.duplicatedPlays.map fun e => if e.1 = id then (e.1, e.2 ++ [order]) else e
      else vars.duplicatedPlays ++ [(id, [existing, order])] }

/-- The body of the loop over the fulfilled links. -/
def fulfillLink (state : State) (vars : HypoVars) (link : Link) : HypoVars :=
  match link.identities.head? with
  | some id2 => if vars.isNext state id2 then vars.advance id2 none else vars
  | none => vars

/-- A playable card that the player does not know. -/
def playUnknown (player : LinkedPlayer) (state : State) (vars : HypoVars) (order : ℕ) :
    HypoVars :=
  let played := { vars with
    unknownPlays := vars.unknownPlays ++ [order]
    hypoPlays := vars.hypoPlays ++ [order]
    foundNewPlayable := true }
  -- all cards in a promised link will be played
  let fulfilledLinks := player.links.filter fun link =>
    link.promised && link.orders.contains order && link.orders.all played.unknownPlays.contains
  fulfilledLinks.foldl (fulfillLink state) played

/-- A playable card that the player knows. -/
def playKnown (vars : HypoVars) (order : ℕ) (id : Identity) : HypoVars :=
  let advanced := vars.advance id (some order)
  { advanced with
    hypoPlays := vars.hypoPlays ++ [order]
    hypoMap := Function.update vars.hypoMap id.suitIndex
      (Function.update (vars.hypoMap id.suitIndex) id.rank (some order))
    foundNewPlayable := true }

end HypoVars

section

variable (player : LinkedPlayer) (state : State)

/-- Whether a card is playable, apart from connections that will be proven wrong. -/
def hypoPlayable (vars : HypoVars) (order : ℕ) (card : Card) : Bool :=
  let fakeWcs := player.waitingConnections.filter fun wc =>
    wc.focus == order && (state.identityOf wc.focus).any (· != wc.inference)
  let fakeIds := IdentitySet.identitiesToMask (fakeWcs.map FocusConnection.inference)
  state.hasConsistentInferences card &&
    (vars.delayedPlayable state card.possible.array ||
      vars.delayedPlayable state (card.inferred.subtract fakeIds).array ||
      (card.blindPlaying && card.id.any fun id => vars.delayedPlayable state [id]) ||
      player.playLinks.any fun pl =>
        pl.connected == order && pl.orders.all vars.unknownPlays.contains)

/-- Whether the common player would update the hypo stacks falsely: all copies are
elsewhere, or none of the inferences match. -/
def falseUpdate (order : ℕ) (card : Card) (id : Option Identity) : Bool :=
  (id.any fun id => ((List.range state.deck.length).filter fun o =>
      state.identityOf o == some id && o != order).length == state.cardCount id) ||
    (state.identityOf order).any fun actual => !card.inferred.has actual

/-- The body of the loop over the cards in player `i`'s hand. -/
def tryPlay (ignoreOrders linkedOrders : List ℕ) (i order : ℕ) (vars : HypoVars) : HypoVars :=
  match player.thoughts.get order with
  | none => vars
  | some card =>
    if ignoreOrders.contains order then vars
    else if !card.saved || (card.id.any vars.goodTouchElim.has) || linkedOrders.contains order ||
        vars.unknownPlays.contains order || vars.hypoPlays.contains order then vars
    else if !hypoPlayable player state vars order card then vars
    else
      let id := card.identity { infer := true, symmetric := player.playerIndex == some i }
      let isCommon := player.playerIndex.isNone
      if isCommon && falseUpdate state order card id then vars
      else
        -- an unknown play matches this identity: try swapping it out later
        match if isCommon then (state.identityOf order).bind fun actual =>
            (vars.unknownPlays.find? fun o => state.identityOf o == some actual).map
              fun existing => (actual, existing) else none with
        | some (actual, existing) => vars.addDuplicate actual existing order
        | none =>
          match id with
          | none => vars.playUnknown player state order
          | some id => if vars.isNext state id then vars.playKnown order id else vars

/-- One round of the loop. -/
def hypoRound (ignoreOrders linkedOrders : List ℕ) (vars : HypoVars) : HypoVars :=
  (List.range state.numPlayers).foldl (fun vars i =>
    (state.hands i).foldl (fun vars order =>
      tryPlay player state ignoreOrders linkedOrders i order vars) vars)
    { vars with foundNewPlayable := false }

/-- `while (found_new_playable)`. -/
def hypoRounds (ignoreOrders linkedOrders : List ℕ) : HypoVars → ℕ → Option HypoVars
  | _, 0 => none
  | vars, fuel + 1 =>
    if vars.foundNewPlayable then
      hypoRounds ignoreOrders linkedOrders
        (hypoRound player state ignoreOrders linkedOrders vars) fuel
    else some vars

/-- `update_hypo_stacks` up to the choice between duplicates. -/
def playAll (ignoreOrders : List ℕ) (fuel : ℕ) : Option HypoVars :=
  hypoRounds player state ignoreOrders (player.linkedOrders state)
    { hypoStacks := state.playStacks
      goodTouchElim := ⟨state.variant.suits.length, 0⟩ } fuel

/-- One of the recursive calls, and the better of the two. -/
def tryIgnoring (best : Hypo) (ignore : List ℕ) (fuel : ℕ) : Option Hypo :=
  (playAll player state ignore fuel).map fun vars =>
    if best.hypoScore state < vars.hypoScore state then vars.toHypo else best

/-- `update_hypo_stacks`, without orders to ignore. -/
def updateHypoStacks (fuel : ℕ) : Option Hypo :=
  (playAll player state [] fuel).bind fun vars =>
    let ignores := vars.duplicatedPlays.flatMap fun (_, orders) =>
      (List.range orders.length).map fun i => orders.take (i + 1)
    ignores.foldlM (fun best ignore => tryIgnoring player state best ignore fuel) vars.toHypo

end

/-! ## The account -/

/-- The stacks grow rank by rank, and each play is an advance or an unknown play. -/
structure Balanced (state : State) (hypo : Hypo) : Prop where
  playStacks_le : ∀ s, state.playStacks s ≤ hypo.hypoStacks s
  ranks : ∀ s, (hypo.advances.filter fun a => a.1.suitIndex == s).map (·.1.rank) =
    List.range' (state.playStacks s + 1) (hypo.hypoStacks s - state.playStacks s)
  sum : ∑ s ∈ Finset.range state.variant.suits.length, hypo.hypoStacks s =
    state.score + hypo.advances.length
  plays : hypo.hypoPlays.length =
    hypo.unknownPlays.length + hypo.advances.countP fun a => a.2.isSome
  unknown_nodup : hypo.unknownPlays.Nodup
  plays_nodup : hypo.hypoPlays.Nodup

/-- The score counts each play once, and each link once more. -/
theorem Balanced.hypoScore_eq {state : State} {hypo : Hypo} (h : Balanced state hypo) :
    hypo.hypoScore state = state.score + hypo.hypoPlays.length + hypo.linkAdvances := by
  have hsplit : hypo.advances.length = (hypo.advances.countP fun a => a.2.isSome) +
      hypo.advances.countP fun a => a.2.isNone := by
    rw [List.length_eq_countP_add_countP fun a => a.2.isSome]
    congr 2
    funext a
    cases a.2 <;> rfl
  have hsum := h.sum
  have hplays := h.plays
  unfold Hypo.hypoScore Hypo.linkAdvances
  omega

section

variable {player : LinkedPlayer} {state : State} {vars : HypoVars} {order : ℕ} {id : Identity}

/-- What an advance does to the stacks and to the list of advances. -/
structure Advanced (state : State) (hypo hypo' : Hypo) (id : Identity) (order : Option ℕ) :
    Prop where
  suit : id.suitIndex < state.variant.suits.length
  rank : id.rank = hypo.hypoStacks id.suitIndex + 1
  grown : hypo'.hypoStacks = Function.update hypo.hypoStacks id.suitIndex id.rank
  advances : hypo'.advances = hypo.advances ++ [(id, order)]

theorem Balanced.advance {hypo hypo' : Hypo} {source : Option ℕ} (h : Balanced state hypo)
    (hadv : Advanced state hypo hypo' id source)
    (hunknown : hypo'.unknownPlays = hypo.unknownPlays)
    (hplays : hypo'.hypoPlays = hypo.hypoPlays ++ source.toList) (hnew : ∀ o ∈ source, o ∉ hypo.hypoPlays) :
    Balanced state hypo' := by
  obtain ⟨hsuit, hrank, hstacks, hadvances⟩ := hadv
  have hle := h.playStacks_le
  refine ⟨?_, ?_, ?_, ?_, hunknown ▸ h.unknown_nodup, ?_⟩
  · intro s
    rw [hstacks]
    by_cases hs : s = id.suitIndex
    · subst hs
      have := hle id.suitIndex
      rw [Function.update_self]
      omega
    · rw [Function.update_of_ne hs]
      exact hle s
  · intro s
    rw [hadvances, hstacks, List.filter_append, List.map_append, h.ranks s]
    by_cases hs : s = id.suitIndex
    · -- the new rank is the next one of its suit
      subst hs
      have := hle id.suitIndex
      have hgrow : id.rank - state.playStacks id.suitIndex =
          hypo.hypoStacks id.suitIndex - state.playStacks id.suitIndex + 1 := by omega
      have hlast : id.rank = state.playStacks id.suitIndex + 1 +
          (hypo.hypoStacks id.suitIndex - state.playStacks id.suitIndex) := by omega
      rw [Function.update_self, hgrow, List.range'_concat]
      simp only [beq_self_eq_true, List.filter_cons_of_pos, List.filter_nil, List.map_cons,
        List.map_nil, one_mul]
      rw [← hlast]
    · rw [Function.update_of_ne hs]
      simp [Ne.symm hs]
  · have hsum := Counting.sum_update (Finset.mem_range.2 hsuit) hypo.hypoStacks id.rank
    have := h.sum
    rw [hadvances, hstacks, List.length_append, List.length_singleton]
    omega
  · have := h.plays
    rw [hplays, hunknown, hadvances, List.length_append, List.countP_append]
    cases source with
    | none => simpa using this
    | some o =>
      simp only [Option.toList_some, List.length_singleton, List.countP_singleton,
        Option.isSome_some, if_true]
      omega
  · rw [hplays]
    cases source with
    | none => simpa using h.plays_nodup
    | some o =>
      refine List.Nodup.append h.plays_nodup (by simp) ?_
      simpa using hnew o rfl

/-! ## One card -/

theorem HypoVars.advanced_of_isNext (h : vars.isNext state id = true) (source : Option ℕ) :
    Advanced state vars.toHypo (vars.advance id source).toHypo id source := by
  simp only [HypoVars.isNext, Bool.and_eq_true, decide_eq_true_eq, beq_iff_eq] at h
  exact ⟨h.1, h.2, rfl, rfl⟩

/-- A link adds no play. -/
theorem fulfillLink_balanced (h : Balanced state vars.toHypo) (link : Link) :
    Balanced state (vars.fulfillLink state link).toHypo ∧
      (vars.fulfillLink state link).hypoPlays = vars.hypoPlays ∧
      (vars.fulfillLink state link).foundNewPlayable = vars.foundNewPlayable := by
  unfold HypoVars.fulfillLink
  split
  · rename_i id2 _
    split
    · rename_i hnext
      exact ⟨h.advance (HypoVars.advanced_of_isNext hnext none) rfl (by simp [HypoVars.advance])
        (by simp), rfl, rfl⟩
    · exact ⟨h, rfl, rfl⟩
  · exact ⟨h, rfl, rfl⟩

theorem fulfillLinks_balanced (h : Balanced state vars.toHypo) (links : List Link) :
    Balanced state (links.foldl (HypoVars.fulfillLink state) vars).toHypo ∧
      (links.foldl (HypoVars.fulfillLink state) vars).hypoPlays = vars.hypoPlays ∧
      (links.foldl (HypoVars.fulfillLink state) vars).foundNewPlayable =
        vars.foundNewPlayable := by
  induction links generalizing vars with
  | nil => exact ⟨h, rfl, rfl⟩
  | cons link links ih =>
    obtain ⟨hbal, hplays, hfound⟩ := fulfillLink_balanced h link
    obtain ⟨hbal', hplays', hfound'⟩ := ih hbal
    exact ⟨hbal', hplays'.trans hplays, hfound'.trans hfound⟩

/-- The card has not been played. -/
structure Fresh (vars : HypoVars) (order : ℕ) : Prop where
  unknown : order ∉ vars.unknownPlays
  plays : order ∉ vars.hypoPlays

theorem playUnknown_balanced (h : Balanced state vars.toHypo) (hfresh : Fresh vars order)
    (player : LinkedPlayer) :
    Balanced state (vars.playUnknown player state order).toHypo ∧
      (vars.playUnknown player state order).hypoPlays = vars.hypoPlays ++ [order] := by
  have hplayed : Balanced state { vars.toHypo with
      unknownPlays := vars.unknownPlays ++ [order]
      hypoPlays := vars.hypoPlays ++ [order] } := by
    refine ⟨h.playStacks_le, h.ranks, h.sum, ?_, ?_, ?_⟩
    · have := h.plays
      simp only [List.length_append, List.length_singleton]
      omega
    · exact List.Nodup.append h.unknown_nodup (by simp) (by simpa using hfresh.unknown)
    · exact List.Nodup.append h.plays_nodup (by simp) (by simpa using hfresh.plays)
  unfold HypoVars.playUnknown
  dsimp only
  obtain ⟨hbal, hplays, -⟩ := @fulfillLinks_balanced state
    { vars with
      unknownPlays := vars.unknownPlays ++ [order]
      hypoPlays := vars.hypoPlays ++ [order]
      foundNewPlayable := true } hplayed
    (player.links.filter fun link => link.promised && link.orders.contains order &&
      link.orders.all (vars.unknownPlays ++ [order]).contains)
  exact ⟨hbal, hplays⟩

theorem playKnown_balanced (h : Balanced state vars.toHypo) (hfresh : Fresh vars order)
    (hnext : vars.isNext state id = true) :
    Balanced state (vars.playKnown order id).toHypo := by
  have hadv := HypoVars.advanced_of_isNext hnext (some order)
  exact h.advance ⟨hadv.suit, hadv.rank, rfl, rfl⟩ rfl rfl (by simpa using hfresh.plays)

/-- What the loop can do at a card. -/
theorem tryPlay_cases (player : LinkedPlayer) (state : State) (ignoreOrders linkedOrders : List ℕ)
    (i order : ℕ) (vars : HypoVars) :
    tryPlay player state ignoreOrders linkedOrders i order vars = vars ∨
    (∃ id existing, tryPlay player state ignoreOrders linkedOrders i order vars =
      vars.addDuplicate id existing order) ∨
    Fresh vars order ∧
      (tryPlay player state ignoreOrders linkedOrders i order vars =
        vars.playUnknown player state order ∨
      ∃ id, vars.isNext state id = true ∧
        tryPlay player state ignoreOrders linkedOrders i order vars = vars.playKnown order id) := by
  unfold tryPlay
  dsimp only
  split
  · exact Or.inl rfl
  split
  · exact Or.inl rfl
  split
  · exact Or.inl rfl
  rename_i hskip
  simp only [Bool.or_eq_true, not_or, List.contains_eq_mem, decide_eq_true_eq] at hskip
  have hfresh : Fresh vars order := ⟨hskip.1.2, hskip.2⟩
  split
  · exact Or.inl rfl
  split
  · exact Or.inl rfl
  split
  · exact Or.inr (Or.inl ⟨_, _, rfl⟩)
  split
  · exact Or.inr (Or.inr ⟨hfresh, Or.inl rfl⟩)
  split
  · rename_i id _ hnext
    exact Or.inr (Or.inr ⟨hfresh, Or.inr ⟨id, hnext, rfl⟩⟩)
  · exact Or.inl rfl

/-! ## The loop -/

/-- The number of cards in hand that have not been played. -/
def unplayed (state : State) (vars : HypoVars) : ℕ :=
  (state.allOrders.filter fun o => !vars.hypoPlays.contains o).length

/-- A round so far: a new play leaves fewer cards. -/
structure RoundSoFar (state : State) (start vars : HypoVars) : Prop where
  balanced : Balanced state vars.toHypo
  unplayed_le : unplayed state vars ≤ unplayed state start
  found : vars.foundNewPlayable = true → unplayed state vars < unplayed state start

theorem unplayed_lt {vars' : HypoVars} (ho : order ∈ state.allOrders)
    (hnew : order ∉ vars.hypoPlays) (hplays : vars'.hypoPlays = vars.hypoPlays ++ [order]) :
    unplayed state vars' < unplayed state vars := by
  have hsplit : (state.allOrders.filter fun o => !vars'.hypoPlays.contains o) =
      (state.allOrders.filter fun o => !vars.hypoPlays.contains o).filter fun o => o != order := by
    rw [List.filter_filter, hplays]
    refine List.filter_congr fun o _ => ?_
    rw [Bool.eq_iff_iff]
    simp only [List.contains_eq_mem, List.mem_append, List.mem_singleton, Bool.not_eq_true',
      decide_eq_false_iff_not, Bool.and_eq_true, bne_iff_ne]
    tauto
  unfold unplayed
  rw [hsplit, List.length_filter_lt_length_iff_exists]
  refine ⟨order, List.mem_filter.2 ⟨ho, ?_⟩, ?_⟩
  · simpa using hnew
  · simp

theorem tryPlay_round {start : HypoVars} (h : RoundSoFar state start vars) (player : LinkedPlayer)
    (ignoreOrders linkedOrders : List ℕ) (i : ℕ) (ho : order ∈ state.allOrders) :
    RoundSoFar state start (tryPlay player state ignoreOrders linkedOrders i order vars) := by
  obtain ⟨hbal, hle, hfound⟩ := h
  obtain heq | ⟨id, existing, heq⟩ | ⟨hfresh, heq | ⟨id, hnext, heq⟩⟩ :=
    tryPlay_cases player state ignoreOrders linkedOrders i order vars
  · rw [heq]
    exact ⟨hbal, hle, hfound⟩
  · rw [heq]
    exact ⟨hbal, hle, hfound⟩
  · rw [heq]
    obtain ⟨hbal', hplays⟩ := playUnknown_balanced hbal hfresh player
    have hlt := unplayed_lt ho hfresh.plays hplays
    exact ⟨hbal', by omega, fun _ => by omega⟩
  · rw [heq]
    have hbal' := playKnown_balanced hbal hfresh hnext
    have hlt : unplayed state (vars.playKnown order id) < unplayed state vars :=
      unplayed_lt ho hfresh.plays rfl
    exact ⟨hbal', by omega, fun _ => by omega⟩

theorem hypoRound_balanced (h : Balanced state vars.toHypo) (player : LinkedPlayer)
    (ignoreOrders linkedOrders : List ℕ) :
    RoundSoFar state vars (hypoRound player state ignoreOrders linkedOrders vars) := by
  unfold hypoRound
  have hstart : RoundSoFar state vars { vars with foundNewPlayable := false } :=
    ⟨h, le_refl _, by simp⟩
  refine List.foldlRecOn _ _ hstart fun v hv i hi => ?_
  refine List.foldlRecOn _ _ hv fun w hw order hmem => ?_
  refine tryPlay_round hw player ignoreOrders linkedOrders i ?_
  exact State.mem_allOrders.2 ⟨i, List.mem_range.1 hi, hmem⟩

theorem hypoRounds_done (player : LinkedPlayer) (ignoreOrders linkedOrders : List ℕ)
    (h : Balanced state vars.toHypo) (hfound : vars.foundNewPlayable = false) :
    Fuel.Returns (hypoRounds player state ignoreOrders linkedOrders vars)
      fun v => Balanced state v.toHypo := by
  refine .step (fun fuel => ?_) (.pure h)
  rw [hypoRounds, hfound, if_neg (by simp)]

/-- The loop ends: a round after which it goes on has played a card. -/
theorem hypoRounds_returns (player : LinkedPlayer) (ignoreOrders linkedOrders : List ℕ)
    (h : Balanced state vars.toHypo) :
    Fuel.Returns (hypoRounds player state ignoreOrders linkedOrders vars)
      fun v => Balanced state v.toHypo := by
  induction hm : unplayed state vars using Nat.strong_induction_on generalizing vars with
  | h m ih =>
  subst hm
  cases hfound : vars.foundNewPlayable with
  | false => exact hypoRounds_done player ignoreOrders linkedOrders h hfound
  | true =>
    have hround := hypoRound_balanced h player ignoreOrders linkedOrders
    refine .step (g := hypoRounds player state ignoreOrders linkedOrders
      (hypoRound player state ignoreOrders linkedOrders vars)) (fun fuel => ?_) ?_
    · rw [hypoRounds, if_pos hfound]
    · cases hnext : (hypoRound player state ignoreOrders linkedOrders vars).foundNewPlayable with
      | false => exact hypoRounds_done player ignoreOrders linkedOrders hround.balanced hnext
      | true => exact ih _ (hround.found hnext) hround.balanced rfl

theorem playAll_returns (player : LinkedPlayer) (state : State) (ignoreOrders : List ℕ) :
    Fuel.Returns (playAll player state ignoreOrders) fun v => Balanced state v.toHypo := by
  refine hypoRounds_returns player ignoreOrders _ ⟨?_, ?_, ?_, ?_, ?_, ?_⟩
  · exact fun _ => le_refl _
  · intro s
    simp
  · simp [State.score]
  · simp
  · exact List.nodup_nil
  · exact List.nodup_nil

theorem tryIgnoring_returns {best : Hypo} (hbest : Balanced state best) (player : LinkedPlayer)
    (ignore : List ℕ) : Fuel.Returns (tryIgnoring player state best ignore) (Balanced state) := by
  refine (playAll_returns player state ignore).map fun vars hvars => ?_
  split
  · exact hvars
  · exact hbest

/-! ## Results -/

/-- For every player and state the computation returns. The stacks have grown from the
play stacks, rank by rank, and the score by one for each card that is going to play and by
one more for each promised identity put on its stack. -/
theorem updateHypoStacks_balanced (player : LinkedPlayer) (state : State) :
    Fuel.Returns (updateHypoStacks player state) fun hypo =>
      (∀ s, state.playStacks s ≤ hypo.hypoStacks s) ∧
      (∀ s, (hypo.advances.filter fun a => a.1.suitIndex == s).map (·.1.rank) =
        List.range' (state.playStacks s + 1) (hypo.hypoStacks s - state.playStacks s)) ∧
      hypo.unknownPlays.Nodup ∧ hypo.hypoPlays.Nodup ∧
      hypo.hypoScore state = state.score + hypo.hypoPlays.length + hypo.linkAdvances := by
  have hreturns : Fuel.Returns (updateHypoStacks player state) (Balanced state) := by
    refine (playAll_returns player state []).bind fun vars hvars => ?_
    exact Fuel.Returns.foldlM (k := tryIgnoring player state)
      (fun ignore _ best hbest => tryIgnoring_returns hbest player ignore) hvars
  refine hreturns.mono fun hypo h => ?_
  exact ⟨h.playStacks_le, h.ranks, h.unknown_nodup, h.plays_nodup, h.hypoScore_eq⟩

end

/-! ## A link that counts twice -/

/-- Alice (0) holds two cards; nothing has been played. -/
def twoCards : State :=
  { State.fresh noVariant 2 0 {} with hands := fun p => if p = 0 then [1, 0] else [] }

/-- Both are r1 or b1, and one of them is promised to be the r1. -/
def promisedRed1 : LinkedPlayer where
  playerIndex := none
  thoughts :=
    let redOrBlue (order : ℕ) : Card :=
      { id := none
        order := order
        possible := ⟨5, IdentitySet.identitiesToMask [⟨0, 1⟩, ⟨3, 1⟩]⟩
        inferred := ⟨5, IdentitySet.identitiesToMask [⟨0, 1⟩, ⟨3, 1⟩]⟩
        status := some .clued
        clued := true }
    (SparseArray.empty.set 0 (redOrBlue 0)).set 1 (redOrBlue 1)
  links := [{ orders := [0, 1], identities := [⟨0, 1⟩], promised := true }]
  allPossible := .full 5
  allInferred := .full 5

/-- Two cards are going to play, and the score is to grow by three: the promised r1 is on
its stack, and both cards are still among the unknown plays. -/
theorem promised_counted_twice :
    (updateHypoStacks promisedRed1 twoCards 4).any (fun hypo =>
      hypo.hypoPlays == [1, 0] && hypo.hypoScore twoCards == twoCards.score + 3) = true := by
  decide +kernel

end HanabiBot
