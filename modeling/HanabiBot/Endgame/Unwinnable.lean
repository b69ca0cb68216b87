import HanabiBot.Endgame.Moves
import HanabiBot.Tools.Util

/-!
# Pruning lost positions

`unwinnable_state` gives up on a position for one of five reasons.  Two
potentials account for all of them, neither of which a move can raise:

* `capacity` — how many more points there is time for: one for each card left and
  each player who holds a useful card, and in the final round one for each turn
  left to such a player;
* `Doomed` — some player has more cards to play than turns to play them: in the
  final round a player owes more identities than they have turns, or with one
  card left two players each hold two identities that nobody else can play.
-/

namespace HanabiBot

/-- `playersBetween` of `src/conventions/h-group/hanabi-logic.js`. -/
def playersBetween (numPlayers start stop : ℕ) : List ℕ :=
  let gap := (stop + numPlayers - start) % numPlayers
  (List.range' 1 (gap - 1)).map fun inc => (start + inc) % numPlayers

namespace Endgame

/-- `find_must_plays`: the cards of the hand are grouped by their names, and the first of a group
stands for all of it. It is to be played if the group holds all remaining copies of it. -/
def findMustPlays (st : State) (hand : List ℕ) : List Identity :=
  let idGroups := Utils.groupBy hand fun o => (st.identityOf o).map st.variant.logCard
  idGroups.filterMap fun (_, group) =>
    match group.head?.bind st.identityOf with
    | none => none
    | some id =>
      if st.isBasicTrash id then none
      else if (st.cardCount id : ℤ) - st.baseCount id = group.length then some id
      else none

/-- The player holds nothing but trash and unknown cards. -/
def isVoid (st : State) (playerIndex : ℕ) : Bool :=
  (st.hands playerIndex).all fun o =>
    match st.identityOf o with
    | none => true
    | some id => st.isBasicTrash id

/-- The checks of `unwinnable_state` that apply in the final round. -/
def finalRoundLost (st : State) (playerTurn : ℕ) (voidPlayers : List ℕ)
    (mustPlays : List (List Identity)) : Bool :=
  let turns := List.range st.endgameTurns.toNat
  let possiblePlayers := turns.filter fun i =>
    !voidPlayers.contains ((playerTurn + i) % st.numPlayers)
  decide (possiblePlayers.length + st.score < st.maxScore) ||
    turns.any fun i => decide (1 < (mustPlays.getD ((playerTurn + i) % st.numPlayers) []).length)

/-- `unwinnable_state`. -/
def unwinnableState (st : State) (playerTurn : ℕ) : Bool :=
  if st.ended = true ∨ st.pace < 0 then true
  else
    let voidPlayers := (List.range st.numPlayers).filter (isVoid st)
    if st.pace < voidPlayers.length then true
    else
      let mustPlays := (List.range st.numPlayers).map fun i => findMustPlays st (st.hands i)
      let mustStartEndgame := Utils.findIndices mustPlays fun ids => decide (1 < ids.length)
      if st.endgameTurns ≠ -1 ∧ finalRoundLost st playerTurn voidPlayers mustPlays = true then true
      else if st.cardsLeft = 1 then
        match mustStartEndgame with
        | [] => false
        | [target] =>
          -- too far to start the endgame: the source returns `false` here as well
          if playerTurn ≠ target ∧
            st.clueTokens < (playersBetween st.numPlayers playerTurn target).length then false
          else false
        | _ => true
      else false

/-! ## Trash and void players -/

section

variable {st st' : State} {p q order : ℕ} {action : PerformAction} {draw : Option Identity}

theorem isBasicTrash_mono (hk : Kept st st') (hs : ∀ s, st.playStacks s ≤ st'.playStacks s)
    {id : Identity} (h : st.isBasicTrash id = true) : st'.isBasicTrash id = true := by
  have := hs id.suitIndex
  simp only [State.isBasicTrash, hk.maxRanks_eq, Bool.or_eq_true, decide_eq_true_eq] at h ⊢
  omega

/-- A player whose hand only loses cards stays void. -/
theorem isVoid_mono (hk : Kept st st') (hs : ∀ s, st.playStacks s ≤ st'.playStacks s)
    (hsub : ∀ o ∈ st'.hands q, o ∈ st.hands q) (hle : ∀ o ∈ st.hands q, (o : ℤ) ≤ st.cardOrder)
    (h : isVoid st q = true) : isVoid st' q = true := by
  simp only [isVoid, List.all_eq_true] at h ⊢
  intro o ho
  have hv := h o (hsub o ho)
  rw [hk.identityOf_eq o (hle o (hsub o ho))]
  cases hid : st.identityOf o with
  | none => rfl
  | some id =>
    rw [hid] at hv
    exact isBasicTrash_mono hk hs hv

/-- A playable card in hand is useful. -/
theorem Consistent.useful_of_isPlayable (hc : Consistent st) (ho : order ∈ st.allOrders)
    {id : Identity} (hid : st.identityOf order = some id) (hplay : st.isPlayable id = true) :
    st.isBasicTrash id = false := by
  have hle := hc.rank_le_maxRanks ho hid hplay
  have hrank : id.rank = st.playStacks id.suitIndex + 1 := by
    simpa [State.isPlayable] using hplay
  simp only [State.isBasicTrash, Bool.or_eq_false_iff, decide_eq_false_iff_not]
  omega

/-! ## The score -/

theorem score_eq_of_playStacks (hk : Kept st st') (h : st'.playStacks = st.playStacks) :
    st'.score = st.score := by
  rw [State.score, State.score, hk.variant_eq, h]

/-- A card scores at most one point, and none if its player is void. -/
theorem Lands.score_le (hl : Lands st st' order) (hk : Kept st st') (hc : Consistent st)
    (hp : p < st.numPlayers) (ho : order ∈ st.hands p) :
    st'.score ≤ st.score + if isVoid st p = true then 0 else 1 := by
  have hmem : order ∈ st.allOrders := State.mem_allOrders.2 ⟨p, hp, ho⟩
  rcases hl with ⟨id, hid, hplay, hps, -⟩ | ⟨hps, -⟩ | ⟨hps, -⟩
  · have huseful := hc.useful_of_isPlayable hmem hid hplay
    have hvoid : ¬ isVoid st p = true := by
      intro hv
      have := List.all_eq_true.1 hv order ho
      rw [hid] at this
      simp only [huseful, Bool.false_eq_true] at this
    have hrank : id.rank = st.playStacks id.suitIndex + 1 := by
      simpa [State.isPlayable] using hplay
    have hs : id.suitIndex ∈ Finset.range st.variant.suits.length :=
      Finset.mem_range.2 (hc.valid order hmem id hid).1
    have hsum := Counting.sum_update hs st.playStacks id.rank
    rw [if_neg hvoid, State.score, State.score, hk.variant_eq, hps]
    omega
  · rw [score_eq_of_playStacks hk hps]; omega
  · rw [score_eq_of_playStacks hk hps]; omega

theorem Kept.maxScore_eq (hk : Kept st st') : st'.maxScore = st.maxScore := by
  rw [State.maxScore, State.maxScore, hk.variant_eq, hk.maxRanks_eq]

/-- While an identity is useful, the score is not at its maximum. -/
theorem Consistent.score_lt_maxScore (hc : Consistent st) {id : Identity}
    (hv : id.Valid st.variant) (h : st.isBasicTrash id = false) : st.score < st.maxScore := by
  simp only [State.isBasicTrash, Bool.or_eq_false_iff, decide_eq_false_iff_not] at h
  refine Finset.sum_lt_sum (fun s hs => hc.stack_le s (Finset.mem_range.1 hs))
    ⟨id.suitIndex, Finset.mem_range.2 hv.1, ?_⟩
  omega

/-! ## The first potential: time for more points -/

/-- The number of void players. -/
def voidCount (st : State) : ℕ := (List.range st.numPlayers).countP (isVoid st)

/-- The number of turns of the final round left to players who are not void. -/
def usefulTurns (st : State) (p : ℕ) : ℕ :=
  (List.range st.endgameTurns.toNat).countP fun i => !isVoid st ((p + i) % st.numPlayers)

/-- A bound on the points still to be scored. -/
def capacity (st : State) (p : ℕ) : ℤ :=
  if 0 < st.cardsLeft then st.cardsLeft + st.numPlayers - voidCount st else usefulTurns st p

theorem voidCount_le_add (hn : st'.numPlayers = st.numPlayers)
    (h : ∀ q < st.numPlayers, q ≠ p → isVoid st q = true → isVoid st' q = true) :
    voidCount st ≤ voidCount st' + if isVoid st p = true then 1 else 0 := by
  have hle : voidCount st ≤ (List.range st.numPlayers).countP (isVoid st') +
      (List.range st.numPlayers).countP (fun q => isVoid st p && q == p) := by
    rw [voidCount, List.countP_eq_length_filter, List.countP_eq_length_filter,
      List.countP_eq_length_filter, ← List.length_append]
    refine List.Subperm.length_le (List.subperm_of_subset (List.nodup_range.filter _) ?_)
    intro q hq
    rw [List.mem_filter, List.mem_range] at hq
    rw [List.mem_append, List.mem_filter, List.mem_filter, List.mem_range]
    by_cases hqp : q = p
    · right
      subst hqp
      exact ⟨hq.1, by simp [hq.2]⟩
    · exact Or.inl ⟨hq.1, h q hq.1 hqp hq.2⟩
  have hone : (List.range st.numPlayers).countP (fun q => isVoid st p && q == p) ≤
      if isVoid st p = true then 1 else 0 := by
    split
    · rename_i hv
      simp only [hv, Bool.true_and]
      exact List.nodup_iff_count_le_one.1 List.nodup_range p
    · rename_i hv
      simp [hv]
  have hst' : voidCount st' = (List.range st.numPlayers).countP (isVoid st') := by
    rw [voidCount, hn]
  omega

/-- A whole round from any player gives one turn to each player who is not void. -/
theorem usefulTurns_le (hle : st.endgameTurns ≤ st.numPlayers) (p : ℕ) :
    usefulTurns st p + voidCount st ≤ st.numPlayers := by
  have h1 := Counting.countP_add_mod_le (n := st.numPlayers) (e := st.endgameTurns.toNat) (by omega)
    p (fun q => !isVoid st q)
  have h2 : st.numPlayers = (List.range st.numPlayers).countP (isVoid st) +
      (List.range st.numPlayers).countP (fun q => !isVoid st q) := by
    have := List.length_eq_countP_add_countP (isVoid st) (l := List.range st.numPlayers)
    simpa using this
  rw [usefulTurns, voidCount]
  omega

/-- One turn of the final round goes by. -/
theorem usefulTurns_step (hn : st'.numPlayers = st.numPlayers)
    (he : st'.endgameTurns = st.endgameTurns - 1) (hpos : 0 < st.endgameTurns)
    (hp : p < st.numPlayers)
    (hmono : ∀ q < st.numPlayers, isVoid st q = true → isVoid st' q = true) :
    usefulTurns st' (st.nextPlayerIndex p) + (if isVoid st p = true then 0 else 1) ≤
      usefulTurns st p := by
  have hrange : st.endgameTurns.toNat = st'.endgameTurns.toNat + 1 := by omega
  have hanti : ∀ q < st.numPlayers, (!isVoid st' q) = true → (!isVoid st q) = true := by
    intro q hqn hq
    by_contra hv
    rw [hmono q hqn (by simpa using hv)] at hq
    exact absurd hq (by decide)
  have h := Counting.countP_add_mod_succ (e := st'.endgameTurns.toNat) hp hanti
  rw [usefulTurns, usefulTurns, hrange, hn, State.nextPlayerIndex]
  refine le_trans (le_of_eq ?_) h
  cases isVoid st p <;> rfl

/-! ### What each kind of move does to it -/

theorem Consistent.hand_le (hc : Consistent st) (hq : q < st.numPlayers) :
    ∀ o ∈ st.hands q, (o : ℤ) ≤ st.cardOrder := fun o ho =>
  hc.order_le o (State.mem_allOrders.2 ⟨q, hq, ho⟩)

theorem Clued.identityOf_eq' (hk : Clued st st') : st'.identityOf = st.identityOf := by
  funext o
  rw [State.identityOf, hk.deck_eq]
  rfl

theorem Clued.isVoid_eq (hk : Clued st st') : isVoid st' = isVoid st := by
  funext q
  simp only [isVoid, hk.hands_eq, hk.identityOf_eq', State.isBasicTrash, hk.playStacks_eq,
    hk.maxRanks_eq]

theorem PutDown.hands_subset (hk : PutDown st st' p order) :
    ∀ o ∈ st'.hands q, o ∈ st.hands q := by
  intro o ho
  rw [hk.hands_eq] at ho
  by_cases hqp : q = p
  · subst hqp
    rw [Basics.removeCard_self, Basics.spliceOut_of_mem hk.mem] at ho
    exact List.mem_of_mem_erase ho
  · rwa [Basics.removeCard_of_ne _ hqp] at ho

theorem Drew.hands_eq_of_ne (hk : Drew st st' p order draw) (hqp : q ≠ p) :
    st'.hands q = st.hands q := by
  rw [hk.hands_eq, Function.update_of_ne hqp, Basics.removeCard_of_ne _ hqp]

theorem Consistent.endgameTurns_pos (hc : Consistent st) (hleft : st.cardsLeft = 0)
    (hne : st.endgameTurns ≠ 0) : 0 < st.endgameTurns := by
  rcases hc.clock with ⟨h, -⟩ | ⟨-, h0, -⟩ <;> omega

theorem Clued.capacity_le (hk : Clued st st') (hc : Consistent st) (hp : p < st.numPlayers)
    (hne : st.endgameTurns ≠ 0) : capacity st' (st.nextPlayerIndex p) ≤ capacity st p := by
  have hcount : voidCount st' = voidCount st := by
    rw [voidCount, voidCount, hk.numPlayers_eq, hk.isVoid_eq]
  rw [capacity, capacity, hk.cardsLeft_eq, hk.numPlayers_eq, hcount]
  split
  · exact le_rfl
  · rename_i hleft
    rcases hc.clock with ⟨hpos, -⟩ | ⟨h0, -⟩
    · exact absurd hpos hleft
    · have hpos := hc.endgameTurns_pos h0 hne
      have hstep := usefulTurns_step hk.numPlayers_eq
        (hk.endgameTurns_eq.trans (Basics.tick_of_ne (by omega))) hpos hp
        (fun q _ hv => by rw [hk.isVoid_eq]; exact hv)
      omega

theorem Drew.capacity_le (hk : Drew st st' p order draw) (hc : Consistent st) (r : ℕ) :
    capacity st' r + (if isVoid st p = true then 0 else 1) ≤ capacity st p := by
  have hvoid := voidCount_le_add hk.numPlayers_eq fun q hq hqp hv =>
    isVoid_mono hk.toKept hk.lands.playStacks_le
      (fun o ho => by rwa [hk.hands_eq_of_ne hqp] at ho) (hc.hand_le hq) hv
  have hpos := hk.cardsLeft_pos
  have hleft := hk.cardsLeft_eq
  have hn := hk.numPlayers_eq
  have he := hk.endgameTurns_eq
  -- the card is gone, but a void player may be void no longer
  have hgoal : st'.cardsLeft + st'.numPlayers - voidCount st' +
      (if isVoid st p = true then 0 else 1) ≤ capacity st p := by
    rw [capacity, if_pos hpos, hleft, hn]
    split at hvoid <;> simp_all <;> omega
  refine le_trans (Int.add_le_add_right ?_ _) hgoal
  rw [capacity]
  split
  · exact le_rfl
  · have hlast : st.cardsLeft - 1 = 0 := by omega
    rw [if_pos hlast] at he
    have hround : st'.endgameTurns ≤ st'.numPlayers := by omega
    have := usefulTurns_le hround r
    omega

theorem PutDown.capacity_le (hk : PutDown st st' p order) (hc : Consistent st)
    (hp : p < st.numPlayers) (hne : st.endgameTurns ≠ 0) :
    capacity st' (st.nextPlayerIndex p) + (if isVoid st p = true then 0 else 1) ≤
      capacity st p := by
  have hstep := usefulTurns_step hk.numPlayers_eq hk.endgameTurns_eq
    (hc.endgameTurns_pos hk.cardsLeft_zero hne) hp fun q hq hv =>
      isVoid_mono hk.toKept hk.lands.playStacks_le (fun o => hk.hands_subset o) (hc.hand_le hq) hv
  rw [capacity, capacity, hk.cardsLeft_eq, hk.cardsLeft_zero, if_neg (lt_irrefl 0),
    if_neg (lt_irrefl 0)]
  exact_mod_cast hstep

/-- No move gains more points than it uses up time for them. -/
theorem capacity_step (hc : Consistent st) (hp : p < st.numPlayers) (m : Move st p action draw) :
    ((advanceState st action draw).score : ℤ) +
        capacity (advanceState st action draw) (st.nextPlayerIndex p) ≤
      st.score + capacity st p := by
  have hne : st.endgameTurns ≠ 0 := by simpa [State.ended] using m.inProgress
  rcases m.cases hc with ⟨-, hk⟩ | ⟨order, -, hk⟩ | ⟨order, -, hk⟩
  · have hscore := score_eq_of_playStacks hk.toKept hk.playStacks_eq
    have := hk.capacity_le hc hp hne
    omega
  · have hscore := hk.lands.score_le hk.toKept hc hp hk.mem
    have := hk.capacity_le hc (st.nextPlayerIndex p)
    split at hscore <;> simp_all <;> omega
  · have hscore := hk.lands.score_le hk.toKept hc hp hk.mem
    have := hk.capacity_le hc hp hne
    split at hscore <;> simp_all <;> omega

/-! ## The second potential: identities that one player must play -/

/-- The identities that only player `q` can still play from hand. -/
def owed (st : State) (q : ℕ) : Finset Identity :=
  st.variant.allIdentities.toFinset.filter fun id =>
    st.isBasicTrash id = false ∧
      ∀ r < st.numPlayers, r ≠ q → ∀ o ∈ st.hands r, st.identityOf o ≠ some id

/-- Those of which no copy is left to be drawn. -/
def locked (st : State) (q : ℕ) : Finset Identity :=
  (owed st q).filter fun id => st.cardCount id ≤ st.baseCount id + st.heldCopies id

/-- The number of turns of the final round left to player `q`. -/
def turnsLeft (st : State) (p q : ℕ) : ℕ :=
  (List.range st.endgameTurns.toNat).countP fun i => (p + i) % st.numPlayers == q

/-- Some player has more to play than the turns to do so. -/
def Doomed (st : State) (p : ℕ) : Prop :=
  (st.cardsLeft = 0 ∧ ∃ q < st.numPlayers, turnsLeft st p q < (owed st q).card) ∨
  (st.cardsLeft = 1 ∧ ∃ q₁ < st.numPlayers, ∃ q₂ < st.numPlayers, q₁ ≠ q₂ ∧
    1 < (locked st q₁).card ∧ 1 < (locked st q₂).card)

theorem mem_owed {id : Identity} : id ∈ owed st q ↔ id.Valid st.variant ∧
    st.isBasicTrash id = false ∧
      ∀ r < st.numPlayers, r ≠ q → ∀ o ∈ st.hands r, st.identityOf o ≠ some id := by
  rw [owed, Finset.mem_filter, List.mem_toFinset, Variant.mem_allIdentities]

theorem turnsLeft_le_one (hle : st.endgameTurns ≤ st.numPlayers) : turnsLeft st p q ≤ 1 := by
  refine le_trans (Counting.countP_add_mod_le (by omega) p (fun r => r == q)) ?_
  exact List.nodup_iff_count_le_one.1 List.nodup_range q

theorem turnsLeft_step (hn : st'.numPlayers = st.numPlayers)
    (he : st'.endgameTurns = st.endgameTurns - 1) (hpos : 0 < st.endgameTurns)
    (hp : p < st.numPlayers) :
    turnsLeft st' (st.nextPlayerIndex p) q + (if p = q then 1 else 0) ≤ turnsLeft st p q := by
  have hrange : st.endgameTurns.toNat = st'.endgameTurns.toNat + 1 := by omega
  have h := Counting.countP_add_mod_succ (e := st'.endgameTurns.toNat) hp
    (P := fun r => r == q) (fun _ _ h => h)
  rw [turnsLeft, turnsLeft, hrange, hn, State.nextPlayerIndex]
  simpa using h

/-- An identity stays useful unless a copy of it is played. -/
theorem Lands.useful_of_ne (hl : Lands st st' order) (hk : Kept st st') {id : Identity}
    (h : st.isBasicTrash id = false) (hne : st.identityOf order ≠ some id) :
    st'.isBasicTrash id = false := by
  simp only [State.isBasicTrash, Bool.or_eq_false_iff, decide_eq_false_iff_not, hk.maxRanks_eq]
    at h ⊢
  refine ⟨?_, h.2⟩
  rcases hl with ⟨t, ht, hplay, hps, -⟩ | ⟨hps, -⟩ | ⟨hps, -⟩
  · have hrank : t.rank = st.playStacks t.suitIndex + 1 := by
      simpa [State.isPlayable] using hplay
    rw [hps, Function.update_apply]
    split
    · rename_i hs
      -- the stack of this suit rises by one, and not to this identity
      have hr : id.rank ≠ t.rank := fun hr => hne (by rw [ht, Identity.ext hs hr])
      have := h.1
      rw [hs] at this
      omega
    · exact h.1
  · rw [hps]; exact h.1
  · rw [hps]; exact h.1

/-- Putting a card down settles at most what it is, and only for the player who holds it. -/
theorem PutDown.owed_subset (hk : PutDown st st' p order) (hc : Consistent st)
    (hp : p < st.numPlayers) {id : Identity} (hid : id ∈ owed st q) (hne : id ∉ owed st' q) :
    p = q ∧ st.identityOf order = some id := by
  rw [mem_owed] at hid hne
  obtain ⟨hv, huseful, hothers⟩ := hid
  by_contra hcon
  have horder : st.identityOf order ≠ some id := fun ho => by
    refine hcon ⟨?_, ho⟩
    by_contra hpq
    exact hothers p hp hpq order hk.mem ho
  refine hne ⟨hk.variant_eq ▸ hv, hk.lands.useful_of_ne hk.toKept huseful horder, ?_⟩
  intro r hr hrq o ho
  rw [hk.numPlayers_eq] at hr
  rw [hk.identityOf_eq o (hc.hand_le hr o (hk.hands_subset o ho))]
  exact hothers r hr hrq o (hk.hands_subset o ho)

theorem PutDown.card_owed_le (hk : PutDown st st' p order) (hc : Consistent st)
    (hp : p < st.numPlayers) :
    (owed st q).card ≤ (owed st' q).card + if p = q then 1 else 0 := by
  split
  · -- at most one identity is settled
    have hsub : owed st q ⊆ owed st' q ∪ (st.identityOf order).toFinset := by
      intro id hid
      rw [Finset.mem_union, Option.mem_toFinset]
      by_cases hmem : id ∈ owed st' q
      · exact Or.inl hmem
      · exact Or.inr (hk.owed_subset hc hp hid hmem).2
    refine (Finset.card_le_card hsub).trans ((Finset.card_union_le _ _).trans ?_)
    refine Nat.add_le_add_left ?_ _
    cases st.identityOf order <;> simp
  · rename_i hpq
    rw [Nat.add_zero]
    refine Finset.card_le_card fun id hid => ?_
    by_contra hmem
    exact hpq (hk.owed_subset hc hp hid hmem).1

theorem Clued.heldCopies_eq (hk : Clued st st') (id : Identity) :
    st'.heldCopies id = st.heldCopies id := by
  rw [State.heldCopies, State.heldCopies, State.allOrders, State.allOrders, hk.hands_eq,
    hk.numPlayers_eq, hk.identityOf_eq']

theorem Clued.baseCount_eq (hk : Clued st st') (id : Identity) :
    st'.baseCount id = st.baseCount id := by
  rw [State.baseCount, hk.playStacks_eq, hk.discardStacks_eq]
  rfl

theorem Clued.owed_eq (hk : Clued st st') : owed st' = owed st := by
  funext q
  ext id
  rw [mem_owed, mem_owed, hk.variant_eq, hk.numPlayers_eq, hk.hands_eq, hk.identityOf_eq',
    State.isBasicTrash, hk.playStacks_eq, hk.maxRanks_eq]
  rfl

theorem Clued.locked_eq (hk : Clued st st') : locked st' = locked st := by
  funext q
  ext id
  rw [locked, locked, Finset.mem_filter, Finset.mem_filter, hk.owed_eq, hk.heldCopies_eq,
    hk.baseCount_eq, State.cardCount, hk.variant_eq]
  rfl

/-- The last draw leaves locked what a player who did not draw holds. -/
theorem Drew.locked_subset (hk : Drew st st' p order draw) (hc : Consistent st)
    (hp : p < st.numPlayers) (hpq : p ≠ q)
    (hdraw : ∀ id, draw = some id →
      id.Valid st.variant ∧ st.baseCount id + st.heldCopies id < st.cardCount id) :
    locked st q ⊆ owed st' q := by
  intro id hid
  rw [locked, Finset.mem_filter, mem_owed] at hid
  obtain ⟨⟨hv, huseful, hothers⟩, hall⟩ := hid
  have horder := hothers p hp hpq order hk.mem
  refine mem_owed.2 ⟨hk.variant_eq ▸ hv, hk.lands.useful_of_ne hk.toKept huseful horder, ?_⟩
  intro r hr hrq o ho
  rw [hk.numPlayers_eq] at hr
  by_cases hrp : r = p
  · subst hrp
    rw [hk.hands_eq, Function.update_self, List.mem_cons, Basics.removeCard_self,
      Basics.spliceOut_of_mem hk.mem] at ho
    rcases ho with rfl | ho
    · -- the drawn card: all copies of `id` are out already
      rw [State.identityOf, hk.deck_eq, SparseArray.get_set_self]
      intro hd
      have := (hdraw id hd).2
      omega
    · have ho := List.mem_of_mem_erase ho
      rw [hk.identityOf_eq o (hc.hand_le hr o ho)]
      exact hothers r hr hrq o ho
  · rw [hk.hands_eq_of_ne hrp] at ho
    rw [hk.identityOf_eq o (hc.hand_le hr o ho)]
    exact hothers r hr hrq o ho

/-- No move saves a doomed position. -/
theorem Doomed.step (h : Doomed st p) (hc : Consistent st) (hp : p < st.numPlayers)
    (m : Move st p action draw) :
    Doomed (advanceState st action draw) (st.nextPlayerIndex p) := by
  have hne : st.endgameTurns ≠ 0 := by simpa [State.ended] using m.inProgress
  rcases m.cases hc with ⟨-, hk⟩ | ⟨order, -, hk⟩ | ⟨order, -, hk⟩
  · refine h.imp ?_ ?_
    · rintro ⟨hleft, q, hq, hlt⟩
      have hpos := hc.endgameTurns_pos hleft hne
      have hstep := turnsLeft_step (q := q) hk.numPlayers_eq
        (hk.endgameTurns_eq.trans (Basics.tick_of_ne (by omega))) hpos hp
      refine ⟨hk.cardsLeft_eq.trans hleft, q, hk.numPlayers_eq ▸ hq, ?_⟩
      rw [hk.owed_eq]
      omega
    · rw [hk.cardsLeft_eq, hk.numPlayers_eq, hk.locked_eq]
      exact id
  · rcases h with ⟨hleft, -⟩ | ⟨hleft, q₁, hq₁, q₂, hq₂, hne', h₁, h₂⟩
    · have := hk.cardsLeft_pos
      omega
    · -- one of the two players does not draw the last card, and has a single turn left
      have hturns : (advanceState st action draw).endgameTurns ≤
          (advanceState st action draw).numPlayers := by
        rw [hk.endgameTurns_eq, hk.numPlayers_eq, hleft]
        exact le_rfl
      have hother : ∀ q < st.numPlayers, p ≠ q → 1 < (locked st q).card →
          Doomed (advanceState st action draw) (st.nextPlayerIndex p) := by
        intro q hq hpq hcard
        have h1 := Finset.card_le_card (hk.locked_subset hc hp hpq m.draw_ok)
        refine Or.inl ⟨?_, q, hk.numPlayers_eq ▸ hq, ?_⟩
        · have := hk.cardsLeft_eq
          omega
        · exact lt_of_le_of_lt (turnsLeft_le_one hturns) (hcard.trans_le h1)
      by_cases hpq : p = q₁
      · exact hother q₂ hq₂ (hpq ▸ hne') h₂
      · exact hother q₁ hq₁ hpq h₁
  · have hzero := hk.cardsLeft_zero
    rcases h with ⟨-, q, hq, hlt⟩ | ⟨hleft, -⟩
    · have hstep := turnsLeft_step (q := q) hk.numPlayers_eq hk.endgameTurns_eq
        (hc.endgameTurns_pos hzero hne) hp
      have hcard := hk.card_owed_le (q := q) hc hp
      exact Or.inl ⟨hk.cardsLeft_eq, q, hk.numPlayers_eq ▸ hq, by omega⟩
    · omega

/-- In a doomed position something is still to be played. -/
theorem Doomed.score_lt (h : Doomed st p) (hc : Consistent st) : st.score < st.maxScore := by
  have hlt : ∀ q, 0 < (owed st q).card → st.score < st.maxScore := by
    intro q hcard
    obtain ⟨id, hid⟩ := Finset.card_pos.1 hcard
    have := mem_owed.1 hid
    exact hc.score_lt_maxScore this.1 this.2.1
  rcases h with ⟨-, q, -, hcard⟩ | ⟨-, q, -, -, -, -, hcard, -⟩
  · exact hlt q (by omega)
  · have hle : (locked st q).card ≤ (owed st q).card := Finset.card_filter_le _ _
    exact hlt q (by omega)

/-! ## Lost positions stay lost -/

/-- There is no time for enough points, or some player has too much to play. -/
def Lost (st : State) (p : ℕ) : Prop :=
  st.score + capacity st p < st.maxScore ∨ Doomed st p

theorem Lost.step (h : Lost st p) (hc : Consistent st) (hp : p < st.numPlayers)
    (m : Move st p action draw) : Lost (advanceState st action draw) (st.nextPlayerIndex p) := by
  have hmax : (advanceState st action draw).maxScore = st.maxScore := by
    rcases m.cases hc with ⟨-, hk⟩ | ⟨order, -, hk⟩ | ⟨order, -, hk⟩ <;> exact hk.toKept.maxScore_eq
  refine h.imp (fun h => ?_) fun h => h.step hc hp m
  have := capacity_step hc hp m
  rw [hmax]
  omega

theorem capacity_nonneg (st : State) (p : ℕ) : 0 ≤ capacity st p := by
  have hvoid : voidCount st ≤ st.numPlayers := by
    have := List.countP_le_length (p := isVoid st) (l := List.range st.numPlayers)
    rwa [List.length_range] at this
  rw [capacity]
  split <;> omega

theorem Lost.score_ne (h : Lost st p) (hc : Consistent st) : st.score ≠ st.maxScore := by
  rcases h with h | h
  · have := capacity_nonneg st p
    omega
  · exact (h.score_lt hc).ne

/-- No line from a lost position reaches the maximum score. -/
theorem Lost.line (h : Lost st p) (hc : Consistent st) (hp : p < st.numPlayers)
    (hl : Line st p st') : st'.score ≠ st.maxScore := by
  induction hl with
  | refl => exact h.score_ne hc
  | @move st st' p action draw m _ ih =>
    have hkept : Kept st (advanceState st action draw) := by
      rcases m.cases hc with ⟨-, hk⟩ | ⟨order, -, hk⟩ | ⟨order, -, hk⟩ <;> exact hk.toKept
    rw [← hkept.maxScore_eq]
    refine ih (h.step hc hp m) (hc.advanceState hp m) ?_
    rw [hkept.numPlayers_eq]
    exact Nat.mod_lt _ (by omega)

/-! ## What the checks see -/

/-- Where as many cards of the hand go by the name of a useful one as copies of it are left, all of
them are copies of it. -/
def NamesApart (st : State) (hand : List ℕ) : Prop :=
  ∀ o ∈ hand, ∀ o' ∈ hand, ∀ id id', st.identityOf o = some id → st.identityOf o' = some id' →
    st.isBasicTrash id = false →
    (st.cardCount id : ℤ) - st.baseCount id = (hand.countP fun o => (st.identityOf o).map
      st.variant.logCard = some (st.variant.logCard id)) →
    st.variant.logCard id = st.variant.logCard id' → id = id'

theorem Consistent.namesApart (hc : Consistent st) (hnames : st.variant.DistinctNames)
    (hq : q < st.numPlayers) : NamesApart st (st.hands q) := by
  intro o ho o' ho' id id' hid hid' _ _ heq
  exact (hnames.logCard_inj (hc.valid o (State.mem_allOrders.2 ⟨q, hq, ho⟩) id hid)
    (hc.valid o' (State.mem_allOrders.2 ⟨q, hq, ho'⟩) id' hid')).1 heq

/-- An identity that must be played is the first of the group of its name. -/
theorem exists_group_of_mem_findMustPlays {hand : List ℕ} {id : Identity}
    (h : id ∈ findMustPlays st hand) :
    (∃ o ∈ hand, st.identityOf o = some id) ∧ st.isBasicTrash id = false ∧
      (st.cardCount id : ℤ) - st.baseCount id =
        hand.countP fun o => (st.identityOf o).map st.variant.logCard =
          some (st.variant.logCard id) := by
  rw [findMustPlays, List.mem_filterMap] at h
  obtain ⟨⟨key, group⟩, hmem, hid⟩ := h
  obtain ⟨-, hgroup⟩ := Utils.mem_groupBy.1 hmem
  dsimp only at hgroup hid
  split at hid
  · cases hid
  · rename_i id' hhead
    simp only [Option.ite_none_left_eq_some, Option.ite_none_right_eq_some,
      Option.some.injEq] at hid
    obtain ⟨huseful, hcount, rfl⟩ := hid
    obtain ⟨o, ho, hoid⟩ := Option.bind_eq_some_iff.1 hhead
    have hog : o ∈ group := List.mem_of_mem_head? ho
    rw [hgroup, List.mem_filter, hoid, decide_eq_true_eq] at hog
    refine ⟨⟨o, hog.1, hoid⟩, by simpa using huseful, hcount.trans ?_⟩
    rw [hgroup, List.countP_eq_length_filter, ← hog.2]
    rfl

/-- Where no other cards are counted, the hand holds all remaining copies of what must be played. -/
theorem NamesApart.of_mem_findMustPlays {hand : List ℕ} (happart : NamesApart st hand)
    {id : Identity} (h : id ∈ findMustPlays st hand) :
    (∃ o ∈ hand, st.identityOf o = some id) ∧ st.isBasicTrash id = false ∧
      (st.cardCount id : ℤ) - st.baseCount id =
        hand.countP fun o => st.identityOf o = some id := by
  obtain ⟨⟨o, ho, hoid⟩, huseful, hcount⟩ := exists_group_of_mem_findMustPlays h
  refine ⟨⟨o, ho, hoid⟩, huseful, hcount.trans ?_⟩
  refine congrArg Nat.cast (List.countP_congr fun o' ho' => ?_)
  simp only [decide_eq_true_eq]
  constructor
  · intro heq
    obtain ⟨id', hid', hname⟩ := Option.map_eq_some_iff.1 heq
    rw [hid', happart o ho o' ho' id id' hoid hid' huseful hcount hname.symm]
  · intro heq
    rw [heq]
    rfl

theorem nodup_findMustPlays (st : State) (hand : List ℕ) : (findMustPlays st hand).Nodup := by
  have hkeys := Utils.nodup_keys_groupBy hand fun o => (st.identityOf o).map st.variant.logCard
  refine List.Nodup.of_map (fun id => some (st.variant.logCard id)) (List.Nodup.sublist ?_ hkeys)
  -- the names of the identities found are among the keys of the groups
  have hgroups := fun x hx => (@Utils.mem_groupBy _ _ _ hand
    (fun o => (st.identityOf o).map st.variant.logCard) x).1 hx
  rw [findMustPlays]
  dsimp only
  clear hkeys
  generalize Utils.groupBy hand (fun o => (st.identityOf o).map st.variant.logCard) = groups
    at hgroups ⊢
  induction groups with
  | nil => exact List.Sublist.slnil
  | cons x l ih =>
    obtain ⟨key, group⟩ := x
    have hl := ih fun x hx => hgroups x (List.mem_cons_of_mem _ hx)
    have hgroup := (hgroups _ List.mem_cons_self).2
    rw [List.map_cons, List.filterMap_cons]
    split
    · exact hl.trans (List.sublist_cons_self _ _)
    · rename_i id hid
      dsimp only at hid hgroup
      split at hid
      · cases hid
      · rename_i id' hhead
        simp only [Option.ite_none_left_eq_some, Option.ite_none_right_eq_some,
          Option.some.injEq] at hid
        obtain ⟨o, ho, hoid⟩ := Option.bind_eq_some_iff.1 hhead
        have hog : o ∈ group := List.mem_of_mem_head? ho
        rw [hgroup, List.mem_filter, hoid, decide_eq_true_eq] at hog
        rw [List.map_cons, ← hid.2.2, ← hog.2]
        exact hl.cons_cons _

/-- What a player must play is locked in their hand. -/
theorem Consistent.findMustPlays_subset (hc : Consistent st) (hq : q < st.numPlayers)
    (happart : NamesApart st (st.hands q)) {id : Identity}
    (hid : id ∈ findMustPlays st (st.hands q)) : id ∈ locked st q := by
  obtain ⟨⟨o, ho, hoid⟩, huseful, hcount⟩ := happart.of_mem_findMustPlays hid
  have hmem : o ∈ st.allOrders := State.mem_allOrders.2 ⟨q, hq, ho⟩
  have hv := hc.valid o hmem id hoid
  have hcopies := hc.copies id hv
  have hperm := Counting.flatMap_perm (List.mem_range.2 hq) st.hands
  have hheld : st.heldCopies id = (st.hands q).countP (fun o => st.identityOf o = some id) +
      (((List.range st.numPlayers).erase q).flatMap st.hands).countP
        fun o => st.identityOf o = some id := by
    rw [State.heldCopies, State.allOrders, hperm.countP_eq, List.countP_append]
  rw [locked, Finset.mem_filter, mem_owed]
  refine ⟨⟨hv, huseful, fun r hr hrq o' ho' hid' => ?_⟩, by omega⟩
  have hpos : 0 < (((List.range st.numPlayers).erase q).flatMap st.hands).countP
      fun o => st.identityOf o = some id := by
    refine List.countP_pos_iff.2 ⟨o', List.mem_flatMap.2 ⟨r, ?_, ho'⟩, by simpa using hid'⟩
    exact (List.mem_erase_of_ne hrq).2 (List.mem_range.2 hr)
  omega

theorem Consistent.length_findMustPlays_le (hc : Consistent st) (hq : q < st.numPlayers)
    (happart : NamesApart st (st.hands q)) :
    (findMustPlays st (st.hands q)).length ≤ (locked st q).card := by
  rw [← List.toFinset_card_of_nodup (nodup_findMustPlays _ _)]
  exact Finset.card_le_card fun id hid =>
    hc.findMustPlays_subset hq happart (List.mem_toFinset.1 hid)

/-- The position is given up for want of time or of players who hold a useful card, without a
look at what must be played. -/
def OutOfTime (st : State) (p : ℕ) : Prop :=
  st.ended = true ∨ st.pace < voidCount st ∨
    st.endgameTurns ≠ -1 ∧ usefulTurns st p + st.score < st.maxScore

instance (st : State) (p : ℕ) : Decidable (OutOfTime st p) := by
  unfold OutOfTime
  infer_instance

theorem OutOfTime.lost (h : OutOfTime st p) (hc : Consistent st) (hne : st.ended = false) :
    Lost st p := by
  left
  rcases h with h | h | ⟨he, h⟩
  · rw [hne] at h
    cases h
  · have hcap : capacity st p ≤ st.cardsLeft + st.numPlayers - voidCount st := by
      rw [capacity]
      split
      · exact le_rfl
      · rename_i hleft
        rcases hc.clock with ⟨h, -⟩ | ⟨h0, -, hturns⟩
        · exact absurd h hleft
        · have := usefulTurns_le hturns p
          omega
    rw [State.pace] at h
    omega
  · obtain ⟨hleft, -⟩ := hc.clock.resolve_left fun h => he h.2
    rw [capacity, if_neg (by omega)]
    omega

/-- Each check of the final round shows that the position is lost. -/
theorem lost_of_finalRoundLost (hc : Consistent st) (hp : p < st.numPlayers)
    (happart : ∀ q < st.numPlayers, NamesApart st (st.hands q)) (he : st.endgameTurns ≠ -1)
    (hne : st.ended = false)
    (h : finalRoundLost st p ((List.range st.numPlayers).filter (isVoid st))
      ((List.range st.numPlayers).map fun i => findMustPlays st (st.hands i)) = true) :
    Lost st p := by
  obtain ⟨hleft, -, hturns⟩ := hc.clock.resolve_left fun h => he h.2
  have hmod : ∀ i, (p + i) % st.numPlayers < st.numPlayers := fun i => Nat.mod_lt _ (by omega)
  simp only [finalRoundLost, Bool.or_eq_true, decide_eq_true_eq, List.any_eq_true,
    List.mem_range] at h
  rcases h with h | ⟨i, hi, h⟩
  · have hfilter : ((List.range st.endgameTurns.toNat).filter fun i =>
          !((List.range st.numPlayers).filter (isVoid st)).contains ((p + i) % st.numPlayers)) =
        (List.range st.endgameTurns.toNat).filter
          fun i => !isVoid st ((p + i) % st.numPlayers) := by
      refine List.filter_congr fun i _ => ?_
      rw [Bool.eq_iff_iff]
      simp [hmod i]
    rw [hfilter, ← List.countP_eq_length_filter] at h
    exact OutOfTime.lost (.inr (.inr ⟨he, h⟩)) hc hne
  · right
    have hget : (((List.range st.numPlayers).map fun i =>
        findMustPlays st (st.hands i)).getD ((p + i) % st.numPlayers) []) =
          findMustPlays st (st.hands ((p + i) % st.numPlayers)) := by
      rw [List.getD_eq_getElem _ _ (by simpa using hmod i)]
      simp
    rw [hget] at h
    have hlen := hc.length_findMustPlays_le (hmod i) (happart _ (hmod i))
    have hcard : (locked st ((p + i) % st.numPlayers)).card ≤
        (owed st ((p + i) % st.numPlayers)).card := Finset.card_filter_le _ _
    have hone := turnsLeft_le_one (p := p) (q := (p + i) % st.numPlayers) hturns
    exact Or.inl ⟨hleft, _, hmod i, by omega⟩

/-- Two players who must both start the final round cannot. -/
theorem lost_of_findIndices (hc : Consistent st)
    (happart : ∀ q < st.numPlayers, NamesApart st (st.hands q)) (hleft : st.cardsLeft = 1)
    {q₁ q₂ : ℕ} {rest : List ℕ} (h : Utils.findIndices ((List.range st.numPlayers).map fun i =>
      findMustPlays st (st.hands i)) (fun ids => decide (1 < ids.length)) = q₁ :: q₂ :: rest) :
    Lost st p := by
  have hnodup := h ▸ Utils.nodup_findIndices ((List.range st.numPlayers).map fun i =>
      findMustPlays st (st.hands i)) (fun ids => decide (1 < ids.length))
  have hlocked : ∀ q ∈ q₁ :: q₂ :: rest, q < st.numPlayers ∧ 1 < (locked st q).card := by
    intro q hq
    rw [← h] at hq
    obtain ⟨hlt, hlen⟩ := Utils.mem_findIndices.1 hq
    rw [List.length_map, List.length_range] at hlt
    rw [List.getElem_map, List.getElem_range, decide_eq_true_eq] at hlen
    exact ⟨hlt, hlen.trans_le (hc.length_findMustPlays_le hlt (happart q hlt))⟩
  obtain ⟨hq₁, hcard₁⟩ := hlocked q₁ (by simp)
  obtain ⟨hq₂, hcard₂⟩ := hlocked q₂ (by simp)
  have hne : q₁ ≠ q₂ := fun heq => by simp [heq] at hnodup
  exact Or.inr (Or.inr ⟨hleft, q₁, hq₁, q₂, hq₂, hne, hcard₁, hcard₂⟩)

/-- A position that `unwinnable_state` gives up on has ended or is lost, if names tell the cards
of each hand apart. -/
theorem lost_of_unwinnableState (hc : Consistent st) (hp : p < st.numPlayers)
    (happart : ∀ q < st.numPlayers, NamesApart st (st.hands q))
    (h : unwinnableState st p = true) (hne : st.ended = false) : Lost st p := by
  rw [unwinnableState] at h
  split at h
  · rename_i hearly
    rcases hearly with hended | hlow
    · rw [hne] at hended
      cases hended
    · exact OutOfTime.lost (.inr (.inl (by omega))) hc hne
  · simp only at h
    split at h
    · rename_i hvoid
      rw [← List.countP_eq_length_filter] at hvoid
      exact OutOfTime.lost (.inr (.inl hvoid)) hc hne
    · split at h
      · rename_i hfinal
        exact lost_of_finalRoundLost hc hp happart hfinal.1 hne hfinal.2
      · split at h
        · rename_i hone
          split at h
          · cases h
          · split at h <;> cases h
          · rename_i hnil hsingle
            obtain ⟨q₁, q₂, rest, heq⟩ : ∃ q₁ q₂ rest, Utils.findIndices
                ((List.range st.numPlayers).map fun i => findMustPlays st (st.hands i))
                (fun ids => decide (1 < ids.length)) = q₁ :: q₂ :: rest := by
              match hl : Utils.findIndices
                ((List.range st.numPlayers).map fun i => findMustPlays st (st.hands i))
                (fun ids => decide (1 < ids.length)) with
              | [] => exact absurd hl hnil
              | [q] => exact absurd hl (hsingle q)
              | q₁ :: q₂ :: rest => exact ⟨q₁, q₂, rest, rfl⟩
            exact lost_of_findIndices hc happart hone heq
        · cases h

end

end Endgame

end HanabiBot
