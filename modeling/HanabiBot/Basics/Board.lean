import HanabiBot.Basics.State

/-!
# Conservation on the board

A game is played with a `Deck`: an identity for every card order, with the
variant's multiplicities.  `Legal` says which actions the rules of Hanabi allow
in a state, and `Run` collects the states that legal actions reach from a fresh
`State`.  The four handlers each change a different subset of ten linked
counters; `BoardInv` is the inductive invariant that ties them together, and
`Run.boardInv` says that it holds in every reachable state.

The order of the actions is left as free as the counters allow: a draw may be
delayed, and any player may act.  Every legal run of the game is among the runs.
-/

namespace HanabiBot

/-- The shuffled deck: which identity each card order stands for. -/
structure Deck (v : Variant) where
  suits_ne : v.suits ≠ []
  truth : ℕ → Identity
  truth_valid : ∀ o < v.deckSize, (truth o).Valid v
  count_truth : ∀ id : Identity, id.Valid v →
    (List.range v.deckSize).countP (fun o => truth o = id) = v.cardCount id

variable {v : Variant}

namespace Deck

/-- The cards of the whole deck, sorted. -/
def sortedCards (v : Variant) : List Identity :=
  v.allIdentities.flatMap fun id => List.replicate (v.cardCount id) id

theorem length_sortedCards (v : Variant) : (sortedCards v).length = v.deckSize := by
  simp [sortedCards, Variant.deckSize, List.length_flatMap]

theorem mem_sortedCards {id : Identity} (h : id ∈ sortedCards v) : id.Valid v := by
  obtain ⟨id', hid', hrep⟩ := List.mem_flatMap.1 h
  rw [List.eq_of_mem_replicate hrep]
  exact Variant.mem_allIdentities.1 hid'

theorem count_sortedCards {id : Identity} (h : id.Valid v) :
    (sortedCards v).count id = v.cardCount id := by
  rw [sortedCards, List.count_flatMap]
  have hperm := List.perm_cons_erase (Variant.mem_allIdentities.2 h)
  rw [(hperm.map _).sum_eq, List.map_cons, List.sum_cons]
  have hrest : ((v.allIdentities.erase id).map
      (List.count id ∘ fun id => List.replicate (v.cardCount id) id)).sum = 0 := by
    refine List.sum_eq_zero fun n hn => ?_
    obtain ⟨id', hid', rfl⟩ := List.mem_map.1 hn
    have hne : id' ≠ id := by
      rintro rfl
      exact (Variant.nodup_allIdentities v).not_mem_erase hid'
    simp [List.count_replicate, hne]
  rw [hrest]
  simp

/-- A shuffle of the deck, given as the list of its cards from the first drawn on. -/
def ofList (hv : v.suits ≠ []) (l : List Identity) (h : l.Perm (sortedCards v)) : Deck v where
  suits_ne := hv
  truth o := l.getD o ⟨0, 0⟩
  truth_valid o ho := by
    rw [← length_sortedCards, ← h.length_eq] at ho
    rw [List.getD_eq_getElem _ _ ho]
    exact mem_sortedCards (h.mem_iff.1 (List.getElem_mem ho))
  count_truth id hid := by
    have hmap : (List.range v.deckSize).map (fun o => l.getD o ⟨0, 0⟩) = l := by
      rw [← length_sortedCards, ← h.length_eq]
      refine List.ext_getElem (by simp) fun i h1 h2 => ?_
      simp [h2]
    have hcount := count_sortedCards hid
    rw [← h.count_eq, ← hmap, List.count, List.countP_map] at hcount
    exact hcount

end Deck

/-- The actions the rules allow in a state. The identity of a drawn card may be
hidden, that of a played or discarded card is the true one. -/
def Legal (dk : Deck v) (st : State) : Action → Prop
  | .clue giver target list clue =>
      st.endgameTurns ≠ 0 ∧ 0 < st.clueTokens ∧ giver < st.numPlayers ∧ target < st.numPlayers ∧
        list = (st.hands target).filter fun o => v.cardTouched (dk.truth o) clue
  | .draw order playerIndex identity =>
      0 < st.cardsLeft ∧ (order : ℤ) = st.cardOrder + 1 ∧ playerIndex < st.numPlayers ∧
        ((st.hands playerIndex).length : ℤ) < st.handSize ∧
        (identity = none ∨ identity = some (dk.truth order))
  | .play order playerIndex identity =>
      st.endgameTurns ≠ 0 ∧ playerIndex < st.numPlayers ∧ order ∈ st.hands playerIndex ∧
        identity = some (dk.truth order) ∧ st.isPlayable (dk.truth order) = true
  | .discard order playerIndex identity failed =>
      st.endgameTurns ≠ 0 ∧ playerIndex < st.numPlayers ∧ order ∈ st.hands playerIndex ∧
        identity = some (dk.truth order) ∧
        if failed then st.isPlayable (dk.truth order) = false else st.clueTokens < 8
  | .turn .. => False

instance (dk : Deck v) (st : State) (a : Action) : Decidable (Legal dk st a) := by
  cases a <;> unfold Legal <;> infer_instance

/-- `deck_ids` holds only true identities. -/
def TruthfulIds (dk : Deck v) (deckIds : SparseArray Identity) : Prop :=
  ∀ o id, deckIds.get o = some id → id = dk.truth o

/-- The states reached from a fresh one by legal actions, with the actions taken,
the latest first. -/
inductive Run (dk : Deck v) (numPlayers ourPlayerIndex : ℕ) (options : TableOptions) :
    List Action → State → Prop
  | fresh : Run dk numPlayers ourPlayerIndex options []
      (State.fresh v numPlayers ourPlayerIndex options)
  | step {acts : List Action} {st st' : State} {a : Action} {deckIds : SparseArray Identity} :
      Run dk numPlayers ourPlayerIndex options acts st → Legal dk st a → TruthfulIds dk deckIds →
      Basics.onAction st deckIds a = some st' →
      Run dk numPlayers ourPlayerIndex options (a :: acts) st'

/-- Some actions are legal one after the other, and their handlers return. -/
def legalAll (dk : Deck v) : State → List Action → Bool
  | _, [] => true
  | st, a :: acts => decide (Legal dk st a) && decide (¬ Basics.TakesOnlyCard st a) &&
      legalAll dk (Basics.after st .empty a) acts

/-- A run goes on with legal actions. -/
theorem Run.append {dk : Deck v} {n our : ℕ} {options : TableOptions} {acts : List Action}
    {st : State} (h : Run dk n our options acts st) {next : List Action}
    (hl : legalAll dk st next = true) :
    ∃ acts', Run dk n our options acts' (next.foldl (Basics.after · .empty) st) := by
  induction next generalizing acts st with
  | nil => exact ⟨acts, h⟩
  | cons a next ih =>
    simp only [legalAll, Bool.and_eq_true, decide_eq_true_eq] at hl
    obtain ⟨⟨hlegal, hreturns⟩, hrest⟩ := hl
    have htruthful : TruthfulIds dk .empty := fun _ _ hd => by cases hd
    exact ih (h.step hlegal htruthful (Basics.onAction_of_not_takesOnlyCard hreturns _)) hrest

/-- The number of turns taken since the last draw. -/
def turnsSinceDraw (acts : List Action) : ℕ := (acts.takeWhile fun a => !a.isDraw).length

namespace State

/-- The copies of an identity in the hands, by their true identities. -/
def handCopies (dk : Deck v) (st : State) (id : Identity) : ℕ :=
  st.allOrders.countP fun o => dk.truth o = id

/-- The copies of an identity among the cards drawn so far. -/
def drawnCopies (dk : Deck v) (st : State) (id : Identity) : ℕ :=
  (List.range (st.cardOrder + 1).toNat).countP fun o => dk.truth o = id

/-- The sum of the discard stacks. -/
def totalDiscarded (st : State) : ℕ := (st.variant.allIdentities.map st.discardStacks).sum

/-- The maximum rank that the discards leave a suit: the ranks it may be limited
to are 5 and one less than any rank whose copies are all discarded. -/
def rankLimits (st : State) (s : ℕ) : Set ℕ :=
  {m | m = 5 ∨ ∃ r, 1 ≤ r ∧ r ≤ 5 ∧ st.discardStacks ⟨s, r⟩ = st.cardCount ⟨s, r⟩ ∧ m = r - 1}

end State

/-- What ties the counters of the board together. -/
structure BoardInv (dk : Deck v) (acts : List Action) (st : State) : Prop where
  variant_eq : st.variant = v
  cardOrder_ge : -1 ≤ st.cardOrder
  cardsLeft_eq : st.cardsLeft = v.deckSize - (st.cardOrder + 1)
  cardsLeft_nonneg : 0 ≤ st.cardsLeft
  nodup : st.allOrders.Nodup
  order_le : ∀ o ∈ st.allOrders, (o : ℤ) ≤ st.cardOrder
  deck_isSome : ∀ o : ℕ, (st.deck.get o).isSome ↔ (o : ℤ) ≤ st.cardOrder
  hand_le : ∀ p, st.hands p = [] ∨ ((st.hands p).length : ℤ) ≤ st.handSize
  identityOf_eq : ∀ o id, st.identityOf o = some id → id = dk.truth o
  copies : ∀ id : Identity, id.Valid v →
    st.baseCount id + st.handCopies dk id = st.drawnCopies dk id
  stack_le : ∀ s, st.playStacks s ≤ 5
  maxRanks_isLeast : ∀ s < v.suits.length, IsLeast (st.rankLimits s) (st.maxRanks s)
  tokens : 0 ≤ st.clueTokens ∧ st.clueTokens ≤ 8
  endgame : (0 < st.cardsLeft ∧ st.endgameTurns = -1) ∨
    (st.cardsLeft = 0 ∧ 0 ≤ st.endgameTurns ∧
      st.endgameTurns = st.numPlayers - turnsSinceDraw acts)
  conserved : st.cardsLeft + st.allOrders.length + st.score + st.totalDiscarded = v.deckSize

/-! ## One step keeps the invariant -/

namespace BoardInv

variable {dk : Deck v} {acts : List Action} {st : State}

theorem order_lt_deckSize (h : BoardInv dk acts st) {o : ℕ} (ho : (o : ℤ) ≤ st.cardOrder) :
    o < v.deckSize := by
  have h1 := h.cardsLeft_eq
  have h2 := h.cardsLeft_nonneg
  omega

theorem truth_valid (h : BoardInv dk acts st) {o : ℕ} (ho : o ∈ st.allOrders) :
    (dk.truth o).Valid v :=
  dk.truth_valid o (h.order_lt_deckSize (h.order_le o ho))

/-- No more copies are drawn than there are. -/
theorem drawnCopies_le (h : BoardInv dk acts st) {id : Identity} (hid : id.Valid v) :
    st.drawnCopies dk id ≤ v.cardCount id := by
  rw [← dk.count_truth id hid]
  refine List.Sublist.countP_le ?_
  refine List.range_sublist.2 ?_
  have h1 := h.cardsLeft_eq
  have h2 := h.cardsLeft_nonneg
  omega

/-- Played, discarded and held copies of an identity number at most its multiplicity. -/
theorem copies_le (h : BoardInv dk acts st) {id : Identity} (hid : id.Valid v) :
    st.baseCount id + st.handCopies dk id ≤ v.cardCount id := by
  rw [h.copies id hid]
  exact h.drawnCopies_le hid

/-- A card in hand is a copy that is neither played nor discarded. -/
theorem baseCount_lt (h : BoardInv dk acts st) {o : ℕ} (ho : o ∈ st.allOrders) :
    st.baseCount (dk.truth o) < v.cardCount (dk.truth o) := by
  have h1 := h.copies_le (h.truth_valid ho)
  have h2 : 0 < st.handCopies dk (dk.truth o) := List.countP_pos_iff.2 ⟨o, ho, by simp⟩
  omega

/-- A suit's stack never passes its maximum rank. -/
theorem playStacks_le_maxRanks (h : BoardInv dk acts st) {s : ℕ} (hs : s < v.suits.length) :
    st.playStacks s ≤ st.maxRanks s := by
  rcases (h.maxRanks_isLeast s hs).1 with h5 | ⟨r, hr1, hr5, hex, hm⟩
  · rw [h5]; exact h.stack_le s
  · by_contra hlt
    -- rank `r` would be on the stack, and all its copies discarded
    have hid : (⟨s, r⟩ : Identity).Valid v := ⟨hs, hr1, hr5⟩
    have hle : r ≤ st.playStacks s := by omega
    have h1 := h.copies_le hid
    rw [State.cardCount, h.variant_eq] at hex
    simp only [State.baseCount, hle, if_true] at h1
    omega

/-- The final round after a turn that draws nothing. -/
theorem endgame_tick (h : BoardInv dk acts st) (hne : st.endgameTurns ≠ 0) {a : Action}
    (ha : a.isDraw = false) :
    (0 < st.cardsLeft ∧ Basics.tick st.endgameTurns = -1) ∨
      (st.cardsLeft = 0 ∧ 0 ≤ Basics.tick st.endgameTurns ∧
        Basics.tick st.endgameTurns = st.numPlayers - turnsSinceDraw (a :: acts)) := by
  have hturns : turnsSinceDraw (a :: acts) = turnsSinceDraw acts + 1 := by
    simp [turnsSinceDraw, ha]
  rcases h.endgame with ⟨hc, he⟩ | ⟨hc, h0, he⟩
  · exact Or.inl ⟨hc, by rw [he, Basics.tick_neg_one]⟩
  · refine Or.inr ⟨hc, ?_⟩
    rw [Basics.tick_of_ne (by omega), hturns]
    push_cast
    omega

theorem onClue (h : BoardInv dk acts st) {giver target : ℕ} {list : List ℕ} {clue : BaseClue}
    (hl : Legal dk st (.clue giver target list clue)) :
    BoardInv dk (.clue giver target list clue :: acts) (Basics.onClue st) := by
  obtain ⟨hne, htok, -⟩ := hl
  refine { h with tokens := ?_, endgame := h.endgame_tick hne rfl }
  have := h.tokens
  simp only [Basics.onClue]
  omega

theorem onDraw (h : BoardInv dk acts st) {order p : ℕ} {identity deckId : Option Identity}
    (hd : ∀ id, deckId = some id → id = dk.truth order)
    (hl : Legal dk st (.draw order p identity)) :
    BoardInv dk (.draw order p identity :: acts) (Basics.onDraw st deckId order p identity) := by
  obtain ⟨hc, ho, hp, hsize, hid⟩ := hl
  have hperm := Basics.allOrders_onDraw hp deckId order identity
  have hfresh : order ∉ st.allOrders := fun hm => by
    have := h.order_le order hm
    omega
  have hleft := h.cardsLeft_eq
  refine
    { variant_eq := h.variant_eq
      cardOrder_ge := ?_
      cardsLeft_eq := ?_
      cardsLeft_nonneg := ?_
      nodup := hperm.nodup_iff.2 (List.nodup_cons.2 ⟨hfresh, h.nodup⟩)
      order_le := ?_
      deck_isSome := ?_
      hand_le := ?_
      identityOf_eq := ?_
      copies := ?_
      stack_le := h.stack_le
      maxRanks_isLeast := h.maxRanks_isLeast
      tokens := h.tokens
      endgame := ?_
      conserved := ?_ }
  · simp only [Basics.onDraw]; omega
  · simp only [Basics.onDraw]; omega
  · simp only [Basics.onDraw]; omega
  · intro o hm
    simp only [Basics.onDraw]
    rcases List.mem_cons.1 (hperm.mem_iff.1 hm) with rfl | hm
    · exact le_rfl
    · have := h.order_le o hm
      omega
  · intro o
    simp only [Basics.onDraw, SparseArray.get_set]
    by_cases hoo : o = order
    · rw [if_pos hoo, hoo]; simp
    · rw [if_neg hoo, h.deck_isSome]; omega
  · intro q
    by_cases hq : q = p
    · right
      subst hq
      simp only [Basics.onDraw, Function.update_self, List.length_cons]
      push_cast
      exact hsize
    · simp only [Basics.onDraw, Function.update_of_ne hq]
      exact h.hand_le q
  · intro o id hget
    simp only [State.identityOf, Basics.onDraw, SparseArray.get_set] at hget
    by_cases hoo : o = order
    · subst hoo
      rw [if_pos rfl] at hget
      cases deckId with
      | some id' => exact (Option.some.inj hget) ▸ hd _ rfl
      | none =>
        rcases hid with rfl | rfl
        · simp at hget
        · exact (Option.some.inj hget).symm
    · rw [if_neg hoo] at hget
      exact h.identityOf_eq o id hget
  · intro id hv
    have h1 := h.copies id hv
    have h2 := hperm.countP_eq fun o => decide (dk.truth o = id)
    have h3 : (st.cardOrder + 1).toNat = order := by omega
    have h4 : ((order : ℤ) + 1).toNat = order + 1 := by omega
    rw [State.drawnCopies, h3, State.handCopies] at h1
    rw [State.drawnCopies, State.handCopies, h2, List.countP_cons]
    simp only [Basics.onDraw, h4, List.range_succ, List.countP_append, List.countP_singleton]
    rw [← Nat.add_assoc]
    exact congrArg (· + _) h1
  · simp only [Basics.onDraw]
    by_cases h0 : st.cardsLeft - 1 = 0
    · refine Or.inr ⟨h0, ?_⟩
      rw [if_pos h0, turnsSinceDraw, List.takeWhile_cons_of_neg (by simp [Action.isDraw])]
      simp
    · rw [if_neg h0]
      rcases h.endgame with ⟨-, he⟩ | ⟨he, -⟩
      · exact Or.inl ⟨by omega, he⟩
      · omega
  · have h1 := h.conserved
    have h2 := hperm.length_eq
    rw [h2, List.length_cons]
    simp only [State.score, State.totalDiscarded, Basics.onDraw, Nat.cast_add, Nat.cast_one]
      at h1 ⊢
    omega

theorem identityOf_reveal (h : BoardInv dk acts st) (order o : ℕ) (id : Identity)
    (hget : ((Basics.revealCard st.deck order (some (dk.truth order))).get o).bind
      ActualCard.identity = some id) : id = dk.truth o := by
  rw [Basics.revealCard, SparseArray.get_set] at hget
  by_cases hoo : o = order
  · subst hoo
    rw [if_pos rfl] at hget
    exact (Option.some.inj hget).symm
  · rw [if_neg hoo] at hget
    exact h.identityOf_eq o id hget

theorem deck_isSome_reveal (h : BoardInv dk acts st) {order : ℕ} (ho : (order : ℤ) ≤ st.cardOrder)
    (identity : Option Identity) (o : ℕ) :
    ((Basics.revealCard st.deck order identity).get o).isSome ↔ (o : ℤ) ≤ st.cardOrder := by
  cases identity with
  | none => exact h.deck_isSome o
  | some id =>
    rw [Basics.revealCard, SparseArray.get_set]
    by_cases hoo : o = order
    · rw [if_pos hoo, hoo]; simpa using ho
    · rw [if_neg hoo, h.deck_isSome]

theorem hand_le_removeCard (h : BoardInv dk acts st) {order p : ℕ} (ho : order ∈ st.hands p)
    (q : ℕ) : Basics.removeCard st.hands p order q = [] ∨
      ((Basics.removeCard st.hands p order q).length : ℤ) ≤ st.handSize := by
  by_cases hq : q = p
  · subst hq
    rw [Basics.removeCard_self, Basics.spliceOut_of_mem ho]
    rcases h.hand_le q with hnil | hle
    · rw [hnil] at ho; simp at ho
    · have := List.length_erase_le (a := order) (l := st.hands q)
      right; omega
  · rw [Basics.removeCard_of_ne _ hq]
    exact h.hand_le q

/-- Of the copies in hand, a card that leaves its hand takes one with it. -/
theorem copies_of_perm (h : BoardInv dk acts st) {order : ℕ} {l : List ℕ}
    (hperm : st.allOrders.Perm (order :: l)) {id : Identity} (hv : id.Valid v) :
    st.baseCount id + (l.countP (fun o => dk.truth o = id) + if dk.truth order = id then 1 else 0) =
      st.drawnCopies dk id := by
  have h1 := hperm.countP_eq fun o => decide (dk.truth o = id)
  rw [List.countP_cons] at h1
  rw [← h.copies id hv, State.handCopies, h1]
  simp

/-- A successful play adds one copy of the card to the stacks. -/
theorem baseCount_afterPlay {t : Identity} (hrank : t.rank = st.playStacks t.suitIndex + 1)
    (order p : ℕ) (id : Identity) :
    (Basics.afterPlay st order p (some t)).baseCount id =
      st.baseCount id + if t = id then 1 else 0 := by
  have hdiscards : (Basics.afterPlay st order p (some t)).discardStacks = st.discardStacks := rfl
  have hstacks : (Basics.afterPlay st order p (some t)).playStacks =
      Function.update st.playStacks t.suitIndex t.rank := rfl
  rw [State.baseCount, State.baseCount, hdiscards, hstacks]
  by_cases hsuit : id.suitIndex = t.suitIndex
  · rw [hsuit, Function.update_self]
    by_cases heq : t = id
    · subst heq
      simp [hrank, Nat.add_comm]
    · -- another rank of the same suit: on the stack before exactly if it is now
      have hr : id.rank ≠ t.rank := fun hr => heq (Identity.ext hsuit hr).symm
      have hiff : id.rank ≤ t.rank ↔ id.rank ≤ st.playStacks t.suitIndex := by omega
      simp only [hiff, heq, if_false, Nat.add_zero]
  · have heq : t ≠ id := fun heq => hsuit (by rw [heq])
    rw [Function.update_of_ne hsuit, if_neg heq, Nat.add_zero]

/-- So does a discard. -/
theorem baseCount_afterDiscard (st : State) (t : Identity) (order p : ℕ) (failed : Bool) (id : Identity) :
    (Basics.afterDiscard st order p (some t) failed).baseCount id =
      st.baseCount id + if t = id then 1 else 0 := by
  have hstacks : (Basics.afterDiscard st order p (some t) failed).playStacks = st.playStacks := rfl
  have hdiscards : (Basics.afterDiscard st order p (some t) failed).discardStacks =
      Function.update st.discardStacks t (st.discardStacks t + 1) := rfl
  rw [State.baseCount, State.baseCount, hdiscards, hstacks]
  by_cases heq : t = id
  · subst heq
    rw [Function.update_self, if_pos (rfl : t = t), Nat.add_assoc]
  · rw [Function.update_of_ne (Ne.symm heq), if_neg heq, Nat.add_zero]

theorem afterPlay (h : BoardInv dk acts st) {order p : ℕ} {identity : Option Identity}
    (hl : Legal dk st (.play order p identity)) :
    BoardInv dk (.play order p identity :: acts) (Basics.afterPlay st order p identity) := by
  obtain ⟨hne, hp, ho, rfl, hplay⟩ := hl
  have hperm := Basics.allOrders_afterPlay hp ho (some (dk.truth order))
  have hmem : order ∈ st.allOrders := hperm.mem_iff.2 List.mem_cons_self
  have hv := h.truth_valid hmem
  have hrank : (dk.truth order).rank = st.playStacks (dk.truth order).suitIndex + 1 := by
    simpa [State.isPlayable] using hplay
  refine
    { variant_eq := h.variant_eq
      cardOrder_ge := h.cardOrder_ge
      cardsLeft_eq := h.cardsLeft_eq
      cardsLeft_nonneg := h.cardsLeft_nonneg
      nodup := (List.nodup_cons.1 (hperm.nodup_iff.1 h.nodup)).2
      order_le := fun o hm => h.order_le o (hperm.mem_iff.2 (List.mem_cons_of_mem _ hm))
      deck_isSome := h.deck_isSome_reveal (h.order_le order hmem) (some (dk.truth order))
      hand_le := h.hand_le_removeCard ho
      identityOf_eq := h.identityOf_reveal order
      copies := ?_
      stack_le := ?_
      maxRanks_isLeast := h.maxRanks_isLeast
      tokens := ?_
      endgame := h.endgame_tick hne rfl
      conserved := ?_ }
  · intro id hid
    refine Eq.trans ?_ (h.copies_of_perm hperm hid)
    rw [baseCount_afterPlay hrank, State.handCopies]
    omega
  · intro s
    simp only [Basics.afterPlay]
    by_cases hs : s = (dk.truth order).suitIndex
    · rw [hs, Function.update_self]; exact hv.2.2
    · rw [Function.update_of_ne hs]; exact h.stack_le s
  · have := h.tokens
    simp only [Basics.afterPlay]
    split <;> omega
  · have h1 := h.conserved
    rw [hperm.length_eq, List.length_cons] at h1
    have hs : (dk.truth order).suitIndex ∈ Finset.range st.variant.suits.length := by
      rw [Finset.mem_range, h.variant_eq]; exact hv.1
    have h2 := Counting.sum_update hs st.playStacks (dk.truth order).rank
    have h3 : (Basics.afterPlay st order p (some (dk.truth order))).score = st.score + 1 := by
      simp only [State.score, Basics.afterPlay]
      omega
    have h4 : (Basics.afterPlay st order p (some (dk.truth order))).totalDiscarded =
        st.totalDiscarded := rfl
    rw [h3, h4]
    simp only [Nat.cast_add, Nat.cast_one, Basics.afterPlay] at h1 ⊢
    omega

/-- The maximum ranks after a discard are again the least of the limits. -/
theorem isLeast_afterDiscard (h : BoardInv dk acts st) {order p : ℕ} {failed : Bool}
    (hm : order ∈ st.allOrders) {s : ℕ} (hs : s < v.suits.length) :
    IsLeast ((Basics.afterDiscard st order p (some (dk.truth order)) failed).rankLimits s)
      ((Basics.afterDiscard st order p (some (dk.truth order)) failed).maxRanks s) := by
  have hv := h.truth_valid hm
  have hlt := h.baseCount_lt hm
  have hold := h.maxRanks_isLeast s hs
  set t := dk.truth order with ht
  have hcount : st.discardStacks t < v.cardCount t := by
    simp only [State.baseCount] at hlt
    omega
  by_cases hst : s = t.suitIndex ∧ st.discardStacks t + 1 = v.cardCount t
  · -- the last copy: one more limit
    obtain ⟨rfl, hlast⟩ := hst
    have hset : (Basics.afterDiscard st order p (some t) failed).rankLimits t.suitIndex =
        insert (t.rank - 1) (st.rankLimits t.suitIndex) := by
      ext m
      simp only [State.rankLimits, Set.mem_insert_iff, Set.mem_ofPred_eq, Basics.afterDiscard,
        State.cardCount, h.variant_eq]
      constructor
      · rintro (rfl | ⟨r, h1, h5, hex, rfl⟩)
        · exact Or.inr (Or.inl rfl)
        · by_cases hr : r = t.rank
          · exact Or.inl (by rw [hr])
          · rw [Function.update_of_ne (fun he => hr (congrArg Identity.rank he))] at hex
            exact Or.inr (Or.inr ⟨r, h1, h5, hex, rfl⟩)
      · rintro (rfl | rfl | ⟨r, h1, h5, hex, rfl⟩)
        · refine Or.inr ⟨t.rank, hv.2.1, hv.2.2, ?_, rfl⟩
          rw [show (⟨t.suitIndex, t.rank⟩ : Identity) = t from rfl, Function.update_self, hlast]
        · exact Or.inl rfl
        · refine Or.inr ⟨r, h1, h5, ?_, rfl⟩
          rw [Function.update_of_ne ?_]
          · exact hex
          · intro he
            rw [he] at hex
            omega
    have hmax : (Basics.afterDiscard st order p (some t) failed).maxRanks t.suitIndex =
        min (t.rank - 1) (st.maxRanks t.suitIndex) := by
      simp only [Basics.afterDiscard, State.cardCount, h.variant_eq, hlast, if_true,
        Function.update_self]
      exact min_comm _ _
    rw [hset, hmax]
    exact hold.insert _
  · -- no limit comes or goes
    have hmax : (Basics.afterDiscard st order p (some t) failed).maxRanks s = st.maxRanks s := by
      simp only [Basics.afterDiscard, State.cardCount, h.variant_eq]
      split
      · rename_i hlast
        rw [Function.update_of_ne (fun he => hst ⟨he, hlast⟩)]
      · rfl
    have hset : (Basics.afterDiscard st order p (some t) failed).rankLimits s = st.rankLimits s := by
      ext m
      simp only [State.rankLimits, Set.mem_ofPred_eq, Basics.afterDiscard, State.cardCount,
        h.variant_eq]
      refine or_congr_right (exists_congr fun r => and_congr_right fun _ => and_congr_right fun _ =>
        and_congr_left fun _ => ?_)
      by_cases he : (⟨s, r⟩ : Identity) = t
      · rw [he, Function.update_self]
        have : s = t.suitIndex := congrArg Identity.suitIndex he
        have hne : st.discardStacks t + 1 ≠ v.cardCount t := fun hl => hst ⟨this, hl⟩
        omega
      · rw [Function.update_of_ne he]
    rw [hset, hmax]
    exact hold

theorem afterDiscard (h : BoardInv dk acts st) {order p : ℕ} {identity : Option Identity}
    {failed : Bool} (hl : Legal dk st (.discard order p identity failed)) :
    BoardInv dk (.discard order p identity failed :: acts)
      (Basics.afterDiscard st order p identity failed) := by
  obtain ⟨hne, hp, ho, rfl, htok⟩ := hl
  have hperm := Basics.allOrders_afterDiscard hp ho (some (dk.truth order)) failed
  have hmem : order ∈ st.allOrders := hperm.mem_iff.2 List.mem_cons_self
  have hv := h.truth_valid hmem
  refine
    { variant_eq := h.variant_eq
      cardOrder_ge := h.cardOrder_ge
      cardsLeft_eq := h.cardsLeft_eq
      cardsLeft_nonneg := h.cardsLeft_nonneg
      nodup := (List.nodup_cons.1 (hperm.nodup_iff.1 h.nodup)).2
      order_le := fun o hm => h.order_le o (hperm.mem_iff.2 (List.mem_cons_of_mem _ hm))
      deck_isSome := h.deck_isSome_reveal (h.order_le order hmem) (some (dk.truth order))
      hand_le := h.hand_le_removeCard ho
      identityOf_eq := h.identityOf_reveal order
      copies := ?_
      stack_le := h.stack_le
      maxRanks_isLeast := fun s hs => h.isLeast_afterDiscard hmem hs
      tokens := ?_
      endgame := h.endgame_tick hne rfl
      conserved := ?_ }
  · intro id hid
    refine Eq.trans ?_ (h.copies_of_perm hperm hid)
    rw [baseCount_afterDiscard, State.handCopies]
    omega
  · have := h.tokens
    simp only [Basics.afterDiscard]
    cases failed
    · simp only [Bool.false_eq_true, if_false] at htok ⊢
      omega
    · simpa using this
  · have h1 := h.conserved
    rw [hperm.length_eq, List.length_cons] at h1
    have hall : dk.truth order ∈ st.variant.allIdentities := by
      rw [Variant.mem_allIdentities, h.variant_eq]; exact hv
    have h2 := Counting.sum_map_update hall (Variant.nodup_allIdentities _) st.discardStacks 1
    have h3 : (Basics.afterDiscard st order p (some (dk.truth order)) failed).totalDiscarded =
        st.totalDiscarded + 1 := h2
    have h4 : (Basics.afterDiscard st order p (some (dk.truth order)) failed).score = st.score := rfl
    rw [h3, h4]
    simp only [Nat.cast_add, Nat.cast_one, Basics.afterDiscard] at h1 ⊢
    omega

/-- A legal action keeps the invariant. -/
theorem step (h : BoardInv dk acts st) {a : Action} {deckIds : SparseArray Identity}
    (hd : TruthfulIds dk deckIds) (hl : Legal dk st a) :
    BoardInv dk (a :: acts) (Basics.after st deckIds a) := by
  cases a with
  | clue => exact h.onClue hl
  | draw order => exact h.onDraw (hd order) hl
  | play => exact h.afterPlay hl
  | discard => exact h.afterDiscard hl
  | turn => exact hl.elim

/-- A fresh state satisfies the invariant. -/
theorem fresh (dk : Deck v) (n our : ℕ) (options : TableOptions) :
    BoardInv dk [] (State.fresh v n our options) := by
  have hempty : (State.fresh v n our options).allOrders = [] := by
    simp [State.allOrders, State.fresh]
  refine
    { variant_eq := rfl
      cardOrder_ge := le_rfl
      cardsLeft_eq := by simp [State.fresh]
      cardsLeft_nonneg := by simp [State.fresh]
      nodup := by rw [hempty]; exact List.nodup_nil
      order_le := by rw [hempty]; simp
      deck_isSome := fun o => by
        simp only [State.fresh, SparseArray.get_empty, Option.isSome_none, Bool.false_eq_true,
          false_iff]
        omega
      hand_le := fun p => Or.inl rfl
      identityOf_eq := fun o id hget => by simp [State.identityOf, State.fresh] at hget
      copies := ?_
      stack_le := fun s => by simp [State.fresh]
      maxRanks_isLeast := ?_
      tokens := by simp [State.fresh]
      endgame := Or.inl ⟨?_, rfl⟩
      conserved := ?_ }
  · intro id hid
    have h1 : ¬ id.rank ≤ (State.fresh v n our options).playStacks id.suitIndex :=
      Nat.not_le.2 hid.2.1
    rw [State.handCopies, hempty, State.baseCount, if_neg h1]
    rfl
  · intro s hs
    refine ⟨Or.inl rfl, ?_⟩
    rintro m (rfl | ⟨r, h1, h5, hex, rfl⟩)
    · exact le_rfl
    · have := Variant.cardCount_pos (show Identity.Valid v ⟨s, r⟩ from ⟨hs, h1, h5⟩)
      simp only [State.fresh, State.cardCount] at hex
      omega
  · -- the deck holds at least one card
    have hs : 0 < v.suits.length := List.length_pos_iff.2 dk.suits_ne
    have h1 : (⟨0, 1⟩ : Identity).Valid v := ⟨hs, le_rfl, by decide⟩
    have h2 := Variant.cardCount_pos h1
    have h3 : v.cardCount ⟨0, 1⟩ ≤ v.deckSize :=
      List.single_le_sum (fun _ _ => Nat.zero_le _) _
        (List.mem_map_of_mem (Variant.mem_allIdentities.2 h1))
    simp only [State.fresh]
    omega
  · rw [hempty]
    simp [State.fresh, State.score, State.totalDiscarded]

end BoardInv

/-- The board invariant holds in every reachable state. -/
theorem Run.boardInv {dk : Deck v} {n our : ℕ} {options : TableOptions}
    {acts : List Action} {st : State} (h : Run dk n our options acts st) :
    BoardInv dk acts st := by
  induction h with
  | fresh => exact BoardInv.fresh dk n our options
  | step _ hl hd hst ih =>
    obtain ⟨-, rfl⟩ := Basics.onAction_eq_some_iff.1 hst
    exact ih.step hd hl

theorem Run.numPlayers_eq {dk : Deck v} {n our : ℕ} {options : TableOptions} {acts : List Action}
    {st : State} (h : Run dk n our options acts st) : st.numPlayers = n := by
  induction h with
  | fresh => rfl
  | @step _ _ _ a _ _ _ _ hst ih =>
    obtain ⟨-, rfl⟩ := Basics.onAction_eq_some_iff.1 hst
    cases a <;> exact ih

/-! ## Conservation in every reachable state -/

namespace Legal

variable {dk : Deck v} {st : State} {a : Action}

/-- A legal action never takes from the score. -/
theorem score_le (hl : Legal dk st a) (deckIds : SparseArray Identity) :
    st.score ≤ (Basics.after st deckIds a).score := by
  cases a with
  | play order p identity =>
    obtain ⟨-, -, -, rfl, hplay⟩ := hl
    refine Finset.sum_le_sum fun s _ => ?_
    have hrank : (dk.truth order).rank = st.playStacks (dk.truth order).suitIndex + 1 := by
      simpa [State.isPlayable] using hplay
    simp only [Basics.after, Basics.afterPlay, Function.update_apply]
    split
    · rename_i hs
      rw [hs]
      omega
    · exact le_rfl
  | clue | draw | discard | turn => exact le_rfl

/-- A legal action never adds to the maximum score. -/
theorem maxScore_le (hl : Legal dk st a) (deckIds : SparseArray Identity) :
    (Basics.after st deckIds a).maxScore ≤ st.maxScore := by
  cases a with
  | discard order p identity failed =>
    obtain ⟨-, -, -, rfl, -⟩ := hl
    refine Finset.sum_le_sum fun s _ => ?_
    simp only [Basics.after, Basics.afterDiscard]
    split
    · rw [Function.update_apply]
      split
      · rename_i hs
        rw [hs]
        exact min_le_left _ _
      · exact le_rfl
    · exact le_rfl
  | clue | draw | play | turn => exact le_rfl

end Legal

/-- **Board conservation**: in every reachable state the cards are where the
counters say, the counters keep their bounds, and the clock of the final round
is the number of turns left; and every further action keeps the score and the
maximum score on their course. -/
theorem Run.conservation {dk : Deck v} {n our : ℕ} {options : TableOptions} {acts : List Action}
    {st : State} (h : Run dk n our options acts st) :
    st.cardsLeft + st.allOrders.length + st.score + st.totalDiscarded = v.deckSize ∧
      (∀ id : Identity, id.Valid v → st.baseCount id + st.handCopies dk id ≤ v.cardCount id) ∧
      (0 ≤ st.clueTokens ∧ st.clueTokens ≤ 8) ∧
      (∀ s < v.suits.length,
        st.playStacks s ≤ st.maxRanks s ∧ IsLeast (st.rankLimits s) (st.maxRanks s)) ∧
      0 ≤ st.cardsLeft ∧ (st.endgameTurns = -1 ↔ 0 < st.cardsLeft) ∧
      (st.cardsLeft = 0 → st.endgameTurns = n - turnsSinceDraw acts) ∧
      ∀ (a : Action) (deckIds : SparseArray Identity) (st' : State), Legal dk st a →
        Basics.onAction st deckIds a = some st' →
        st.score ≤ st'.score ∧ st'.maxScore ≤ st.maxScore := by
  have hi := h.boardInv
  refine ⟨hi.conserved, fun id hid => hi.copies_le hid, hi.tokens,
    fun s hs => ⟨hi.playStacks_le_maxRanks hs, hi.maxRanks_isLeast s hs⟩, hi.cardsLeft_nonneg,
    ?_, ?_, fun a deckIds st' hl hst => ?_⟩
  · rcases hi.endgame with ⟨hc, he⟩ | ⟨hc, h0, -⟩ <;> omega
  · intro hc
    rw [← h.numPlayers_eq]
    rcases hi.endgame with ⟨hc', -⟩ | ⟨-, -, he⟩
    · omega
    · exact he
  · obtain ⟨-, rfl⟩ := Basics.onAction_eq_some_iff.1 hst
    exact ⟨hl.score_le deckIds, hl.maxScore_le deckIds⟩

/-- Both players are dealt five cards, and the first one plays a red 1 and draws. -/
def firstPlay : List Action :=
  (List.range 10).map (fun o => .draw o (o / 5) none) ++
    [.play 0 0 (some ⟨0, 1⟩), .draw 10 0 none]

/-- The invariants after the first play. -/
theorem Run.conservation_firstPlay :
    ∃ (dk : Deck noVariant) (acts : List Action) (st : State),
      Run dk 2 0 {} acts st ∧ st.playStacks 0 = 1 ∧ (st.hands 0).length = 5 ∧
        st.cardsLeft + st.allOrders.length + st.score + st.totalDiscarded = noVariant.deckSize := by
  let dk : Deck noVariant := .ofList suits_noVariant _ (List.Perm.refl _)
  have hlegal : legalAll dk (State.fresh noVariant 2 0 {}) firstPlay = true := by decide +kernel
  obtain ⟨acts, h⟩ := Run.fresh.append hlegal
  exact ⟨dk, acts, _, h, by decide +kernel, by decide +kernel, (Run.conservation h).1⟩

end HanabiBot
