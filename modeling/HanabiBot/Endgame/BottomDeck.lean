import HanabiBot.Endgame.Arrange

/-!
# Lines of play over a known deck, and the bottom-deck test

A `DrawLine` is a line of legal play whose draws are taken out of a `RemainingSet`,
in any order.  `Accounted` is the invariant that ties the set to the board.

`winnable` gives up when every card left in the deck is critical and none is a 5.
The last of these cards can only be played in the last turn of the game, so that
no higher card of its suit can follow:

* `bottomDecked_sound` — the test is right if every card left is below the maximum
  rank of its suit;
* `bottomDecked_unsound` — it is wrong for the last copy of a 4 when the 5 is lost,
  and for a 1 when the 2s are.
-/

namespace HanabiBot

namespace State

/-- The state with the true identities of all drawn cards. -/
def revealed {v : Variant} (dk : Deck v) (st : State) : State :=
  { st with deck := ⟨st.deck.length, fun o => (st.deck.get o).map fun _ => ⟨some (dk.truth o)⟩⟩ }

end State

namespace Endgame

variable {st st' : State} {p : ℕ} {action : PerformAction} {draw : Option Identity}
  {rem rem' : RemainingSet}

/-! ## Lines of legal play -/

/-- What the action draws, and what is left after it. -/
def Draws (st : State) (action : PerformAction) (rem : RemainingSet) (draw : Option Identity)
    (rem' : RemainingSet) : Prop :=
  if action.isClue = true ∨ st.cardsLeft = 0 then draw = none ∧ rem' = rem
  else draw.bind (removeRemaining rem) = some rem'

instance (st : State) (action : PerformAction) (rem : RemainingSet) (draw : Option Identity)
    (rem' : RemainingSet) : Decidable (Draws st action rem draw rem') := by
  unfold Draws; infer_instance

/-- From `st` with player `p` to move, legal actions that draw from `rem` lead to `st'`. -/
inductive DrawLine : State → ℕ → RemainingSet → State → Prop
  | refl (st : State) (p : ℕ) (rem : RemainingSet) : DrawLine st p rem st
  | move {st st' : State} {p : ℕ} {action : PerformAction} {draw : Option Identity}
      {rem rem' : RemainingSet} :
      st.ended = false → Legal st p action → Draws st action rem draw rem' →
      DrawLine (advanceState st action draw) (st.nextPlayerIndex p) rem' st' →
      DrawLine st p rem st'

/-- The remaining cards are those that the board does not account for. -/
structure Accounted (st : State) (rem : RemainingSet) : Prop where
  consistent : Consistent st
  missing_pos : ∀ r ∈ rem, 0 < r.missing
  valid : ∀ r ∈ rem, r.id.Valid st.variant
  copies : ∀ id : Identity, id.Valid st.variant →
    st.baseCount id + st.heldCopies id + missingOf rem id ≤ st.cardCount id
  total : (totalMissing rem : ℤ) = st.cardsLeft

theorem missingOf_pos {r : Remaining} (hr : r ∈ rem) (hpos : ∀ r ∈ rem, 0 < r.missing) :
    0 < missingOf rem r.id := by
  have h1 : r ∈ rem.filter fun x => x.id = r.id := List.mem_filter.2 ⟨hr, by simp⟩
  have h2 : r.missing ≤ missingOf rem r.id := List.le_sum_of_mem (List.mem_map_of_mem h1)
  have h3 := hpos r hr
  omega

theorem mem_of_removeRemaining {id : Identity} (h : removeRemaining rem id = some rem') :
    (∃ r ∈ rem, r.id = id) ∧ ∀ r ∈ rem', ∃ x ∈ rem, x.id = r.id := by
  induction rem generalizing rem' with
  | nil => cases h
  | cons r rem ih =>
    rw [removeRemaining] at h
    split at h
    · rename_i hid
      cases h
      refine ⟨⟨r, List.mem_cons_self, hid⟩, fun x hx => ?_⟩
      split at hx
      · exact ⟨x, List.mem_cons_of_mem r hx, rfl⟩
      · rcases List.mem_cons.1 hx with rfl | hx
        · exact ⟨r, List.mem_cons_self, rfl⟩
        · exact ⟨x, List.mem_cons_of_mem r hx, rfl⟩
    · obtain ⟨rem'', hrem, rfl⟩ := Option.map_eq_some_iff.1 h
      obtain ⟨⟨x, hx, hid⟩, hall⟩ := ih hrem
      refine ⟨⟨x, List.mem_cons_of_mem r hx, hid⟩, fun y hy => ?_⟩
      rcases List.mem_cons.1 hy with rfl | hy
      · exact ⟨y, List.mem_cons_self, rfl⟩
      · obtain ⟨z, hz, hzid⟩ := hall y hy
        exact ⟨z, List.mem_cons_of_mem r hz, hzid⟩

theorem Legal.playerIndex_eq (h : Legal st p action) : action.playerIndex = p := by
  cases action <;> exact h.1

theorem Legal.card_mem (h : Legal st p action) {o : ℕ} (ho : action.card? = some o) :
    o ∈ st.hands p := by
  cases action with
  | play q o' =>
    cases ho
    exact h.2
  | discard q o' =>
    cases ho
    exact h.2.1
  | clue => cases ho
  | anyClue => cases ho

namespace Accounted

/-- A legal action with a draw from the remaining cards is a move. -/
theorem move (h : Accounted st rem) (hne : st.ended = false) (hl : Legal st p action)
    (hd : Draws st action rem draw rem') : Move st p action draw where
  inProgress := hne
  player_eq := hl.playerIndex_eq
  card_mem _ := hl.card_mem
  draw_ok id hid := by
    rw [Draws] at hd
    split at hd
    · rw [hd.1] at hid
      cases hid
    · obtain ⟨id', rfl, hrem⟩ := Option.bind_eq_some_iff.1 hd
      cases hid
      obtain ⟨⟨r, hr, rfl⟩, -⟩ := mem_of_removeRemaining hrem
      have h1 := h.copies r.id (h.valid r hr)
      have h2 := missingOf_pos hr h.missing_pos
      exact ⟨h.valid r hr, by omega⟩

/-- A clue leaves the remaining cards as they are. -/
theorem clued (h : Accounted st rem) (hne : st.endgameTurns ≠ 0) (hk : Clued st st') :
    Accounted st' rem where
  consistent := h.consistent.clued hk hne
  missing_pos := h.missing_pos
  valid := hk.variant_eq ▸ h.valid
  copies id hid := by
    rw [State.baseCount, hk.playStacks_eq, hk.discardStacks_eq, hk.heldCopies_eq, State.cardCount,
      hk.variant_eq]
    exact h.copies id (hk.variant_eq ▸ hid)
  total := by rw [hk.cardsLeft_eq]; exact h.total

/-- After a play or discard with a draw, one of the remaining cards is held. -/
theorem drew {order : ℕ} {id : Identity} (h : Accounted st rem) (hp : p < st.numPlayers)
    (hm : Move st p action (some id)) (hk : Drew st st' p order (some id))
    (hrem : removeRemaining rem id = some rem') : Accounted st' rem' := by
  obtain ⟨hpos, htotal⟩ := removeRemaining_counted hrem h.missing_pos
  refine
    { consistent := h.consistent.drew hp hk hm.draw_ok
      missing_pos := hpos
      valid := fun r hr => ?_
      copies := fun x hx => ?_
      total := by
        have := h.total
        rw [hk.cardsLeft_eq]
        omega }
  · obtain ⟨y, hy, heq⟩ := (mem_of_removeRemaining hrem).2 r hr
    rw [← heq, hk.variant_eq]
    exact h.valid y hy
  · rw [hk.variant_eq] at hx
    have h1 := h.copies x hx
    have h2 := h.consistent.heldCopies_drew hp hk x
    have h3 := removeRemaining_missingOf hrem h.missing_pos x
    rw [hk.lands.baseCount, State.cardCount, hk.variant_eq]
    simp only [Option.some.injEq] at h2
    simp only [State.cardCount] at h1
    omega

/-- In the final round the hands get smaller. -/
theorem putDown {order : ℕ} (h : Accounted st rem) (hp : p < st.numPlayers)
    (hne : st.endgameTurns ≠ 0) (hk : PutDown st st' p order) : Accounted st' rem where
  consistent := h.consistent.putDown hp hk hne
  missing_pos := h.missing_pos
  valid := hk.variant_eq ▸ h.valid
  copies id hid := by
    rw [hk.variant_eq] at hid
    have h1 := h.copies id hid
    have h2 := h.consistent.heldCopies_putDown hp hk id
    rw [hk.lands.baseCount, State.cardCount, hk.variant_eq]
    simp only [State.cardCount] at h1
    omega
  total := by
    have := hk.cardsLeft_zero
    rw [h.total, this, hk.cardsLeft_eq]

/-- What a legal action does to a position whose cards are accounted for. -/
theorem cases (h : Accounted st rem) (hp : p < st.numPlayers) (hne : st.ended = false)
    (hl : Legal st p action) (hd : Draws st action rem draw rem') :
    Accounted (advanceState st action draw) rem' ∧
      ((Clued st (advanceState st action draw) ∧ rem' = rem) ∨
      (∃ order id, Drew st (advanceState st action draw) p order (some id) ∧
        removeRemaining rem id = some rem') ∨
      ∃ order, PutDown st (advanceState st action draw) p order ∧ rem' = rem) := by
  have hm := h.move hne hl hd
  have hturns : st.endgameTurns ≠ 0 := by simpa [State.ended] using hne
  rw [Draws] at hd
  rcases hm.cases h.consistent with ⟨hclue, hk⟩ | ⟨order, hcard, hk⟩ | ⟨order, hcard, hk⟩
  · rw [if_pos (Or.inl hclue)] at hd
    obtain ⟨rfl, rfl⟩ := hd
    exact ⟨h.clued hturns hk, Or.inl ⟨hk, rfl⟩⟩
  · have hno : ¬ (action.isClue = true ∨ st.cardsLeft = 0) := by
      have := hk.cardsLeft_pos
      rintro (hclue | hleft)
      · cases action <;> simp_all [PerformAction.isClue, PerformAction.card?]
      · omega
    rw [if_neg hno] at hd
    obtain ⟨id, rfl, hrem⟩ := Option.bind_eq_some_iff.1 hd
    exact ⟨h.drew hp hm hk hrem, Or.inr (Or.inl ⟨order, id, hk, hrem⟩)⟩
  · rw [if_pos (Or.inr hk.cardsLeft_zero)] at hd
    obtain ⟨rfl, rfl⟩ := hd
    exact ⟨h.putDown hp hturns hk, Or.inr (Or.inr ⟨order, hk, rfl⟩)⟩

end Accounted

/-! ## The last card of the deck -/

/-- The identity has not been played, and is below the maximum rank of its suit. -/
def Below (st : State) (id : Identity) : Prop :=
  st.playStacks id.suitIndex < id.rank ∧ id.rank < st.maxRanks id.suitIndex

/-- Only player `q` may hold a card of the identity. -/
def HeldBy (st : State) (q : ℕ) (id : Identity) : Prop :=
  ∀ q' < st.numPlayers, q' ≠ q → ∀ o ∈ st.hands q', st.identityOf o ≠ some id

/-- The cards left in the deck are the last of their identities. -/
structure Buried (st : State) (rem : RemainingSet) : Prop where
  nonempty : rem ≠ []
  below : ∀ r ∈ rem, Below st r.id
  once : ∀ r ∈ rem, missingOf rem r.id = 1
  unheld : ∀ r ∈ rem, st.heldCopies r.id = 0

/-- The last card of the deck, `id`, is held by the player whose turn comes last. -/
structure LastHeld (st : State) (p : ℕ) (id : Identity) : Prop where
  valid : id.Valid st.variant
  lt : id.rank < st.maxRanks id.suitIndex
  cardsLeft_eq : st.cardsLeft = 0
  stack_le : st.playStacks id.suitIndex ≤ id.rank
  turns : st.endgameTurns = 0 ∨ 0 < st.endgameTurns ∧ st.playStacks id.suitIndex < id.rank ∧
    HeldBy st ((p + (st.endgameTurns.toNat - 1)) % st.numPlayers) id

/-- A stack grows past an identity only with a card of it. -/
theorem Lands.stack_lt {order : ℕ} {id : Identity} (hl : Lands st st' order)
    (hlt : st.playStacks id.suitIndex < id.rank) :
    st'.playStacks id.suitIndex ≤ id.rank ∧
      (st.identityOf order ≠ some id → st'.playStacks id.suitIndex < id.rank) := by
  rcases hl with ⟨t, ht, hplay, hps, -⟩ | ⟨hps, -⟩ | ⟨hps, -⟩
  · have hrank : t.rank = st.playStacks t.suitIndex + 1 := by
      simpa [State.isPlayable] using hplay
    rw [hps, Function.update_apply]
    split
    · rename_i hs
      rw [hs] at hlt
      refine ⟨by omega, fun hne => ?_⟩
      by_contra hge
      refine hne (ht.trans (congrArg some ?_))
      rcases t with ⟨ts, tr⟩
      rcases id with ⟨is, ir⟩
      simp only [Identity.mk.injEq] at *
      omega
    · exact ⟨hlt.le, fun _ => hlt⟩
  · rw [hps]
    exact ⟨hlt.le, fun _ => hlt⟩
  · rw [hps]
    exact ⟨hlt.le, fun _ => hlt⟩

theorem Consistent.score_lt (h : Consistent st) {s : ℕ} (hs : s < st.variant.suits.length)
    (hlt : st.playStacks s < st.maxRanks s) : st.score < st.maxScore :=
  Finset.sum_lt_sum (fun i hi => h.stack_le i (Finset.mem_range.1 hi))
    ⟨s, Finset.mem_range.2 hs, hlt⟩

theorem identityOf_ne {o q : ℕ} {id : Identity} (h : st.heldCopies id = 0)
    (hq : q < st.numPlayers) (ho : o ∈ st.hands q) : st.identityOf o ≠ some id := by
  intro hid
  have := Consistent.heldCopies_pos (State.mem_allOrders.2 ⟨q, hq, ho⟩) hid
  omega

/-- The player with `e` turns left after `p` is reached in `p + 1`'s turn as well. -/
theorem lastPlayer_succ {n e : ℕ} (h : 1 < e) : ((p + 1) % n + (e - 1 - 1)) % n = (p + (e - 1)) % n := by
  rw [Nat.mod_add_mod]
  congr 1
  omega

namespace LastHeld

variable {id : Identity}

/-- While the last card is held, the maximum score is out of reach. -/
theorem score_lt (h : LastHeld st p id) (hc : Consistent st) : st.score < st.maxScore :=
  hc.score_lt h.valid.1 (lt_of_le_of_lt h.stack_le h.lt)

/-- No turn of the final round gets past the last card. -/
theorem step (h : LastHeld st p id) (ha : Accounted st rem) (hp : p < st.numPlayers)
    (hne : st.ended = false) (hl : Legal st p action) (hd : Draws st action rem draw rem') :
    LastHeld (advanceState st action draw) (st.nextPlayerIndex p) id := by
  have hturns : st.endgameTurns ≠ 0 := by simpa [State.ended] using hne
  obtain ⟨hpos, hlt, hheld⟩ := h.turns.resolve_left hturns
  have hn : (st.endgameTurns : ℤ) ≤ st.numPlayers := by
    rcases ha.consistent.clock with ⟨hleft, -⟩ | ⟨-, -, hle⟩
    · have := h.cardsLeft_eq
      omega
    · exact hle
  have htick : Basics.tick st.endgameTurns = st.endgameTurns - 1 := Basics.tick_of_ne (by omega)
  obtain ⟨e, he⟩ : ∃ e : ℕ, st.endgameTurns = e := ⟨_, (Int.toNat_of_nonneg hpos.le).symm⟩
  rw [he, Int.toNat_natCast] at hheld
  -- the rest of the turns, if there is one
  have hrest : ∀ st' : State, st'.numPlayers = st.numPlayers → st'.endgameTurns = e - 1 →
      (1 < e → st'.playStacks id.suitIndex < id.rank) →
      (∀ q, ∀ o ∈ st'.hands q, o ∈ st.hands q) →
      (∀ o ∈ st.allOrders, st'.identityOf o = st.identityOf o) →
      st'.endgameTurns = 0 ∨ 0 < st'.endgameTurns ∧ st'.playStacks id.suitIndex < id.rank ∧
        HeldBy st' ((st.nextPlayerIndex p + (st'.endgameTurns.toNat - 1)) % st'.numPlayers) id := by
    intro st' hnum hturns' hstack hhands hids
    by_cases h1 : e = 1
    · left
      omega
    · right
      refine ⟨by omega, hstack (by omega), fun q hq hne o ho => ?_⟩
      rw [hnum] at hq
      rw [hids o (State.mem_allOrders.2 ⟨q, hq, hhands q o ho⟩)]
      refine hheld q hq ?_ o (hhands q o ho)
      have hnat : st'.endgameTurns.toNat - 1 = e - 1 - 1 := by omega
      rwa [hnum, State.nextPlayerIndex, hnat, lastPlayer_succ (by omega)] at hne
  obtain ⟨-, ⟨hk, rfl⟩ | ⟨order, x, hk, -⟩ | ⟨order, hk, rfl⟩⟩ := ha.cases hp hne hl hd
  · refine
      { valid := hk.variant_eq ▸ h.valid
        lt := hk.maxRanks_eq ▸ h.lt
        cardsLeft_eq := hk.cardsLeft_eq.trans h.cardsLeft_eq
        stack_le := hk.playStacks_eq ▸ h.stack_le
        turns := hrest _ hk.numPlayers_eq (by rw [hk.endgameTurns_eq, htick, he])
          (fun _ => hk.playStacks_eq ▸ hlt) (fun q o ho => hk.hands_eq ▸ ho)
          fun o ho => hk.identityOf_eq o (ha.consistent.order_le o ho) }
  · have := hk.cardsLeft_pos
    have := h.cardsLeft_eq
    omega
  · obtain ⟨hle, hlt'⟩ := hk.lands.stack_lt hlt
    refine
      { valid := hk.variant_eq ▸ h.valid
        lt := hk.maxRanks_eq ▸ h.lt
        cardsLeft_eq := hk.cardsLeft_eq
        stack_le := hle
        turns := hrest _ hk.numPlayers_eq (by rw [hk.endgameTurns_eq, he]) (fun h1 => hlt' ?_)
          (fun q o ho => ?_) fun o ho => hk.identityOf_eq o (ha.consistent.order_le o ho) }
    · -- it is not the turn of the player who holds the card
      refine hheld p hp (fun heq => ?_) order hk.mem
      have hmod : (p + (e - 1)) % st.numPlayers ≠ p := by
        rcases Nat.lt_or_ge (p + (e - 1)) st.numPlayers with hsmall | hlarge
        · rw [Nat.mod_eq_of_lt hsmall]
          omega
        · rw [Nat.mod_eq_sub_mod hlarge, Nat.mod_eq_of_lt (by omega)]
          omega
      exact hmod heq.symm
    · rw [hk.hands_eq] at ho
      exact Basics.mem_removeCard ho

/-- From then on the maximum score is not reached. -/
theorem line (h : LastHeld st p id) (ha : Accounted st rem) (hp : p < st.numPlayers)
    (hl : DrawLine st p rem st') : st'.score ≠ st.maxScore := by
  induction hl with
  | refl st p rem => exact (h.score_lt ha.consistent).ne
  | @move st st' p action draw rem rem' hne hlegal hd _ ih =>
    obtain ⟨ha', -⟩ := ha.cases hp hne hlegal hd
    have hnum := @numPlayers_advanceState st action draw
    have := ih (h.step ha hp hne hlegal hd) ha' (by rw [hnum]; exact Nat.mod_lt _ (by omega))
    rwa [State.maxScore, maxRanks_advanceState, variant_advanceState] at this

end LastHeld

namespace Buried

theorem total_pos (hpos : ∀ r ∈ rem, 0 < r.missing) (hne : rem ≠ []) : 0 < totalMissing rem := by
  obtain ⟨r, hr⟩ := List.exists_mem_of_ne_nil rem hne
  have h1 : r.missing ≤ totalMissing rem := List.le_sum_of_mem (List.mem_map_of_mem hr)
  have h2 := hpos r hr
  omega

theorem score_lt (h : Buried st rem) (ha : Accounted st rem) : st.score < st.maxScore := by
  obtain ⟨r, hr⟩ := List.exists_mem_of_ne_nil rem h.nonempty
  exact ha.consistent.score_lt (ha.valid r hr).1 ((h.below r hr).1.trans (h.below r hr).2)

/-- Drawing the last card leaves it to the player who has the last turn. -/
theorem lastHeld {order : ℕ} {id : Identity} (h : Buried st rem) (ha : Accounted st rem)
    (hp : p < st.numPlayers) (hk : Drew st st' p order (some id))
    (hrem : removeRemaining rem id = some rem') (hlast : st'.cardsLeft = 0) :
    LastHeld st' (st.nextPlayerIndex p) id := by
  obtain ⟨⟨r, hr, rfl⟩, -⟩ := mem_of_removeRemaining hrem
  obtain ⟨hstack, hmax⟩ := h.below r hr
  obtain ⟨hle, hlt⟩ := hk.lands.stack_lt hstack
  have hunheld := h.unheld r hr
  have hturns : st'.endgameTurns = st.numPlayers := by
    rw [hk.endgameTurns_eq, if_pos (hk.cardsLeft_eq.symm.trans hlast)]
  refine
    { valid := hk.variant_eq ▸ ha.valid r hr
      lt := hk.maxRanks_eq ▸ hmax
      cardsLeft_eq := hlast
      stack_le := hle
      turns := Or.inr ⟨by omega, hlt (identityOf_ne hunheld hp hk.mem), fun q hq hne o ho => ?_⟩ }
  have hmod : (st.nextPlayerIndex p + (st'.endgameTurns.toNat - 1)) % st'.numPlayers = p := by
    rw [hturns, hk.numPlayers_eq, Int.toNat_natCast, State.nextPlayerIndex, Nat.mod_add_mod]
    have : p + 1 + (st.numPlayers - 1) = p + st.numPlayers := by omega
    rw [this, Nat.add_mod_right, Nat.mod_eq_of_lt hp]
  rw [hmod] at hne
  rw [hk.numPlayers_eq] at hq
  rw [hk.hands_eq, Function.update_of_ne hne, Basics.removeCard_of_ne _ hne] at ho
  rw [hk.identityOf_eq o (ha.consistent.order_le o (State.mem_allOrders.2 ⟨q, hq, ho⟩))]
  exact identityOf_ne hunheld hq ho

/-- As long as cards are left, they stay out of reach. -/
theorem step (h : Buried st rem) (ha : Accounted st rem) (hp : p < st.numPlayers)
    (hne : st.ended = false) (hl : Legal st p action) (hd : Draws st action rem draw rem') :
    Buried (advanceState st action draw) rem' ∨
      ∃ id, LastHeld (advanceState st action draw) (st.nextPlayerIndex p) id := by
  obtain ⟨ha', ⟨hk, rfl⟩ | ⟨order, id, hk, hrem⟩ | ⟨order, hk, rfl⟩⟩ := ha.cases hp hne hl hd
  · refine Or.inl ⟨h.nonempty, fun r hr => ?_, h.once, fun r hr => ?_⟩
    · rw [Below, hk.playStacks_eq, hk.maxRanks_eq]
      exact h.below r hr
    · rw [hk.heldCopies_eq]
      exact h.unheld r hr
  · by_cases hnil : rem' = []
    · right
      refine ⟨id, h.lastHeld ha hp hk hrem ?_⟩
      rw [← ha'.total, hnil]
      rfl
    · refine Or.inl ⟨hnil, fun r hr => ?_, fun r hr => ?_, fun r hr => ?_⟩ <;>
        obtain ⟨x, hx, hid⟩ := (mem_of_removeRemaining hrem).2 r hr
      · rw [← hid, Below, hk.maxRanks_eq]
        exact ⟨(hk.lands.stack_lt (h.below x hx).1).2 (identityOf_ne (h.unheld x hx) hp hk.mem),
          (h.below x hx).2⟩
      · have h1 := removeRemaining_missingOf hrem ha.missing_pos r.id
        have h2 := hid ▸ h.once x hx
        have h3 := missingOf_pos hr ha'.missing_pos
        omega
      · have h1 := removeRemaining_missingOf hrem ha.missing_pos r.id
        have h2 := hid ▸ h.once x hx
        have h3 := missingOf_pos hr ha'.missing_pos
        have h4 := ha.consistent.heldCopies_drew hp hk r.id
        have h5 := hid ▸ h.unheld x hx
        simp only [Option.some.injEq] at h4
        omega
  · have h1 := total_pos ha.missing_pos h.nonempty
    have h2 := ha.total
    have h3 := hk.cardsLeft_zero
    omega

/-- The maximum score is not reached, in whatever order the cards are drawn. -/
theorem line (h : Buried st rem) (ha : Accounted st rem) (hp : p < st.numPlayers)
    (hl : DrawLine st p rem st') : st'.score ≠ st.maxScore := by
  induction hl with
  | refl st p rem => exact (h.score_lt ha).ne
  | @move st st' p action draw rem rem' hne hlegal hd hrest ih =>
    obtain ⟨ha', -⟩ := ha.cases hp hne hlegal hd
    have hnext : st.nextPlayerIndex p < (advanceState st action draw).numPlayers := by
      rw [numPlayers_advanceState]
      exact Nat.mod_lt _ (by omega)
    have hmax : (advanceState st action draw).maxScore = st.maxScore := by
      rw [State.maxScore, maxRanks_advanceState, variant_advanceState]
      rfl
    rcases h.step ha hp hne hlegal hd with h' | ⟨id, h'⟩
    · exact hmax ▸ ih h' ha' hnext
    · exact hmax ▸ h'.line ha' hnext hrest

end Buried

/-! ## The test of `winnable` -/

/-- The remaining cards are the undrawn cards of the deck. -/
structure Undrawn {v : Variant} (dk : Deck v) (st : State) (rem : RemainingSet) : Prop where
  missing_pos : ∀ r ∈ rem, 0 < r.missing
  valid : ∀ r ∈ rem, r.id.Valid v
  copies : ∀ id : Identity, id.Valid v → st.drawnCopies dk id + missingOf rem id = v.cardCount id
  total : (totalMissing rem : ℤ) = st.cardsLeft

variable {v : Variant} {dk : Deck v} {acts : List Action}

theorem identityOf_revealed (dk : Deck v) (st : State) (o : ℕ) :
    (st.revealed dk).identityOf o = (st.deck.get o).map fun _ => dk.truth o := by
  simp only [State.identityOf, State.revealed]
  cases st.deck.get o <;> rfl

theorem boardInv_revealed (h : BoardInv dk acts st) : BoardInv dk acts (st.revealed dk) :=
  { h with
    deck_isSome := fun o => by
      rw [State.revealed, Option.isSome_map]
      exact h.deck_isSome o
    identityOf_eq := fun o id hid => by
      rw [identityOf_revealed] at hid
      obtain ⟨c, -, heq⟩ := Option.map_eq_some_iff.1 hid
      exact heq.symm }

theorem heldCopies_revealed (h : BoardInv dk acts st) (id : Identity) :
    (st.revealed dk).heldCopies id = st.handCopies dk id := by
  refine List.countP_congr fun o ho => ?_
  obtain ⟨c, hc⟩ := Option.isSome_iff_exists.1 ((h.deck_isSome o).2 (h.order_le o ho))
  rw [identityOf_revealed, hc]
  simp

theorem accounted_revealed (h : BoardInv dk acts st) (hu : Undrawn dk st rem) :
    Accounted (st.revealed dk) rem where
  consistent := Consistent.of_boardInv (boardInv_revealed h)
  missing_pos := hu.missing_pos
  valid r hr := (h.variant_eq.symm ▸ hu.valid r hr : r.id.Valid st.variant)
  copies id hid := by
    have hv : id.Valid v := h.variant_eq ▸ hid
    rw [heldCopies_revealed h]
    have h1 := h.copies id hv
    have h2 := hu.copies id hv
    have h3 : (st.revealed dk).cardCount id = v.cardCount id :=
      congrArg (Variant.cardCount · id) h.variant_eq
    have h4 : (st.revealed dk).baseCount id = st.baseCount id := rfl
    omega
  total := hu.total

/-- The cards that are left after the test are the last of their identities. -/
theorem buried_of_bottomDecked (h : BoardInv dk acts st) (hu : Undrawn dk st rem)
    (hbd : bottomDecked st rem = true) (hlt : ∀ r ∈ rem, r.id.rank < st.maxRanks r.id.suitIndex) :
    Buried (st.revealed dk) rem := by
  rw [bottomDecked, Bool.and_eq_true, List.all_eq_true] at hbd
  have hcritical : ∀ r ∈ rem, st.playStacks r.id.suitIndex < r.id.rank ∧
      missingOf rem r.id = 1 ∧ st.handCopies dk r.id = 0 := by
    intro r hr
    have hcrit := hbd.2 r hr
    simp only [State.isCritical, State.isBasicTrash, Bool.and_eq_true, Bool.not_eq_true',
      Bool.or_eq_false_iff, decide_eq_false_iff_not, beq_iff_eq, h.variant_eq] at hcrit
    have h1 := h.copies r.id (hu.valid r hr)
    have h2 := hu.copies r.id (hu.valid r hr)
    have h3 := missingOf_pos hr hu.missing_pos
    rw [State.baseCount, if_neg hcrit.1.1.1] at h1
    refine ⟨by omega, by omega, by omega⟩
  refine ⟨by simpa using hbd.1, fun r hr => ⟨(hcritical r hr).1, hlt r hr⟩,
    fun r hr => (hcritical r hr).2.1, fun r hr => ?_⟩
  rw [heldCopies_revealed h]
  exact (hcritical r hr).2.2

/-- **The bottom-deck test is right below the maximum ranks.** If every card left in the deck is
critical, and none is a 5 or of the maximum rank of its suit, no line of legal play reaches the
maximum score, in whatever order the cards are drawn. -/
theorem bottomDecked_sound {n our : ℕ} {options : TableOptions}
    (hrun : Run dk n our options acts st) (hp : p < n) (hu : Undrawn dk st rem)
    (hbd : bottomDecked st rem = true) (hlt : ∀ r ∈ rem, r.id.rank < st.maxRanks r.id.suitIndex) :
    ¬ ∃ st', DrawLine (st.revealed dk) p rem st' ∧ st'.score = st.maxScore := by
  rintro ⟨st', hline, hscore⟩
  have hinv := hrun.boardInv
  exact (buried_of_bottomDecked hinv hu hbd hlt).line (accounted_revealed hinv hu)
    (hrun.numPlayers_eq.symm ▸ hp : p < st.numPlayers) hline hscore

/-- The variant '3 Suits'. -/
def threeSuits : Variant where
  suits := ["Red", "Yellow", "Blue"]
  shortForms := ['r', 'y', 'b']

/-- A deck that ends with a red 1. Alice is dealt its first five cards, and Bob at the end holds
the five before the last one, `kept` among them, if he discards the others, `lost` among them. -/
def buriedCards (lost kept : Identity) : List Identity :=
  [⟨0, 5⟩, ⟨1, 5⟩, ⟨2, 5⟩, ⟨0, 4⟩, ⟨1, 4⟩,
    ⟨0, 1⟩, ⟨0, 1⟩, lost, ⟨0, 2⟩, ⟨0, 3⟩, ⟨1, 1⟩, ⟨1, 1⟩, ⟨1, 1⟩, ⟨1, 2⟩, ⟨1, 2⟩, ⟨1, 3⟩, ⟨1, 3⟩,
    ⟨2, 1⟩, ⟨2, 1⟩, ⟨2, 1⟩, ⟨2, 2⟩, ⟨2, 2⟩, ⟨2, 3⟩, ⟨2, 3⟩,
    kept, ⟨1, 4⟩, ⟨2, 4⟩, ⟨2, 4⟩, ⟨0, 3⟩, ⟨0, 1⟩]

/-- Both red 2s are discarded. -/
def lostDeck : Deck threeSuits :=
  .ofList (by decide) (buriedCards ⟨0, 2⟩ ⟨0, 4⟩) (by decide +kernel)

/-- Bob keeps a red 2. -/
def keptDeck : Deck threeSuits :=
  .ofList (by decide) (buriedCards ⟨0, 4⟩ ⟨0, 2⟩) (by decide +kernel)

/-- Alice clues Bob's oldest card, and Bob discards it. -/
def discardOldest (dk : Deck threeSuits) (i : ℕ) : List Action :=
  let clue := ⟨.rank, (dk.truth (i + 5)).rank⟩
  let hand := (List.range 5).reverse.map (i + 5 + ·)
  [.clue 0 1 (hand.filter fun o => threeSuits.cardTouched (dk.truth o) clue) clue,
    .discard (i + 5) 1 (some (dk.truth (i + 5))) false,
    .draw (i + 10) 1 (some (dk.truth (i + 10)))]

/-- The deal, and 38 turns after which one card is left. -/
def buriedActions (dk : Deck threeSuits) : List Action :=
  (List.range 5).map (fun o => .draw o 0 none) ++
    (List.range 5).map (fun o => .draw (o + 5) 1 (some (dk.truth (o + 5)))) ++
    (List.range 19).flatMap (discardOldest dk)

def buriedState (dk : Deck threeSuits) : State :=
  (buriedActions dk).foldl (Basics.after · .empty) (State.fresh threeSuits 2 0 {})

/-- The red 1. -/
def lastOne : RemainingSet := [{ id := ⟨0, 1⟩, missing := 1 }]

theorem run_buriedState {dk : Deck threeSuits}
    (h : legalAll dk (State.fresh threeSuits 2 0 {}) (buriedActions dk) = true) :
    ∃ acts, Run dk 2 0 {} acts (buriedState dk) := Run.fresh.append h

/-- Alice clues, Bob discards a 4 and draws the red 1, Alice clues and Bob plays the 1. -/
def wonState : State :=
  let clued := advanceState ((buriedState lostDeck).revealed lostDeck) (.anyClue 0) none
  let drawn := advanceState clued (.discard 1 24) (some ⟨0, 1⟩)
  advanceState (advanceState drawn (.anyClue 0) none) (.play 1 29) none

/-- A red 1 is the last card of the deck, all 2s of its suit are discarded, and the test gives
up. But Bob can draw the 1 and play it in his last turn, for the maximum score. -/
theorem bottomDecked_unsound :
    ∃ acts, Run lostDeck 2 0 {} acts (buriedState lostDeck) ∧
      Undrawn lostDeck (buriedState lostDeck) lastOne ∧
      bottomDecked (buriedState lostDeck) lastOne = true ∧
      ∃ st', DrawLine ((buriedState lostDeck).revealed lostDeck) 0 lastOne st' ∧
        st'.score = (buriedState lostDeck).maxScore := by
  obtain ⟨acts, hrun⟩ := @run_buriedState lostDeck (by decide +kernel)
  have hcopies : ∀ id ∈ threeSuits.allIdentities, (buriedState lostDeck).drawnCopies lostDeck id +
      missingOf lastOne id = threeSuits.cardCount id := by decide +kernel
  refine ⟨acts, hrun, ⟨by decide, by decide,
    fun id hid => hcopies id (Variant.mem_allIdentities.2 hid), by decide +kernel⟩,
    by decide +kernel, wonState, ?_, by decide +kernel⟩
  refine @DrawLine.move _ _ _ (.anyClue 0) none lastOne lastOne ?_ ?_ ?_
    (@DrawLine.move _ _ _ (.discard 1 24) (some ⟨0, 1⟩) lastOne [] ?_ ?_ ?_
      (@DrawLine.move _ _ _ (.anyClue 0) none [] [] ?_ ?_ ?_
        (@DrawLine.move _ _ _ (.play 1 29) none [] [] ?_ ?_ ?_ (.refl _ _ _)))) <;> decide +kernel

/-- The same position with a red 2 in Bob's hand cannot be won. -/
theorem bottomDecked_sound_red :
    ¬ ∃ st', DrawLine ((buriedState keptDeck).revealed keptDeck) 0 lastOne st' ∧
      st'.score = (buriedState keptDeck).maxScore := by
  obtain ⟨acts, hrun⟩ := @run_buriedState keptDeck (by decide +kernel)
  have hcopies : ∀ id ∈ threeSuits.allIdentities, (buriedState keptDeck).drawnCopies keptDeck id +
      missingOf lastOne id = threeSuits.cardCount id := by decide +kernel
  exact bottomDecked_sound hrun (by decide) ⟨by decide, by decide,
    fun id hid => hcopies id (Variant.mem_allIdentities.2 hid), by decide +kernel⟩
    (by decide +kernel) (by decide +kernel)

end Endgame

end HanabiBot
