import HanabiBot.Basics.Board

/-!
# What trash and critical mean

`isBasicTrash` and `isCritical` of `src/basics/State.js` are tests on the stacks
and the maximum ranks.  What they stand for is about the rest of the game: a
`Continuation` is any further sequence of actions on some arrangement of the
hidden cards, without regard to the clue tokens and the turns that are left.

* `Run.trash_critical` — an identity is trash in a reachable state exactly if no
  continuation, for no arrangement of the hidden cards, plays a copy of it; and it
  is critical exactly if a copy is left and discarding it lowers the maximum score;
* `redPlayed_not_critical` — an identity with no copy left is never critical,
  although one more `onDiscard` of it would lower the maximum score.
-/

namespace HanabiBot

variable {v : Variant}

/-- The actions that the cards allow, whatever tokens and turns are left. -/
def Possible (dk : Deck v) (st : State) : Action → Prop
  | .clue _ target list clue =>
      list = (st.hands target).filter fun o => v.cardTouched (dk.truth o) clue
  | .draw order playerIndex identity =>
      0 < st.cardsLeft ∧ (order : ℤ) = st.cardOrder + 1 ∧ playerIndex < st.numPlayers ∧
        ((st.hands playerIndex).length : ℤ) < st.handSize ∧
        (identity = none ∨ identity = some (dk.truth order))
  | .play order playerIndex identity =>
      playerIndex < st.numPlayers ∧ order ∈ st.hands playerIndex ∧
        identity = some (dk.truth order) ∧ st.isPlayable (dk.truth order) = true
  | .discard order playerIndex identity failed =>
      playerIndex < st.numPlayers ∧ order ∈ st.hands playerIndex ∧
        identity = some (dk.truth order) ∧ (failed = true → st.isPlayable (dk.truth order) = false)
  | .turn .. => False

instance (dk : Deck v) (st : State) (a : Action) : Decidable (Possible dk st a) :=
  Action.casesOn (motive := fun a => Decidable (Possible dk st a)) a
    (fun _ target list clue =>
      inferInstanceAs (Decidable (list = (st.hands target).filter fun o =>
        v.cardTouched (dk.truth o) clue)))
    (fun order playerIndex identity =>
      inferInstanceAs (Decidable (0 < st.cardsLeft ∧ (order : ℤ) = st.cardOrder + 1 ∧
        playerIndex < st.numPlayers ∧ ((st.hands playerIndex).length : ℤ) < st.handSize ∧
        (identity = none ∨ identity = some (dk.truth order)))))
    (fun order playerIndex identity =>
      inferInstanceAs (Decidable (playerIndex < st.numPlayers ∧ order ∈ st.hands playerIndex ∧
        identity = some (dk.truth order) ∧ st.isPlayable (dk.truth order) = true)))
    (fun order playerIndex identity failed =>
      inferInstanceAs (Decidable (playerIndex < st.numPlayers ∧ order ∈ st.hands playerIndex ∧
        identity = some (dk.truth order) ∧
        (failed = true → st.isPlayable (dk.truth order) = false))))
    fun _ _ => inferInstanceAs (Decidable False)

/-- The state reached by possible actions, one after the other. -/
inductive Continuation (dk : Deck v) : State → List Action → State → Prop
  | nil {st : State} : Continuation dk st [] st
  | cons {st st' : State} {a : Action} {next : List Action} {deckIds : SparseArray Identity} :
      Possible dk st a → Continuation dk (Basics.after st deckIds a) next st' →
      Continuation dk st (a :: next) st'

/-- The cards may lie as in this deck: it has the identities that the state knows. -/
def Fits (dk : Deck v) (st : State) : Prop := ∀ o id, st.identityOf o = some id → dk.truth o = id

/-- The copies of each identity, and where they are. -/
structure Spread (dk : Deck v) (st : State) : Prop where
  variant_eq : st.variant = v
  cardOrder_ge : -1 ≤ st.cardOrder
  cardsLeft_eq : st.cardsLeft = v.deckSize - (st.cardOrder + 1)
  cardsLeft_nonneg : 0 ≤ st.cardsLeft
  nodup : st.allOrders.Nodup
  order_le : ∀ o ∈ st.allOrders, (o : ℤ) ≤ st.cardOrder
  hand_le : ∀ p, st.hands p = [] ∨ ((st.hands p).length : ℤ) ≤ st.handSize
  copies : ∀ id : Identity, id.Valid v →
    st.baseCount id + st.handCopies dk id = st.drawnCopies dk id

/-! ## The copies along a continuation -/

namespace Spread

variable {dk : Deck v} {st st' : State} {a : Action} {next : List Action}

theorem of_boardInv {acts : List Action} (h : BoardInv dk acts st) : Spread dk st :=
  { variant_eq := h.variant_eq
    cardOrder_ge := h.cardOrder_ge
    cardsLeft_eq := h.cardsLeft_eq
    cardsLeft_nonneg := h.cardsLeft_nonneg
    nodup := h.nodup
    order_le := h.order_le
    hand_le := h.hand_le
    copies := h.copies }

theorem order_lt_deckSize (h : Spread dk st) {o : ℕ} (ho : o ∈ st.allOrders) : o < v.deckSize := by
  have h1 := h.cardsLeft_eq
  have h2 := h.cardsLeft_nonneg
  have h3 := h.order_le o ho
  omega

/-- Played, discarded and held copies of an identity number at most its multiplicity. -/
theorem copies_le (h : Spread dk st) {id : Identity} (hid : id.Valid v) :
    st.baseCount id + st.handCopies dk id ≤ v.cardCount id := by
  rw [h.copies id hid, ← dk.count_truth id hid]
  refine List.Sublist.countP_le (List.range_sublist.2 ?_)
  have h1 := h.cardsLeft_eq
  have h2 := h.cardsLeft_nonneg
  omega

/-- Once all cards are drawn, the copies that are left are in the hands. -/
theorem copies_eq (h : Spread dk st) (hleft : st.cardsLeft = 0) {id : Identity}
    (hid : id.Valid v) : st.baseCount id + st.handCopies dk id = v.cardCount id := by
  have h1 := h.cardsLeft_eq
  have horder : (st.cardOrder + 1).toNat = v.deckSize := by omega
  rw [h.copies id hid, ← dk.count_truth id hid, State.drawnCopies, horder]

theorem handCopies_pos {o : ℕ} (ho : o ∈ st.allOrders) : 0 < st.handCopies dk (dk.truth o) :=
  List.countP_pos_iff.2 ⟨o, ho, by simp⟩

/-- A card leaves its hand for a stack. -/
theorem leave (h : Spread dk st) {order p : ℕ} (hp : p < st.numPlayers)
    (ho : order ∈ st.hands p) {new : State} (hvariant : new.variant = st.variant)
    (hplayers : new.numPlayers = st.numPlayers) (hsize : new.handSize = st.handSize)
    (hhands : new.hands = Basics.removeCard st.hands p order)
    (horder : new.cardOrder = st.cardOrder) (hleft : new.cardsLeft = st.cardsLeft)
    (hbase : ∀ id, new.baseCount id = st.baseCount id + if dk.truth order = id then 1 else 0) :
    Spread dk new := by
  have hall : new.allOrders = (List.range st.numPlayers).flatMap (Basics.removeCard st.hands p order) := by
    rw [State.allOrders, hplayers, hhands]
  have hperm : st.allOrders.Perm (order :: new.allOrders) := by
    rw [hall]
    exact Basics.flatMap_removeCard hp ho
  refine
    { variant_eq := hvariant.trans h.variant_eq
      cardOrder_ge := horder ▸ h.cardOrder_ge
      cardsLeft_eq := by rw [hleft, horder, h.cardsLeft_eq]
      cardsLeft_nonneg := hleft ▸ h.cardsLeft_nonneg
      nodup := (List.nodup_cons.1 (hperm.nodup_iff.1 h.nodup)).2
      order_le := ?_
      hand_le := ?_
      copies := ?_ }
  · intro o hm
    rw [horder]
    exact h.order_le o (hperm.mem_iff.2 (List.mem_cons_of_mem _ hm))
  · intro q
    rw [hhands, hsize]
    by_cases hq : q = p
    · rw [hq, Basics.removeCard_self, Basics.spliceOut_of_mem ho]
      obtain hnil | hle := h.hand_le p
      · simp [hnil] at ho
      · have := List.length_erase_le (a := order) (l := st.hands p)
        right
        omega
    · rw [Basics.removeCard_of_ne _ hq]
      exact h.hand_le q
  · intro id hid
    have h1 := hperm.countP_eq fun o => decide (dk.truth o = id)
    rw [List.countP_cons] at h1
    have h2 := h.copies id hid
    rw [State.handCopies, h1] at h2
    have h3 : new.drawnCopies dk id = st.drawnCopies dk id := by
      rw [State.drawnCopies, State.drawnCopies, horder]
    rw [hbase, State.handCopies, h3, ← h2]
    simp only [decide_eq_true_eq]
    omega

theorem onDraw (h : Spread dk st) {order p : ℕ} {identity : Option Identity}
    (hl : Possible dk st (.draw order p identity)) (deckId : Option Identity) :
    Spread dk (Basics.onDraw st deckId order p identity) := by
  obtain ⟨hc, ho, hp, hroom, -⟩ := hl
  have hperm := Basics.allOrders_onDraw hp deckId order identity
  have hleft := h.cardsLeft_eq
  have hfresh : order ∉ st.allOrders := by
    intro hm
    have := h.order_le order hm
    omega
  refine
    { variant_eq := h.variant_eq
      cardOrder_ge := ?_
      cardsLeft_eq := ?_
      cardsLeft_nonneg := ?_
      nodup := hperm.nodup_iff.2 (List.nodup_cons.2 ⟨hfresh, h.nodup⟩)
      order_le := ?_
      hand_le := ?_
      copies := ?_ }
  · simp only [Basics.onDraw]
    omega
  · simp only [Basics.onDraw]
    omega
  · simp only [Basics.onDraw]
    omega
  · intro o hm
    simp only [Basics.onDraw]
    rcases List.mem_cons.1 (hperm.mem_iff.1 hm) with rfl | hm
    · exact le_rfl
    · have := h.order_le o hm
      omega
  · intro q
    by_cases hq : q = p
    · right
      subst hq
      simp only [Basics.onDraw, Function.update_self, List.length_cons]
      push_cast
      exact hroom
    · simp only [Basics.onDraw, Function.update_of_ne hq]
      exact h.hand_le q
  · intro id hv
    have h1 := h.copies id hv
    have h2 := hperm.countP_eq fun o => decide (dk.truth o = id)
    have h3 : (st.cardOrder + 1).toNat = order := by omega
    have h4 : ((order : ℤ) + 1).toNat = order + 1 := by omega
    rw [State.drawnCopies, h3, State.handCopies] at h1
    rw [State.drawnCopies, State.handCopies, h2, List.countP_cons]
    simp only [Basics.onDraw, h4, List.range_succ, List.countP_append, List.countP_singleton]
    rw [← Nat.add_assoc]
    exact congrArg (· + _) h1

theorem rank_of_playable {t : Identity} (h : st.isPlayable t = true) :
    t.rank = st.playStacks t.suitIndex + 1 := by
  simpa [State.isPlayable] using h

/-- A possible action keeps the copies together. -/
theorem step (h : Spread dk st) (ha : Possible dk st a) (deckIds : SparseArray Identity) :
    Spread dk (Basics.after st deckIds a) := by
  cases a with
  | clue => exact { h with }
  | draw order p identity => exact h.onDraw ha _
  | play order p identity =>
    obtain ⟨hp, ho, rfl, hplay⟩ := ha
    exact h.leave hp ho rfl rfl rfl rfl rfl rfl
      (BoardInv.baseCount_afterPlay (rank_of_playable hplay) order p)
  | discard order p identity failed =>
    obtain ⟨hp, ho, rfl, -⟩ := ha
    exact h.leave hp ho rfl rfl rfl rfl rfl rfl
      (BoardInv.baseCount_afterDiscard st (dk.truth order) order p failed)
  | turn => exact ha.elim

/-- The stacks only grow. -/
theorem stacks_le (ha : Possible dk st a) (deckIds : SparseArray Identity) (s : ℕ) (id : Identity) :
    st.playStacks s ≤ (Basics.after st deckIds a).playStacks s ∧
      st.discardStacks id ≤ (Basics.after st deckIds a).discardStacks id := by
  cases a with
  | clue => exact ⟨le_rfl, le_rfl⟩
  | draw => exact ⟨le_rfl, le_rfl⟩
  | play order p identity =>
    obtain ⟨-, -, rfl, hplay⟩ := ha
    have hrank := rank_of_playable hplay
    refine ⟨?_, le_rfl⟩
    simp only [Basics.after, Basics.afterPlay, Function.update_apply]
    split
    · next hs =>
      rw [hs]
      omega
    · exact le_rfl
  | discard order p identity failed =>
    obtain ⟨-, -, rfl, -⟩ := ha
    refine ⟨le_rfl, ?_⟩
    simp only [Basics.after, Basics.afterDiscard, Function.update_apply]
    split
    · next hid =>
      rw [hid]
      omega
    · exact le_rfl
  | turn => exact ha.elim

/-- A card that is played along a continuation has a copy left then, and is next on a stack that
has only grown. -/
theorem of_mem_play (h : Spread dk st) (hc : Continuation dk st next st') {o p : ℕ}
    {id : Identity} (hid : id.Valid v) (hm : Action.play o p (some id) ∈ next) :
    ∃ mid : State, Spread dk mid ∧ (∀ s t, st.playStacks s ≤ mid.playStacks s ∧
        st.discardStacks t ≤ mid.discardStacks t) ∧
      id.rank = mid.playStacks id.suitIndex + 1 ∧ mid.baseCount id < v.cardCount id := by
  induction hc with
  | nil => simp at hm
  | @cons st st' a next deckIds ha _ ih =>
    rcases List.mem_cons.1 hm with rfl | hm
    · obtain ⟨hp, ho, htrue, hplay⟩ := ha
      have htrue := Option.some.inj htrue
      rw [← htrue] at hplay
      refine ⟨st, h, fun _ _ => ⟨le_rfl, le_rfl⟩, rank_of_playable hplay, ?_⟩
      have h1 := h.copies_le hid
      have h2 : 0 < st.handCopies dk (dk.truth o) :=
        handCopies_pos (State.mem_allOrders.2 ⟨p, hp, ho⟩)
      rw [← htrue] at h2
      omega
    · obtain ⟨mid, hmid, hle, hrest⟩ := ih (h.step ha deckIds) hm
      refine ⟨mid, hmid, ?_, hrest⟩
      intro s t
      have h1 := stacks_le ha deckIds s t
      have h2 := hle s t
      omega

/-- Trash stays out of reach along every continuation. -/
theorem not_play_of_trash (h : Spread dk st) (hmax : ∀ s < v.suits.length,
    st.maxRanks s ∈ st.rankLimits s) (hc : Continuation dk st next st') {id : Identity}
    (hid : id.Valid v) (htrash : st.isBasicTrash id = true) (o p : ℕ) :
    Action.play o p (some id) ∉ next := by
  intro hm
  obtain ⟨mid, hmid, hle, hrank, hcopy⟩ := h.of_mem_play hc hid hm
  rw [State.isBasicTrash, Bool.or_eq_true, decide_eq_true_eq, decide_eq_true_eq] at htrash
  obtain hplayed | hover := htrash
  · have := (hle id.suitIndex id).1
    omega
  · obtain h5 | ⟨r, h1, hr5, hgone, hr⟩ := hmax id.suitIndex hid.1
    · have := hid.2.2
      omega
    · -- no copy of rank `r` is left, which is the card itself or on the stack before it
      rw [State.cardCount, h.variant_eq] at hgone
      have hvalid : (⟨id.suitIndex, r⟩ : Identity).Valid v := ⟨hid.1, h1, hr5⟩
      have hcopies := hmid.copies_le hvalid
      have hstays := (hle id.suitIndex ⟨id.suitIndex, r⟩).2
      rw [State.baseCount] at hcopies hcopy
      by_cases hlt : r < id.rank
      · have hon : r ≤ mid.playStacks id.suitIndex := by omega
        rw [if_pos hon] at hcopies
        omega
      · have heq : id.rank = r := by omega
        have hself : id = ⟨id.suitIndex, r⟩ := by rw [← heq]
        rw [← hself] at hgone hstays
        omega

end Spread

/-! ## Other arrangements of the hidden cards -/

section

variable {dk : Deck v} {n our : ℕ} {options : TableOptions} {acts : List Action} {st : State}

/-- The cards that have left the hands are known. -/
theorem Run.identityOf_of_left (h : Run dk n our options acts st) {o : ℕ}
    (ho : (o : ℤ) ≤ st.cardOrder) (hout : o ∉ st.allOrders) :
    st.identityOf o = some (dk.truth o) := by
  induction h generalizing o with
  | fresh =>
    simp only [State.fresh] at ho
    omega
  | @step acts st new a deckIds hrun hl hd hst ih =>
    obtain ⟨-, rfl⟩ := Basics.onAction_eq_some_iff.1 hst
    have hinv := hrun.boardInv
    have hleave : ∀ (order p : ℕ) (new : State), p < st.numPlayers → order ∈ st.hands p →
        new.allOrders = (List.range st.numPlayers).flatMap (Basics.removeCard st.hands p order) →
        new.deck = Basics.revealCard st.deck order (some (dk.truth order)) →
        (o : ℤ) ≤ st.cardOrder → o ∉ new.allOrders → new.identityOf o = some (dk.truth o) := by
      intro order p new hp hm hall hdeck ho hout
      have hperm := Basics.flatMap_removeCard hp hm
      rw [← hall] at hperm
      rw [State.identityOf, hdeck, Basics.revealCard, SparseArray.get_set]
      by_cases heq : o = order
      · rw [if_pos heq, heq]
        rfl
      · rw [if_neg heq]
        refine ih ho ?_
        intro hmem
        obtain rfl | hmem := List.mem_cons.1 (hperm.mem_iff.1 hmem)
        · exact heq rfl
        · exact hout hmem
    cases a with
    | clue => exact ih ho hout
    | draw order p identity =>
      obtain ⟨-, horder, hp, -, -⟩ := hl
      have hperm := Basics.allOrders_onDraw hp (deckIds.get order) order identity
      have hne : o ≠ order := by
        rintro rfl
        exact hout (hperm.mem_iff.2 List.mem_cons_self)
      have hold : st.identityOf o = some (dk.truth o) := by
        refine ih ?_ ?_
        · simp only [Basics.after, Basics.onDraw] at ho
          omega
        · intro hmem
          exact hout (hperm.mem_iff.2 (List.mem_cons_of_mem _ hmem))
      simp only [Basics.after, State.identityOf, Basics.onDraw]
      rwa [SparseArray.get_set_of_ne _ hne]
    | play order p identity =>
      obtain ⟨-, hp, hm, rfl, -⟩ := hl
      exact hleave order p _ hp hm rfl rfl ho hout
    | discard order p identity failed =>
      obtain ⟨-, hp, hm, rfl, -⟩ := hl
      exact hleave order p _ hp hm rfl rfl ho hout
    | turn => exact hl.elim

/-- Of the cards drawn so far, some are in hand and the others are not. -/
theorem Spread.drawnCopies_eq (h : Spread dk st) (dk' : Deck v) (id : Identity) :
    st.drawnCopies dk' id = st.handCopies dk' id +
      (List.range (st.cardOrder + 1).toNat).countP fun o =>
        decide (o ∉ st.allOrders) && decide (dk'.truth o = id) := by
  have hperm : ((List.range (st.cardOrder + 1).toNat).filter fun o => o ∈ st.allOrders).Perm
      st.allOrders := by
    refine (List.perm_ext_iff_of_nodup (List.nodup_range.filter _) h.nodup).2 ?_
    intro o
    rw [List.mem_filter, List.mem_range, decide_eq_true_eq]
    refine ⟨And.right, fun ho => ⟨?_, ho⟩⟩
    have := h.order_le o ho
    omega
  rw [State.handCopies, ← hperm.countP_eq, List.countP_filter, State.drawnCopies,
    List.countP_eq_countP_filter_add _ _ fun o => decide (o ∈ st.allOrders)]
  simp only [List.countP_filter]
  congr 1
  refine List.countP_congr fun o _ => ?_
  simp [and_comm]

/-- In every arrangement that fits, the copies are where the counters say. -/
theorem Run.spread (h : Run dk n our options acts st) {dk' : Deck v} (hfits : Fits dk' st) :
    Spread dk' st := by
  have hspread := Spread.of_boardInv h.boardInv
  refine { hspread with copies := ?_ }
  intro id hid
  have h1 := hspread.copies id hid
  rw [hspread.drawnCopies_eq dk id] at h1
  rw [hspread.drawnCopies_eq dk' id]
  have hout : ((List.range (st.cardOrder + 1).toNat).countP fun o =>
        decide (o ∉ st.allOrders) && decide (dk'.truth o = id)) =
      (List.range (st.cardOrder + 1).toNat).countP fun o =>
        decide (o ∉ st.allOrders) && decide (dk.truth o = id) := by
    refine List.countP_congr fun o ho => ?_
    rw [Bool.and_eq_true, Bool.and_eq_true, decide_eq_true_eq, decide_eq_true_eq, decide_eq_true_eq]
    refine and_congr_right fun hleft => ?_
    have hlt := List.mem_range.1 ho
    rw [hfits o _ (h.identityOf_of_left (by omega) hleft)]
  omega

end

/-! ## A continuation that plays the card -/

namespace Continuation

variable {dk : Deck v} {st mid st' : State}

theorem append {next next' : List Action} (h : Continuation dk st next mid)
    (h' : Continuation dk mid next' st') : Continuation dk st (next ++ next') st' := by
  induction h with
  | nil => exact h'
  | cons ha _ ih => exact .cons ha (ih h')

theorem single {a : Action} (h : Possible dk st a) :
    Continuation dk st [a] (Basics.after st .empty a) :=
  .cons h .nil

end Continuation

/-- Every rank from the top of the stack up to the identity's has a copy left. -/
def Open (st : State) (id : Identity) : Prop :=
  ∀ r, st.playStacks id.suitIndex < r → r ≤ id.rank →
    st.baseCount ⟨id.suitIndex, r⟩ < st.cardCount ⟨id.suitIndex, r⟩

section

variable {dk : Deck v} {st : State} {id : Identity}

theorem Open.of_boardInv {acts : List Action} (h : BoardInv dk acts st) (hid : id.Valid v)
    (htrash : st.isBasicTrash id = false) : Open st id := by
  intro r hlt hle
  rw [State.isBasicTrash, Bool.or_eq_false_iff, decide_eq_false_iff_not,
    decide_eq_false_iff_not] at htrash
  have hr5 := hid.2.2
  have hvalid : (⟨id.suitIndex, r⟩ : Identity).Valid v :=
    ⟨hid.1, show 1 ≤ r by omega, show r ≤ 5 by omega⟩
  have hcopies := h.copies_le hvalid
  rw [State.cardCount, h.variant_eq]
  have hon : ¬ r ≤ st.playStacks id.suitIndex := by omega
  simp only [State.baseCount, if_neg hon] at hcopies ⊢
  have hne : st.discardStacks ⟨id.suitIndex, r⟩ ≠ v.cardCount ⟨id.suitIndex, r⟩ := by
    intro hgone
    have := (h.maxRanks_isLeast id.suitIndex hid.1).2
      (Or.inr ⟨r, hvalid.2.1, hvalid.2.2, by rw [State.cardCount, h.variant_eq, hgone], rfl⟩)
    omega
  omega

/-- With more cards in hand than there are ranks, some card can be discarded and the ranks stay
open. -/
theorem Spread.exists_discardable (h : Spread dk st) (id : Identity)
    (hmany : 5 < st.allOrders.length) :
    ∃ o ∈ st.allOrders, ∀ r, st.playStacks id.suitIndex < r → r ≤ id.rank →
      dk.truth o = ⟨id.suitIndex, r⟩ →
        st.baseCount ⟨id.suitIndex, r⟩ + 1 < st.cardCount ⟨id.suitIndex, r⟩ := by
  by_contra hall
  push Not at hall
  -- otherwise each card in hand is the last copy of one of the ranks
  have hlast : ∀ o ∈ st.allOrders, ∃ r, 1 ≤ r ∧ r ≤ 5 ∧ dk.truth o = ⟨id.suitIndex, r⟩ ∧
      st.handCopies dk ⟨id.suitIndex, r⟩ ≤ 1 := by
    intro o ho
    obtain ⟨r, hlt, hle, htruth, hfew⟩ := hall o ho
    have hvalid := dk.truth_valid o (h.order_lt_deckSize ho)
    rw [htruth] at hvalid
    have hcopies := h.copies_le hvalid
    rw [State.cardCount, h.variant_eq] at hfew
    exact ⟨r, hvalid.2.1, hvalid.2.2, htruth, by omega⟩
  have hinj : (st.allOrders.map fun o => (dk.truth o).rank).Nodup := by
    refine List.Nodup.map_on ?_ h.nodup
    intro o ho o' ho' heq
    obtain ⟨r, -, -, htruth, hone⟩ := hlast o ho
    obtain ⟨r', -, -, htruth', -⟩ := hlast o' ho'
    rw [htruth, htruth'] at heq
    cases heq
    by_contra hne
    have hsub : [o, o'].Subperm st.allOrders := by
      refine List.subperm_of_subset (by simp [hne]) ?_
      intro x hx
      simp only [List.mem_cons, List.not_mem_nil, or_false] at hx
      obtain rfl | rfl := hx
      · exact ho
      · exact ho'
    have htwo := hsub.countP_le fun o => decide (dk.truth o = ⟨id.suitIndex, r⟩)
    simp only [List.countP_cons, htruth, htruth', List.countP_nil, decide_true, if_true] at htwo
    rw [State.handCopies] at hone
    omega
  have hsub : (st.allOrders.map fun o => (dk.truth o).rank).Subperm (List.range' 1 5) := by
    refine List.subperm_of_subset hinj ?_
    intro r hr
    obtain ⟨o, ho, rfl⟩ := List.mem_map.1 hr
    obtain ⟨r, h1, h5, htruth, -⟩ := hlast o ho
    rw [htruth, List.mem_range'_1]
    exact ⟨h1, show r < 1 + 5 by omega⟩
  have := hsub.length_le
  rw [List.length_map, List.length_range'] at this
  omega

theorem State.mul_le_length_allOrders {m : ℕ} (hfull : ∀ p < st.numPlayers, m ≤ (st.hands p).length) :
    st.numPlayers * m ≤ st.allOrders.length := by
  rw [State.allOrders, List.length_flatMap]
  have hsum := List.card_nsmul_le_sum ((List.range st.numPlayers).map fun p => (st.hands p).length)
    m ?_
  · simpa using hsum
  · intro x hx
    obtain ⟨p, hp, rfl⟩ := List.mem_map.1 hx
    exact hfull p (List.mem_range.1 hp)

/-- Two to six players hold more cards than there are ranks. -/
theorem State.five_lt_of_full (hn : 2 ≤ st.numPlayers) (hn6 : st.numPlayers ≤ 6)
    (hfull : ∀ p < st.numPlayers, st.handSize ≤ (st.hands p).length) :
    5 < st.allOrders.length := by
  have hsize : 0 ≤ st.handSize ∧ 6 ≤ st.numPlayers * st.handSize := by
    unfold State.handSize
    have hcase : st.numPlayers = 2 ∨ st.numPlayers = 3 ∨ st.numPlayers = 4 ∨
        st.numPlayers = 5 ∨ st.numPlayers = 6 := by omega
    rcases hcase with hp | hp | hp | hp | hp <;> rw [hp] <;>
      simp only [HAND_SIZE, List.getD_cons_succ, List.getD_cons_zero] <;> split_ifs <;> omega
  have hle := State.mul_le_length_allOrders (m := st.handSize.toNat) fun p hp => by
    have := hfull p hp
    omega
  have hcast : (st.handSize.toNat : ℤ) = st.handSize := Int.toNat_of_nonneg hsize.1
  have hle : ((st.numPlayers * st.handSize.toNat : ℕ) : ℤ) ≤ st.allOrders.length := by
    exact_mod_cast hle
  push_cast at hle
  rw [hcast] at hle
  omega

/-- With full hands a card can be discarded so that the ranks stay open. -/
theorem Spread.exists_makeRoom (h : Spread dk st) (hn : 2 ≤ st.numPlayers)
    (hn6 : st.numPlayers ≤ 6) (hopen : Open st id)
    (hfull : ∀ p < st.numPlayers, st.handSize ≤ (st.hands p).length) :
    ∃ a, Possible dk st a ∧ Open (Basics.after st .empty a) id ∧
      (Basics.after st .empty a).cardsLeft = st.cardsLeft ∧
      (Basics.after st .empty a).numPlayers = st.numPlayers ∧
      (Basics.after st .empty a).playStacks = st.playStacks ∧
      ∃ p < st.numPlayers, (((Basics.after st .empty a).hands p).length : ℤ) <
        (Basics.after st .empty a).handSize := by
  obtain ⟨o, ho, hspare⟩ := h.exists_discardable id (State.five_lt_of_full hn hn6 hfull)
  obtain ⟨p, hp, hm⟩ := State.mem_allOrders.1 ho
  refine ⟨.discard o p (some (dk.truth o)) false,
    ⟨hp, hm, rfl, fun hf => absurd hf Bool.false_ne_true⟩, ?_, rfl, rfl, rfl, p, hp, ?_⟩
  · intro r hlt hle
    show (Basics.afterDiscard st o p (some (dk.truth o)) false).baseCount _ < _
    rw [BoardInv.baseCount_afterDiscard]
    split
    · next heq => exact hspare r hlt hle heq
    · exact hopen r hlt hle
  · show ((Basics.removeCard st.hands p o p).length : ℤ) < st.handSize
    rw [Basics.removeCard_self, Basics.spliceOut_of_mem hm, List.length_erase_of_mem hm]
    have hpos := List.length_pos_of_mem hm
    obtain hnil | hle := h.hand_le p
    · simp [hnil] at hm
    · omega

/-- All cards can be drawn while the ranks stay open. -/
theorem Spread.exists_drawAll (h : Spread dk st) (hn : 2 ≤ st.numPlayers)
    (hn6 : st.numPlayers ≤ 6) (hopen : Open st id) :
    ∃ next st', Continuation dk st next st' ∧ Spread dk st' ∧ Open st' id ∧ st'.cardsLeft = 0 ∧
      st'.playStacks = st.playStacks := by
  obtain ⟨k, hk⟩ : ∃ k : ℕ, st.cardsLeft = k := ⟨_, (Int.toNat_of_nonneg h.cardsLeft_nonneg).symm⟩
  induction k generalizing st with
  | zero => exact ⟨[], st, .nil, h, hopen, hk, rfl⟩
  | succ k ih =>
    have hdraw : ∀ {st : State}, Spread dk st → 2 ≤ st.numPlayers → st.numPlayers ≤ 6 →
        Open st id → st.cardsLeft = (k + 1 : ℕ) →
        (∃ p < st.numPlayers, ((st.hands p).length : ℤ) < st.handSize) →
        ∃ next st', Continuation dk st next st' ∧ Spread dk st' ∧ Open st' id ∧
          st'.cardsLeft = 0 ∧ st'.playStacks = st.playStacks := by
      intro st h hn hn6 hopen hk hroom
      obtain ⟨p, hp, hroom⟩ := hroom
      have horder := h.cardOrder_ge
      have hposs : Possible dk st (.draw (st.cardOrder + 1).toNat p none) :=
        ⟨by omega, by omega, hp, hroom, Or.inl rfl⟩
      have hleft : (Basics.after st .empty (.draw (st.cardOrder + 1).toNat p none)).cardsLeft =
          (k : ℕ) := by
        simp only [Basics.after, Basics.onDraw]
        omega
      obtain ⟨next, st', hc, hrest⟩ := ih (h.step hposs .empty) hn hn6 hopen hleft
      exact ⟨_, st', .cons hposs hc, hrest⟩
    by_cases hroom : ∃ p < st.numPlayers, ((st.hands p).length : ℤ) < st.handSize
    · exact hdraw h hn hn6 hopen hk hroom
    · push Not at hroom
      obtain ⟨a, ha, hopen', hleft, hplayers, hstacks, hroom'⟩ := h.exists_makeRoom hn hn6 hopen hroom
      rw [← hplayers] at hn hn6 hroom'
      obtain ⟨next, st', hc, hs, ho, h0, hsame⟩ := hdraw (h.step ha .empty) hn hn6 hopen'
        (hleft.trans hk) hroom'
      exact ⟨_, st', .cons ha hc, hs, ho, h0, hsame.trans hstacks⟩

/-- Once all cards are drawn, the open ranks can be played one after the other. -/
theorem Spread.exists_play (h : Spread dk st) (hleft : st.cardsLeft = 0) (hid : id.Valid v)
    (hlt : st.playStacks id.suitIndex < id.rank) (hopen : Open st id) :
    ∃ next st' o p, Continuation dk st next st' ∧ Action.play o p (some id) ∈ next := by
  obtain ⟨k, hk⟩ : ∃ k, id.rank = st.playStacks id.suitIndex + 1 + k :=
    Nat.exists_eq_add_of_le hlt
  induction k generalizing st with
  | zero =>
    have hnext : (⟨id.suitIndex, id.rank⟩ : Identity) = id := rfl
    have hcopy := hopen id.rank hlt le_rfl
    rw [hnext, State.cardCount, h.variant_eq, ← h.copies_eq hleft hid] at hcopy
    obtain ⟨o, ho, htruth⟩ := List.countP_pos_iff.1 (show 0 < st.handCopies dk id by omega)
    rw [decide_eq_true_eq] at htruth
    obtain ⟨p, hp, hm⟩ := State.mem_allOrders.1 ho
    refine ⟨[.play o p (some id)], _, o, p, .single ⟨hp, hm, by rw [htruth], ?_⟩,
      List.mem_singleton_self _⟩
    rw [htruth]
    simpa [State.isPlayable] using hk
  | succ k ih =>
    have hr5 := hid.2.2
    have hvalid : (⟨id.suitIndex, st.playStacks id.suitIndex + 1⟩ : Identity).Valid v :=
      ⟨hid.1, show 1 ≤ st.playStacks id.suitIndex + 1 by omega,
        show st.playStacks id.suitIndex + 1 ≤ 5 by omega⟩
    have hcopy := hopen (st.playStacks id.suitIndex + 1) (by omega) (by omega)
    rw [State.cardCount, h.variant_eq, ← h.copies_eq hleft hvalid] at hcopy
    obtain ⟨o, ho, htruth⟩ := List.countP_pos_iff.1
      (show 0 < st.handCopies dk ⟨id.suitIndex, st.playStacks id.suitIndex + 1⟩ by omega)
    rw [decide_eq_true_eq] at htruth
    obtain ⟨p, hp, hm⟩ := State.mem_allOrders.1 ho
    have hplayable : st.isPlayable (dk.truth o) = true := by
      rw [htruth]
      simp [State.isPlayable]
    have hposs : Possible dk st (.play o p (some (dk.truth o))) := ⟨hp, hm, rfl, hplayable⟩
    have hstack : (Basics.after st .empty (.play o p (some (dk.truth o)))).playStacks
        id.suitIndex = st.playStacks id.suitIndex + 1 := by
      rw [htruth]
      simp [Basics.after, Basics.afterPlay]
    have hopen' : Open (Basics.after st .empty (.play o p (some (dk.truth o)))) id := by
      intro r hlt' hle
      rw [hstack] at hlt'
      show (Basics.afterPlay st o p (some (dk.truth o))).baseCount _ < _
      rw [BoardInv.baseCount_afterPlay (Spread.rank_of_playable hplayable), htruth, if_neg]
      · exact hopen r (by omega) hle
      · intro heq
        have hr : st.playStacks id.suitIndex + 1 = r := congrArg Identity.rank heq
        omega
    obtain ⟨next, st', o', p', hc, hmem⟩ := ih (h.step hposs .empty) hleft
      (by rw [hstack]; omega) hopen' (by rw [hstack]; omega)
    exact ⟨_, st', o', p', .cons hposs hc, List.mem_cons_of_mem _ hmem⟩

end

/-! ## Trash and critical -/

section

variable {dk : Deck v} {n our : ℕ} {options : TableOptions} {acts : List Action} {st : State}

/-- An identity is trash exactly if no continuation plays it, wherever the hidden cards are. -/
theorem Run.isBasicTrash_iff (h : Run dk n our options acts st) (hn : 2 ≤ n) (hn6 : n ≤ 6)
    {id : Identity} (hid : id.Valid v) :
    st.isBasicTrash id = true ↔ ∀ dk' : Deck v, Fits dk' st → ∀ next st',
      Continuation dk' st next st' → ∀ o p, Action.play o p (some id) ∉ next := by
  have hinv := h.boardInv
  constructor
  · intro htrash dk' hfits next st' hc o p
    exact (h.spread hfits).not_play_of_trash (fun s hs => (hinv.maxRanks_isLeast s hs).1) hc hid
      htrash o p
  · intro hnever
    by_contra htrash
    rw [Bool.not_eq_true] at htrash
    rw [← h.numPlayers_eq] at hn hn6
    have hfits : Fits dk st := fun o t ht => (hinv.identityOf_eq o t ht).symm
    obtain ⟨next, mid, hc, hmid, hopen, hleft, hstacks⟩ :=
      (h.spread hfits).exists_drawAll hn hn6 (Open.of_boardInv hinv hid htrash)
    have hlt : mid.playStacks id.suitIndex < id.rank := by
      rw [State.isBasicTrash, Bool.or_eq_false_iff, decide_eq_false_iff_not] at htrash
      rw [hstacks]
      omega
    obtain ⟨next', st', o, p, hc', hm⟩ := hmid.exists_play hleft hid hlt hopen
    exact hnever dk hfits _ st' (hc.append hc') o p (List.mem_append_right _ hm)

theorem State.maxScore_afterDiscard_lt_iff {id : Identity} (hs : id.suitIndex < st.variant.suits.length)
    (order p : ℕ) (failed : Bool) :
    (Basics.afterDiscard st order p (some id) failed).maxScore < st.maxScore ↔
      st.discardStacks id + 1 = st.cardCount id ∧ id.rank - 1 < st.maxRanks id.suitIndex := by
  have hvariant : (Basics.afterDiscard st order p (some id) failed).variant = st.variant := rfl
  have hmax : (Basics.afterDiscard st order p (some id) failed).maxRanks =
      if st.discardStacks id + 1 = st.cardCount id then
        Function.update st.maxRanks id.suitIndex (min (st.maxRanks id.suitIndex) (id.rank - 1))
      else st.maxRanks := rfl
  rw [State.maxScore, State.maxScore, hvariant, hmax]
  by_cases hlast : st.discardStacks id + 1 = st.cardCount id
  · have hsum := Counting.sum_update (Finset.mem_range.2 hs) st.maxRanks
      (min (st.maxRanks id.suitIndex) (id.rank - 1))
    rw [if_pos hlast]
    simp only [hlast, true_and]
    omega
  · simp [hlast]

/-- An identity is critical exactly if a copy is left and discarding it lowers the maximum
score. -/
theorem Run.isCritical_iff (h : Run dk n our options acts st) {id : Identity} (hid : id.Valid v)
    {order p : ℕ} {failed : Bool} {st' : State}
    (hst : Basics.onDiscard st order p (some id) failed = some st') :
    st.isCritical id = true ↔ st.baseCount id < st.cardCount id ∧ st'.maxScore < st.maxScore := by
  obtain ⟨-, hst⟩ := Option.ite_none_left_eq_some.1 hst
  obtain rfl := Option.some.inj hst
  have hinv := h.boardInv
  have hcopies := hinv.copies_le hid
  have hr1 := hid.2.1
  rw [State.maxScore_afterDiscard_lt_iff (by rw [hinv.variant_eq]; exact hid.1), State.isCritical,
    State.isBasicTrash, State.cardCount, hinv.variant_eq]
  simp only [Bool.and_eq_true, Bool.not_eq_true', Bool.or_eq_false_iff, decide_eq_false_iff_not,
    beq_iff_eq, State.baseCount] at hcopies ⊢
  split_ifs at hcopies ⊢ <;> omega

/-- What the tests say about the rest of the game, in every reachable state. -/
theorem Run.trash_critical (h : Run dk n our options acts st) (hn : 2 ≤ n) (hn6 : n ≤ 6)
    {id : Identity} (hid : id.Valid v) :
    (st.isBasicTrash id = true ↔ ∀ dk' : Deck v, Fits dk' st → ∀ next st',
      Continuation dk' st next st' → ∀ o p, Action.play o p (some id) ∉ next) ∧
    ∀ order p failed st', Basics.onDiscard st order p (some id) failed = some st' →
      (st.isCritical id = true ↔
        st.baseCount id < st.cardCount id ∧ st'.maxScore < st.maxScore) :=
  ⟨h.isBasicTrash_iff hn hn6 hid, fun _ _ _ _ hst => h.isCritical_iff hid hst⟩

end

/-- Alice and Bob hold red 1 to red 5 between them, and a yellow 4 each. -/
def redFirst : Deck noVariant :=
  let dealt : List Identity :=
    [⟨0, 1⟩, ⟨0, 3⟩, ⟨0, 5⟩, ⟨1, 4⟩, ⟨2, 1⟩, ⟨0, 2⟩, ⟨0, 4⟩, ⟨1, 4⟩, ⟨2, 2⟩, ⟨2, 3⟩]
  .ofList suits_noVariant (dealt ++ (Deck.sortedCards noVariant).diff dealt) (by decide +kernel)

/-- They play red 1 to red 5 in turn, and misplay the yellow 4s. -/
def redPlays : List Action :=
  (List.range 10).map (fun o => .draw o (o / 5) none) ++
    [.play 0 0 (some ⟨0, 1⟩), .draw 10 0 none, .play 5 1 (some ⟨0, 2⟩), .draw 11 1 none,
      .play 1 0 (some ⟨0, 3⟩), .draw 12 0 none, .play 6 1 (some ⟨0, 4⟩), .draw 13 1 none,
      .play 2 0 (some ⟨0, 5⟩), .draw 14 0 none, .discard 7 1 (some ⟨1, 4⟩) true,
      .draw 15 1 none, .discard 3 0 (some ⟨1, 4⟩) true, .draw 16 0 none]

def redPlayed : State := redPlays.foldl (Basics.after · .empty) (State.fresh noVariant 2 0 {})

theorem run_redPlayed : ∃ acts, Run redFirst 2 0 {} acts redPlayed :=
  Run.fresh.append (by decide +kernel)

/-- No continuation plays the yellow 5 any more, and green 5 is critical. -/
theorem Run.trash_critical_redPlayed :
    (∀ next st', Continuation redFirst redPlayed next st' →
      ∀ o p, Action.play o p (some ⟨1, 5⟩) ∉ next) ∧ redPlayed.isCritical ⟨2, 5⟩ = true := by
  obtain ⟨acts, hrun⟩ := run_redPlayed
  have hyellow := (hrun.trash_critical (by decide) (by decide)
    (show (⟨1, 5⟩ : Identity).Valid noVariant by decide))
  have hgreen := (hrun.trash_critical (by decide) (by decide)
    (show (⟨2, 5⟩ : Identity).Valid noVariant by decide))
  refine ⟨hyellow.1.1 (by decide +kernel) redFirst ?_,
    (hgreen.2 4 0 false _ rfl).2 ⟨by decide +kernel, by decide +kernel⟩⟩
  exact fun o t ht => (hrun.boardInv.identityOf_eq o t ht).symm

/-- Red 5 is not critical then, but one more `onDiscard` of it would lower the maximum score. -/
theorem redPlayed_not_critical :
    (∃ acts, Run redFirst 2 0 {} acts redPlayed) ∧ redPlayed.isCritical ⟨0, 5⟩ = false ∧
      ∃ st', Basics.onDiscard redPlayed 4 0 (some ⟨0, 5⟩) false = some st' ∧
        st'.maxScore < redPlayed.maxScore :=
  ⟨run_redPlayed, by decide +kernel, _, rfl, by decide +kernel⟩

end HanabiBot
