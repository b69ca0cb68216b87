import HanabiBot.Basics.Truth

/-!
# Games of which everything that is thought is true

The handlers, one after the other, and the games that legal actions reach, with any inferences
in between.

* `handle_true` — a legal action is handled without an error, unless it takes the only card of a
  hand, and `TrueGame` is kept;
* `MindGame.Reachable.truth_possible`, `MindGame.Reachable.never_forgets` — what follows for whole
  games;
* `MindGame.Reachable.told_everybody` — what a clue or a card that is turned over tells is told to
  everybody.
-/

namespace HanabiBot

open Except (Yields)
open Fuel (Succeeds)

variable {v : Variant} {dk : Deck v} {acts acts' : List Action} {st st' : State}
  {player player' : Mind}

/-! ## The handlers -/

theorem mem_findPossibilities {clue : BaseClue} {id : Identity} :
    id ∈ v.findPossibilities clue ↔ id.Valid v ∧ v.cardTouched id clue = true := by
  rw [Variant.findPossibilities, List.mem_filter, Variant.mem_allIdentities]

theorem testBit_findPossibilities {clue : BaseClue} {id : Identity} (hid : id.Valid v) :
    (IdentitySet.identitiesToMask (v.findPossibilities clue)).testBit (IdentitySet.bit id) =
      v.cardTouched id clue := by
  rw [IdentitySet.testBit_identitiesToMask_bit (fun id' hid' => (mem_findPossibilities.1 hid').1.2)
    hid.2, Bool.eq_iff_iff, decide_eq_true_eq, mem_findPossibilities]
  exact ⟨fun h => h.2, fun h => ⟨hid, h⟩⟩

/-- A clue that touches a card if and only if it is about it tells the truth. -/
theorem clueWrites_true {clue : BaseClue} {list : List ℕ} {o : ℕ}
    (hlist : list.contains o = v.cardTouched (dk.truth o) clue) {card : Card}
    (hcard : card.Truthful v (dk.truth o)) :
    ∀ p ∈ MindGame.clueWrites v clue list o card, p.TrueFor v (dk.truth o) := by
  have hbit := @testBit_findPossibilities v clue _ hcard.valid
  have hmem := IdentitySet.mem_array.1 hcard.possible
  set mask := IdentitySet.identitiesToMask (v.findPossibilities clue) with hmask
  intro p hp
  unfold MindGame.clueWrites at hp
  dsimp only at hp
  rw [← hmask] at hp
  split at hp
  · rename_i htouched
    have hkeep : dk.truth o ∈ (card.possible.intersect mask).array := by
      refine IdentitySet.mem_array.2 ⟨hmem.1, hmem.2.1, ?_⟩
      rw [IdentitySet.has_intersect, hmem.2.2, hbit, ← hlist, htouched]
      rfl
    obtain hp | hp := List.mem_append.1 hp
    · split at hp
      · exact (List.not_mem_nil hp).elim
      · simp only [List.mem_cons, List.not_mem_nil, or_false] at hp
        obtain rfl | rfl | rfl := hp <;> trivial
    · simp only [List.mem_cons, List.not_mem_nil, or_false] at hp
      obtain rfl | rfl := hp
      · exact ⟨hcard.numSuits, hkeep⟩
      · trivial
  · rename_i hnot
    have hkeep : dk.truth o ∈ (card.possible.subtract mask).array := by
      refine IdentitySet.mem_array.2 ⟨hmem.1, hmem.2.1, ?_⟩
      rw [IdentitySet.has_subtract, hmem.2.2, hbit, ← hlist, Bool.eq_false_iff.2 hnot]
      rfl
    simp only [List.mem_cons, List.not_mem_nil, or_false] at hp
    obtain rfl | rfl := hp
    · exact ⟨hcard.numSuits, hkeep⟩
    · trivial

/-- What everybody in a game thinks is true. -/
structure TrueGame (dk : Deck v) (game : MindGame) : Prop where
  common : TrueOf dk game.state game.common.toMind
  players : ∀ player ∈ game.players, TrueOf dk game.state player
  patches : TruePatches dk game.state game.common.patches
  deckIds : TruthfulIds dk game.deckIds

theorem TrueGame.thinking {game : MindGame} (h : TrueGame dk game) : ThinkingGame dk game :=
  ⟨h.common.toThinks, fun player hplayer => (h.players player hplayer).toThinks, h.deckIds⟩

section

variable {goodTouchElim : Bool → Inferrer} {game : MindGame}

theorem teamElimP_true (hb : BoardInv dk acts game.state) (hnames : v.DistinctNames)
    (h : TrueGame dk game) :
    Succeeds (fun fuel => game.teamElimP goodTouchElim fuel) (TrueGame dk) := by
  unfold MindGame.teamElimP
  have hplayers : ∀ player ∈ game.players, Succeeds (fun fuel =>
      (MindGame.takeOver game.common player).bind fun player =>
        (MindGame.elim fuel player game.state).bind fun player =>
          MindGame.refresh
            (game.touchElim goodTouchElim (game.state.numPlayers == 2) player game.state)
            game.state) (TrueOf dk game.state) := by
    intro player hplayer
    refine (takeOver_true h.common h.patches (h.players player hplayer)).bind fun player₁ h₁ => ?_
    refine (elim_true hb hnames h₁).bind fun player₂ h₂ => ?_
    exact touch_refresh_true goodTouchElim game _ _ _ h₂
  refine (Succeeds.mapM (S := fun _ => TrueOf dk game.state) hplayers).map fun players hall => ?_
  exact ⟨h.common, forall_of_forall₂ hall fun _ _ htrue => htrue,
    fun _ he => (List.not_mem_nil he).elim, h.deckIds⟩

/-- The common player is told something; then the players are. -/
theorem tell_true (hb : BoardInv dk acts st) (hnames : v.DistinctNames) {newState : State}
    (hb' : BoardInv dk acts' newState) (horder : newState.cardOrder = st.cardOrder)
    (h : TrueGame dk game) (horder' : st.cardOrder = game.state.cardOrder) {common : CommonPlayer}
    (hcommon : TrueOf dk game.state common.toMind)
    (hpatches : TruePatches dk game.state common.patches) {deckIds : SparseArray Identity}
    (hids : TruthfulIds dk deckIds) :
    Succeeds (fun fuel => game.tell goodTouchElim fuel st newState common deckIds)
      (TrueGame dk) := by
  unfold MindGame.tell
  refine (elim_true hb hnames (hcommon.congr horder')).bind fun player hplayer => ?_
  have hrefresh := touch_refresh_true goodTouchElim game false st newState hplayer
  refine hrefresh.bind fun player' hplayer' => ?_
  have hnew : TrueGame dk { game with
      state := newState
      common := { common with toMind := player' }
      deckIds } := by
    refine ⟨hplayer'.congr horder, fun p hp => (h.players p hp).congr (horder.trans horder'), ?_,
      hids⟩
    intro e he
    rw [horder, horder']
    exact hpatches e he
  exact teamElimP_true hb' hnames hnew

theorem onClue_true (hb : BoardInv dk acts game.state) (hnames : v.DistinctNames)
    (hb' : BoardInv dk acts' (Basics.onClue game.state)) (h : TrueGame dk game) {target : ℕ}
    (htarget : target < game.state.numPlayers) {clue : BaseClue} {list : List ℕ}
    (hlist : list = (game.state.hands target).filter fun o => v.cardTouched (dk.truth o) clue) :
    Succeeds (fun fuel => game.onClue goodTouchElim fuel target list clue) (TrueGame dk) := by
  have hloop := Succeeds.foldlM (l := game.state.hands target)
    (k := fun (common : CommonPlayer) o _ =>
      common.withThoughts o (MindGame.clueWrites game.state.variant clue list o))
    (P := fun common => TrueOf dk game.state common.toMind ∧
      TruePatches dk game.state common.patches) (fun o ho common hcommon => ?_)
    ⟨h.common, h.patches⟩
  · unfold MindGame.onClue
    exact hloop.bind fun common hcommon =>
      tell_true hb hnames hb' rfl h rfl hcommon.1 hcommon.2 h.deckIds
  · have hdrawn := hb.order_le o (State.mem_allOrders.2 ⟨target, htarget, ho⟩)
    have hcontains : list.contains o = v.cardTouched (dk.truth o) clue := by
      rw [Bool.eq_iff_iff, List.contains_iff_mem, hlist, List.mem_filter]
      exact ⟨fun h => h.2, fun h => ⟨ho, h⟩⟩
    obtain ⟨common', heq, htrue⟩ := withThoughts_true hcommon.1 hcommon.2 hdrawn
      (MindGame.clueWrites game.state.variant clue list o)
      (fun card hcard => by rw [hb.variant_eq]; exact clueWrites_true hcontains hcard)
    exact .of_eq heq htrue

theorem revealWrites_true {truth : Identity} {card : Card} (hcard : card.Truthful v truth) :
    ∀ p ∈ MindGame.revealWrites truth card, p.TrueFor v truth := by
  have hmem := IdentitySet.mem_array.1 hcard.possible
  have hkeep : truth ∈ (card.possible.intersect (IdentitySet.toMask truth)).array := by
    refine IdentitySet.mem_array.2 ⟨hmem.1, hmem.2.1, ?_⟩
    rw [IdentitySet.has_intersect, hmem.2.2, IdentitySet.testBit_toMask hmem.2.1 hmem.2.1]
    simp
  intro p hp
  simp only [MindGame.revealWrites, List.mem_cons, List.not_mem_nil, or_false] at hp
  obtain rfl | rfl | rfl | rfl := hp
  · rfl
  · trivial
  · exact ⟨hcard.numSuits, hkeep⟩
  · trivial

/-- A card is turned over as what it is. -/
theorem turnUp_true (hb : BoardInv dk acts game.state) (hnames : v.DistinctNames)
    {newState : State} (hb' : BoardInv dk acts' newState)
    (horder : newState.cardOrder = game.state.cardOrder) (h : TrueGame dk game) {o : ℕ}
    (ho : o ∈ game.state.allOrders) :
    Succeeds (fun fuel => game.turnUp goodTouchElim fuel newState o (some (dk.truth o)))
      (TrueGame dk) := by
  obtain ⟨common, heq, htrue, hpatches⟩ := withThoughts_true h.common h.patches
    (hb.order_le o ho) (MindGame.revealWrites (dk.truth o))
    (fun card hcard => revealWrites_true hcard)
  unfold MindGame.turnUp
  dsimp only
  rw [heq]
  exact tell_true hb' hnames hb' rfl h horder htrue hpatches (h.deckIds.set o)

/-- A card that is not drawn yet is a copy that is not counted among the drawn ones. -/
theorem BoardInv.drawnCopies_lt_of_undrawn (hb : BoardInv dk acts st) {o : ℕ}
    (hafter : st.cardOrder < o) (hsize : o < v.deckSize) :
    st.drawnCopies dk (dk.truth o) < v.cardCount (dk.truth o) := by
  have hge := hb.cardOrder_ge
  rw [State.drawnCopies, ← dk.count_truth _ (dk.truth_valid o hsize)]
  have hsucc : (List.range (o + 1)).countP (fun o' => dk.truth o' = dk.truth o) =
      (List.range o).countP (fun o' => dk.truth o' = dk.truth o) + 1 := by
    rw [List.range_succ, List.countP_append]
    simp
  have hle : (List.range (o + 1)).countP (fun o' => dk.truth o' = dk.truth o) ≤
      (List.range v.deckSize).countP fun o' => dk.truth o' = dk.truth o :=
    (List.range_sublist.2 hsize).countP_le
  have hdrawn : (List.range (st.cardOrder + 1).toNat).countP (fun o' => dk.truth o' = dk.truth o) ≤
      (List.range o).countP fun o' => dk.truth o' = dk.truth o :=
    (List.range_sublist.2 (by omega)).countP_le
  omega

theorem seeDraw_true {identity : Option Identity} {order : ℕ} (hb : BoardInv dk acts st)
    (horder : (order : ℤ) = st.cardOrder + 1) (hleft : 0 < st.cardsLeft)
    (h : TrueOf dk st player) (hidentity : ∀ id, identity = some id → id = dk.truth order)
    (deckId shown : Option Identity) (p : ℕ) :
    TrueOf dk (Basics.onDraw st deckId order p shown) (MindGame.seeDraw player order identity) := by
  have hsize : order < v.deckSize := by
    have hcards := hb.cardsLeft_eq
    omega
  have hvalid := dk.truth_valid order hsize
  have hlt := hb.drawnCopies_lt_of_undrawn (by omega) hsize
  have hnew : (MindGame.drawnCard player order identity).Truthful v (dk.truth order) :=
    ⟨h.numSuits, h.allPossible _ hvalid hlt, hidentity, fun _ hids => nomatch hids⟩
  have hcardOrder : (Basics.onDraw st deckId order p shown).cardOrder = order := rfl
  refine ⟨(seeDraw_learns horder h.toThinks deckId shown p).1, fun o ho => ?_, fun id hid hlt => ?_⟩
  · rw [hcardOrder] at ho
    by_cases heq : o = order
    · subst heq
      exact ⟨_, SparseArray.get_set_self _ _ _, hnew⟩
    · show ∃ card, (player.thoughts.set order _).get o = some card ∧ _
      rw [SparseArray.get_set_of_ne _ heq]
      exact h.thoughts o (by omega)
  · refine h.allPossible id hid (lt_of_le_of_lt ?_ hlt)
    rw [State.drawnCopies, State.drawnCopies, hcardOrder]
    exact (List.range_sublist.2 (by omega)).countP_le

theorem onDraw_true (hb : BoardInv dk acts game.state) (hnames : v.DistinctNames) {order p : ℕ}
    {identity : Option Identity}
    (hb' : BoardInv dk acts'
      (Basics.onDraw game.state (game.deckIds.get order) order p identity))
    (h : TrueGame dk game) (horder : (order : ℤ) = game.state.cardOrder + 1)
    (hleft : 0 < game.state.cardsLeft)
    (hroom : ((game.state.hands p).length : ℤ) < game.state.handSize)
    (hidentity : identity = none ∨ identity = some (dk.truth order)) :
    Succeeds (fun fuel => game.onDraw goodTouchElim fuel order p identity) (TrueGame dk) := by
  have htrue : ∀ sees : Bool, ∀ id, (if sees then identity else none) = some id →
      id = dk.truth order := by
    intro sees id hid
    cases sees with
    | false => cases hid
    | true =>
      obtain rfl | rfl := hidentity
      · cases hid
      · exact (Option.some.inj hid).symm
  set newState := Basics.onDraw game.state (game.deckIds.get order) order p identity with hnewState
  have hplayers : ∀ e ∈ game.players.zipIdx, Succeeds (fun fuel =>
      (MindGame.elim fuel (MindGame.seeDraw e.1 order
        (if (e.2 != p || e.2 == game.state.ourPlayerIndex) = true then identity else none))
        newState).bind fun player => MindGame.refresh player newState) (TrueOf dk newState) := by
    intro e he
    have hsee := seeDraw_true hb horder hleft (h.players e.1 (List.fst_mem_of_mem_zipIdx he))
      (htrue (e.2 != p || e.2 == game.state.ourPlayerIndex)) (game.deckIds.get order) identity p
    exact (elim_true hb' hnames hsee).bind fun player hplayer => refresh_true newState hplayer
  unfold MindGame.onDraw
  dsimp only
  simp only [if_neg (not_lt.2 hroom.le)]
  refine (Succeeds.mapM (S := fun _ => TrueOf dk newState) hplayers).bind fun players hall => ?_
  have hsee := seeDraw_true hb horder hleft h.common (htrue false) (game.deckIds.get order)
    identity p
  refine (elim_true hb' hnames hsee).bind fun player hplayer => ?_
  refine (touch_refresh_true goodTouchElim game false game.state newState hplayer).map
    fun player' hplayer' => ?_
  refine ⟨hplayer', forall_of_forall₂ hall fun _ _ htrue => htrue, fun e he => ?_, ?_⟩
  · obtain ⟨hdrawn, hids⟩ := h.patches e he
    have hcardOrder : newState.cardOrder = order := rfl
    exact ⟨by rw [hcardOrder]; omega, hids⟩
  · obtain rfl | rfl := hidentity
    · exact h.deckIds
    · exact h.deckIds.set order

/-- Every legal action is handled that leaves a card in the hand, and nobody learns anything
false. -/
theorem handle_true (hb : BoardInv dk acts game.state) (hnames : v.DistinctNames)
    (h : TrueGame dk game) {a : Action} (hl : Legal dk game.state a)
    (hreturns : ¬ Basics.TakesOnlyCard game.state a) :
    Succeeds (fun fuel => game.handle goodTouchElim fuel a) (TrueGame dk) := by
  have hb' := hb.step h.deckIds hl
  cases a with
  | clue giver target list clue =>
    obtain ⟨-, -, -, htarget, hlist⟩ := hl
    exact onClue_true hb hnames hb' h htarget hlist
  | draw order p identity =>
    obtain ⟨hleft, horder, -, hroom, hidentity⟩ := hl
    exact onDraw_true hb hnames hb' h horder hleft hroom hidentity
  | play order p identity =>
    obtain ⟨-, hp, ho, rfl, -⟩ := hl
    show Succeeds (fun fuel => game.onPlay goodTouchElim fuel order p (some (dk.truth order))) _
    unfold MindGame.onPlay Basics.onPlay
    simp only [if_neg hreturns]
    exact turnUp_true hb hnames hb' rfl h (State.mem_allOrders.2 ⟨p, hp, ho⟩)
  | discard order p identity failed =>
    obtain ⟨-, hp, ho, rfl, -⟩ := hl
    show Succeeds (fun fuel => game.onDiscard goodTouchElim fuel order p (some (dk.truth order))
      failed) _
    unfold MindGame.onDiscard Basics.onDiscard
    simp only [if_neg hreturns]
    exact turnUp_true hb hnames hb' rfl h (State.mem_allOrders.2 ⟨p, hp, ho⟩)
  | turn num currentPlayerIndex => exact hl.elim

end

/-! ## Runs -/

/-- The handler of the action returns this game. -/
def MindGame.Acts (goodTouchElim : Bool → Inferrer) (game : MindGame) (a : Action)
    (game' : MindGame) : Prop :=
  Succeeds (fun fuel => game.handle goodTouchElim fuel a) (· = game')

/-- A convention changes what somebody infers, and promises one identity at a time. -/
structure Mind.Infers (mind mind' : Mind) : Prop where
  same : Links.SameKnowledge mind mind'
  sole : ∀ link ∈ mind'.links, Links.Sole link

/-- Between the actions the conventions change what anybody infers, and leave patches of what they
change for the common player. -/
structure MindGame.Infers (game game' : MindGame) : Prop where
  state : game'.state = game.state
  deckIds : game'.deckIds = game.deckIds
  common : Mind.Infers game.common.toMind game'.common.toMind
  players : List.Forall₂ Mind.Infers game.players game'.players
  patches : ∀ e ∈ game'.common.patches,
    e.1 ∈ game.state.allOrders ∧ ∀ identity, .id identity ∉ e.2

/-- One step of a game: a legal action, an inference, or an elimination by a convention. -/
inductive MindGame.Step (dk : Deck v) (goodTouchElim : Bool → Inferrer) (game game' : MindGame) :
    Prop
  | act (a : Action) (hlegal : Legal dk game.state a) (hacts : game.Acts goodTouchElim a game')
  | infer (hinfers : game.Infers game')
  /-- `common.card_elim(state)`. -/
  | elim (mind : Mind)
    (helims : Succeeds (fun fuel => MindGame.elim fuel game.common.toMind game.state) (· = mind))
    (heq : game' = { game with common := { game.common with toMind := mind } })
  /-- `team_elimP(game)`. -/
  | teamElim (helims : Succeeds (fun fuel => game.teamElimP goodTouchElim fuel) (· = game'))

/-- A new game: nobody knows anything. -/
def MindGame.start (v : Variant) (numPlayers ourPlayerIndex : ℕ) (options : TableOptions)
    (goodTouch : Bool) : MindGame where
  state := .fresh v numPlayers ourPlayerIndex options
  common :=
    { playerIndex := none
      allPossible := .full v.suits.length
      allInferred := .full v.suits.length }
  players := (List.range numPlayers).map fun i =>
    { playerIndex := some i
      allPossible := .full v.suits.length
      allInferred := .full v.suits.length }
  goodTouch := goodTouch

section

variable {goodTouchElim : Bool → Inferrer} {game game' : MindGame} {n our : ℕ}
  {options : TableOptions} {goodTouch : Bool}

/-- The games that can be reached. -/
def MindGame.Reachable (dk : Deck v) (goodTouchElim : Bool → Inferrer) (n our : ℕ)
    (options : TableOptions) (goodTouch : Bool) (game : MindGame) : Prop :=
  Relation.ReflTransGen (MindGame.Step dk goodTouchElim) (.start v n our options goodTouch) game

theorem start_true (dk : Deck v) (n our : ℕ) (options : TableOptions) (goodTouch : Bool) :
    TrueGame dk (.start v n our options goodTouch) := by
  have hnew : ∀ player : Mind, player.thoughts = .empty → player.links = [] →
      player.allPossible = .full v.suits.length →
      TrueOf dk (State.fresh v n our options) player := by
    intro player hthoughts hlinks hall
    refine ⟨⟨fun o _ => by rw [hthoughts]; rfl, fun o card hcard => ?_, by rw [hall]; rfl,
      by simp [hlinks]⟩, fun o ho => ?_, fun id hid _ => ?_⟩
    · rw [hthoughts] at hcard
      cases hcard
    · have hnone : (State.fresh v n our options).cardOrder = -1 := rfl
      omega
    · rw [hall]
      exact IdentitySet.mem_array.2 ⟨hid.1, hid.2, IdentitySet.has_full hid.1 hid.2⟩
  refine ⟨hnew _ rfl rfl rfl, fun player hplayer => ?_, fun _ he => (List.not_mem_nil he).elim,
    fun _ _ hid => nomatch hid⟩
  obtain ⟨i, -, rfl⟩ := List.mem_map.1 hplayer
  exact hnew _ rfl rfl rfl

theorem MindGame.Acts.learns {a : Action} (hacts : game.Acts goodTouchElim a game')
    (hb : BoardInv dk acts game.state) (h : ThinkingGame dk game) (hl : Legal dk game.state a) :
    ¬ Basics.TakesOnlyCard game.state a ∧
      LearnStep dk (Basics.after game.state game.deckIds a) (toldBy game a) game game' := by
  obtain ⟨_, ⟨rfl, hlearns⟩, -⟩ := hacts.and_all fun _ => handle_learns hb h hl
  exact hlearns

theorem TrueGame.exists_acts (goodTouchElim : Bool → Inferrer) (h : TrueGame dk game)
    (hb : BoardInv dk acts game.state) (hnames : v.DistinctNames) {a : Action} (hl : Legal dk game.state a)
    (hreturns : ¬ Basics.TakesOnlyCard game.state a) : ∃ game', game.Acts goodTouchElim a game' := by
  obtain ⟨game', -, hacts⟩ :=
    (@handle_true _ _ _ goodTouchElim _ hb hnames h _ hl hreturns).exists_eq
  exact ⟨game', hacts⟩

/-- What the conventions infer teaches nobody anything. -/
theorem MindGame.Infers.learns (h : game.Infers game') (ht : ThinkingGame dk game) :
    ThinkingGame dk game' ∧ GameLearns game game' := by
  obtain ⟨hcommon, hlearns⟩ := sameKnowledge_learns h.common.same ht.common h.common.sole
  have hall : List.Forall₂ (fun player player' =>
      Thinks v game.state player' ∧ Learns player player') game.players game'.players := by
    refine ((List.forall₂_and_left _ _).2 ⟨ht.players, h.players⟩).imp fun _ _ hboth => ?_
    exact sameKnowledge_learns hboth.2.same hboth.1 hboth.2.sole
  refine ⟨⟨h.state ▸ hcommon, ?_, h.deckIds ▸ ht.deckIds⟩, hlearns, hall.imp fun _ _ h => h.2⟩
  rw [h.state]
  exact forall_of_forall₂ hall fun _ _ hboth => hboth.1

theorem MindGame.Infers.isTrue (h : game.Infers game') (hb : BoardInv dk acts game.state)
    (ht : TrueGame dk game) : TrueGame dk game' := by
  have hall : List.Forall₂ (fun player player' =>
      TrueOf dk game.state player ∧ Mind.Infers player player') game.players game'.players :=
    (List.forall₂_and_left _ _).2 ⟨ht.players, h.players⟩
  refine ⟨h.state ▸ sameKnowledge_true h.common.same ht.common h.common.sole, ?_, fun e he => ?_,
    h.deckIds ▸ ht.deckIds⟩
  · rw [h.state]
    exact forall_of_forall₂ hall fun _ _ hboth =>
      sameKnowledge_true hboth.2.same hboth.1 hboth.2.sole
  · obtain ⟨ho, hids⟩ := h.patches e he
    rw [h.state]
    exact ⟨hb.order_le e.1 ho, fun identity hid => absurd hid (hids identity)⟩

/-- One step, whatever the players think. -/
theorem MindGame.Step.learns (h : MindGame.Step dk goodTouchElim game game')
    (hr : Run dk n our options acts game.state) (ht : ThinkingGame dk game) :
    (∃ acts', Run dk n our options acts' game'.state) ∧ ThinkingGame dk game' ∧
      GameLearns game game' := by
  cases h with
  | act a hlegal hacts =>
    obtain ⟨hreturns, hhandled⟩ := hacts.learns hr.boardInv ht hlegal
    refine ⟨⟨a :: acts, ?_⟩, hhandled.thinking, hhandled.learns⟩
    rw [hhandled.state]
    exact hr.step hlegal ht.deckIds (Basics.onAction_of_not_takesOnlyCard hreturns _)
  | infer hinfers => exact ⟨⟨acts, hinfers.state.symm ▸ hr⟩, hinfers.learns ht⟩
  | elim mind helims heq =>
    obtain ⟨_, ⟨rfl, hthinks, hlearns⟩, -⟩ :=
      helims.and_all fun fuel => elim_learns hr.boardInv.order_le ht.common fuel
    subst heq
    exact ⟨⟨acts, hr⟩, ⟨hthinks, ht.players, ht.deckIds⟩, hlearns, (GameLearns.refl game).players⟩
  | teamElim helims =>
    obtain ⟨_, ⟨rfl, hhandled⟩, -⟩ :=
      helims.and_all fun _ => teamElimP_learns hr.boardInv ht
    exact ⟨⟨acts, hhandled.state.symm ▸ hr⟩, hhandled.thinking, hhandled.learns⟩

/-- One step from a game where all that is thought is true. -/
theorem MindGame.Step.isTrue (h : MindGame.Step dk goodTouchElim game game')
    (hnames : v.DistinctNames) (hr : Run dk n our options acts game.state)
    (ht : TrueGame dk game) : TrueGame dk game' := by
  cases h with
  | act a hlegal hacts =>
    have hreturns := (hacts.learns hr.boardInv ht.thinking hlegal).1
    exact (handle_true hr.boardInv hnames ht hlegal hreturns).unique hacts
  | infer hinfers => exact hinfers.isTrue hr.boardInv ht
  | elim mind helims heq =>
    have htrue := (elim_true hr.boardInv hnames ht.common).unique helims
    subst heq
    exact ⟨htrue, ht.players, ht.patches, ht.deckIds⟩
  | teamElim helims => exact (teamElimP_true hr.boardInv hnames ht).unique helims

/-- Any number of steps. -/
theorem steps_learn (h : Relation.ReflTransGen (MindGame.Step dk goodTouchElim) game game')
    (hr : ∃ acts, Run dk n our options acts game.state) (ht : ThinkingGame dk game) :
    (∃ acts', Run dk n our options acts' game'.state) ∧ ThinkingGame dk game' ∧
      GameLearns game game' := by
  induction h with
  | refl => exact ⟨hr, ht, .refl game⟩
  | tail _ hstep ih =>
    obtain ⟨⟨acts, hrun⟩, hthinking, hlearns⟩ := ih
    obtain ⟨hrun', hthinking', hlearns'⟩ := hstep.learns hrun hthinking
    exact ⟨hrun', hthinking', hlearns.trans hlearns'⟩

theorem MindGame.Reachable.thinking
    (h : MindGame.Reachable dk goodTouchElim n our options goodTouch game) :
    (∃ acts, Run dk n our options acts game.state) ∧ ThinkingGame dk game := by
  obtain ⟨hrun, hthinking, -⟩ :=
    steps_learn h ⟨[], .fresh⟩ (start_true dk n our options goodTouch).thinking
  exact ⟨hrun, hthinking⟩

theorem MindGame.Reachable.isTrue
    (h : MindGame.Reachable dk goodTouchElim n our options goodTouch game)
    (hnames : v.DistinctNames) : TrueGame dk game := by
  induction h with
  | refl => exact start_true dk n our options goodTouch
  | tail hsteps hstep ih =>
    obtain ⟨⟨acts, hrun⟩, -⟩ := MindGame.Reachable.thinking hsteps
    exact hstep.isTrue hnames hrun ih

/-- In every game that can be reached, as long as the names of the cards tell them apart, everybody
thinks possible what each card in hand is and what each card still to be drawn is; and a legal
action is handled without an error exactly if it does not take the only card of a hand. -/
theorem MindGame.Reachable.truth_possible (hnames : v.DistinctNames)
    (h : MindGame.Reachable dk goodTouchElim n our options goodTouch game) :
    (∀ player, player = game.common.toMind ∨ player ∈ game.players →
      (∀ o ∈ game.state.allOrders, ∃ card, player.thoughts.get o = some card ∧
        dk.truth o ∈ card.possible.array) ∧
      ∀ o : ℕ, game.state.cardOrder < o → o < v.deckSize →
        dk.truth o ∈ player.allPossible.array) ∧
    ∀ a, Legal dk game.state a →
      ((∃ game', game.Acts goodTouchElim a game') ↔ ¬ Basics.TakesOnlyCard game.state a) := by
  obtain ⟨⟨acts, hrun⟩, hthinking⟩ := h.thinking
  have hb := hrun.boardInv
  have htrue := h.isTrue hnames
  refine ⟨fun player hplayer => ?_, fun a hlegal =>
    ⟨?_, fun hreturns => htrue.exists_acts goodTouchElim hb hnames hlegal hreturns⟩⟩
  · have hknown : TrueOf dk game.state player := by
      obtain rfl | hmem := hplayer
      · exact htrue.common
      · exact htrue.players player hmem
    refine ⟨fun o ho => ?_, fun o hafter hsize => ?_⟩
    · obtain ⟨card, hcard, htruthful⟩ := hknown.thoughts o (hb.order_le o ho)
      exact ⟨card, hcard, htruthful.possible⟩
    · exact hknown.allPossible _ (dk.truth_valid o hsize) (hb.drawnCopies_lt_of_undrawn hafter hsize)
  · rintro ⟨game', hacts⟩
    exact (hacts.learns hb hthinking hlegal).1

/-- Who plays without the Good Touch Principle. -/
def Inferrer.idle : Inferrer := ⟨fun mind _ => mind, fun _ _ => ⟨rfl, rfl, .refl _⟩, fun _ _ => rfl⟩

/-- The deck in its sorted order: the first card is the first 1. -/
def sortedDeck : Deck noVariant := .ofList (List.cons_ne_nil _ _) _ (List.Perm.refl _)

/-- A draw that shows nobody anything tells the deck nothing. -/
theorem deckIds_onDraw (game : MindGame) (fuel order p : ℕ) :
    (game.onDraw goodTouchElim fuel order p none).Yields fun game' =>
      game'.deckIds = game.deckIds := by
  unfold MindGame.onDraw
  dsimp only
  split
  · exact .error
  refine Yields.bind (Q := fun _ => True) (fun _ _ => trivial) fun players _ => ?_
  refine Yields.bind (Q := fun _ => True) (fun _ _ => trivial) fun player _ => ?_
  exact Yields.map fun _ _ => rfl

/-- Cards are dealt one after the other. -/
theorem MindGame.Reachable.exists_draws {draws : List (ℕ × ℕ)} (hnames : v.DistinctNames)
    (h : MindGame.Reachable dk goodTouchElim n our options goodTouch game)
    (hids : game.deckIds = .empty)
    (hl : legalAll dk game.state (draws.map fun d => .draw d.1 d.2 none) = true) :
    ∃ game', MindGame.Reachable dk goodTouchElim n our options goodTouch game' ∧
      game'.players.length = game.players.length ∧
      game'.state = (draws.map fun d => Action.draw d.1 d.2 none).foldl (Basics.after · .empty)
        game.state := by
  induction draws generalizing game with
  | nil => exact ⟨game, h, rfl, rfl⟩
  | cons d draws ih =>
    simp only [List.map_cons, legalAll, Bool.and_eq_true, decide_eq_true_eq] at hl
    obtain ⟨⟨hlegal, hreturns⟩, hrest⟩ := hl
    obtain ⟨⟨acts, hrun⟩, hthinking⟩ := h.thinking
    obtain ⟨game₁, hacts⟩ :=
      (h.isTrue hnames).exists_acts goodTouchElim hrun.boardInv hnames hlegal hreturns
    have hstep := (hacts.learns hrun.boardInv hthinking hlegal).2
    obtain ⟨_, ⟨rfl, hids₁⟩, -⟩ := hacts.and_all fun fuel => deckIds_onDraw game fuel d.1 d.2
    have hstate := hstep.state
    rw [hids] at hids₁ hstate
    obtain ⟨game', hreachable, hplayers, hstate'⟩ :=
      ih (h.tail (.act _ hlegal hacts)) hids₁ (by rwa [hstate])
    refine ⟨game', hreachable, hplayers.trans hstep.learns.players.length_eq.symm, ?_⟩
    rw [hstate', hstate]
    rfl

/-- Both players are dealt five cards. -/
def deal : List (ℕ × ℕ) := (List.range 10).map fun o => (o, o / 5)

/-- The board after the deal. -/
def dealtBoard : State :=
  (deal.map fun d => Action.draw d.1 d.2 none).foldl (Basics.after · .empty)
    (.fresh noVariant 2 0 {})

theorem exists_dealt :
    ∃ game, MindGame.Reachable sortedDeck (fun _ => .idle) 2 0 {} false game ∧
      game.players.length = 2 ∧ game.state = dealtBoard :=
  MindGame.Reachable.exists_draws (by decide) .refl rfl (by decide +kernel)

/-- After the deal everybody thinks that the first card may be what it is, and it can be played. -/
theorem MindGame.truth_possible_dealt :
    ∃ game : MindGame, game.state = dealtBoard ∧
      (∃ card, game.common.thoughts.get 0 = some card ∧ ⟨0, 1⟩ ∈ card.possible.array) ∧
      ∃ game', game.Acts (fun _ => .idle) (.play 0 0 (some ⟨0, 1⟩)) game' := by
  obtain ⟨game, hreachable, -, hstate⟩ := exists_dealt
  have hlegal : Legal sortedDeck game.state (.play 0 0 (some ⟨0, 1⟩)) := by
    rw [hstate]
    decide +kernel
  have hreturns : ¬ Basics.TakesOnlyCard game.state (.play 0 0 (some ⟨0, 1⟩)) := by
    rw [hstate]
    decide +kernel
  have hmem : 0 ∈ game.state.allOrders := by
    rw [hstate]
    decide +kernel
  obtain ⟨hpossible, hacts⟩ := MindGame.Reachable.truth_possible (by decide) hreachable
  exact ⟨game, hstate, (hpossible _ (.inl rfl)).1 0 hmem, (hacts _ hlegal).2 hreturns⟩

/-- What is ruled out for a card stays ruled out, for everybody and in all that follows. -/
theorem MindGame.Reachable.never_forgets
    (h : MindGame.Reachable dk goodTouchElim n our options goodTouch game)
    (hsteps : Relation.ReflTransGen (MindGame.Step dk goodTouchElim) game game') :
    GameLearns game game' := by
  obtain ⟨hrun, hthinking⟩ := h.thinking
  exact (steps_learn hsteps hrun hthinking).2.2

/-- The first player gets a clue about the 1s. -/
theorem exists_firstClue :
    ∃ (a : Action) (game game' : MindGame),
      MindGame.Reachable sortedDeck (fun _ => .idle) 2 0 {} false game ∧
      Legal sortedDeck game.state a ∧ game.Acts (fun _ => .idle) a game' ∧
      toldBy game a = [4, 3, 2, 1, 0] ∧ game.state = dealtBoard ∧ game'.state.clueTokens = 7 ∧
      game'.players.length = 2 := by
  obtain ⟨game, hreachable, hplayers, hstate⟩ := exists_dealt
  have hlegal : Legal sortedDeck game.state (.clue 1 0 ((dealtBoard.hands 0).filter fun o =>
      noVariant.cardTouched (sortedDeck.truth o) ⟨.rank, 1⟩) ⟨.rank, 1⟩) := by
    rw [hstate]
    decide +kernel
  obtain ⟨⟨acts, hrun⟩, hthinking⟩ := hreachable.thinking
  obtain ⟨game', hacts⟩ :=
    (hreachable.isTrue (by decide)).exists_acts (fun _ => .idle) hrun.boardInv (by decide) hlegal not_false
  have hstep := (hacts.learns hrun.boardInv hthinking hlegal).2
  refine ⟨_, game, game', hreachable, hlegal, hacts, ?_, hstate, ?_,
    hstep.learns.players.length_eq.symm.trans hplayers⟩
  · rw [toldBy, hstate]
    decide +kernel
  · rw [hstep.state, hstate]
    show dealtBoard.clueTokens - 1 = 7
    decide +kernel

/-- Whatever is still possible for a card after the clue was possible before. -/
theorem MindGame.never_forgets_firstClue :
    ∃ game game' : MindGame, game.state = dealtBoard ∧ game'.state.clueTokens = 7 ∧
      GameLearns game game' := by
  obtain ⟨a, game, game', hreachable, hlegal, hacts, -, hstate, htokens, -⟩ := exists_firstClue
  exact ⟨game, game', hstate, htokens,
    MindGame.Reachable.never_forgets hreachable (.single (.act a hlegal hacts))⟩

/-- After a clue, a play or a discard every player knows of the cards it is about at least what the
common player knows. -/
theorem MindGame.Reachable.told_everybody
    (h : MindGame.Reachable dk goodTouchElim n our options goodTouch game)
    {a : Action} (hlegal : Legal dk game.state a) (hacts : game.Acts goodTouchElim a game') :
    ∀ player ∈ game'.players, ∀ o ∈ toldBy game a, Shares game'.common.toMind player o := by
  obtain ⟨⟨acts, hrun⟩, hthinking⟩ := h.thinking
  exact (hacts.learns hrun.boardInv hthinking hlegal).2.shares

/-- After the first clue every player knows of the cards what the common player does. -/
theorem MindGame.told_everybody_firstClue :
    ∃ game : MindGame, game.state.clueTokens = 7 ∧ game.players.length = 2 ∧
      ∀ player ∈ game.players, ∀ o < 5, Shares game.common.toMind player o := by
  obtain ⟨a, game, game', hreachable, hlegal, hacts, htold, -, htokens, hplayers⟩ :=
    exists_firstClue
  have hshares := MindGame.Reachable.told_everybody hreachable hlegal hacts
  refine ⟨game', htokens, hplayers, fun player hplayer o ho => hshares player hplayer o ?_⟩
  rw [htold]
  interval_cases o <;> simp

end

end HanabiBot
