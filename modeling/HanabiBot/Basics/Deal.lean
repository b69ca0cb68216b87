import HanabiBot.Basics.History

/-!
# The deal

At the start of a game every player draws a hand, in an order that the server chooses.
`handle_action` sets the first turn after a draw that leaves every hand with
`HAND_SIZE[numPlayers]` cards, while a hand has `state.handSize` of them, which the table
options change.

* `completesOnce_iff` — the first turn starts with the last draw of the deal, and not before,
  if and only if no option changes the hand size;
* `shortDeal_never_completes` — with one card less, it does not start.
-/

namespace HanabiBot

/-- A draw of the deal. -/
structure DealtCard where
  order : ℕ
  playerIndex : ℕ
  identity : Option Identity := none
  flags : ActionFlags := {}

/-- The action that a draw is sent as. -/
def DealtCard.action (d : DealtCard) : GameAction :=
  .board (.draw d.order d.playerIndex d.identity) d.flags

namespace LoggedGame

variable {κ : Type}

/-- A new game at a table with options. -/
def newGame (variant : Variant) (numPlayers ourPlayerIndex : ℕ) (options : TableOptions)
    (deckIds : SparseArray Identity) (data : κ) : LoggedGame κ where
  state := .fresh variant numPlayers ourPlayerIndex options
  base := .fresh variant numPlayers ourPlayerIndex options
  deckIds := deckIds
  data := data

/-- The draws, one after the other. -/
def deal (hs : Handlers κ) (g : LoggedGame κ) (draws : List DealtCard) : Option (LoggedGame κ) :=
  draws.foldlM (fun g d => g.handleAction hs d.action) g

/-- Every player at the table is dealt a hand. -/
structure IsDeal (g : LoggedGame κ) (draws : List DealtCard) : Prop where
  players : ∀ d ∈ draws, d.playerIndex < g.state.numPlayers
  count : ∀ p < g.state.numPlayers,
    ((draws.map DealtCard.playerIndex).count p : ℤ) = g.state.handSize

/-- No draw of the deal throws or makes a hand too large, and the first turn starts with the
last of them. -/
def CompletesOnce (hs : Handlers κ) (g : LoggedGame κ) (draws : List DealtCard) : Prop :=
  ∀ done rest, draws = done ++ rest → ∃ g', g.deal hs done = some g' ∧
    g'.state.turnCount = (if rest = [] then 1 else 0) ∧
    ∀ p < g.state.numPlayers, ((g'.state.hands p).length : ℤ) ≤ g.state.handSize

/-! ## The draws so far -/

/-- A game some draws into the deal. -/
structure AfterDraws (g : LoggedGame κ) (done : List DealtCard) (g' : LoggedGame κ) : Prop where
  hands : ∀ p, (g'.state.hands p).length = (done.map DealtCard.playerIndex).count p
  players : g'.state.numPlayers = g.state.numPlayers
  handSize : g'.state.handSize = g.state.handSize

section

variable {hs : Handlers κ} {g g' : LoggedGame κ} {done draws : List DealtCard} {d : DealtCard}

theorem deal_append_singleton (hdone : g.deal hs done = some g') :
    g.deal hs (done ++ [d]) = g'.handleAction hs d.action := by
  unfold deal at hdone ⊢
  rw [List.foldlM_append, hdone]
  exact bind_pure (g'.handleAction hs d.action)

/-- One more draw, to a hand that is not full. -/
theorem AfterDraws.draw (h : AfterDraws g done g')
    (hroom : (((done.map DealtCard.playerIndex).count d.playerIndex : ℕ) : ℤ) ≤ g.state.handSize) :
    ∃ g'', g'.handleAction hs d.action = some g'' ∧ AfterDraws g (done ++ [d]) g'' ∧
      g''.state.turnCount =
        if g'.state.turnCount = 0 ∧ g''.state.handsFull = true then 1 else g'.state.turnCount := by
  have hguard : ¬ (g'.record d.action).state.handSize <
      ((g'.record d.action).state.hands d.playerIndex).length := by
    show ¬ g'.state.handSize < (g'.state.hands d.playerIndex).length
    rw [h.handSize, h.hands]
    exact hroom.not_gt
  have hdraw : (g'.record d.action).draw d.order d.playerIndex d.identity = some _ := if_neg hguard
  refine ⟨_, (congrArg (Option.map _) hdraw).trans rfl, ⟨fun p => ?_, h.players, h.handSize⟩, rfl⟩
  have hhands := h.hands p
  show (Function.update g'.state.hands d.playerIndex (d.order :: g'.state.hands d.playerIndex)
    p).length = _
  rw [List.map_append, List.count_append, ← hhands, List.map_singleton, List.count_singleton]
  by_cases hp : p = d.playerIndex
  · subst hp
    simp
  · rw [Function.update_of_ne hp]
    simp [Ne.symm hp]

theorem AfterDraws.handsFull_iff (h : AfterDraws g done g') :
    g'.state.handsFull = true ↔ ∀ p < g.state.numPlayers,
      ((done.map DealtCard.playerIndex).count p : ℤ) = HAND_SIZE.getD g.state.numPlayers 0 := by
  simp only [State.handsFull, List.all_eq_true, List.mem_range, beq_iff_eq, h.hands, h.players]

/-- There is room for the next card of a deal. -/
theorem IsDeal.room (hdeal : g.IsDeal draws) {rest : List DealtCard}
    (hsplit : draws = done ++ ([d] ++ rest)) :
    ((done.map DealtCard.playerIndex).count d.playerIndex : ℤ) ≤ g.state.handSize := by
  rw [← hdeal.count _ (hdeal.players d (by simp [hsplit])), hsplit, List.map_append,
    List.count_append]
  omega

/-- The draws up to any point of a deal. -/
theorem afterDraws_of_deal (hs : Handlers κ) (hnew : ∀ p, g.state.hands p = [])
    (hdeal : g.IsDeal draws) {rest : List DealtCard} (hsplit : draws = done ++ rest) :
    ∃ g', g.deal hs done = some g' ∧ AfterDraws g done g' := by
  induction done using List.reverseRecOn generalizing rest with
  | nil => exact ⟨g, rfl, ⟨fun p => by simp [hnew], rfl, rfl⟩⟩
  | append_singleton done d ih =>
    rw [List.append_assoc] at hsplit
    obtain ⟨g', hg', hafter⟩ := ih hsplit
    obtain ⟨g'', hg'', hafter', -⟩ := @AfterDraws.draw _ hs _ _ _ _ hafter (hdeal.room hsplit)
    exact ⟨g'', (deal_append_singleton hg').trans hg'', hafter'⟩

theorem AfterDraws.length_le (h : AfterDraws g done g') (hdeal : g.IsDeal draws)
    {rest : List DealtCard} (hsplit : draws = done ++ rest) :
    ∀ p < g.state.numPlayers, ((g'.state.hands p).length : ℤ) ≤ g.state.handSize := by
  intro p hp
  rw [h.hands, ← hdeal.count p hp, hsplit, List.map_append, List.count_append]
  omega

/-- At an ordinary table the hands are full at the end of the deal, and not before. -/
theorem AfterDraws.handsFull_iff_of_eq (h : AfterDraws g done g') (hdeal : g.IsDeal draws)
    (hsize : g.state.handSize = HAND_SIZE.getD g.state.numPlayers 0)
    {rest : List DealtCard} (hsplit : draws = done ++ rest) :
    g'.state.handsFull = true ↔ rest = [] := by
  rw [h.handsFull_iff, ← hsize]
  constructor
  · intro hfull
    by_contra hrest
    obtain ⟨d, rest, rfl⟩ := List.exists_cons_of_ne_nil hrest
    have hp := hdeal.players d (by simp [hsplit])
    have hcount := hdeal.count _ hp
    rw [← hfull _ hp, hsplit, List.map_append, List.count_append, List.map_cons,
      List.count_cons_self] at hcount
    omega
  · rintro rfl p hp
    rw [← hdeal.count p hp, hsplit, List.append_nil]

/-- At any other table they are not full at the end of the deal. -/
theorem AfterDraws.handsFull_of_ne (h : AfterDraws g draws g') (hdeal : g.IsDeal draws)
    (hplayers : 0 < g.state.numPlayers)
    (hsize : g.state.handSize ≠ HAND_SIZE.getD g.state.numPlayers 0) :
    g'.state.handsFull = false := by
  rw [← Bool.not_eq_true, h.handsFull_iff]
  intro hfull
  exact hsize ((hdeal.count 0 hplayers).symm.trans (hfull 0 hplayers))

theorem completesOnce_of_eq (hs : Handlers κ) (hnew : ∀ p, g.state.hands p = [])
    (hturn : g.state.turnCount = 0) (hdeal : g.IsDeal draws) (hdraws : draws ≠ [])
    (hsize : g.state.handSize = HAND_SIZE.getD g.state.numPlayers 0) :
    g.CompletesOnce hs draws := by
  intro done rest hsplit
  induction done using List.reverseRecOn generalizing rest with
  | nil =>
    have hrest : rest ≠ [] := fun h => hdraws (by simp [hsplit, h])
    refine ⟨g, rfl, by rw [if_neg hrest, hturn], ?_⟩
    exact (AfterDraws.mk (fun p => by simp [hnew]) rfl rfl).length_le hdeal hsplit
  | append_singleton done d ih =>
    have hsplit' := hsplit
    rw [List.append_assoc] at hsplit'
    obtain ⟨g', hg', hturn', -⟩ := ih _ hsplit'
    obtain ⟨g₁, hg₁, hafter⟩ := afterDraws_of_deal hs hnew hdeal hsplit'
    obtain rfl := Option.some.inj (hg'.symm.trans hg₁)
    obtain ⟨g'', hg'', hafter', hturn''⟩ :=
      @AfterDraws.draw _ hs _ _ _ _ hafter (hdeal.room hsplit')
    refine ⟨g'', (deal_append_singleton hg').trans hg'', ?_, hafter'.length_le hdeal hsplit⟩
    rw [if_neg (List.append_ne_nil_of_left_ne_nil (List.cons_ne_nil d []) rest)] at hturn'
    simp only [hturn'', hturn', hafter'.handsFull_iff_of_eq hdeal hsize hsplit, true_and]

theorem eq_of_completesOnce (hs : Handlers κ) (hnew : ∀ p, g.state.hands p = [])
    (hdeal : g.IsDeal draws) (hdraws : draws ≠ []) (hplayers : 0 < g.state.numPlayers)
    (h : g.CompletesOnce hs draws) :
    g.state.handSize = HAND_SIZE.getD g.state.numPlayers 0 := by
  by_contra hsize
  obtain ⟨done, d, rfl⟩ := (List.eq_nil_or_concat' draws).resolve_left hdraws
  obtain ⟨g', hg', hturn', -⟩ := h done [d] rfl
  obtain ⟨g₁, hg₁, hafter⟩ := afterDraws_of_deal hs hnew hdeal rfl
  obtain rfl := Option.some.inj (hg'.symm.trans hg₁)
  obtain ⟨g'', hg'', hafter', hturn''⟩ :=
    @AfterDraws.draw _ hs _ _ _ _ hafter (@IsDeal.room _ _ _ _ _ hdeal [] rfl)
  -- the last draw leaves the first turn for later
  obtain ⟨g₂, hg₂, hlast, -⟩ := h (done ++ [d]) [] (List.append_nil _).symm
  obtain rfl := Option.some.inj (hg₂.symm.trans ((deal_append_singleton hg').trans hg''))
  rw [hturn'', hafter'.handsFull_of_ne hdeal hplayers hsize, hturn'] at hlast
  simp at hlast

end

end LoggedGame

open LoggedGame

/-- The deal completes once, with its last draw, if and only if no option changes the hand size. -/
theorem completesOnce_iff {κ : Type} (hs : Handlers κ) (variant : Variant)
    (numPlayers ourPlayerIndex : ℕ) (options : TableOptions) (deckIds : SparseArray Identity)
    (data : κ) (draws : List DealtCard) (hplayers : 2 ≤ numPlayers ∧ numPlayers ≤ 6)
    (hdeal : IsDeal (newGame variant numPlayers ourPlayerIndex options deckIds data) draws) :
    CompletesOnce hs (newGame variant numPlayers ourPlayerIndex options deckIds data) draws ↔
      options.oneLessCard = false ∧ options.oneExtraCard = false := by
  set g := newGame variant numPlayers ourPlayerIndex options deckIds data with hg
  have hpos : 0 < g.state.numPlayers := by
    show 0 < numPlayers
    omega
  have hsize : g.state.handSize = HAND_SIZE.getD g.state.numPlayers 0 ↔
      options.oneLessCard = false ∧ options.oneExtraCard = false := by
    show HAND_SIZE.getD numPlayers 0 + _ = HAND_SIZE.getD numPlayers 0 ↔ _
    simp only [hg, newGame, State.fresh]
    cases options.oneLessCard <;> cases options.oneExtraCard <;> simp
  have hdraws : draws ≠ [] := by
    rintro rfl
    have hcount := hdeal.count 0 hpos
    have hfour : 0 < g.state.handSize := by
      show 0 < HAND_SIZE.getD numPlayers 0 +
        if options.oneLessCard then -1 else if options.oneExtraCard then 1 else 0
      obtain ⟨hlow, hhigh⟩ := hplayers
      cases options.oneLessCard <;> cases options.oneExtraCard <;> interval_cases numPlayers <;>
        decide
    simp at hcount
    omega
  rw [← hsize]
  exact ⟨eq_of_completesOnce hs (fun _ => rfl) hdeal hdraws hpos,
    completesOnce_of_eq hs (fun _ => rfl) rfl hdeal hdraws⟩

/-! ## A table with one card less -/

/-- Two players are dealt hands, one after the other. -/
def dealByPlayer (handSize : ℕ) : List DealtCard :=
  (List.range (2 * handSize)).map fun order => { order, playerIndex := order / handSize }

/-- With one card less, all hands are dealt and the first turn has not started. -/
theorem shortDeal_never_completes :
    IsDeal (newGame noVariant 2 0 { oneLessCard := true } .empty ()) (dealByPlayer 4) ∧
      ((newGame noVariant 2 0 { oneLessCard := true } .empty ()).deal Handlers.plain
        (dealByPlayer 4)).map (fun g => (g.state.turnCount, (List.range 2).map g.state.hands)) =
          some (0, [[3, 2, 1, 0], [7, 6, 5, 4]]) := by
  refine ⟨⟨by decide, by decide⟩, by decide +kernel⟩

/-- With five cards each, it starts with the last of ten draws. -/
theorem completesOnce_iff_fiveEach :
    CompletesOnce Handlers.plain (newGame noVariant 2 0 {} .empty ()) (dealByPlayer 5) :=
  (completesOnce_iff Handlers.plain noVariant 2 0 {} .empty () (dealByPlayer 5)
    ⟨by decide, by decide⟩ ⟨by decide, by decide⟩).2 ⟨rfl, rfl⟩

end HanabiBot
