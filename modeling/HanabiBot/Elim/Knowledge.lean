import HanabiBot.Elim.Subsets

/-!
# What the players know stays true

`card_elim` as a whole: the rounds end, since each of them takes an identity out of a card,
and a player who thought no truth impossible (`Knows`) still thinks none impossible.

* `cardElim_sound` — for every player and every state whose hands fit the board.
-/

namespace HanabiBot

namespace CardElim

open Fuel (Succeeds)

variable {truth : ℕ → Identity} {player : Player} {state : State} {s t : ElimVars}
  {u : UpdateVars} {id : Identity} {exclude : List ℕ}

/-! ## The driver -/

/-- Another round is made only after a write. -/
theorem cardRounds_advances (hw : Holds truth state) {ids : List Identity}
    (hids : ∀ id ∈ ids, id.Valid state.variant) :
    ∀ (n : ℕ) (s : ElimVars), potential state s = n → Sound truth state s →
      Succeeds (fun fuel => cardRounds player state ids fuel s) (Advances truth state s) := by
  intro n
  induction n using Nat.strong_induction_on with
  | _ n ih =>
    intro s hn hs
    refine .step (fun fuel => by rw [cardRounds]) ?_
    refine (crossElim_advances hw hs).bind fun r hr => ?_
    have hspends := hr.1.spends
    split
    · have hwrote := hr.2 ‹_›
      exact (ih _ (by omega) r.2 rfl hr.1.sound).mono fun t ht => hr.1.trans ht
    · have hlast := hr.1.trans (@endgameElim_advances _ player _ _ hw hr.1.sound _ hids)
      exact .pure (hlast.trans (Advances.note hlast.sound _ _))

/-- What is collected before the first elimination is sound, whatever the candidates are. -/
theorem foldl_collect_sound {l : List (ℕ × ℕ)} (hl : ∀ c ∈ l, c ∈ handCards state)
    (h : Sound truth state { s with crossElimCandidates := [] }) :
    Sound truth state { l.foldl (collect player state) s with crossElimCandidates := [] } := by
  induction l generalizing s with
  | nil => exact h
  | cons c l ih =>
    refine ih (fun c' hc' => hl c' (List.mem_cons_of_mem c hc')) ?_
    have ho := mem_allOrders_of_handCards (hl c List.mem_cons_self)
    unfold collect
    dsimp only
    cases hid : (s.thoughts c.1).identity { symmetric := player.playerIndex.isNone } with
    | none => split <;> exact h
    | some id =>
      obtain rfl := (h.cards c.1 ho).identity hid
      split <;> exact h.certify ho _

theorem initialVars_sound (hw : Holds truth state) {thoughts : ℕ → Card}
    (hcards : ∀ o ∈ state.allOrders, (thoughts o).Truthful state.variant (truth o)) :
    Sound truth state (initialVars player state thoughts) := by
  have hstart : Sound truth state { thoughts, eliminated := baseIds state } :=
    ⟨hcards, fun _ _ ho => (List.not_mem_nil ho).elim, fun _ => List.nodup_nil,
      fun _ hc => (List.not_mem_nil hc).elim, List.nodup_nil,
      fun id _ hhas => absurd hhas (by simp [baseIds, IdentitySet.has])⟩
  have hcollected := @foldl_collect_sound truth player state
    { thoughts, eliminated := baseIds state } _ (fun _ hc => hc) hstart
  have hcandidates := (@foldl_collect_candidates player state (handCards state)
    { thoughts, eliminated := baseIds state }).2
  have hsub : ((initialVars player state thoughts).crossElimCandidates).Sublist (handCards state) := by
    unfold initialVars
    rw [hcandidates]
    exact List.filter_sublist
  refine ⟨hcollected.cards, hcollected.certain, hcollected.keys, fun c hc => hsub.subset hc, ?_,
    hcollected.spent⟩
  refine List.Nodup.sublist (hsub.map Prod.fst) ?_
  rw [map_fst_handCards]
  exact hw.nodup

theorem allIdentities_valid (thoughts : ℕ → Card) {id : Identity}
    (hid : id ∈ (allIdentities state thoughts).array) : id.Valid state.variant := by
  refine IdentitySet.array_valid ?_ hid
  unfold allIdentities
  have hloop : ∀ (l : List ℕ) (ids : IdentitySet), (l.foldl (fun ids order =>
      if ids.length = (IdentitySet.full state.variant.suits.length).length then ids
      else ids.union (thoughts order).possible.value) ids).numSuits = ids.numSuits := by
    intro l
    induction l with
    | nil => exact fun _ => rfl
    | cons o l ih =>
      intro ids
      rw [List.foldl_cons, ih]
      split <;> rfl
  exact hloop state.allOrders (baseIds state)

/-- An elimination of true thoughts ends and leaves true thoughts. -/
theorem elimThoughts_sound (hw : Holds truth state) {thoughts : ℕ → Card}
    (hcards : ∀ o ∈ state.allOrders, (thoughts o).Truthful state.variant (truth o)) :
    Succeeds (fun fuel => elimThoughts player state fuel thoughts) (Sound truth state) := by
  unfold elimThoughts
  have hids : ∀ id ∈ (allIdentities state thoughts).array, id.Valid state.variant := fun id hid =>
    allIdentities_valid thoughts hid
  have hinit := @initialVars_sound _ player _ hw _ hcards
  have hfirst := @endgameElim_advances _ player _ _ hw hinit _ hids
  refine (basicElim_advances hw _ _ _ le_rfl hids hfirst.sound).bind fun r hr => ?_
  exact (cardRounds_advances hw hids _ r.2 rfl hr.1.sound).mono fun s hs => hs.sound

/-! ## Players -/

/-- A copy of the identity is still to be drawn. -/
def Left (truth : ℕ → Identity) (state : State) (id : Identity) : Prop :=
  state.baseCount id + state.allOrders.countP (fun o => truth o = id) < state.cardCount id

/-- What a player thinks is true: every card in hand may be what it is, and an identity that is
still to be drawn is not ruled out. -/
structure Knows (truth : ℕ → Identity) (state : State) (player : Player) : Prop where
  thoughts : ∀ o ∈ state.allOrders, ∃ card, player.thoughts.get o = some card ∧
    card.Truthful state.variant (truth o)
  numSuits : player.allPossible.numSuits = state.variant.suits.length
  allPossible : ∀ id, id.Valid state.variant → Left truth state id → id ∈ player.allPossible.array

/-- On thoughts that are true `card_elim` ends without an error, whoever the player is, and what is
thought is still true: no card loses the identity it has, and no identity that is still to be drawn
is ruled out. -/
theorem cardElim_sound (hw : Holds truth state) (hknows : Knows truth state player) :
    Succeeds (fun fuel => cardElim player state fuel) fun r => Knows truth state r.1 := by
  have hget : ∀ o ∈ state.allOrders, player.thoughts.get o = some (thoughtOf player state o) := by
    intro o ho
    obtain ⟨card, hcard, -⟩ := hknows.thoughts o ho
    rw [thoughtOf, hcard]
    rfl
  have hcards : ∀ o ∈ state.allOrders,
      (thoughtOf player state o).Truthful state.variant (truth o) := by
    intro o ho
    obtain ⟨card, hcard, htruthful⟩ := hknows.thoughts o ho
    rwa [← Option.some.inj (hcard.symm.trans (hget o ho))]
  unfold cardElim
  have hthere : (state.allOrders.all fun o => (player.thoughts.get o).isSome) = true :=
    List.all_eq_true.2 fun o ho => by rw [hget o ho]; rfl
  simp only [hthere, if_true]
  refine (elimThoughts_sound hw hcards).map fun s hs => ?_
  refine ⟨fun o ho => ?_, hknows.numSuits, fun id hid hleft => ?_⟩
  · refine ⟨s.thoughts o, ?_, hs.cards o ho⟩
    show (writeThoughts state player.thoughts s.thoughts).get o = _
    rw [get_writeThoughts, if_pos ho]
  · refine IdentitySet.subtract_value_subset _ _ (hknows.allPossible id hid hleft) ?_
    rw [← Bool.not_eq_true]
    intro hhas
    exact absurd (hs.spent id hid hhas) hleft.ne

end CardElim

end HanabiBot
