import HanabiBot.Lib.Fuel
import HanabiBot.PlayfulSieve.ReferentialPlay

/-!
# Gentleman's discards

`interpret_gd` of `src/conventions/shared/special-discards.js`.  A useful card was
discarded, and a copy of it is on someone's finesse position, or behind cards there
that play first: the layers.  Each layer before the last is written as one of the
next identities on the stacks, as they will be when it plays.

`findFinesse` is the convention's own `find_finesse`, on an unchanged state.

* `interpretGd_returns` — the search for layers ends, and what it writes on them;
* `called_onStacks_iff` — this, and the referential plays that write alike.
-/

namespace HanabiBot.Shared

open HGroup (HState HGroupPlayer)

/-- The fields of a thought that a gentleman's discard writes beside the card's own. -/
structure LayerMarks where
  maybeLayered : Bool := false
  finesseIds : Option IdentitySet := none
  deriving DecidableEq

/-- The common player and the players, as `interpret_gd` reads them. -/
structure Game where
  state : HState
  common : Player
  layers : ℕ → LayerMarks := fun _ => {}

/-- A card that a gentleman's discard calls, and what it may be. -/
structure Target where
  order : ℕ
  ids : List Identity
  deriving DecidableEq

/-- `matches` of `gd_target`: the card is the discarded identity, or is ours and may be. -/
def gdMatches (game : Game) (identity : Identity) (index order : ℕ) : Bool :=
  game.state.identityOf order == some identity ||
    (index == game.state.ourPlayerIndex && (game.state.identityOf order).isNone &&
      (game.common.thoughts.get order).any fun card => card.possible.has identity)

/-- The stacks once a card has played: `hypo_state.play_stacks[suitIndex]++`. -/
def playOnto (st : HState) (playStacks : ℕ → ℕ) (order : ℕ) : ℕ → ℕ :=
  match st.identityOf order with
  | some id => Function.update playStacks id.suitIndex (playStacks id.suitIndex + 1)
  | none => playStacks

/-- `hypo_state.isPlayable(state.deck[order])`. -/
def playsOnto (st : HState) (playStacks : ℕ → ℕ) (order : ℕ) : Bool :=
  (st.identityOf order).any fun id => playStacks id.suitIndex + 1 == id.rank

/-- The loop of `gd_target`. -/
def gdLayers (game : Game) (identity : Identity) (index : ℕ)
    (findFinesse : List ℕ → Option ℕ) :
    Option ℕ → (ℕ → ℕ) → List Target → ℕ → Option (List Target)
  | _, _, _, 0 => none
  | none, _, _, _ + 1 => some []
  | some finesse, playStacks, finessed, fuel + 1 =>
    if playsOnto game.state playStacks finesse then
      let layer : Target := ⟨finesse, nextIdentities game.state.variant.suits.length playStacks⟩
      let finessed := finessed ++ [layer]
      let next := findFinesse (finessed.map Target.order)
      match next.filter (gdMatches game identity index) with
      | some order => some (finessed ++ [⟨order, [identity]⟩])
      | none =>
        gdLayers game identity index findFinesse next (playOnto game.state playStacks finesse)
          finessed fuel
    else some []

/-- `gd_target`: the cards called in one player's hand, the copy of the discarded
identity the last. -/
def gdTarget (game : Game) (findFinesse : ℕ → List ℕ → Option ℕ) (identity : Identity)
    (index fuel : ℕ) : Option (List Target) :=
  let finesse := findFinesse index []
  match finesse.filter (gdMatches game identity index) with
  | some order => some [⟨order, [identity]⟩]
  | none =>
    gdLayers game identity index (findFinesse index) finesse game.state.playStacks [] fuel

/-- The order in which the players are assumed to hold the copy: we come last. -/
def playerPrecedence (st : HState) (playerIndex : ℕ) : List ℕ :=
  ((List.range st.numPlayers).filter (· != st.ourPlayerIndex) ++ [st.ourPlayerIndex]).filter
    (· != playerIndex)

/-- What is written on one of the called cards. -/
def writeCard (last : ℕ) (target : Target) (card : Card) : Card :=
  { card.updateStatus .gd with
    inferred := card.inferred.intersect (IdentitySet.identitiesToMask target.ids)
    hidden := card.hidden || target.order != last
    trash := false }

/-- One round of the loop over the targets. -/
def writeTarget (last : ℕ) (game : Game) (target : Target) : Game :=
  { game with
    common := { game.common with
      thoughts := game.common.thoughts.modify target.order (writeCard last target) }
    layers := Function.update game.layers target.order
      { maybeLayered := true
        finesseIds := some ((⟨game.state.variant.suits.length, 0⟩ : IdentitySet).union
          (IdentitySet.identitiesToMask target.ids)) } }

/-- `interpret_gd`: the game with the called cards written, and their orders. Some card
is always called `maybe_layered`, as there are targets. -/
def interpretGd (game : Game) (playerIndex : ℕ) (identity : Identity)
    (findFinesse : ℕ → List ℕ → Option ℕ) (fuel : ℕ) : Option (Game × List ℕ) := do
  let found ← (playerPrecedence game.state playerIndex).mapM fun i =>
    gdTarget game findFinesse identity i fuel
  match found.find? fun targets => !targets.isEmpty with
  | none => some (game, [])
  | some targets =>
    let orders := targets.map Target.order
    some (targets.foldl (writeTarget (orders.getLastD 0)) game, orders)

/-! ## The layers -/

/-- The play stacks once some cards have played. -/
def stacksAfter (st : HState) (orders : List ℕ) : ℕ → ℕ :=
  orders.foldl (playOnto st) st.playStacks

theorem stacksAfter_snoc (st : HState) (orders : List ℕ) (order : ℕ) :
    stacksAfter st (orders ++ [order]) = playOnto st (stacksAfter st orders) order := by
  simp [stacksAfter]

/-- The stacks and the known cards of a state lie within its variant. -/
structure Sound (st : HState) : Prop where
  playStacks_le : ∀ s < st.variant.suits.length, st.playStacks s ≤ 5
  deck_valid : ∀ o id, st.identityOf o = some id → id.Valid st.variant

/-- What the loop has found so far: cards that play one after the other. -/
structure Layers (game : Game) (identity : Identity) (index : ℕ) (finessed : List Target) :
    Prop where
  ids : ∀ j t, finessed[j]? = some t → t.ids =
    nextIdentities game.state.variant.suits.length
      (stacksAfter game.state ((finessed.map Target.order).take j))
  played : ∀ t ∈ finessed, ∃ id, game.state.identityOf t.order = some id ∧
    id.rank ≤ stacksAfter game.state (finessed.map Target.order) id.suitIndex
  nodup : (finessed.map Target.order).Nodup
  unmatched : ∀ t ∈ finessed, gdMatches game identity index t.order = false
  playStacks_le : ∀ s < game.state.variant.suits.length,
    stacksAfter game.state (finessed.map Target.order) s ≤ 5

/-- The plays that the stacks still have room for. -/
def room (st : HState) (playStacks : ℕ → ℕ) : ℕ :=
  ∑ s ∈ Finset.range st.variant.suits.length, (5 - playStacks s)

section

variable {game : Game} {identity : Identity} {index : ℕ} {finessed : List Target} {order : ℕ}

theorem Layers.nil (h : Sound game.state) : Layers game identity index [] :=
  { ids := by simp
    played := by simp
    nodup := List.nodup_nil
    unmatched := by simp
    playStacks_le := h.playStacks_le }

/-- A card that plays is known, and is the next of its suit. -/
theorem playsOnto_cases {st : HState} {playStacks : ℕ → ℕ}
    (h : playsOnto st playStacks order = true) :
    ∃ id, st.identityOf order = some id ∧ id.rank = playStacks id.suitIndex + 1 ∧
      playOnto st playStacks order =
        Function.update playStacks id.suitIndex (playStacks id.suitIndex + 1) := by
  unfold playsOnto at h
  cases hid : st.identityOf order with
  | none => simp [hid] at h
  | some id =>
    simp only [hid, Option.any_some, beq_iff_eq] at h
    refine ⟨id, rfl, h.symm, ?_⟩
    simp [playOnto, hid]

theorem le_update_succ (playStacks : ℕ → ℕ) (s s' : ℕ) :
    playStacks s' ≤ Function.update playStacks s (playStacks s + 1) s' := by
  by_cases hs : s' = s
  · subst hs
    simp
  · simp [hs]

/-- The stacks only grow while further layers play. -/
theorem stacksAfter_le_append (st : HState) (orders rest : List ℕ) (s : ℕ) :
    stacksAfter st orders s ≤ stacksAfter st (orders ++ rest) s := by
  induction rest using List.reverseRecOn with
  | nil => simp
  | append_singleton rest order ih =>
    rw [← List.append_assoc, stacksAfter_snoc]
    refine ih.trans ?_
    unfold playOnto
    cases st.identityOf order with
    | none => exact le_refl _
    | some id => exact le_update_succ _ _ _

/-- One more layer. -/
theorem Layers.snoc (hst : Sound game.state) (h : Layers game identity index finessed)
    (hplays : playsOnto game.state (stacksAfter game.state (finessed.map Target.order)) order =
      true)
    (hunmatched : gdMatches game identity index order = false) :
    Layers game identity index (finessed ++ [⟨order,
      nextIdentities game.state.variant.suits.length
        (stacksAfter game.state (finessed.map Target.order))⟩]) := by
  obtain ⟨id, hid, hrank, hstacks⟩ := playsOnto_cases hplays
  have hsnoc := stacksAfter_snoc game.state (finessed.map Target.order) order
  rw [hstacks] at hsnoc
  -- the new card is the next of its suit, so it is none of those that have played
  have hnew : order ∉ finessed.map Target.order := by
    intro hmem
    obtain ⟨t, ht, rfl⟩ := List.mem_map.1 hmem
    obtain ⟨id', hid', hle⟩ := h.played t ht
    rw [hid, Option.some.injEq] at hid'
    subst hid'
    omega
  constructor
  · intro j t ht
    rw [List.map_append, List.map_singleton]
    obtain hj | hj := lt_or_ge j finessed.length
    · rw [List.getElem?_append_left hj] at ht
      rw [List.take_append_of_le_length (by simp; omega)]
      exact h.ids j t ht
    · rw [List.getElem?_append_right hj] at ht
      have hj' : j = finessed.length := by
        have := (List.getElem?_eq_some_iff.1 ht).1
        simp only [List.length_singleton] at this
        omega
      subst hj'
      simp only [Nat.sub_self, List.getElem?_cons_zero, Option.some.injEq] at ht
      rw [← ht, List.take_append_of_le_length (by simp), List.take_of_length_le (by simp)]
  · intro t ht
    rw [List.map_append, List.map_singleton, hsnoc]
    obtain ht | ht := List.mem_append.1 ht
    · obtain ⟨id', hid', hle⟩ := h.played t ht
      exact ⟨id', hid', hle.trans (le_update_succ _ _ _)⟩
    · rw [List.mem_singleton] at ht
      subst ht
      exact ⟨id, hid, by simp [hrank]⟩
  · rw [List.map_append, List.map_singleton]
    exact List.Nodup.append h.nodup (List.nodup_singleton _) (by simpa using hnew)
  · intro t ht
    obtain ht | ht := List.mem_append.1 ht
    · exact h.unmatched t ht
    · rw [List.mem_singleton] at ht
      subst ht
      exact hunmatched
  · intro s hs
    rw [List.map_append, List.map_singleton, hsnoc]
    by_cases hsuit : s = id.suitIndex
    · subst hsuit
      have hvalid := (hst.deck_valid order id hid).2.2
      simp only [Function.update_self]
      omega
    · rw [Function.update_of_ne hsuit]
      exact h.playStacks_le s hs

/-- Each layer takes room on the stacks. -/
theorem room_playOnto_lt {st : HState} (hst : Sound st) {playStacks : ℕ → ℕ}
    (hplays : playsOnto st playStacks order = true) :
    room st (playOnto st playStacks order) < room st playStacks := by
  obtain ⟨id, hid, hrank, hstacks⟩ := playsOnto_cases hplays
  obtain ⟨hsuit, -, h5⟩ := hst.deck_valid order id hid
  rw [hstacks]
  refine Finset.sum_lt_sum (fun s _ => ?_) ⟨id.suitIndex, Finset.mem_range.2 hsuit, ?_⟩
  · have := le_update_succ playStacks id.suitIndex s
    omega
  · rw [Function.update_self]
    omega

/-- What `gd_target` finds: nothing, or layers with the copy of the identity behind them. -/
def Found (game : Game) (identity : Identity) (index : ℕ) (targets : List Target) : Prop :=
  targets = [] ∨ ∃ finessed last, Layers game identity index finessed ∧
    gdMatches game identity index last = true ∧ targets = finessed ++ [⟨last, [identity]⟩]

/-- The loop ends: each round takes room on the stacks. -/
theorem gdLayers_returns (hst : Sound game.state) (find : List ℕ → Option ℕ) {m : ℕ}
    {finesse : Option ℕ} (h : Layers game identity index finessed)
    (hroom : room game.state (stacksAfter game.state (finessed.map Target.order)) ≤ m)
    (hfinesse : ∀ o, finesse = some o → gdMatches game identity index o = false) :
    Fuel.Returns (gdLayers game identity index find finesse
      (stacksAfter game.state (finessed.map Target.order)) finessed)
      (Found game identity index) := by
  induction m generalizing finessed finesse with
  | zero =>
    cases finesse with
    | none => exact .step (fun _ => rfl) (.pure (Or.inl rfl))
    | some o =>
      cases hplays : playsOnto game.state
          (stacksAfter game.state (finessed.map Target.order)) o with
      | false => exact .step (fun _ => by simp [gdLayers, hplays]) (.pure (Or.inl rfl))
      | true =>
        have := room_playOnto_lt hst hplays
        omega
  | succ m ih =>
    cases finesse with
    | none => exact .step (fun _ => rfl) (.pure (Or.inl rfl))
    | some o =>
      cases hplays : playsOnto game.state
          (stacksAfter game.state (finessed.map Target.order)) o with
      | false => exact .step (fun _ => by simp [gdLayers, hplays]) (.pure (Or.inl rfl))
      | true =>
        have hlayers := h.snoc hst hplays (hfinesse o rfl)
        set layer : Target := ⟨o, nextIdentities game.state.variant.suits.length
          (stacksAfter game.state (finessed.map Target.order))⟩ with hlayer
        have hafter : stacksAfter game.state ((finessed ++ [layer]).map Target.order) =
            playOnto game.state (stacksAfter game.state (finessed.map Target.order)) o := by
          rw [List.map_append, List.map_singleton, stacksAfter_snoc]
        have hlt := room_playOnto_lt hst hplays
        cases hnext : (find ((finessed ++ [layer]).map Target.order)).filter
            (gdMatches game identity index) with
        | some last =>
          have hmatch := (Option.filter_eq_some_iff.1 hnext).2
          refine .step (g := fun _ => some (finessed ++ [layer] ++ [(⟨last, [identity]⟩ : Target)]))
            (fun _ => ?_) (.pure (Or.inr ⟨finessed ++ [layer], last, hlayers, hmatch, rfl⟩))
          simp only [gdLayers, hplays, if_true, ← hlayer, hnext]
        | none =>
          have hnone : ∀ o', find ((finessed ++ [layer]).map Target.order) = some o' →
              gdMatches game identity index o' = false := by
            intro o' ho'
            rw [ho'] at hnext
            simpa [Option.filter] using hnext
          refine .step (fun _ => ?_) (ih hlayers (by rw [hafter]; omega) hnone)
          simp only [gdLayers, hplays, if_true, ← hlayer, hnext, hafter]

/-- The search in one hand ends. -/
theorem gdTarget_returns (hst : Sound game.state) (find : ℕ → List ℕ → Option ℕ)
    (identity : Identity) (index : ℕ) :
    Fuel.Returns (gdTarget game find identity index) (Found game identity index) := by
  cases hfirst : (find index []).filter (gdMatches game identity index) with
  | some last =>
    have hmatch := (Option.filter_eq_some_iff.1 hfirst).2
    refine Fuel.Returns.congr (.pure (Or.inr ⟨[], last, Layers.nil hst, hmatch, rfl⟩))
      fun fuel => ?_
    simp [gdTarget, hfirst]
  | none =>
    have hnone : ∀ o, find index [] = some o → gdMatches game identity index o = false := by
      intro o ho
      rw [ho] at hfirst
      simpa [Option.filter] using hfirst
    refine Fuel.Returns.congr
      (gdLayers_returns hst (find index) (Layers.nil hst) (le_refl _) hnone) fun fuel => ?_
    simp only [gdTarget, hfirst]
    rfl

end

/-! ## What is written -/

theorem writeTarget_get_of_ne (last : ℕ) (game : Game) (target : Target) {o : ℕ}
    (h : o ≠ target.order) :
    (writeTarget last game target).common.thoughts.get o = game.common.thoughts.get o :=
  SparseArray.get_modify_of_ne _ h _

theorem writeTargets_get_of_not_mem (last : ℕ) (game : Game) (targets : List Target) {o : ℕ}
    (h : o ∉ targets.map Target.order) :
    (targets.foldl (writeTarget last) game).common.thoughts.get o = game.common.thoughts.get o := by
  induction targets generalizing game with
  | nil => rfl
  | cons target targets ih =>
    simp only [List.map_cons, List.mem_cons, not_or] at h
    rw [List.foldl_cons, ih _ h.2, writeTarget_get_of_ne _ _ _ h.1]

/-- Each called card keeps what its target allows. -/
theorem writeTargets_inferred (last : ℕ) (game : Game) {targets : List Target}
    (hnodup : (targets.map Target.order).Nodup) {target : Target} (ht : target ∈ targets)
    {card : Card} (hcard : game.common.thoughts.get target.order = some card) :
    ∃ card', (targets.foldl (writeTarget last) game).common.thoughts.get target.order =
      some card' ∧
      card'.inferred = card.inferred.intersect (IdentitySet.identitiesToMask target.ids) := by
  induction targets generalizing game with
  | nil => simp at ht
  | cons first targets ih =>
    rw [List.map_cons, List.nodup_cons] at hnodup
    rw [List.foldl_cons]
    obtain rfl | ht := List.mem_cons.1 ht
    · rw [writeTargets_get_of_not_mem _ _ _ hnodup.1]
      refine ⟨writeCard last target card, ?_, rfl⟩
      simp [writeTarget, hcard]
    · have hne : target.order ≠ first.order := by
        intro heq
        exact hnodup.1 (heq ▸ List.mem_map_of_mem ht)
      exact ih _ hnodup.2 ht (by rw [writeTarget_get_of_ne _ _ _ hne, hcard])

/-- The layers before the last called card keep what is next on the stacks they play on,
unless they were thought to be a 1 that is played by then, behind a completed suit. -/
def LayersWritten (game : Game) (result : Game × List ℕ) : Prop :=
  ∀ j order card, j + 1 < result.2.length → result.2[j]? = some order →
    game.common.thoughts.get order = some card →
    card.inferred.numSuits = game.state.variant.suits.length →
    ∃ card', result.1.common.thoughts.get order = some card' ∧
      (card'.inferred.OnStacks (stacksAfter game.state (result.2.take j)) ↔
        ∀ s, ¬WrapsOnto (stacksAfter game.state (result.2.take j)) card.inferred s)

theorem Found.layersWritten {game : Game} {identity : Identity} {index : ℕ}
    {targets : List Target} (h : Found game identity index targets) (last : ℕ) :
    LayersWritten game (targets.foldl (writeTarget last) game, targets.map Target.order) := by
  obtain rfl | ⟨finessed, final, hlayers, hmatch, rfl⟩ := h
  · intro j order card hj
    simp at hj
  intro j order card hj horder hcard hsuits
  have hlt : j < finessed.length := by simpa using hj
  have htake : ((finessed ++ [(⟨final, [identity]⟩ : Target)]).map Target.order).take j =
      (finessed.map Target.order).take j := by
    rw [List.map_append, List.take_append_of_le_length (by simp; omega)]
  -- the copy of the identity matches, the layers do not
  have hnew : final ∉ finessed.map Target.order := by
    intro hmem
    obtain ⟨t, ht, heq⟩ := List.mem_map.1 hmem
    have := hlayers.unmatched t ht
    rw [heq, hmatch] at this
    cases this
  have hnodup : ((finessed ++ [(⟨final, [identity]⟩ : Target)]).map Target.order).Nodup := by
    rw [List.map_append]
    exact List.Nodup.append hlayers.nodup (List.nodup_singleton _) (by simpa using hnew)
  have hget : finessed[j]? = some finessed[j] := List.getElem?_eq_getElem hlt
  have heq : finessed[j].order = order := by
    simpa [List.getElem?_append_left, hlt] using horder
  subst heq
  obtain ⟨card', hcard', hinferred⟩ := writeTargets_inferred last game hnodup
    (List.mem_append_left _ (List.getElem_mem hlt)) hcard
  refine ⟨card', hcard', ?_⟩
  dsimp only
  rw [hinferred, hlayers.ids j _ hget, htake, ← hsuits]
  refine IdentitySet.intersect_nextIdentities_onStacks_iff fun s hs => ?_
  rw [hsuits] at hs
  have hall := stacksAfter_le_append game.state ((finessed.map Target.order).take j)
    ((finessed.map Target.order).drop j) s
  rw [List.take_append_drop] at hall
  exact hall.trans (hlayers.playStacks_le s hs)

/-- A gentleman's discard is read in finitely many steps. -/
theorem interpretGd_returns {game : Game} (hst : Sound game.state) (playerIndex : ℕ)
    (identity : Identity) (find : ℕ → List ℕ → Option ℕ) :
    Fuel.Returns (interpretGd game playerIndex identity find) (LayersWritten game) := by
  have hfound := Fuel.Returns.mapM (l := playerPrecedence game.state playerIndex)
    (k := gdTarget game find identity) (P := fun targets => ∃ i, Found game identity i targets)
    fun i _ => (gdTarget_returns hst find identity i).mono fun _ h => ⟨i, h⟩
  refine hfound.bind (k := fun found _ => match found.find? fun targets => !targets.isEmpty with
    | none => some (game, [])
    | some targets =>
      let orders := targets.map Target.order
      some (targets.foldl (writeTarget (orders.getLastD 0)) game, orders)) fun found h => ?_
  cases hfind : found.find? fun targets => !targets.isEmpty with
  | none => exact .pure fun j order card hj => by simp at hj
  | some targets =>
    obtain ⟨i, hi⟩ := h targets (List.mem_of_find?_eq_some hfind)
    exact .pure (hi.layersWritten _)

/-- The two places that write the next identities of `play_stacks`: a referential play on
an unloaded player's card, and the layers of a gentleman's discard. -/
theorem called_onStacks_iff (common common' : PlayfulSieve.Common) (st : HState)
    (giver target i order : ℕ) (card : Card) (game : Game) (playerIndex : ℕ) (identity : Identity)
    (find : ℕ → List ℕ → Option ℕ) :
    (common.thinksLoaded st target = false →
      PlayfulSieve.referentialPlay common st giver target = some (common', .refPlay i) →
      (st.hands target)[i]? = some order → common.thoughts.get order = some card →
      card.inferred.numSuits = st.variant.suits.length →
      (∀ s < st.variant.suits.length, st.playStacks s ≤ 5) →
      ∃ card', common'.thoughts.get order = some card' ∧
        (card'.inferred.OnStacks st.playStacks ↔
          ∀ s, ¬WrapsOnto st.playStacks card.inferred s)) ∧
    (Sound game.state →
      Fuel.Returns (interpretGd game playerIndex identity find) (LayersWritten game)) := by
  constructor
  · intro hloaded hrun ho hcard hsuits hst
    exact PlayfulSieve.referentialPlay_onStacks_iff hloaded hrun ho hcard hsuits hst
  · intro hst
    exact interpretGd_returns hst playerIndex identity find

/-! ## A completed suit -/

/-- Red is complete and yellow has its 1. Alice (0) looks at Bob (1) and Cathy (2). -/
def redComplete : HState :=
  { State.fresh noVariant 3 0 {} with
    playStacks := fun s => if s = 0 then 5 else if s = 1 then 1 else 0
    hands := fun p => if p = 1 then [4, 3] else if p = 2 then [2, 1, 0] else []
    deck := ((SparseArray.empty.set 2 ⟨some ⟨2, 1⟩⟩).set 1 ⟨some ⟨3, 1⟩⟩).set 0 ⟨some ⟨4, 4⟩⟩ }

/-- An untouched card about which nothing is known. -/
def untouched (order : ℕ) : Card :=
  { id := none, order, possible := .full 5, inferred := .full 5 }

/-- Cathy's cards: the middle one has just been clued. -/
def cathyClued : PlayfulSieve.Common where
  playerIndex := none
  thoughts := ((SparseArray.empty.set 2 (untouched 2)).set 1
    ((untouched 1).updateStatus .clued)).set 0 (untouched 0)
  allPossible := .full 5
  allInferred := .full 5
  hypoStacks := redComplete.playStacks
  newlyClued o := o == 1

/-- Bob discarded the b1, which Cathy has behind a playable g1. -/
def cathyLayered : Game where
  state := redComplete
  common :=
    { playerIndex := none
      thoughts := ((SparseArray.empty.set 2 (untouched 2)).set 1 (untouched 1)).set 0 (untouched 0)
      allPossible := .full 5
      allInferred := .full 5 }

/-- `find_finesse`: the first card that is neither touched nor connected. -/
def findFinesse (game : Game) (playerIndex : ℕ) (connected : List ℕ) : Option ℕ :=
  (game.state.hands playerIndex).find? fun o =>
    !((game.common.thoughts.get o).any Card.touched) && !connected.contains o

/-- The inferences of a card of Cathy's, by whether they stay on the stacks. -/
def keepsToStacks (thoughts : SparseArray Card) (order : ℕ) : Bool :=
  (thoughts.get order).all fun card => decide (card.inferred.OnStacks redComplete.playStacks)

/-- With red complete, the y1 that is played stays among the inferences: of the card that
a referential play calls, and of the g1 in front of the b1. -/
theorem redComplete_keeps_y1 :
    ((PlayfulSieve.referentialPlay cathyClued redComplete 0 2).any fun r =>
      r.2 == .refPlay 2 && !keepsToStacks r.1.thoughts 0) = true ∧
    ((interpretGd cathyLayered 1 ⟨3, 1⟩ (findFinesse cathyLayered) 3).any fun r =>
      r.2 == [2, 1] && !keepsToStacks r.1.common.thoughts 2) = true := by
  decide +kernel

theorem redComplete_sound : Sound redComplete :=
  { playStacks_le := by decide
    deck_valid := by
      intro o id hid
      have ho : o = 0 ∨ o = 1 ∨ o = 2 := by
        by_contra hne
        simp only [not_or] at hne
        simp [redComplete, State.identityOf, SparseArray.get_set, hne.1, hne.2.1, hne.2.2] at hid
      obtain rfl | rfl | rfl := ho
      all_goals
        have hid' := Option.some.inj hid
        subst hid'
        decide }

/-- On the same position both theorems apply, and find the y1. -/
theorem called_onStacks_redComplete :
    (∃ common' card', PlayfulSieve.referentialPlay cathyClued redComplete 0 2 =
        some (common', .refPlay 2) ∧ common'.thoughts.get 0 = some card' ∧
      ¬card'.inferred.OnStacks redComplete.playStacks) ∧
    Fuel.Returns (interpretGd cathyLayered 1 ⟨3, 1⟩ (findFinesse cathyLayered))
      (LayersWritten cathyLayered) := by
  obtain ⟨hcalled, hlayers⟩ := called_onStacks_iff cathyClued _ redComplete 0 2 2 0 (untouched 0)
    cathyLayered 1 ⟨3, 1⟩ (findFinesse cathyLayered)
  refine ⟨?_, hlayers redComplete_sound⟩
  obtain ⟨card', hcard', hiff⟩ := hcalled (by decide +kernel) rfl rfl rfl rfl
    redComplete_sound.playStacks_le
  refine ⟨_, card', rfl, hcard', fun h => hiff.1 h 0 ?_⟩
  decide +kernel

end HanabiBot.Shared
