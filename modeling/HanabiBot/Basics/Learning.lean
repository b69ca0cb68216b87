import HanabiBot.Basics.Empathy
import HanabiBot.Elim.Growth

/-!
# Nobody forgets

Whatever a player thinks, true or not, what is ruled out for a card stays ruled out (`Learns`),
and what the common player is told of a card every player is told too (`Shares`).  Nothing here
is about the cards that there really are.

* `Thinks` — the thoughts of a player are about the cards drawn so far;
* `LearnStep` — what a handler does to the thoughts, with the new state that it leads to;
* `handle_learns` — every handler does, where it returns a game.
-/

namespace HanabiBot

open Except (Yields)

variable {v : Variant} {dk : Deck v} {acts acts' : List Action} {st st' : State}
  {player player' : Mind}

/-! ## Thoughts -/

/-- The thoughts of a player are about the cards drawn so far and the suits of the variant, and
each promise is about one identity. -/
structure Thinks (v : Variant) (st : State) (player : Mind) : Prop where
  undrawn : ∀ o : ℕ, st.cardOrder < o → player.thoughts.get o = none
  suits : ∀ o card, player.thoughts.get o = some card → card.possible.numSuits = v.suits.length
  numSuits : player.allPossible.numSuits = v.suits.length
  sole : ∀ link ∈ player.links, Links.Sole link

/-- Nothing that was ruled out is possible again. -/
def Learns (player player' : Mind) : Prop :=
  ∀ o card, player.thoughts.get o = some card →
    ∃ card', player'.thoughts.get o = some card' ∧ card'.possible.Subset card.possible

theorem Learns.refl (player : Mind) : Learns player player :=
  fun _ card hcard => ⟨card, hcard, IdentitySet.Subset.refl _⟩

theorem Learns.trans {player'' : Mind} (h : Learns player player')
    (h' : Learns player' player'') : Learns player player'' := by
  intro o card hcard
  obtain ⟨card', hcard', hsub⟩ := h o card hcard
  obtain ⟨card'', hcard'', hsub'⟩ := h' o card' hcard'
  exact ⟨card'', hcard'', hsub'.trans hsub⟩

theorem Learns.forall₂_trans {l₁ l₂ l₃ : List Mind} (h : List.Forall₂ Learns l₁ l₂)
    (h' : List.Forall₂ Learns l₂ l₃) : List.Forall₂ Learns l₁ l₃ := by
  induction h generalizing l₃ with
  | nil => exact h'
  | cons hab _ ih =>
    cases h' with
    | cons hbc hrest => exact .cons (hab.trans hbc) (ih hrest)

/-- It only depends on how many cards are drawn. -/
theorem Thinks.congr (h : Thinks v st player) (horder : st'.cardOrder = st.cardOrder) :
    Thinks v st' player :=
  ⟨fun o ho => h.undrawn o (horder ▸ ho), h.suits, h.numSuits, h.sole⟩

/-- A thought about a card that is drawn is written. -/
theorem Thinks.set (h : Thinks v st player) {o : ℕ} (ho : (o : ℤ) ≤ st.cardOrder) {card : Card}
    (hsuits : card.possible.numSuits = v.suits.length) :
    Thinks v st { player with thoughts := player.thoughts.set o card } := by
  refine ⟨fun o' ho' => ?_, fun o' card' hcard' => ?_, h.numSuits, h.sole⟩
  · have hne : o' ≠ o := by
      rintro rfl
      exact absurd ho (not_le.2 ho')
    rw [SparseArray.get_set_of_ne _ hne]
    exact h.undrawn o' ho'
  · rw [SparseArray.get_set] at hcard'
    split at hcard'
    · exact Option.some.inj hcard' ▸ hsuits
    · exact h.suits o' card' hcard'

theorem Learns.set {o : ℕ} {card card' : Card} (hcard : player.thoughts.get o = some card)
    (hsub : card'.possible.Subset card.possible) :
    Learns player { player with thoughts := player.thoughts.set o card' } := by
  intro o' card'' hcard''
  by_cases heq : o' = o
  · subst heq
    obtain rfl := Option.some.inj (hcard.symm.trans hcard'')
    exact ⟨card', SparseArray.get_set_self _ _ _, hsub⟩
  · exact ⟨card'', (SparseArray.get_set_of_ne _ heq _).trans hcard'', IdentitySet.Subset.refl _⟩

/-! ## Eliminations and inferences -/

theorem elim_learns (horders : ∀ o ∈ st.allOrders, (o : ℤ) ≤ st.cardOrder)
    (h : Thinks v st player) (fuel : ℕ) :
    (MindGame.elim fuel player st).Yields fun player' =>
      Thinks v st player' ∧ Learns player player' := by
  intro player' hplayer'
  unfold MindGame.elim at hplayer'
  split at hplayer'
  · rename_i r hr
    obtain ⟨hnum, hshrinks, houtside, hthere⟩ := CardElim.cardElim_narrows fuel r hr
    cases hplayer'
    refine ⟨⟨fun o ho => ?_, fun o card' hcard' => ?_, hnum.trans h.numSuits, h.sole⟩,
      fun o card hcard => ?_⟩
    · show r.1.thoughts.get o = none
      rw [houtside o fun hmem => absurd (horders o hmem) (not_le.2 ho)]
      exact h.undrawn o ho
    · by_cases hmem : o ∈ st.allOrders
      · obtain ⟨card, hcard⟩ := Option.isSome_iff_exists.1 (hthere o hmem)
        obtain ⟨card'', hcard'', hsuits, -⟩ := hshrinks o card hcard
        obtain rfl := Option.some.inj (hcard''.symm.trans hcard')
        exact hsuits.trans (h.suits o card hcard)
      · exact h.suits o card' ((houtside o hmem).symm.trans hcard')
    · obtain ⟨card', hcard', -, hsub⟩ := hshrinks o card hcard
      exact ⟨card', hcard', hsub⟩
  · cases hplayer'

/-- Who infers something, and promises what may be true, learns nothing. -/
theorem sameKnowledge_learns (h : Links.SameKnowledge player player') (ht : Thinks v st player)
    (hsole : ∀ link ∈ player'.links, Links.Sole link) :
    Thinks v st player' ∧ Learns player player' := by
  refine ⟨⟨fun o ho => h.same.get_eq_none (ht.undrawn o ho), fun o card' hcard' => ?_,
    h.allPossible.symm ▸ ht.numSuits, hsole⟩, fun o card hcard => ?_⟩
  · have hthere : (player.thoughts.get o).isSome := by
      rw [Option.isSome_iff_ne_none]
      intro hnone
      rw [h.same.get_eq_none hnone] at hcard'
      cases hcard'
    obtain ⟨card, hcard⟩ := Option.isSome_iff_exists.1 hthere
    obtain ⟨card'', hcard'', hseen⟩ := h.same.get hcard
    obtain rfl := Option.some.inj (hcard''.symm.trans hcard')
    have hpossible : card''.possible = card.possible := congrArg Prod.fst hseen
    exact hpossible ▸ ht.suits o card hcard
  · obtain ⟨card', hcard', hseen⟩ := h.same.get hcard
    have hpossible : card'.possible = card.possible := congrArg Prod.fst hseen
    exact ⟨card', hcard', hpossible ▸ IdentitySet.Subset.refl _⟩

theorem touchElim_learns (goodTouchElim : Bool → Inferrer) (game : MindGame) (onlySelf : Bool)
    (st'' : State) (ht : Thinks v st player) :
    Thinks v st (game.touchElim goodTouchElim onlySelf player st'') ∧
      Learns player (game.touchElim goodTouchElim onlySelf player st'') := by
  unfold MindGame.touchElim
  split
  · refine sameKnowledge_learns ((goodTouchElim onlySelf).same player st'') ht ?_
    rw [(goodTouchElim onlySelf).links]
    exact ht.sole
  · exact ⟨ht, .refl player⟩

theorem refresh_learns (st'' : State) (ht : Thinks v st player) :
    (MindGame.refresh player st'').Yields fun player' =>
      Thinks v st player' ∧ Learns player player' := by
  obtain ⟨player', heq, hsame, hsole⟩ := Links.refreshLinks_ok st'' ht.sole
  unfold MindGame.refresh
  rw [heq]
  exact .pure (sameKnowledge_learns hsame ht hsole)

/-- What a player who has thought about an action goes through. -/
theorem touch_refresh_learns (goodTouchElim : Bool → Inferrer) (game : MindGame) (onlySelf : Bool)
    (st' st'' : State) (ht : Thinks v st player) :
    (MindGame.refresh (game.touchElim goodTouchElim onlySelf player st') st'').Yields
      fun player' => Thinks v st player' ∧ Learns player player' := by
  obtain ⟨htouched, hlearns⟩ := touchElim_learns goodTouchElim game onlySelf st' ht
  exact (refresh_learns st'' htouched).mono fun player' h => ⟨h.1, hlearns.trans h.2⟩

/-! ## Patches -/

theorem intersect_mask_subset (s : IdentitySet) (mask : ℕ) : (s.intersect mask).Subset s := by
  intro id hid
  rw [IdentitySet.mem_array, IdentitySet.has_intersect, Bool.and_eq_true] at hid
  exact IdentitySet.mem_array.2 ⟨hid.1, hid.2.1, hid.2.2.1⟩

/-- The cards that there are patches of. -/
def CommonPlayer.told (common : CommonPlayer) : List ℕ := common.patches.map Prod.fst

theorem map_fst_addPatches (patches : List (ℕ × List CardPatch)) (o : ℕ) (written : List CardPatch) :
    (addPatches patches o written).map Prod.fst =
      if o ∈ patches.map Prod.fst then patches.map Prod.fst else patches.map Prod.fst ++ [o] := by
  have hany : patches.any (·.1 == o) = true ↔ o ∈ patches.map Prod.fst := by simp
  unfold addPatches
  simp only [hany]
  split
  · rw [List.map_map]
    refine List.map_congr_left fun e _ => ?_
    by_cases h : e.1 = o
    · simp [h]
    · simp [h]
  · rw [List.map_append, List.map_singleton]

/-- Writes that take nothing back. -/
structure CardPatch.Narrow (card : Card) (writes : List CardPatch) : Prop where
  numSuits : (writes.foldl CardPatch.apply card).possible.numSuits = card.possible.numSuits
  subset : (writes.foldl CardPatch.apply card).possible.Subset card.possible
  change : ∃ p ∈ writes, p.changes card = true

theorem CardPatch.Narrow.isEmpty_record {card : Card} {writes : List CardPatch}
    (h : CardPatch.Narrow card writes) : (CardPatch.record card writes).isEmpty = false := by
  obtain ⟨p, hp, hpc⟩ := h.change
  rw [List.isEmpty_eq_false_iff, CardPatch.record, Ne, List.dropWhile_eq_nil_iff]
  intro hnone
  have hfalse := hnone p hp
  rw [hpc] at hfalse
  cases hfalse

/-- The common player is told something of a card. -/
theorem withThoughts_learns {common : CommonPlayer} (h : Thinks v st common.toMind) {o : ℕ}
    {writes : Card → List CardPatch} (hwrites : ∀ card, CardPatch.Narrow card (writes card)) :
    (common.withThoughts o writes).Yields fun common' => Thinks v st common'.toMind ∧
      Learns common.toMind common'.toMind ∧ o ∈ common'.told ∧ common.told ⊆ common'.told := by
  intro common' hcommon'
  unfold CommonPlayer.withThoughts at hcommon'
  split at hcommon'
  · cases hcommon'
  · rename_i card hcard
    have hnarrow := hwrites card
    have hdrawn : (o : ℤ) ≤ st.cardOrder := by
      rw [← not_lt]
      intro hafter
      rw [h.undrawn o hafter] at hcard
      cases hcard
    have htold := map_fst_addPatches common.patches o (CardPatch.record card (writes card))
    cases hcommon'
    refine ⟨h.set hdrawn (hnarrow.numSuits.trans (h.suits o card hcard)),
      Learns.set hcard hnarrow.subset, ?_⟩
    simp only [CommonPlayer.told, hnarrow.isEmpty_record, Bool.false_eq_true, if_false, htold]
    split
    · exact ⟨‹_›, List.Subset.refl _⟩
    · exact ⟨List.mem_append_right _ (List.mem_singleton_self o), List.subset_append_left _ _⟩

/-! ## What the players take over -/

/-- The player knows at least as much about the card as the common player. -/
def Shares (common player : Mind) (o : ℕ) : Prop :=
  ∃ known card, common.thoughts.get o = some known ∧ player.thoughts.get o = some card ∧
    card.possible.Subset known.possible

theorem Shares.learns {common : Mind} {o : ℕ} (h : Shares common player o)
    (hlearns : Learns player player') : Shares common player' o := by
  obtain ⟨known, card, hknown, hcard, hsub⟩ := h
  obtain ⟨card', hcard', hsub'⟩ := hlearns o card hcard
  exact ⟨known, card', hknown, hcard', hsub'.trans hsub⟩

theorem takeOverCard_learns {common : CommonPlayer} (hcommon : Thinks v st common.toMind)
    (h : Thinks v st player) (e : ℕ × List CardPatch) :
    (MindGame.takeOverCard common player e).Yields fun player' =>
      Thinks v st player' ∧ Learns player player' ∧ Shares common.toMind player' e.1 := by
  intro player' hplayer'
  unfold MindGame.takeOverCard at hplayer'
  split at hplayer'
  · rename_i known card hknown hcard
    have hsuits := hcommon.suits e.1 known hknown
    have hdrawn : (e.1 : ℤ) ≤ st.cardOrder := by
      rw [← not_lt]
      intro hafter
      rw [h.undrawn e.1 hafter] at hcard
      cases hcard
    cases hplayer'
    exact ⟨h.set hdrawn hsuits, Learns.set hcard
        (IdentitySet.intersect_subset (hsuits.trans (h.suits e.1 card hcard).symm)),
      known, _, hknown, SparseArray.get_set_self _ _ _, intersect_mask_subset _ _⟩
  · cases hplayer'

theorem takeOver_learns {common : CommonPlayer} (hcommon : Thinks v st common.toMind)
    (h : Thinks v st player) :
    (MindGame.takeOver common player).Yields fun player' =>
      Thinks v st player' ∧ Learns player player' ∧
        ∀ o ∈ common.told, Shares common.toMind player' o := by
  unfold MindGame.takeOver CommonPlayer.told
  induction common.patches generalizing player with
  | nil => exact .pure ⟨h, .refl player, fun _ ho => (List.not_mem_nil ho).elim⟩
  | cons e l ih =>
    rw [List.foldlM_cons]
    refine Yields.bind (takeOverCard_learns hcommon h e) fun player₁ h₁ => ?_
    refine (ih h₁.1).mono fun player₂ h₂ => ?_
    refine ⟨h₂.1, h₁.2.1.trans h₂.2.1, fun o ho => ?_⟩
    obtain rfl | ho := List.mem_cons.1 ho
    · exact h₁.2.2.learns h₂.2.1
    · exact h₂.2.2 o ho

/-! ## The handlers -/

/-- What everybody in a game thinks, and that the identities of the deck are the true ones. -/
structure ThinkingGame (dk : Deck v) (game : MindGame) : Prop where
  common : Thinks v game.state game.common.toMind
  players : ∀ player ∈ game.players, Thinks v game.state player
  deckIds : TruthfulIds dk game.deckIds

/-- Everybody in the second game has learned from the first. -/
structure GameLearns (game game' : MindGame) : Prop where
  common : Learns game.common.toMind game'.common.toMind
  players : List.Forall₂ Learns game.players game'.players

theorem GameLearns.refl (game : MindGame) : GameLearns game game :=
  ⟨.refl _, List.forall₂_same.2 fun player _ => .refl player⟩

theorem GameLearns.trans {game game' game'' : MindGame} (h : GameLearns game game')
    (h' : GameLearns game' game'') : GameLearns game game'' :=
  ⟨h.common.trans h'.common, Learns.forall₂_trans h.players h'.players⟩

/-- A handler leads to the new state, takes nothing back, and tells everybody about some cards. -/
structure LearnStep (dk : Deck v) (newState : State) (told : List ℕ) (game game' : MindGame) :
    Prop where
  state : game'.state = newState
  thinking : ThinkingGame dk game'
  learns : GameLearns game game'
  shares : ∀ player' ∈ game'.players, ∀ o ∈ told, Shares game'.common.toMind player' o

theorem forall_of_forall₂ {α β : Type} {R : α → β → Prop} {P : β → Prop} {l : List α} {l' : List β}
    (h : List.Forall₂ R l l') (hP : ∀ a b, R a b → P b) : ∀ b ∈ l', P b := by
  induction h with
  | nil => exact fun _ hb => (List.not_mem_nil hb).elim
  | cons hab _ ih => exact List.forall_mem_cons.2 ⟨hP _ _ hab, ih⟩

theorem forall₂_of_zipIdx {α β : Type} {R : α → β → Prop} {l : List α} {l' : List β} {n : ℕ}
    (h : List.Forall₂ (fun e b => R e.1 b) (l.zipIdx n) l') : List.Forall₂ R l l' := by
  have hmap := (List.forall₂_map_left_iff (f := Prod.fst) (R := R)).2 h
  rwa [List.zipIdx_map_fst] at hmap

theorem TruthfulIds.set {deckIds : SparseArray Identity} (h : TruthfulIds dk deckIds) (o : ℕ) :
    TruthfulIds dk (deckIds.set o (dk.truth o)) := by
  intro o' id hid
  rw [SparseArray.get_set] at hid
  split at hid
  · rename_i heq
    rw [heq]
    exact (Option.some.inj hid).symm
  · exact h o' id hid

section

variable {goodTouchElim : Bool → Inferrer} {fuel : ℕ} {game : MindGame}

theorem teamElimP_learns (hb : BoardInv dk acts game.state) (h : ThinkingGame dk game) :
    (game.teamElimP goodTouchElim fuel).Yields
      (LearnStep dk game.state game.common.told game) := by
  unfold MindGame.teamElimP
  have hplayers : ∀ player ∈ game.players, Yields
      ((MindGame.takeOver game.common player).bind fun player =>
        (MindGame.elim fuel player game.state).bind fun player =>
          MindGame.refresh
            (game.touchElim goodTouchElim (game.state.numPlayers == 2) player game.state)
            game.state)
      fun player' => Thinks v game.state player' ∧ Learns player player' ∧
        ∀ o ∈ game.common.told, Shares game.common.toMind player' o := by
    intro player hplayer
    refine Yields.bind (takeOver_learns h.common (h.players player hplayer)) fun player₁ h₁ => ?_
    refine Yields.bind (elim_learns hb.order_le h₁.1 fuel) fun player₂ h₂ => ?_
    refine (touch_refresh_learns goodTouchElim game _ _ _ h₂.1).mono fun player₃ h₃ => ?_
    have hlearns := h₂.2.trans h₃.2
    exact ⟨h₃.1, h₁.2.1.trans hlearns, fun o ho => (h₁.2.2 o ho).learns hlearns⟩
  refine Yields.map ((Yields.mapM hplayers).mono fun players hall => ?_)
  exact ⟨rfl, ⟨h.common, forall_of_forall₂ hall fun _ _ hboth => hboth.1, h.deckIds⟩,
    ⟨.refl _, hall.imp fun _ _ hboth => hboth.2.1⟩,
    forall_of_forall₂ hall fun _ _ hboth => hboth.2.2⟩

/-- The common player is told something; then the players are. -/
theorem tell_learns (hb : BoardInv dk acts st) {newState : State}
    (hb' : BoardInv dk acts' newState) (horder : newState.cardOrder = st.cardOrder)
    (h : ThinkingGame dk game) (horder' : st.cardOrder = game.state.cardOrder)
    {common : CommonPlayer} (hcommon : Thinks v game.state common.toMind)
    (hlearns : Learns game.common.toMind common.toMind) {deckIds : SparseArray Identity}
    (hids : TruthfulIds dk deckIds) :
    (game.tell goodTouchElim fuel st newState common deckIds).Yields
      (LearnStep dk newState common.told game) := by
  unfold MindGame.tell
  refine Yields.bind (elim_learns hb.order_le (hcommon.congr horder') fuel) fun player hplayer => ?_
  have hrefresh := touch_refresh_learns goodTouchElim game false st newState hplayer.1
  refine Yields.bind hrefresh fun player' hplayer' => ?_
  have hnew : ThinkingGame dk { game with
      state := newState
      common := { common with toMind := player' }
      deckIds } :=
    ⟨hplayer'.1.congr horder, fun p hp => (h.players p hp).congr (horder.trans horder'), hids⟩
  refine (teamElimP_learns hb' hnew).mono fun game' hgame' =>
    ⟨hgame'.state, hgame'.thinking, ⟨?_, hgame'.learns.players⟩, hgame'.shares⟩
  exact ((hlearns.trans hplayer.2).trans hplayer'.2).trans hgame'.learns.common

theorem clueWrites_narrow (v : Variant) (clue : BaseClue) (list : List ℕ) (o : ℕ) (card : Card) :
    CardPatch.Narrow card (MindGame.clueWrites v clue list o card) := by
  unfold MindGame.clueWrites
  dsimp only
  split
  · refine ⟨?_, ?_, _, List.mem_append_right _ List.mem_cons_self, rfl⟩
    · split <;> rfl
    · split <;> exact intersect_mask_subset card.possible _
  · exact ⟨rfl, IdentitySet.subtract_subset _ _, _, List.mem_cons_self, rfl⟩

theorem onClue_learns (hb : BoardInv dk acts game.state)
    (hb' : BoardInv dk acts' (Basics.onClue game.state)) (h : ThinkingGame dk game) {target : ℕ}
    {clue : BaseClue} {list : List ℕ} :
    (game.onClue goodTouchElim fuel target list clue).Yields
      (LearnStep dk (Basics.onClue game.state) (game.state.hands target) game) := by
  have hloop : ∀ (l : List ℕ) (common : CommonPlayer), Thinks v game.state common.toMind →
      (l.foldlM (fun (common : CommonPlayer) o =>
        common.withThoughts o (MindGame.clueWrites game.state.variant clue list o)) common).Yields
        fun common' => Thinks v game.state common'.toMind ∧
          Learns common.toMind common'.toMind ∧ l ⊆ common'.told ∧ common.told ⊆ common'.told := by
    intro l
    induction l with
    | nil => exact fun common h => .pure ⟨h, .refl _, List.nil_subset _, List.Subset.refl _⟩
    | cons o l ih =>
      intro common h
      rw [List.foldlM_cons]
      refine Yields.bind (withThoughts_learns h (clueWrites_narrow game.state.variant clue list o))
        fun common₁ h₁ => ?_
      obtain ⟨hthinks₁, hlearns₁, ho₁, htold₁⟩ := h₁
      refine (ih common₁ hthinks₁).mono fun common₂ h₂ => ?_
      obtain ⟨hthinks₂, hlearns₂, hl₂, htold₂⟩ := h₂
      exact ⟨hthinks₂, hlearns₁.trans hlearns₂, List.cons_subset.2 ⟨htold₂ ho₁, hl₂⟩,
        List.Subset.trans htold₁ htold₂⟩
  unfold MindGame.onClue
  refine Yields.bind (hloop _ _ h.common) fun common hcommon => ?_
  obtain ⟨hthinks, hlearns, htold, -⟩ := hcommon
  refine (tell_learns hb hb' rfl h rfl hthinks hlearns h.deckIds).mono fun game' hgame' => ?_
  exact ⟨hgame'.state, hgame'.thinking, hgame'.learns,
    fun player' hp o ho => hgame'.shares player' hp o (htold ho)⟩

theorem revealWrites_narrow (identity : Identity) (card : Card) :
    CardPatch.Narrow card (MindGame.revealWrites identity card) :=
  ⟨rfl, intersect_mask_subset _ _, .oldInferred card.inferred, by simp [MindGame.revealWrites], rfl⟩

/-- A card is turned over as what it is. -/
theorem turnUp_learns {newState : State} (hb' : BoardInv dk acts' newState)
    (horder : newState.cardOrder = game.state.cardOrder) (h : ThinkingGame dk game) (o : ℕ) :
    (game.turnUp goodTouchElim fuel newState o (some (dk.truth o))).Yields
      (LearnStep dk newState [o] game) := by
  unfold MindGame.turnUp
  dsimp only
  refine Yields.bind (withThoughts_learns h.common (revealWrites_narrow (dk.truth o)))
    fun common hcommon => ?_
  obtain ⟨hthinks, hlearns, htold, -⟩ := hcommon
  refine (tell_learns hb' hb' rfl h horder hthinks hlearns (h.deckIds.set o)).mono
    fun game' hgame' => ?_
  exact ⟨hgame'.state, hgame'.thinking, hgame'.learns, fun player' hp o' ho' =>
    hgame'.shares player' hp o' (List.mem_singleton.1 ho' ▸ htold)⟩

theorem seeDraw_learns {identity : Option Identity} {order : ℕ}
    (horder : (order : ℤ) = st.cardOrder + 1) (h : Thinks v st player)
    (deckId shown : Option Identity) (p : ℕ) :
    Thinks v (Basics.onDraw st deckId order p shown) (MindGame.seeDraw player order identity) ∧
      Learns player (MindGame.seeDraw player order identity) := by
  have hcardOrder : (Basics.onDraw st deckId order p shown).cardOrder = order := rfl
  have hthinks : Thinks v (Basics.onDraw st deckId order p shown) player :=
    ⟨fun o ho => h.undrawn o (by omega), h.suits, h.numSuits, h.sole⟩
  refine ⟨hthinks.set (by omega) h.numSuits, fun o card hcard => ?_⟩
  have hne : o ≠ order := by
    rintro rfl
    rw [h.undrawn o (by omega)] at hcard
    cases hcard
  exact ⟨card, (SparseArray.get_set_of_ne _ hne _).trans hcard, IdentitySet.Subset.refl _⟩

theorem onDraw_learns {order p : ℕ} {identity : Option Identity}
    (hb' : BoardInv dk acts'
      (Basics.onDraw game.state (game.deckIds.get order) order p identity))
    (h : ThinkingGame dk game) (horder : (order : ℤ) = game.state.cardOrder + 1)
    (hidentity : identity = none ∨ identity = some (dk.truth order)) :
    (game.onDraw goodTouchElim fuel order p identity).Yields
      (LearnStep dk (Basics.onDraw game.state (game.deckIds.get order) order p identity) [] game) := by
  set newState := Basics.onDraw game.state (game.deckIds.get order) order p identity with hnewState
  have hplayers : ∀ e ∈ game.players.zipIdx, Yields
      ((MindGame.elim fuel (MindGame.seeDraw e.1 order
        (if (e.2 != p || e.2 == game.state.ourPlayerIndex) = true then identity else none))
        newState).bind fun player => MindGame.refresh player newState) fun player' =>
      Thinks v newState player' ∧ Learns e.1 player' := by
    intro e he
    obtain ⟨hsee, hlearn⟩ := @seeDraw_learns _ _ _
      (if (e.2 != p || e.2 == game.state.ourPlayerIndex) = true then identity else none) _ horder
      (h.players e.1 (List.fst_mem_of_mem_zipIdx he)) (game.deckIds.get order) identity p
    refine Yields.bind (elim_learns hb'.order_le hsee fuel) fun player hplayer => ?_
    exact (refresh_learns newState hplayer.1).mono fun player' hplayer' =>
      ⟨hplayer'.1, (hlearn.trans hplayer.2).trans hplayer'.2⟩
  unfold MindGame.onDraw
  dsimp only
  split
  · exact .error
  refine Yields.bind (Yields.mapM hplayers) fun players hall => ?_
  obtain ⟨hsee, hlearn⟩ := @seeDraw_learns _ _ _ none _ horder h.common
    (game.deckIds.get order) identity p
  refine Yields.bind (elim_learns hb'.order_le hsee fuel) fun player hplayer => ?_
  refine Yields.map ((touch_refresh_learns goodTouchElim game false game.state newState
    hplayer.1).mono fun player' hplayer' => ?_)
  refine ⟨rfl, ⟨hplayer'.1, forall_of_forall₂ hall fun _ _ hboth => hboth.1, ?_⟩,
    ⟨(hlearn.trans hplayer.2).trans hplayer'.2,
      forall₂_of_zipIdx (hall.imp fun _ _ hboth => hboth.2)⟩,
    fun _ _ _ ho => (List.not_mem_nil ho).elim⟩
  obtain rfl | rfl := hidentity
  · exact h.deckIds
  · exact h.deckIds.set order

/-- The cards that an action tells something about. -/
def toldBy (game : MindGame) : Action → List ℕ
  | .clue _ target _ _ => game.state.hands target
  | .play order _ _ | .discard order _ _ _ => [order]
  | _ => []

/-- Whatever the players think, the handler of a legal action leaves them with no less knowledge,
and it does not return where it takes the only card of a hand. -/
theorem handle_learns (hb : BoardInv dk acts game.state) (h : ThinkingGame dk game) {a : Action}
    (hl : Legal dk game.state a) :
    (game.handle goodTouchElim fuel a).Yields fun game' => ¬ Basics.TakesOnlyCard game.state a ∧
      LearnStep dk (Basics.after game.state game.deckIds a) (toldBy game a) game game' := by
  have hb' := hb.step h.deckIds hl
  cases a with
  | clue giver target list clue =>
    exact (onClue_learns hb hb' h).mono fun _ hgame' => ⟨not_false, hgame'⟩
  | draw order p identity =>
    obtain ⟨-, horder, -, -, hidentity⟩ := hl
    exact (onDraw_learns hb' h horder hidentity).mono fun _ hgame' => ⟨not_false, hgame'⟩
  | play order p identity =>
    obtain ⟨-, -, -, rfl, -⟩ := hl
    show (game.onPlay goodTouchElim fuel order p (some (dk.truth order))).Yields _
    unfold MindGame.onPlay Basics.onPlay
    split_ifs with honly
    · exact .error
    · exact (turnUp_learns hb' rfl h order).mono fun _ hgame' => ⟨honly, hgame'⟩
  | discard order p identity failed =>
    obtain ⟨-, -, -, rfl, -⟩ := hl
    show (game.onDiscard goodTouchElim fuel order p (some (dk.truth order)) failed).Yields _
    unfold MindGame.onDiscard Basics.onDiscard
    split_ifs with honly
    · exact .error
    · exact (turnUp_learns hb' rfl h order).mono fun _ hgame' => ⟨honly, hgame'⟩
  | turn num currentPlayerIndex => exact hl.elim

end

end HanabiBot
