import HanabiBot.Basics.Learning
import HanabiBot.Elim.Knowledge

/-!
# Nobody ever rules out the truth

A game is played with a `Deck`; the players see some of the cards and are told the rest by
clues.  Where the names of the cards tell them apart, in every game that legal actions reach,
with any inferences in between, each player and the common player still think possible what
each card is.

The invariant `TrueOf` is about all cards drawn so far, not only those in hand: a card that
leaves the hands is not looked at by `card_elim`, and the players take over what is known of
it afterwards.
-/

namespace HanabiBot

open Fuel (Succeeds)

variable {v : Variant} {dk : Deck v} {acts acts' : List Action} {st st' : State}
  {player player' : Mind}

/-- What a player thinks is true of all cards drawn so far, and of those still to be drawn. -/
structure TrueOf (dk : Deck v) (st : State) (player : Mind) : Prop extends Thinks v st player where
  thoughts : ∀ o : ℕ, (o : ℤ) ≤ st.cardOrder →
    ∃ card, player.thoughts.get o = some card ∧ card.Truthful v (dk.truth o)
  allPossible : ∀ id, id.Valid v → st.drawnCopies dk id < v.cardCount id →
    id ∈ player.allPossible.array

/-- It only depends on how many cards are drawn. -/
theorem TrueOf.congr (h : TrueOf dk st player) (horder : st'.cardOrder = st.cardOrder) :
    TrueOf dk st' player := by
  refine ⟨h.toThinks.congr horder, fun o ho => h.thoughts o (horder ▸ ho), fun id hid hleft => ?_⟩
  have hdrawn : st'.drawnCopies dk id = st.drawnCopies dk id := by
    rw [State.drawnCopies, State.drawnCopies, horder]
  exact h.allPossible id hid (hdrawn ▸ hleft)

/-! ## Eliminations -/

/-- The hands hold cards of the deck. -/
theorem BoardInv.holds (hb : BoardInv dk acts st) (hnames : v.DistinctNames) :
    CardElim.Holds dk.truth st := by
  refine ⟨hb.variant_eq.symm ▸ hnames, hb.nodup, fun id hid => ?_,
    fun o _ id hid => hb.identityOf_eq o id hid⟩
  have hcopies := hb.copies_le (hb.variant_eq ▸ hid)
  rw [State.cardCount, hb.variant_eq]
  exact hcopies

theorem BoardInv.knows (hb : BoardInv dk acts st) (h : TrueOf dk st player) :
    CardElim.Knows dk.truth st player.toPlayer := by
  refine ⟨fun o ho => ?_, hb.variant_eq ▸ h.numSuits, fun id hid hleft => ?_⟩
  · rw [hb.variant_eq]
    exact h.thoughts o (hb.order_le o ho)
  · rw [hb.variant_eq] at hid
    refine h.allPossible id hid ?_
    rw [← hb.copies id hid]
    rw [CardElim.Left, State.cardCount, hb.variant_eq] at hleft
    exact hleft

/-- `card_elim` keeps what is true of all cards drawn. -/
theorem elim_true (hb : BoardInv dk acts st) (hnames : v.DistinctNames) (h : TrueOf dk st player) :
    Succeeds (fun fuel => MindGame.elim fuel player st) (TrueOf dk st) := by
  obtain ⟨r, hr, n, hn⟩ := CardElim.cardElim_sound (hb.holds hnames) (hb.knows h)
  have hnarrows := CardElim.cardElim_narrows n r (hn n le_rfl)
  let after : Mind := { player with
    thoughts := r.1.thoughts
    allPossible := r.1.allPossible
    allInferred := r.1.allInferred }
  have helim : ∀ fuel, n ≤ fuel → MindGame.elim fuel player st = .ok after := by
    intro fuel hfuel
    have hresult : CardElim.cardElim player.toPlayer st fuel = .ok r := hn fuel hfuel
    unfold MindGame.elim
    rw [hresult]
  have hthinks := (elim_learns hb.order_le h.toThinks n after (helim n le_rfl)).1
  refine ⟨after, ⟨hthinks, fun o ho => ?_, fun id hid hleft => ?_⟩, n, helim⟩
  · show ∃ card, r.1.thoughts.get o = some card ∧ _
    by_cases hmem : o ∈ st.allOrders
    · have hknown := hr.thoughts o hmem
      rwa [hb.variant_eq] at hknown
    · rw [hnarrows.outside o hmem]
      exact h.thoughts o ho
  · refine hr.allPossible id (hb.variant_eq.symm ▸ hid) ?_
    rw [CardElim.Left, State.cardCount, hb.variant_eq]
    exact (hb.copies id hid).symm ▸ hleft

/-! ## Inferences -/

/-- Who infers something, and promises what may be true, thinks no less true than before. -/
theorem sameKnowledge_true (h : Links.SameKnowledge player player') (ht : TrueOf dk st player)
    (hsole : ∀ link ∈ player'.links, Links.Sole link) : TrueOf dk st player' := by
  refine ⟨(sameKnowledge_learns h ht.toThinks hsole).1, fun o ho => ?_,
    h.allPossible.symm ▸ ht.allPossible⟩
  obtain ⟨card, hcard, htrue⟩ := ht.thoughts o ho
  obtain ⟨card', hcard', hseen⟩ := h.same.get hcard
  obtain ⟨hpossible, hid, hrewind⟩ : card'.possible = card.possible ∧ card'.id = card.id ∧
      card'.rewindIds = card.rewindIds := by
    simpa [Card.seen] using hseen
  exact ⟨card', hcard', htrue.of_eq (by rw [hpossible]) (hpossible ▸ htrue.possible) hid hrewind⟩

/-- The links are refreshed without an error. -/
theorem refresh_true (st'' : State) (ht : TrueOf dk st player) :
    Succeeds (fun _ => MindGame.refresh player st'') (TrueOf dk st) := by
  obtain ⟨player', heq, hsame, hsole⟩ := Links.refreshLinks_ok st'' ht.sole
  unfold MindGame.refresh
  rw [heq]
  exact .pure (sameKnowledge_true hsame ht hsole)

/-- What a player who has thought about an action goes through. -/
theorem touch_refresh_true (goodTouchElim : Bool → Inferrer) (game : MindGame) (onlySelf : Bool)
    (st' st'' : State) (ht : TrueOf dk st player) :
    Succeeds (fun _ => MindGame.refresh (game.touchElim goodTouchElim onlySelf player st') st'')
      (TrueOf dk st) := by
  refine refresh_true st'' ?_
  unfold MindGame.touchElim
  split
  · refine sameKnowledge_true ((goodTouchElim onlySelf).same player st') ht ?_
    rw [(goodTouchElim onlySelf).links]
    exact ht.sole
  · exact ht

/-! ## Patches -/

/-- The patches are about cards drawn so far, and say of no card what it is not. -/
def TruePatches (dk : Deck v) (st : State) (patches : List (ℕ × List CardPatch)) : Prop :=
  ∀ e ∈ patches, (e.1 : ℤ) ≤ st.cardOrder ∧ ∀ identity, .id identity ∈ e.2 → identity = dk.truth e.1

theorem TruePatches.add {patches : List (ℕ × List CardPatch)} (h : TruePatches dk st patches)
    {o : ℕ} (ho : (o : ℤ) ≤ st.cardOrder) {written : List CardPatch}
    (hwritten : ∀ identity, .id identity ∈ written → identity = dk.truth o) :
    TruePatches dk st (addPatches patches o written) := by
  intro e he
  unfold addPatches at he
  split at he
  · obtain ⟨e', he', rfl⟩ := List.mem_map.1 he
    split
    · rename_i heq
      refine ⟨(h e' he').1, fun identity hid => ?_⟩
      obtain hid | hid := List.mem_append.1 hid
      · exact (h e' he').2 identity hid
      · show identity = dk.truth e'.1
        rw [heq]
        exact hwritten identity hid
    · exact h e' he'
  · obtain he | he := List.mem_append.1 he
    · exact h e he
    · obtain rfl := List.mem_singleton.1 he
      exact ⟨ho, hwritten⟩

/-- A write to a thought that is true of the card. -/
def CardPatch.TrueFor (v : Variant) (truth : Identity) : CardPatch → Prop
  | .id identity => identity = truth
  | .possible ids => ids.numSuits = v.suits.length ∧ truth ∈ ids.array
  | _ => True

theorem Card.Truthful.apply {card : Card} {truth : Identity} (h : card.Truthful v truth)
    {p : CardPatch} (hp : p.TrueFor v truth) : (p.apply card).Truthful v truth := by
  cases p with
  | id identity =>
    refine ⟨h.numSuits, h.possible, fun id hid => ?_, h.rewindIds⟩
    exact (Option.some.inj hid).symm.trans hp
  | possible ids => exact ⟨hp.1, hp.2, h.id, h.rewindIds⟩
  | clued b => exact ⟨h.numSuits, h.possible, h.id, h.rewindIds⟩
  | status st => exact ⟨h.numSuits, h.possible, h.id, h.rewindIds⟩
  | lastStatus st => exact ⟨h.numSuits, h.possible, h.id, h.rewindIds⟩
  | inferred ids => exact ⟨h.numSuits, h.possible, h.id, h.rewindIds⟩
  | oldInferred ids => exact ⟨h.numSuits, h.possible, h.id, h.rewindIds⟩

theorem Card.Truthful.foldl_apply {card : Card} {truth : Identity} (h : card.Truthful v truth)
    {writes : List CardPatch} (hwrites : ∀ p ∈ writes, p.TrueFor v truth) :
    (writes.foldl CardPatch.apply card).Truthful v truth := by
  induction writes generalizing card with
  | nil => exact h
  | cons p writes ih =>
    exact ih (h.apply (hwrites p List.mem_cons_self))
      fun q hq => hwrites q (List.mem_cons_of_mem p hq)

theorem TrueOf.set (h : TrueOf dk st player) {o : ℕ} (ho : (o : ℤ) ≤ st.cardOrder) {card : Card}
    (hcard : card.Truthful v (dk.truth o)) :
    TrueOf dk st { player with thoughts := player.thoughts.set o card } := by
  refine ⟨h.toThinks.set ho hcard.numSuits, fun o' ho' => ?_, h.allPossible⟩
  by_cases heq : o' = o
  · subst heq
    exact ⟨card, SparseArray.get_set_self _ _ _, hcard⟩
  · rw [SparseArray.get_set_of_ne _ heq]
    exact h.thoughts o' ho'

/-- The common player is told something true of a card. -/
theorem withThoughts_true {common : CommonPlayer} (h : TrueOf dk st common.toMind)
    (hpatches : TruePatches dk st common.patches) {o : ℕ} (ho : (o : ℤ) ≤ st.cardOrder)
    (writes : Card → List CardPatch)
    (hwrites : ∀ card : Card, card.Truthful v (dk.truth o) →
      ∀ p ∈ writes card, p.TrueFor v (dk.truth o)) :
    ∃ common', common.withThoughts o writes = .ok common' ∧ TrueOf dk st common'.toMind ∧
      TruePatches dk st common'.patches := by
  obtain ⟨card, hcard, htrue⟩ := h.thoughts o ho
  have hall := hwrites card htrue
  unfold CommonPlayer.withThoughts
  rw [hcard]
  refine ⟨_, rfl, h.set ho (htrue.foldl_apply hall), ?_⟩
  dsimp only
  split
  · exact hpatches
  · refine hpatches.add ho fun identity hid => ?_
    exact hall _ ((List.dropWhile_suffix _).subset hid)

/-! ## What the players take over -/

theorem takeOverCard_true {common : CommonPlayer} (hcommon : TrueOf dk st common.toMind)
    {e : ℕ × List CardPatch} (ho : (e.1 : ℤ) ≤ st.cardOrder)
    (hids : ∀ identity, .id identity ∈ e.2 → identity = dk.truth e.1) (h : TrueOf dk st player) :
    Succeeds (fun _ => MindGame.takeOverCard common player e) (TrueOf dk st) := by
  obtain ⟨known, hknown, hktrue⟩ := hcommon.thoughts e.1 ho
  obtain ⟨card, hcard, htrue⟩ := h.thoughts e.1 ho
  have hsuits : known.possible.numSuits = card.possible.numSuits :=
    hktrue.numSuits.trans htrue.numSuits.symm
  have hmem := (IdentitySet.mem_intersect hsuits).2 ⟨hktrue.possible, htrue.possible⟩
  have hpatched : ((e.2.filter fun p => !p.isThought).foldl CardPatch.apply card).Truthful v
      (dk.truth e.1) := by
    refine htrue.foldl_apply fun p hp => ?_
    obtain ⟨hp, hthought⟩ := List.mem_filter.1 hp
    cases p with
    | id identity => exact hids identity hp
    | possible ids => cases hthought
    | _ => trivial
  unfold MindGame.takeOverCard
  rw [hknown, hcard]
  exact .pure (h.set ho ⟨hktrue.numSuits, hmem, hpatched.id, hpatched.rewindIds⟩)

theorem takeOver_true {common : CommonPlayer} (hcommon : TrueOf dk st common.toMind)
    (hpatches : TruePatches dk st common.patches) (h : TrueOf dk st player) :
    Succeeds (fun _ => MindGame.takeOver common player) (TrueOf dk st) :=
  Succeeds.foldlM (k := fun player e _ => MindGame.takeOverCard common player e)
    (fun e he _ hplayer => takeOverCard_true hcommon (hpatches e he).1 (hpatches e he).2 hplayer) h

end HanabiBot
