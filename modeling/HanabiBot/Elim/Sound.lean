import HanabiBot.Elim.Growth
import HanabiBot.Lib.Counting
import HanabiBot.Lib.Fuel

/-!
# Elimination is sound

The hands hold cards with identities that nobody need know (`Holds`).  `card_elim` counts
copies in four ways; each of them takes an identity only out of cards that do not have it,
since the cards it names already are all the copies that there can be in hand.

* `Card.Truthful` — what is thought of a card is true of it;
* `Sound` — what holds of the variables at every point;
* `Advances` — what any part of an elimination does: it stays sound, and every write takes an
  identity out of a card, so that the loops end;
* `Spared` — no card that has the identity can lose it, which is what has to be shown before
  a removal.
-/

namespace HanabiBot

/-! ## Cards -/

namespace Card

variable {v : Variant} {card : Card} {truth id : Identity}

/-- What is thought of the card is true of it. -/
structure Truthful (v : Variant) (card : Card) (truth : Identity) : Prop where
  numSuits : card.possible.numSuits = v.suits.length
  possible : truth ∈ card.possible.array
  id : ∀ id, card.id = some id → id = truth
  rewindIds : ∀ ids, card.rewindIds = some ids → ids.length = 1 → ids.array.head? = some truth

theorem Truthful.valid (h : card.Truthful v truth) : truth.Valid v :=
  IdentitySet.array_valid h.numSuits h.possible

theorem head?_of_length_one {s : IdentitySet} (hs : s.length = 1) (htruth : truth ∈ s.array) :
    s.array.head? = some truth := by
  obtain ⟨id, hid⟩ := List.length_eq_one_iff.1 hs
  rw [hid] at htruth ⊢
  rw [List.mem_singleton.1 htruth]
  rfl

/-- A card is known only as what it is. -/
theorem Truthful.identity (h : card.Truthful v truth) {symmetric : Bool}
    (hid : card.identity { symmetric } = some id) : id = truth := by
  unfold Card.identity at hid
  split at hid
  · rename_i hone
    exact Option.some.inj (hid.symm.trans (head?_of_length_one hone h.possible))
  split at hid
  · exact h.id id hid
  split at hid
  · rename_i hrewind
    obtain ⟨ids, hids, hhead⟩ := Option.bind_eq_some_iff.1 hid
    have hone : ids.length = 1 := by
      rw [hids, Bool.and_eq_true, Option.any_some, beq_iff_eq] at hrewind
      exact hrewind.1
    exact Option.some.inj (hhead.symm.trans (h.rewindIds ids hids hone))
  · cases hid

/-- With fewer possibilities, as long as the truth is among them. -/
theorem Truthful.of_eq (h : card.Truthful v truth) {card' : Card}
    (hnum : card'.possible.numSuits = card.possible.numSuits)
    (hpossible : truth ∈ card'.possible.array) (hid : card'.id = card.id)
    (hrewind : card'.rewindIds = card.rewindIds) : card'.Truthful v truth :=
  ⟨hnum.trans h.numSuits, hpossible, fun id hid' => h.id id (hid ▸ hid'),
    fun ids hids => h.rewindIds ids (hrewind ▸ hids)⟩

theorem resetInferences_frame (card : Card) :
    card.resetInferences.possible = card.possible ∧ card.resetInferences.id = card.id ∧
      card.resetInferences.rewindIds = card.rewindIds := by
  unfold resetInferences
  dsimp only
  split
  · exact ⟨rfl, rfl, rfl⟩
  split <;> exact ⟨rfl, rfl, rfl⟩

theorem Truthful.resetInferences (h : card.Truthful v truth) :
    card.resetInferences.Truthful v truth := by
  obtain ⟨hpossible, hid, hrewind⟩ := resetInferences_frame card
  refine h.of_eq ?_ ?_ hid hrewind <;> rw [hpossible]
  exact h.possible

end Card

theorem IdentitySet.mem_subtract {s : IdentitySet} {a b : Identity} (ha : Ranked a) :
    b ∈ (s.subtract (toMask a)).array ↔ b ∈ s.array ∧ a ≠ b := by
  have hsuits : (s.subtract (toMask a)).numSuits = s.numSuits := rfl
  simp only [mem_array, has_subtract, Bool.and_eq_true, Bool.not_eq_true', hsuits]
  constructor
  · rintro ⟨hsuit, hb, hhas, hbit⟩
    rw [testBit_toMask ha hb, decide_eq_false_iff_not] at hbit
    exact ⟨⟨hsuit, hb, hhas⟩, hbit⟩
  · rintro ⟨⟨hsuit, hb, hhas⟩, hne⟩
    refine ⟨hsuit, hb, hhas, ?_⟩
    rw [testBit_toMask ha hb, decide_eq_false_iff_not]
    exact hne

theorem IdentitySet.mem_union {s t : IdentitySet} (hst : s.numSuits = t.numSuits) {id : Identity} :
    id ∈ (s.union t.value).array ↔ id ∈ s.array ∨ id ∈ t.array := by
  have hsuits : (s.union t.value).numSuits = s.numSuits := rfl
  have hbit : t.value.testBit (bit id) = t.has id := rfl
  simp only [mem_array, has_union, Bool.or_eq_true, hbit, hsuits, ← hst]
  tauto

theorem IdentitySet.subtract_value_subset (s t : IdentitySet) {id : Identity}
    (hid : id ∈ s.array) (hnot : t.has id = false) : id ∈ (s.subtract t.value).array := by
  have hbit : t.value.testBit (IdentitySet.bit id) = t.has id := rfl
  rw [IdentitySet.mem_array] at hid ⊢
  refine ⟨hid.1, hid.2.1, ?_⟩
  rw [IdentitySet.has_subtract, hid.2.2, hbit, hnot]
  rfl

/-- A removal of a member makes the set smaller. -/
theorem IdentitySet.length_subtract {s : IdentitySet} {id : Identity} (h : id ∈ s.array) :
    (s.subtract (toMask id)).length + 1 ≤ s.length := by
  have hranked := (mem_array.1 h).2.1
  have hsub : (s.subtract (toMask id)).array ⊆ s.array.erase id := fun b hb => by
    obtain ⟨hmem, hne⟩ := (mem_subtract hranked).1 hb
    exact (List.mem_erase_of_ne (Ne.symm hne)).2 hmem
  have hle := ((nodup_array _).subperm hsub).length_le
  rw [List.length_erase_of_mem h] at hle
  have hpos := List.length_pos_of_mem h
  show (s.subtract (toMask id)).array.length + 1 ≤ s.array.length
  omega

namespace CardElim

open Fuel (Succeeds)

variable {truth : ℕ → Identity} {player : Player} {state : State} {s t r : ElimVars}
  {u : UpdateVars} {id : Identity} {exclude : List ℕ}

/-! ## The cards in the hands -/

/-- The cards in hand have these identities: there are no more copies than the board leaves, and
what the board knows is true.  The names of the cards tell them apart. -/
structure Holds (truth : ℕ → Identity) (state : State) : Prop where
  names : state.variant.DistinctNames
  nodup : state.allOrders.Nodup
  fits : ∀ id, id.Valid state.variant →
    state.baseCount id + state.allOrders.countP (fun o => truth o = id) ≤ state.cardCount id
  deck : ∀ o ∈ state.allOrders, ∀ id, state.identityOf o = some id → id = truth o

/-- The orders that are certain to have the name. -/
def certainOrders (s : ElimVars) (name : Variant.CardName) : List ℕ :=
  (s.certainMap name).map Prod.fst

/-- What holds of the variables at every point. -/
structure Sound (truth : ℕ → Identity) (state : State) (s : ElimVars) : Prop where
  cards : ∀ o ∈ state.allOrders, (s.thoughts o).Truthful state.variant (truth o)
  certain : ∀ name, ∀ o ∈ certainOrders s name,
    o ∈ state.allOrders ∧ state.variant.logCard (truth o) = name
  keys : ∀ name, (certainOrders s name).Nodup
  candidates : ∀ c ∈ s.crossElimCandidates, c ∈ handCards state
  distinct : (s.crossElimCandidates.map Prod.fst).Nodup
  /-- All copies of an eliminated identity are on the stacks or in hand. -/
  spent : ∀ id, id.Valid state.variant → s.eliminated.has id = true →
    state.baseCount id + state.allOrders.countP (fun o => truth o = id) = state.cardCount id

/-- A card that is certain to have the name of an identity has the identity. -/
theorem Sound.certain_id (h : Sound truth state s) (hw : Holds truth state)
    (hid : id.Valid state.variant) {o : ℕ}
    (ho : o ∈ certainOrders s (state.variant.logCard id)) : o ∈ state.allOrders ∧ truth o = id := by
  obtain ⟨hmem, hname⟩ := h.certain _ o ho
  exact ⟨hmem, (hw.names.logCard_inj (h.cards o hmem).valid hid).1 hname⟩

/-- Orders that hold as many cards of some identities as there can be in hand are all of them. -/
theorem Holds.mem_of_filled (h : Holds truth state) {ids : List Identity} (hids : ids.Nodup)
    (hvalid : ∀ id ∈ ids, id.Valid state.variant) {found : List ℕ} (hfound : found.Nodup)
    (hsub : ∀ o ∈ found, o ∈ state.allOrders ∧ truth o ∈ ids)
    (hfull : totalMultiplicity state ids ≤ found.length) {o : ℕ} (ho : o ∈ state.allOrders)
    (htruth : truth o ∈ ids) : o ∈ found := by
  have hcapacity : ∀ id ∈ ids, state.allOrders.countP (fun o => truth o = id) ≤
      state.cardCount id - state.baseCount id := by
    intro id hid
    have hfits := h.fits id (hvalid id hid)
    omega
  have hle : ∀ id ∈ ids, state.baseCount id ≤ state.cardCount id := by
    intro id hid
    have hfits := h.fits id (hvalid id hid)
    omega
  have hsum : ((ids.map fun id => state.cardCount id - state.baseCount id).sum : ℤ) =
      totalMultiplicity state ids := by
    rw [(Counting.sum_tsub_eq_iff state.cardCount state.baseCount).2 hle]
    clear hfull hcapacity hle hsub hvalid hids htruth
    induction ids with
    | nil => rfl
    | cons id ids ih =>
      simp only [totalMultiplicity, List.map_cons, List.sum_cons, Nat.cast_add] at ih ⊢
      omega
  exact Counting.mem_of_filled hids hcapacity hfound hsub (by omega) ho htruth

/-! ## What a part of an elimination does -/

/-- The number of possibilities that are left on the cards in hand. -/
def potential (state : State) (s : ElimVars) : ℕ :=
  ∑ o ∈ state.allOrders.toFinset, (s.thoughts o).possible.length

/-- A sound part of an elimination: each write takes an identity out of a card. -/
structure Advances (truth : ℕ → Identity) (state : State) (s t : ElimVars) : Prop where
  grows : Grows state s t
  sound : Sound truth state t
  certain : ∀ name, certainOrders s name ⊆ certainOrders t name
  candidates : t.crossElimCandidates.Sublist s.crossElimCandidates
  spends : potential state t + t.writes ≤ potential state s + s.writes

theorem Advances.refl (h : Sound truth state s) : Advances truth state s s :=
  ⟨.refl state s, h, fun _ => List.Subset.refl _, List.Sublist.refl _, le_rfl⟩

theorem Advances.trans (hst : Advances truth state s t) (htr : Advances truth state t r) :
    Advances truth state s r :=
  ⟨hst.grows.trans htr.grows, htr.sound,
    fun name => List.Subset.trans (hst.certain name) (htr.certain name),
    htr.candidates.trans hst.candidates, htr.spends.trans hst.spends⟩

theorem Advances.note (h : Sound truth state s) (lost : Bool) (loss : Loss) :
    Advances truth state s (s.note lost loss) :=
  ⟨.note state s lost loss, ⟨h.cards, h.certain, h.keys, h.candidates, h.distinct, h.spent⟩,
    fun _ => List.Subset.refl _, List.Sublist.refl _, le_rfl⟩

/-- An identity is noted as eliminated whose copies are all known. -/
theorem Advances.eliminate (h : Sound truth state s) (hid : id.Valid state.variant)
    (hspent : state.baseCount id + state.allOrders.countP (fun o => truth o = id) =
      state.cardCount id) : Advances truth state s (s.eliminate id) := by
  refine ⟨.eliminate state s id, ⟨h.cards, h.certain, h.keys, h.candidates, h.distinct, ?_⟩,
    fun _ => List.Subset.refl _, List.Sublist.refl _, le_rfl⟩
  intro id' hid' hhas
  rw [ElimVars.eliminate, IdentitySet.has_union, Bool.or_eq_true,
    IdentitySet.testBit_toMask hid.2 hid'.2, decide_eq_true_eq] at hhas
  obtain hhas | rfl := hhas
  · exact h.spent id' hid' hhas
  · exact hspent

/-! ### Writes -/

theorem removeId_truthful {v : Variant} {card : Card} {truth : Identity}
    (h : card.Truthful v truth) (hid : id.Valid v) (hne : id ≠ truth) :
    (removeId card id).Truthful v truth :=
  h.of_eq rfl ((IdentitySet.mem_subtract hid.2).2 ⟨h.possible, hne⟩) rfl rfl

/-- A card that is certain is recorded once. -/
theorem certainOrders_certify (s : ElimVars) (name : Variant.CardName) (o : ℕ)
    (unknownTo : List ℕ) (name' : Variant.CardName) :
    certainOrders (s.certify name o unknownTo) name' =
      if name' = name ∧ o ∉ certainOrders s name then certainOrders s name ++ [o]
      else certainOrders s name' := by
  have hany : (s.certainMap name).any (·.1 == o) = true ↔ o ∈ certainOrders s name := by
    simp [certainOrders]
  unfold certainOrders at hany ⊢
  unfold ElimVars.certify
  by_cases hname : name' = name
  · subst hname
    simp only [Function.update_self, true_and, hany, ite_not]
    split
    · rw [List.map_map]
      refine List.map_congr_left fun e _ => ?_
      by_cases h : e.1 = o
      · simp [h]
      · simp [h]
    · rw [List.map_append, List.map_singleton]
  · simp [hname]

theorem mem_certainOrders_certify {o o' : ℕ} {unknownTo : List ℕ} {name name' : Variant.CardName} :
    o' ∈ certainOrders (s.certify name o unknownTo) name' ↔
      o' ∈ certainOrders s name' ∨ (name' = name ∧ o' = o) := by
  rw [certainOrders_certify]
  split
  · rename_i h
    rw [h.1, List.mem_append, List.mem_singleton]
    simp
  · rename_i h
    rw [not_and, not_not] at h
    refine ⟨Or.inl, ?_⟩
    rintro (hmem | ⟨rfl, rfl⟩)
    · exact hmem
    · exact h rfl

/-- A card that is recorded as what it is. -/
theorem Sound.certify (h : Sound truth state s) {o : ℕ} (ho : o ∈ state.allOrders)
    (unknownTo : List ℕ) :
    Sound truth state (s.certify (state.variant.logCard (truth o)) o unknownTo) := by
  refine ⟨h.cards, fun name o' ho' => ?_, fun name => ?_, h.candidates, h.distinct, h.spent⟩
  · obtain hmem | ⟨rfl, rfl⟩ := mem_certainOrders_certify.1 ho'
    · exact h.certain name o' hmem
    · exact ⟨ho, rfl⟩
  · rw [certainOrders_certify]
    split
    · rename_i hnew
      refine List.nodup_append.2 ⟨h.keys _, List.nodup_singleton o, ?_⟩
      rintro a ha b hb rfl
      exact hnew.2 (List.mem_singleton.1 hb ▸ ha)
    · exact h.keys name

theorem potential_write {o : ℕ} (ho : o ∈ state.allOrders) (s : ElimVars) (card : Card) :
    potential state (s.write o card) + (s.thoughts o).possible.length =
      potential state s + card.possible.length := by
  have hsum := Counting.sum_update (List.mem_toFinset.2 ho)
    (fun o => (s.thoughts o).possible.length) card.possible.length
  rw [potential, potential, ← hsum]
  congr 1
  refine Finset.sum_congr rfl fun o' _ => ?_
  by_cases h : o' = o
  · subst h
    simp [ElimVars.write]
  · simp [ElimVars.write, h]

/-- A card that lost an identity is written. -/
theorem Advances.write (h : Sound truth state s) {o : ℕ} (ho : o ∈ state.allOrders) {card : Card}
    (hcard : card.Truthful state.variant (truth o))
    (hsub : card.possible.Subset (s.thoughts o).possible)
    (hlt : card.possible.length + 1 ≤ (s.thoughts o).possible.length) :
    Advances truth state s (s.write o card) := by
  refine ⟨.write ho s (hcard.numSuits.trans (h.cards o ho).numSuits.symm) hsub, ⟨fun o' ho' => ?_, h.certain, h.keys, h.candidates, h.distinct, h.spent⟩,
    fun _ => List.Subset.refl _, List.Sublist.refl _, ?_⟩
  · by_cases heq : o' = o
    · subst heq
      simpa [ElimVars.write] using hcard
    · simpa [ElimVars.write, heq] using h.cards o' ho'
  · have hpotential := potential_write ho s card
    have hwrites : (s.write o card).writes = s.writes + 1 := rfl
    omega

/-- A card that became certain is recorded after it is written. -/
theorem Advances.certify (h : Advances truth state s t) (hwrites : t.writes ≠ s.writes) {o : ℕ}
    (ho : o ∈ state.allOrders) (unknownTo : List ℕ) :
    Advances truth state s (t.certify (state.variant.logCard (truth o)) o unknownTo) := by
  have hgrows := h.grows
  refine ⟨⟨hgrows.writes, hgrows.losses, hgrows.eliminated, hgrows.numSuits, hgrows.shrinks,
    hgrows.outside, fun heq => absurd heq hwrites⟩, h.sound.certify ho unknownTo, fun name o' ho' => ?_,
    h.candidates, h.spends⟩
  exact mem_certainOrders_certify.2 (.inl (h.certain name ho'))

/-- A card in hand loses an identity that it does not have. -/
theorem settle_advances (h : Sound truth state u.vars) {o : ℕ} (ho : o ∈ state.allOrders)
    (hid : id.Valid state.variant) (hne : id ≠ truth o)
    (hhas : (u.vars.thoughts o).possible.has id = true) :
    Advances truth state u.vars
        (settle state o (u.vars.thoughts o) (removeId (u.vars.thoughts o) id) u).vars ∧
      ∀ rid ∈ (settle state o (u.vars.thoughts o) (removeId (u.vars.thoughts o) id) u).recursiveIds,
        rid ∈ u.recursiveIds ∨ rid = truth o := by
  have htruth := removeId_truthful (h.cards o ho) hid hne
  have hsub := removeId_subset (u.vars.thoughts o) id
  have hmem : id ∈ (u.vars.thoughts o).possible.array :=
    IdentitySet.mem_array.2 ⟨(h.cards o ho).numSuits ▸ hid.1, hid.2, hhas⟩
  have hlt : (removeId (u.vars.thoughts o) id).possible.length + 1 ≤
      (u.vars.thoughts o).possible.length := IdentitySet.length_subtract hmem
  have hwrite := Advances.write h ho htruth hsub hlt
  unfold settle
  dsimp only
  split
  · have hframe := (Card.resetInferences_frame (removeId (u.vars.thoughts o) id)).1
    have hreset := Advances.write h ho htruth.resetInferences (by rwa [hframe]) (by rwa [hframe])
    have hnote := hreset.trans (Advances.note hreset.sound
      ((removeId (u.vars.thoughts o) id).possible.length > 1 &&
        isCrossCandidate state (removeId (u.vars.thoughts o) id) !=
          isCrossCandidate state (u.vars.thoughts o)) .candidates)
    exact ⟨hnote.trans (Advances.note hnote.sound _ _), fun rid hrid => .inl hrid⟩
  split
  · split
    · rename_i recursiveId hrecursive
      obtain rfl := htruth.identity hrecursive
      refine ⟨hwrite.certify (by simp [ElimVars.write]) ho [], fun rid hrid => ?_⟩
      obtain hrid | hrid := List.mem_append.1 hrid
      · exact .inl hrid
      · exact .inr (List.mem_singleton.1 hrid)
    · exact ⟨hwrite, fun rid hrid => .inl hrid⟩
  · exact ⟨hwrite.trans (Advances.note hwrite.sound _ _), fun rid hrid => .inl hrid⟩

/-! ## `update_map` -/

/-- A removal of the identity passes over every card in hand that has it. -/
def Spared (truth : ℕ → Identity) (state : State) (s : ElimVars) (id : Identity)
    (exclude : List ℕ) : Prop :=
  ∀ c ∈ handCards state, truth c.1 = id → c.2 ∈ exclude ∨
    c.1 ∈ certainOrders s (state.variant.logCard id)

/-- A removal so far, from the variables `s`. -/
structure Removes (truth : ℕ → Identity) (state : State) (s : ElimVars) (u : UpdateVars) :
    Prop where
  advances : Advances truth state s u.vars
  changed : u.changed = true → s.writes < u.vars.writes
  recursive : ∀ rid ∈ u.recursiveIds, rid.Valid state.variant ∧ s.writes < u.vars.writes

theorem Removes.start (h : Sound truth state s) : Removes truth state s { vars := s } :=
  ⟨.refl h, fun hchanged => (Bool.false_ne_true hchanged).elim, fun _ hrid => nomatch hrid⟩

theorem updateCard_removes (hid : id.Valid state.variant)
    (hspared : Spared truth state s id exclude) {c : ℕ × ℕ} (hc : c ∈ handCards state)
    (h : Removes truth state s u) :
    Succeeds (fun _ => updateCard player state id exclude u c) (Removes truth state s) := by
  have ho := mem_allOrders_of_handCards hc
  cases hno : noElim state u.vars id exclude c with
  | true => exact .of_eq (updateCard_of_noElim hno) h
  | false =>
    have hparts := hno
    simp only [noElim, Bool.or_eq_false_iff, Bool.not_eq_false'] at hparts
    obtain ⟨⟨⟨hexclude, hhas⟩, hcertain⟩, -⟩ := hparts
    have hne : id ≠ truth c.1 := by
      intro heq
      obtain hexcluded | hknown := hspared c hc heq.symm
      · rw [List.contains_iff_mem.2 hexcluded] at hexclude
        cases hexclude
      · obtain ⟨e, he, heo⟩ := List.mem_map.1 (h.advances.certain _ hknown)
        exact (Bool.eq_false_iff.1 hcertain) (List.any_eq_true.2 ⟨e, he, by simpa using heo⟩)
    have hsound : Sound truth state ({ u with changed := true } : UpdateVars).vars := h.advances.sound
    obtain ⟨hadv, hrecursive⟩ := settle_advances hsound ho hid hne hhas
    have hleft : (removeId (u.vars.thoughts c.1) id).possible.length ≠ 0 :=
      IdentitySet.length_ne_zero.2
        ⟨_, (removeId_truthful (h.advances.sound.cards c.1 ho) hid hne).possible⟩
    have hwrites := @writes_settle state c.1 (u.vars.thoughts c.1)
      (removeId (u.vars.thoughts c.1) id) { u with changed := true }
    have hle := h.advances.grows.writes
    refine .of_eq ?_ ⟨h.advances.trans hadv, fun _ => ?_, fun rid hrid => ?_⟩
    · unfold updateCard
      simp only [hno, Bool.false_eq_true, if_false, if_neg hleft]
    · rw [hwrites]
      exact Nat.lt_succ_of_le hle
    · rw [hwrites]
      refine ⟨?_, Nat.lt_succ_of_le hle⟩
      obtain hrid | rfl := hrecursive rid hrid
      · exact (h.recursive rid hrid).1
      · exact (h.advances.sound.cards c.1 ho).valid

/-- The cards that became certain are dropped from the candidates. -/
theorem Advances.dropRemovals (h : Advances truth state s u.vars)
    (hgrows : Grows state s u.dropRemovals.vars) : Advances truth state s u.dropRemovals.vars := by
  have hsublist : u.dropRemovals.vars.crossElimCandidates.Sublist u.vars.crossElimCandidates :=
    List.filter_sublist
  have hsound := h.sound
  exact ⟨hgrows, ⟨hsound.cards, hsound.certain, hsound.keys,
    fun c hc => hsound.candidates c (hsublist.subset hc),
    hsound.distinct.sublist (hsublist.map Prod.fst), hsound.spent⟩, h.certain,
    hsublist.trans h.candidates, h.spends⟩

theorem updateMap_removes (h : Sound truth state s) (hid : id.Valid state.variant)
    (hspared : Spared truth state s id exclude) :
    Succeeds (fun _ => updateMap player state id exclude s) (Removes truth state s) := by
  have hloop := Succeeds.foldlM (l := handCards state)
    (k := fun u c _ => updateCard player state id exclude u c)
    (fun c hc u hu => updateCard_removes hid hspared hc hu) (Removes.start h)
  have hmap := hloop.map (k := UpdateVars.dropRemovals) (R := fun u' =>
    ∃ u, u' = u.dropRemovals ∧ Removes truth state s u) fun u hu => ⟨u, rfl, hu⟩
  refine (hmap.and_all fun _ => updateMap_grows id exclude s).mono fun u' hu' => ?_
  obtain ⟨⟨u, rfl, hu⟩, hgrows, -⟩ := hu'
  exact ⟨hu.advances.dropRemovals hgrows, hu.changed, hu.recursive⟩

/-- A removal that starts later. -/
theorem Removes.from (h : Advances truth state s t) (hu : Removes truth state t u) :
    Removes truth state s u :=
  ⟨h.trans hu.advances, fun hchanged => h.grows.writes.trans_lt (hu.changed hchanged),
    fun rid hrid => ⟨(hu.recursive rid hrid).1, h.grows.writes.trans_lt (hu.recursive rid hrid).2⟩⟩

theorem Spared.mono (h : Spared truth state s id exclude) (hst : Advances truth state s t) :
    Spared truth state t id exclude := by
  intro c hc htruth
  exact (h c hc htruth).imp_right fun hknown => hst.certain _ hknown

/-! ## `basic_elim` -/

theorem totalMultiplicity_singleton (state : State) (id : Identity) :
    totalMultiplicity state [id] = (state.cardCount id : ℤ) - state.baseCount id := by
  simp [totalMultiplicity]

/-- All copies of an identity are known: none of them can lose it, and none is left to draw. -/
theorem spared_of_exhausted (hw : Holds truth state) (h : Sound truth state s)
    (hid : id.Valid state.variant) (hex : exhausted state s id = true) :
    Spared truth state s id [] ∧
      state.baseCount id + state.allOrders.countP (fun o => truth o = id) = state.cardCount id := by
  have hcount : state.baseCount id + (certainOrders s (state.variant.logCard id)).length = state.cardCount id := by
    simpa [exhausted, knownCount, certainOrders] using hex
  have hcertain : ∀ o ∈ certainOrders s (state.variant.logCard id), o ∈ state.allOrders ∧ truth o ∈ [id] := by
    intro o ho
    obtain ⟨hmem, htruth⟩ := h.certain_id hw hid ho
    exact ⟨hmem, List.mem_singleton.2 htruth⟩
  constructor
  · intro c hc htruth
    refine .inr (hw.mem_of_filled (List.nodup_singleton id) (by simpa using hid) (h.keys _)
      hcertain ?_ (mem_allOrders_of_handCards hc) (List.mem_singleton.2 htruth))
    rw [totalMultiplicity_singleton]
    omega
  · have hfits := hw.fits id hid
    have hsub : certainOrders s (state.variant.logCard id) ⊆ state.allOrders.filter fun o => truth o = id := fun o ho => by
      obtain ⟨hmem, htruth⟩ := h.certain_id hw hid ho
      exact List.mem_filter.2 ⟨hmem, by simpa using htruth⟩
    have hle := ((h.keys _).subperm hsub).length_le
    rw [← List.countP_eq_length_filter] at hle
    omega

theorem elimLoop_removes (hw : Holds truth state) :
    ∀ (ids : List Identity) (u : UpdateVars), (∀ id ∈ ids, id.Valid state.variant) →
      Removes truth state s u →
      Succeeds (fun _ => elimLoop player state ids u) (Removes truth state s) := by
  intro ids
  induction ids with
  | nil =>
    intro u _ hu
    exact .pure hu
  | cons id rest ih =>
    intro u hids hu
    have hrest := fun id' hid' => hids id' (List.mem_cons_of_mem id hid')
    unfold elimLoop
    split
    · rename_i hex
      have hid := hids id List.mem_cons_self
      obtain ⟨hspared, hspent⟩ := spared_of_exhausted hw hu.advances.sound hid hex
      have hnote := Advances.note hu.advances.sound
        (u.recursiveIds.any fun rid => exhausted state u.vars rid && !(id :: rest).contains rid)
        .overwritten
      have hbefore := hnote.trans (Advances.eliminate hnote.sound hid hspent)
      refine (updateMap_removes hbefore.sound hid (hspared.mono hbefore)).bind fun u' hu' => ?_
      exact ih u' hrest (hu'.from (hu.advances.trans hbefore))
    · exact ih u hrest hu

/-- A pass of `basic_elim` ends: the identities it goes on with became certain by a write. -/
theorem basicElim_advances (hw : Holds truth state) :
    ∀ (n : ℕ) (ids : List Identity) (s : ElimVars), potential state s ≤ n →
      (∀ id ∈ ids, id.Valid state.variant) → Sound truth state s →
      Succeeds (fun fuel => basicElim player state fuel ids s) fun r =>
        Advances truth state s r.2 ∧ (r.1 = true → s.writes < r.2.writes) := by
  intro n
  induction n using Nat.strong_induction_on with
  | _ n ih =>
    intro ids s hn hids hs
    refine .step (fun fuel => by rw [basicElim]) ?_
    refine (elimLoop_removes hw ids { vars := s } hids (Removes.start hs)).bind fun u hu => ?_
    have hspends := hu.advances.spends
    split
    · exact .pure ⟨hu.advances, hu.changed⟩
    · rename_i hsome
      have hne : u.recursiveIds ≠ [] := fun hnil => hsome (List.isEmpty_iff.2 hnil)
      obtain ⟨rid, hrid⟩ := List.exists_mem_of_ne_nil u.recursiveIds hne
      have hwrote := (hu.recursive rid hrid).2
      have hlater := ih (potential state u.vars) (by omega) u.recursiveIds u.vars le_rfl
        (fun rid hrid => (hu.recursive rid hrid).1) hu.advances.sound
      refine hlater.map fun r hr => ⟨hu.advances.trans hr.1, fun hchanged => ?_⟩
      exact (hu.changed hchanged).trans_le hr.1.grows.writes

end CardElim

end HanabiBot
