import HanabiBot.Elim.Sound

/-!
# Sets of cards that hold all copies

The two eliminations of `card_elim` that look at several cards at once.

* `cross_elim` looks for cards that hold, between them, all copies of some identities that are
  not certain elsewhere.  `Contained` is what its search knows of the cards it has picked, and
  `Contained.spared` is why no other card can have one of the identities.  The search goes on
  with a list of candidates that a removal may shorten; the cards behind the index are never
  the ones that are picked (`genSubset_advances`).
* `endgame_elim` tells who can have a copy, with no card left to draw; a card whose copy is not
  located makes its holder one of them (`truth_ne_of_notMem_holders`).
-/

namespace HanabiBot

namespace CardElim

open Fuel (Succeeds)

variable {truth : ℕ → Identity} {player : Player} {state : State} {s t : ElimVars}
  {u : UpdateVars} {id : Identity} {exclude : List ℕ}

/-! ## `cross_elim` -/

theorem map_fst_handCards (state : State) : (handCards state).map Prod.fst = state.allOrders := by
  simp [handCards, State.allOrders, List.map_flatMap, Function.comp_def]

/-- A card is in one hand only. -/
theorem Holds.eq_of_fst_eq (h : Holds truth state) {c c' : ℕ × ℕ} (hc : c ∈ handCards state)
    (hc' : c' ∈ handCards state) (heq : c.1 = c'.1) : c = c' :=
  List.inj_on_of_nodup_map ((map_fst_handCards state).symm ▸ h.nodup) hc hc' heq

/-- What is known of some cards in hand, some identities and some other orders: the cards have these
identities, and the orders are certain to have them. -/
structure Contained (truth : ℕ → Identity) (state : State) (s : ElimVars)
    (contained : List (ℕ × ℕ)) (accIds : IdentitySet) (certains : List ℕ) : Prop where
  cards : ∀ c ∈ contained, c ∈ handCards state
  distinct : (contained.map Prod.fst).Nodup
  numSuits : accIds.numSuits = state.variant.suits.length
  truths : ∀ c ∈ contained, truth c.1 ∈ accIds.array
  certain : ∀ o ∈ certains, o ∈ certainOrders s (state.variant.logCard (truth o)) ∧
    truth o ∈ accIds.array
  nodup : certains.Nodup
  disjoint : ∀ o ∈ certains, o ∉ contained.map Prod.fst

section

variable {contained : List (ℕ × ℕ)} {accIds : IdentitySet} {certains : List ℕ}

theorem Contained.mono (h : Contained truth state s contained accIds certains)
    (hst : Advances truth state s t) : Contained truth state t contained accIds certains :=
  ⟨h.cards, h.distinct, h.numSuits, h.truths,
    fun o ho => ⟨hst.certain _ (h.certain o ho).1, (h.certain o ho).2⟩, h.nodup, h.disjoint⟩

/-- As many cards as there are copies: no other card in hand has one of the identities. -/
theorem Contained.spared (h : Contained truth state s contained accIds certains)
    (hw : Holds truth state) (hs : Sound truth state s)
    (hfull : totalMultiplicity state accIds.array ≤ contained.length + certains.length)
    (hid : id ∈ accIds.array) : Spared truth state s id (contained.map Prod.snd) := by
  intro c hc htruth
  have hfound : c.1 ∈ contained.map Prod.fst ++ certains := by
    refine hw.mem_of_filled (IdentitySet.nodup_array accIds)
      (fun id hid => IdentitySet.array_valid h.numSuits hid)
      (List.nodup_append.2 ⟨h.distinct, h.nodup, ?_⟩) (fun o ho => ?_) ?_
      (mem_allOrders_of_handCards hc) (htruth ▸ hid)
    · rintro o ho o' ho' rfl
      exact h.disjoint o ho' ho
    · obtain ho | ho := List.mem_append.1 ho
      · obtain ⟨e, he, rfl⟩ := List.mem_map.1 ho
        exact ⟨mem_allOrders_of_handCards (h.cards e he), h.truths e he⟩
      · exact ⟨(hs.certain _ o (h.certain o ho).1).1, (h.certain o ho).2⟩
    · rw [List.length_append, List.length_map]
      exact_mod_cast hfull
  obtain hmem | hmem := List.mem_append.1 hfound
  · obtain ⟨e, he, heq⟩ := List.mem_map.1 hmem
    exact .inl (List.mem_map.2 ⟨e, he, by rw [hw.eq_of_fst_eq (h.cards e he) hc heq]⟩)
  · exact .inr (htruth ▸ (h.certain c.1 hmem).1)

end

theorem performUpdate_removes {identities : IdentitySet} (hu : Removes truth state s u)
    (hid : id.Valid state.variant) (hspared : Spared truth state u.vars id exclude) :
    Succeeds (fun _ => performUpdate player state identities id exclude u)
      (Removes truth state s) := by
  refine (updateMap_removes hu.advances.sound hid hspared).map fun u' hu' => ?_
  have hafter := hu'.from hu.advances
  have hnote := Advances.note hafter.advances.sound
    (u'.recursiveIds.any fun rid => exhausted state u'.vars rid && !identities.has rid) .ignored
  exact ⟨hafter.advances.trans hnote, hafter.changed, hafter.recursive⟩

/-- What a group of entries holds. -/
theorem entryGroups_truth (hw : Holds truth state) (hs : Sound truth state s)
    {entries : List (ℕ × ℕ)} (hentries : ∀ c ∈ entries, c ∈ handCards state)
    {group : Option Identity × List (ℕ × ℕ)} (hgroup : group ∈ entryGroups state s entries) :
    group.2.Sublist entries ∧ ∀ id, group.1 = some id → ∀ c ∈ group.2, truth c.1 = id := by
  obtain ⟨-, hfilter⟩ := Utils.mem_groupBy.1 hgroup
  rw [hfilter]
  refine ⟨List.filter_sublist, fun id hid c hc => ?_⟩
  obtain ⟨hmem, hkey⟩ := List.mem_filter.1 hc
  have ho := mem_allOrders_of_handCards (hentries c hmem)
  rw [decide_eq_true_eq, hid, Option.or_eq_some_iff] at hkey
  obtain hdeck | ⟨-, hthought⟩ := hkey
  · exact (hw.deck c.1 ho id hdeck).symm
  · exact ((hs.cards c.1 ho).identity hthought).symm

theorem performGroup_removes {identities : IdentitySet} (hw : Holds truth state)
    {entries : List (ℕ × ℕ)} (hentries : ∀ c ∈ entries, c ∈ handCards state)
    (hdistinct : (entries.map Prod.fst).Nodup) {group : Option Identity × List (ℕ × ℕ)}
    (hsub : group.2.Sublist entries)
    (htruth : ∀ id, group.1 = some id → ∀ c ∈ group.2, truth c.1 = id)
    (hne : group.2 ≠ []) (hu : Removes truth state s u) :
    Succeeds (fun _ => performGroup player state identities u group) (Removes truth state s) := by
  unfold performGroup
  split
  · exact .pure hu
  · rename_i id hid
    dsimp only
    split
    · exact .pure hu
    · rename_i henough
      have hcards : ∀ c ∈ group.2, c ∈ handCards state := fun c hc => hentries c (hsub.subset hc)
      obtain ⟨c₀, hc₀⟩ := List.exists_mem_of_ne_nil group.2 hne
      have hvalid : id.Valid state.variant := by
        rw [← htruth id hid c₀ hc₀]
        exact (hu.advances.sound.cards c₀.1 (mem_allOrders_of_handCards (hcards c₀ hc₀))).valid
      refine performUpdate_removes hu hvalid fun c hc hcid => ?_
      set certains := (u.vars.certainMap (state.variant.logCard id)).filter fun e => !group.2.any (·.1 == e.1)
      have hcertains : (certains.map Prod.fst).Sublist (certainOrders u.vars (state.variant.logCard id)) :=
        List.filter_sublist.map Prod.fst
      have hfound : c.1 ∈ group.2.map Prod.fst ++ certains.map Prod.fst := by
        refine hw.mem_of_filled (List.nodup_singleton id) (by simpa using hvalid)
          (List.nodup_append.2 ⟨hdistinct.sublist (hsub.map Prod.fst),
            (hu.advances.sound.keys _).sublist hcertains, ?_⟩) (fun o ho => ?_) ?_
          (mem_allOrders_of_handCards hc) (List.mem_singleton.2 hcid)
        · rintro o ho o' ho' rfl
          obtain ⟨g, hg, hgo⟩ := List.mem_map.1 ho
          obtain ⟨e, he, heo⟩ := List.mem_map.1 ho'
          have hnot := (List.mem_filter.1 he).2
          rw [Bool.not_eq_true', List.any_eq_false] at hnot
          exact hnot g hg (beq_iff_eq.2 (hgo.trans heo.symm))
        · obtain ho | ho := List.mem_append.1 ho
          · obtain ⟨g, hg, rfl⟩ := List.mem_map.1 ho
            exact ⟨mem_allOrders_of_handCards (hcards g hg), by simp [htruth id hid g hg]⟩
          · obtain ⟨hmem, htruth'⟩ := hu.advances.sound.certain_id hw hvalid (hcertains.subset ho)
            exact ⟨hmem, List.mem_singleton.2 htruth'⟩
        · rw [List.length_append, List.length_map, List.length_map]
          push_cast
          omega
      obtain hmem | hmem := List.mem_append.1 hfound
      · obtain ⟨g, hg, heq⟩ := List.mem_map.1 hmem
        exact .inl (List.mem_map.2 ⟨g, hg, by rw [hw.eq_of_fst_eq (hcards g hg) hc heq]⟩)
      · exact .inr (hcertains.subset hmem)

/-- `perform_elim` on as many cards as there are copies of their identities. -/
theorem performElim_advances (hw : Holds truth state) (hs : Sound truth state s)
    {entries : List (ℕ × ℕ)} {identities : IdentitySet} {certains : List ℕ}
    (h : Contained truth state s entries identities certains)
    (hfull : totalMultiplicity state identities.array ≤ entries.length + certains.length) :
    Succeeds (fun fuel => performElim player state fuel entries identities s) fun r =>
      Advances truth state s r.2 ∧ (r.1 = true → s.writes < r.2.writes) := by
  have hvalid : ∀ id ∈ identities.array, id.Valid state.variant := fun id hid =>
    IdentitySet.array_valid h.numSuits hid
  have hgroups := Succeeds.foldlM (l := entryGroups state s entries)
    (k := fun u group _ => performGroup player state identities u group)
    (P := Removes truth state s) (fun group hgroup u hu => ?_) (Removes.start hs)
  · refine hgroups.bind fun u hu => ?_
    have hids := Succeeds.foldlM (l := identities.array)
      (k := fun u id _ => performUpdate player state identities id (entries.map Prod.snd) u)
      (P := Removes truth state s) (fun id hid u hu => performUpdate_removes hu (hvalid id hid)
        ((h.spared hw hs hfull hid).mono hu.advances)) hu
    refine hids.bind fun u' hu' => ?_
    refine (basicElim_advances hw _ _ u'.vars le_rfl hvalid hu'.advances.sound).map fun r hr => ?_
    refine ⟨(hu'.advances.trans hr.1).trans (Advances.note hr.1.sound _ _), fun hchanged => ?_⟩
    show s.writes < r.2.writes
    obtain hlast | hearlier := Bool.or_eq_true_iff.1 hchanged
    · exact hu'.advances.grows.writes.trans_lt (hr.2 hlast)
    · exact (hu'.changed hearlier).trans_le hr.1.grows.writes
  · obtain ⟨hsub, htruth⟩ := entryGroups_truth hw hs h.cards hgroup
    refine performGroup_removes hw h.cards h.distinct hsub htruth ?_ hu
    obtain ⟨⟨c, hc, hkey⟩, hfilter⟩ := Utils.mem_groupBy.1 hgroup
    rw [hfilter]
    exact List.ne_nil_of_mem (List.mem_filter.2 ⟨hc, by simpa using hkey⟩)

section

variable {contained : List (ℕ × ℕ)} {accIds : IdentitySet} {certains : List ℕ}

/-- The search goes on with one more card. -/
theorem Contained.next (h : Contained truth state s contained accIds certains)
    (hw : Holds truth state) (hs : Sound truth state s) {item : ℕ × ℕ} (hitem : item ∈ handCards state)
    (hnew : item.1 ∉ contained.map Prod.fst) :
    Contained truth state s (contained ++ [item])
      (accIds.union (s.thoughts item.1).possible.value)
      (nextCertains certains (((s.thoughts item.1).possible.subtract accIds.value).array.flatMap
        fun id => (s.certainMap (state.variant.logCard id)).map Prod.fst) ((contained ++ [item]).map Prod.fst)) := by
  have hcard := hs.cards item.1 (mem_allOrders_of_handCards hitem)
  have hsuits : accIds.numSuits = (s.thoughts item.1).possible.numSuits :=
    h.numSuits.trans hcard.numSuits.symm
  refine ⟨fun c hc => ?_, ?_, h.numSuits, fun c hc => ?_, fun o ho => ?_,
    (List.nodup_dedup _).filter _, fun o ho => ?_⟩
  · obtain hc | hc := List.mem_append.1 hc
    · exact h.cards c hc
    · exact List.mem_singleton.1 hc ▸ hitem
  · rw [List.map_append, List.map_singleton]
    refine List.nodup_append.2 ⟨h.distinct, List.nodup_singleton _, ?_⟩
    rintro o ho o' ho' rfl
    exact hnew (List.mem_singleton.1 ho' ▸ ho)
  · rw [IdentitySet.mem_union hsuits]
    obtain hc | hc := List.mem_append.1 hc
    · exact .inl (h.truths c hc)
    · exact .inr (List.mem_singleton.1 hc ▸ hcard.possible)
  · obtain ⟨hmem, -⟩ := List.mem_filter.1 ho
    rw [List.mem_dedup, List.mem_append] at hmem
    rw [IdentitySet.mem_union hsuits]
    obtain hmem | hmem := hmem
    · exact ⟨(h.certain o hmem).1, .inl (h.certain o hmem).2⟩
    · obtain ⟨id, hid, hknown⟩ := List.mem_flatMap.1 hmem
      have hmem := IdentitySet.subtract_subset _ _ _ hid
      obtain rfl := (hs.certain_id hw (IdentitySet.array_valid hcard.numSuits hmem) hknown).2
      exact ⟨hknown, .inr hmem⟩
  · have hnot := (List.mem_filter.1 ho).2
    simpa using hnot

/-- The next candidate is not one of the later ones. -/
theorem Sound.drop_candidates (hs : Sound truth state s) {nextIndex : ℕ} {item : ℕ × ℕ}
    (hitem : s.crossElimCandidates[nextIndex]? = some item) :
    s.crossElimCandidates.drop nextIndex = item :: s.crossElimCandidates.drop (nextIndex + 1) ∧
      ∀ c ∈ s.crossElimCandidates.drop (nextIndex + 1), c.1 ≠ item.1 := by
  obtain ⟨hlt, hget⟩ := List.getElem?_eq_some_iff.1 hitem
  have hdrop := List.drop_eq_getElem_cons hlt
  rw [hget] at hdrop
  refine ⟨hdrop, fun c hc heq => ?_⟩
  have hnodup := hs.distinct.sublist ((List.drop_sublist nextIndex _).map Prod.fst)
  rw [hdrop, List.map_cons, List.nodup_cons] at hnodup
  exact hnodup.1 (heq ▸ List.mem_map_of_mem hc)

/-- The search ends: a subset that changes a card ends it, and each call looks at a later
candidate. -/
theorem genSubset_advances (hw : Holds truth state) :
    ∀ (n : ℕ) (contained : List (ℕ × ℕ)) (accIds : IdentitySet) (certains : List ℕ)
      (nextIndex : ℕ) (s : ElimVars), s.crossElimCandidates.length - nextIndex = n →
      Sound truth state s → Contained truth state s contained accIds certains →
      (∀ c ∈ s.crossElimCandidates.drop nextIndex, c.1 ∉ contained.map Prod.fst) →
      Succeeds (fun fuel => genSubset player state fuel contained accIds certains nextIndex s)
        fun r => Advances truth state s r.2 ∧ (r.1 = true → s.writes < r.2.writes) := by
  intro n
  induction n using Nat.strong_induction_on with
  | _ n ih =>
    intro contained accIds certains nextIndex s hn hs h hnew
    refine .step (fun fuel => by rw [genSubset]) ?_
    dsimp only
    split
    · exact .pure ⟨.refl hs, fun hfalse => (Bool.false_ne_true hfalse).elim⟩
    have hperform : Succeeds (fun fuel => if contained.length ≥ 2 ∧
        totalMultiplicity state accIds.array - certains.length = contained.length then
          performElim player state fuel contained accIds s else .ok (false, s)) fun r =>
        Advances truth state s r.2 ∧ (r.1 = true → s.writes < r.2.writes) := by
      split
      · exact performElim_advances hw hs h (by omega)
      · exact .pure ⟨.refl hs, fun hfalse => (Bool.false_ne_true hfalse).elim⟩
    refine hperform.bind fun r hr => ?_
    split
    · exact .pure ⟨hr.1, fun _ => hr.2 ‹_›⟩
    cases hget : r.2.crossElimCandidates[nextIndex]? with
    | none => exact .pure ⟨hr.1, fun hfalse => (Bool.false_ne_true hfalse).elim⟩
    | some item =>
      have hsound := hr.1.sound
      obtain ⟨hdrop, hlater⟩ := hsound.drop_candidates hget
      have hfresh : ∀ c ∈ r.2.crossElimCandidates.drop nextIndex, c.1 ∉ contained.map Prod.fst :=
        fun c hc => hnew c ((hr.1.candidates.drop nextIndex).subset hc)
      have hitem : item ∈ r.2.crossElimCandidates.drop nextIndex := hdrop ▸ List.mem_cons_self
      have hlt := (List.getElem?_eq_some_iff.1 hget).1
      have hlen := hr.1.candidates.length_le
      have hnext := (h.mono hr.1).next hw hsound
        (hsound.candidates item (List.mem_of_mem_drop hitem)) (hfresh item hitem)
      have hincluded := ih _ (by omega) _ _ _ (nextIndex + 1) r.2 rfl hsound hnext fun c hc => by
        rw [List.map_append, List.map_singleton, List.mem_append, not_or, List.mem_singleton]
        exact ⟨hfresh c (hdrop ▸ List.mem_cons_of_mem item hc), hlater c hc⟩
      refine hincluded.bind fun r' hr' => ?_
      have hboth := hr.1.trans hr'.1
      split
      · exact .pure ⟨hboth, fun _ => hr.1.grows.writes.trans_lt (hr'.2 ‹_›)⟩
      · have hlen' := hr'.1.candidates.length_le
        refine (ih _ (by omega) contained accIds certains (nextIndex + 1) r'.2 rfl hr'.1.sound
          (h.mono hboth) fun c hc => ?_).mono fun r'' hr'' => ⟨hboth.trans hr''.1, fun hchanged => ?_⟩
        · have hmem := (hr'.1.candidates.drop (nextIndex + 1)).subset hc
          exact hfresh c (hdrop ▸ List.mem_cons_of_mem item hmem)
        · exact hboth.grows.writes.trans_lt (hr''.2 hchanged)

theorem crossElim_advances (hw : Holds truth state) (hs : Sound truth state s) :
    Succeeds (fun fuel => crossElim player state fuel s) fun r =>
      Advances truth state s r.2 ∧ (r.1 = true → s.writes < r.2.writes) := by
  unfold crossElim
  split
  · exact .pure ⟨.refl hs, fun hfalse => (Bool.false_ne_true hfalse).elim⟩
  · refine genSubset_advances hw _ [] (baseIds state) [] 0 s rfl hs ?_ fun _ _ => List.not_mem_nil
    exact ⟨by simp, List.nodup_nil, rfl, by simp, by simp, List.nodup_nil, by simp⟩

end

/-! ## `endgame_elim` -/

theorem holdsId_truth (hw : Holds truth state) (hs : Sound truth state s) {o : ℕ}
    (ho : o ∈ state.allOrders) (h : holdsId state s id o = true) : truth o = id := by
  rw [holdsId, Bool.or_eq_true, beq_iff_eq] at h
  obtain hdeck | hthought := h
  · exact (hw.deck o ho id hdeck).symm
  · unfold Card.matchesId at hthought
    split at hthought
    · cases hthought
    · rename_i id' hid'
      rw [beq_iff_eq] at hthought
      exact ((hs.cards o ho).identity hid').symm.trans hthought

/-- A card that is not known to have an identity, but has it, leaves a copy unlocated. -/
theorem located_lt (hw : Holds truth state) (hs : Sound truth state s)
    (hid : id.Valid state.variant) {o : ℕ} (ho : o ∈ state.allOrders) (htruth : truth o = id)
    (hnot : holdsId state s id o = false) :
    state.baseCount id + ((List.range state.numPlayers).map fun i =>
      ((state.hands i).filter (holdsId state s id)).length).sum < state.cardCount id := by
  have hsum : ((List.range state.numPlayers).map fun i =>
      ((state.hands i).filter (holdsId state s id)).length).sum =
        (state.allOrders.filter (holdsId state s id)).length := by
    rw [State.allOrders, List.filter_flatMap, List.length_flatMap]
  have hmem : o ∈ state.allOrders.filter fun o => truth o = id :=
    List.mem_filter.2 ⟨ho, by simpa using htruth⟩
  have hsub : state.allOrders.filter (holdsId state s id) ⊆
      (state.allOrders.filter fun o => truth o = id).erase o := fun o' ho' => by
    obtain ⟨ho', hholds⟩ := List.mem_filter.1 ho'
    have hne : o' ≠ o := by
      rintro rfl
      rw [hnot] at hholds
      cases hholds
    exact (List.mem_erase_of_ne hne).2
      (List.mem_filter.2 ⟨ho', by simpa using holdsId_truth hw hs ho' hholds⟩)
  have hle := ((hw.nodup.filter _).subperm hsub).length_le
  have hpos := List.length_pos_of_mem hmem
  have hfits := hw.fits id hid
  rw [List.length_erase_of_mem hmem] at hle
  rw [List.countP_eq_length_filter] at hfits
  omega

/-- Nobody but a holder has the identity. -/
theorem truth_ne_of_notMem_holders (hw : Holds truth state) (hs : Sound truth state s)
    (hid : id.Valid state.variant) {i : ℕ} (hi : i < state.numPlayers)
    (h : i ∉ holders state s id) {o : ℕ} (ho : o ∈ state.hands i) : id ≠ truth o := by
  rintro rfl
  have hmem : o ∈ state.allOrders := State.mem_allOrders.2 ⟨i, hi, ho⟩
  have hfalse : ¬ _ := fun htrue => h (List.mem_filter.2 ⟨List.mem_range.2 hi, htrue⟩)
  rw [Bool.or_eq_true, not_or, bne_iff_ne, not_not, Bool.and_eq_true, not_and] at hfalse
  obtain ⟨hnone, hlocated⟩ := hfalse
  have hnot : holdsId state s (truth o) o = false := by
    rw [← Bool.not_eq_true]
    intro hholds
    exact List.ne_nil_of_mem (List.mem_filter.2 ⟨ho, hholds⟩) (List.eq_nil_of_length_eq_zero hnone)
  have hlt := located_lt hw hs hid hmem rfl hnot
  -- what the deck or the thoughts know of the card would be the truth
  have hunknown : ((state.identityOf o).or ((s.thoughts o).identity {})).isNone = true := by
    rw [Option.isNone_iff_eq_none, Option.or_eq_none_iff]
    rw [holdsId, Bool.or_eq_false_iff, beq_eq_false_iff_ne] at hnot
    obtain ⟨hdeck, hthought⟩ := hnot
    constructor
    · rw [Option.eq_none_iff_forall_not_mem]
      intro id' hid'
      obtain rfl := hw.deck o hmem id' hid'
      exact hdeck hid'
    · rw [Option.eq_none_iff_forall_not_mem]
      intro id' hid'
      obtain rfl := (hs.cards o hmem).identity hid'
      rw [Option.mem_def] at hid'
      simp [Card.matchesId, hid'] at hthought
  refine hlocated ?_ (List.any_eq_true.2 ⟨o, ho, hunknown⟩)
  rw [bne_iff_ne]
  omega

theorem endgameHand_advances (hs : Sound truth state s) (hid : id.Valid state.variant) {i : ℕ}
    (hi : i < state.numPlayers) (hne : ∀ o ∈ state.hands i, id ≠ truth o) :
    Advances truth state s (endgameHand state id s i) := by
  have hloop : ∀ (l : List ℕ) (u : UpdateVars), (∀ o ∈ l, o ∈ state.hands i) →
      Advances truth state s u.vars →
      Advances truth state s (l.foldl (endgameCard state id) u).vars := by
    intro l
    induction l with
    | nil =>
      intro u _ hu
      exact hu
    | cons o l ih =>
      intro u hl hu
      refine ih _ (fun o' ho' => hl o' (List.mem_cons_of_mem o ho')) ?_
      have ho := hl o List.mem_cons_self
      unfold endgameCard
      dsimp only
      split
      · exact hu
      · rename_i hhas
        rw [Bool.or_eq_true, not_or, Bool.not_eq_true', Bool.not_eq_false] at hhas
        exact hu.trans (settle_advances hu.sound (State.mem_allOrders.2 ⟨i, hi, ho⟩) hid (hne o ho)
          hhas.1).1
  exact (hloop (state.hands i) { vars := s } (fun _ ho => ho) (.refl hs)).dropRemovals
    (endgameHand_grows id hi s)

theorem Advances.foldl {α : Type} {f : ElimVars → α → ElimVars} {l : List α}
    (hf : ∀ a ∈ l, ∀ t, Advances truth state s t → Advances truth state t (f t a))
    (h : Advances truth state s t) : Advances truth state s (l.foldl f t) := by
  induction l generalizing t with
  | nil => exact h
  | cons a l ih =>
    exact ih (fun b hb => hf b (List.mem_cons_of_mem a hb))
      (h.trans (hf a List.mem_cons_self t h))

theorem endgameElim_advances (hw : Holds truth state) (hs : Sound truth state s)
    {ids : List Identity} (hids : ∀ id ∈ ids, id.Valid state.variant) :
    Advances truth state s (endgameElim player state ids s) := by
  unfold endgameElim
  split
  · exact .refl hs
  · refine Advances.foldl (fun id hid t ht => ?_) (.refl hs)
    refine Advances.foldl (fun i hi r hr => ?_) (.refl ht.sound)
    obtain ⟨hi, hnot⟩ := List.mem_filter.1 hi
    refine endgameHand_advances hr.sound (hids id hid) (List.mem_range.1 hi) fun o ho => ?_
    refine truth_ne_of_notMem_holders hw ht.sound (hids id hid) (List.mem_range.1 hi) ?_ ho
    simpa using hnot

end CardElim

end HanabiBot
