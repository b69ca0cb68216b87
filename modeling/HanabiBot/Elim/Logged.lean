import HanabiBot.Elim.Conservative

/-!
# What an elimination notes

`good_touch_elim` notes in `elims` which cards lost an identity.  `Logged` says what one part
of it does to the cards that are not reset: which of the lost identities are noted, which are
not, and that nothing else is noted.

* `initialState_logged` — before the first pass, only trash is lost without a note;
* `basicElim_logged` — the basic elimination notes every identity that it takes.
-/

namespace HanabiBot.Elim

/-! ## The log -/

/-- From `s` to `t`, the cards that are not reset only lose inferences. What they lose is noted
in `elims`, under its name, or among the `lost`; and what is noted is lost. -/
structure Logged (name : Identity → Variant.CardName) (lost : ℕ → Identity → Prop)
    (s t : ElimState) : Prop where
  resets : ∀ o ∈ s.resets, o ∈ t.resets
  elims : ∀ n, ∀ o ∈ s.elims n, o ∈ t.elims n
  suits : ∀ o ∉ t.resets,
    (t.thoughts o).inferred.numSuits = (s.thoughts o).inferred.numSuits
  has : ∀ o ∉ t.resets, ∀ id, (t.thoughts o).inferred.has id = true →
    (s.thoughts o).inferred.has id = true
  logged : ∀ o ∉ t.resets, ∀ id ∈ (s.thoughts o).inferred.array,
    id ∉ (t.thoughts o).inferred.array → o ∈ t.elims (name id) ∨ lost o id
  noted : ∀ o ∉ t.resets, ∀ n, o ∈ t.elims n → o ∈ s.elims n ∨ ∃ id, name id = n ∧
    (s.thoughts o).inferred.has id = true ∧ (t.thoughts o).inferred.has id = false

/-- No identity is lost without a note. -/
def NoneLost : ℕ → Identity → Prop := fun _ _ => False

namespace Logged

variable {name : Identity → Variant.CardName} {lost lost' : ℕ → Identity → Prop}
  {s t u : ElimState}

/-- The same inferences, and the same log. -/
theorem of_inferred (hresets : t.resets = s.resets) (helims : t.elims = s.elims)
    (hinferred : ∀ o, (t.thoughts o).inferred = (s.thoughts o).inferred) :
    Logged name lost s t := by
  refine ⟨by simp [hresets], by simp [helims], ?_, ?_, ?_, ?_⟩
  · intro o _
    rw [hinferred]
  · intro o _ id hid
    rwa [hinferred] at hid
  · intro o _ id hid hnot
    rw [hinferred] at hnot
    exact absurd hid hnot
  · intro o _ n ho
    rw [helims] at ho
    exact Or.inl ho

theorem refl (s : ElimState) : Logged name lost s s := of_inferred rfl rfl fun _ => rfl

theorem mono (h : Logged name lost s t) (hlost : ∀ o id, lost o id → lost' o id) :
    Logged name lost' s t := by
  refine ⟨h.resets, h.elims, h.suits, h.has, fun o ho id hid hnot => ?_, h.noted⟩
  exact (h.logged o ho id hid hnot).imp_right (hlost o id)

theorem of_noneLost (h : Logged name NoneLost s t) : Logged name lost s t :=
  h.mono fun _ _ h => h.elim

theorem not_has (h : Logged name lost s t) {o : ℕ} (ho : o ∉ t.resets) {id : Identity}
    (hid : (s.thoughts o).inferred.has id = false) : (t.thoughts o).inferred.has id = false := by
  by_contra hhas
  rw [h.has o ho id (by simpa using hhas)] at hid
  cases hid

theorem trans (hst : Logged name lost s t) (htu : Logged name lost t u) :
    Logged name lost s u := by
  have hback : ∀ o, o ∉ u.resets → o ∉ t.resets := fun o ho h => ho (htu.resets o h)
  refine ⟨fun o ho => htu.resets o (hst.resets o ho), fun n o ho => htu.elims n o (hst.elims n o ho),
    ?_, ?_, ?_, ?_⟩
  · intro o ho
    rw [htu.suits o ho, hst.suits o (hback o ho)]
  · intro o ho id hid
    exact hst.has o (hback o ho) id (htu.has o ho id hid)
  · intro o ho id hid hnot
    by_cases hmid : id ∈ (t.thoughts o).inferred.array
    · exact htu.logged o ho id hmid hnot
    · obtain h | h := hst.logged o (hback o ho) id hid hmid
      · exact Or.inl (htu.elims _ o h)
      · exact Or.inr h
  · intro o ho n hn
    obtain hn | ⟨id, hname, hhas, hnot⟩ := htu.noted o ho n hn
    · obtain hn | ⟨id, hname, hhas, hnot⟩ := hst.noted o (hback o ho) n hn
      · exact Or.inl hn
      · exact Or.inr ⟨id, hname, hhas, htu.not_has ho hnot⟩
    · exact Or.inr ⟨id, hname, hst.has o (hback o ho) id hhas, hnot⟩

/-- Taking some identities out of one card, of which some are noted with it. -/
theorem take {order mask : ℕ} (ht : t.thoughts = (s.setInferred order
      ((s.thoughts order).inferred.subtract mask)).thoughts) (hresets : t.resets = s.resets)
    (helims : ∀ n, ∀ o ∈ s.elims n, o ∈ t.elims n)
    (hlost : ∀ id ∈ (s.thoughts order).inferred.array, mask.testBit (IdentitySet.bit id) = true →
      order ∈ t.elims (name id) ∨ lost order id)
    (hnoted : ∀ o n, o ∈ t.elims n → o ∈ s.elims n ∨ o = order ∧ ∃ id, name id = n ∧
      (s.thoughts order).inferred.has id = true ∧ mask.testBit (IdentitySet.bit id) = true) :
    Logged name lost s t := by
  have hself : (t.thoughts order).inferred = (s.thoughts order).inferred.subtract mask := by
    rw [ht]
    simp [ElimState.setInferred]
  have hother : ∀ o, o ≠ order → t.thoughts o = s.thoughts o := by
    intro o ho
    rw [ht]
    exact ElimState.setThought_thoughts_of_ne s ho _
  refine ⟨fun o ho => hresets ▸ ho, helims, ?_, ?_, ?_, ?_⟩
  · intro o _
    by_cases h : o = order
    · subst h
      rw [hself]
      rfl
    · rw [hother o h]
  · intro o _ id hid
    by_cases h : o = order
    · subst h
      rw [hself, IdentitySet.has_subtract, Bool.and_eq_true] at hid
      exact hid.1
    · rwa [hother o h] at hid
  · intro o _ id hid hnot
    by_cases h : o = order
    · subst h
      rw [hself] at hnot
      refine hlost id hid ?_
      by_contra hbit
      refine hnot ?_
      simp only [IdentitySet.mem_array, IdentitySet.has_subtract, Bool.and_eq_true,
        Bool.not_eq_true'] at hid ⊢
      exact ⟨hid.1, hid.2.1, hid.2.2, by simpa using hbit⟩
    · rw [hother o h] at hnot
      exact absurd hid hnot
  · intro o _ n hn
    obtain hn | ⟨rfl, id, hname, hhas, hbit⟩ := hnoted o n hn
    · exact Or.inl hn
    · refine Or.inr ⟨id, hname, hhas, ?_⟩
      rw [hself, IdentitySet.has_subtract, hbit]
      simp

/-- A reset card is out of the log's account. -/
theorem resetThought (order : ℕ) (card : Thought) :
    Logged name lost s (s.resetThought order card) := by
  have hother : ∀ o, o ∉ (s.resetThought order card).resets →
      (s.resetThought order card).thoughts o = s.thoughts o := by
    intro o ho
    have hne : o ≠ order := by
      rintro rfl
      exact ho (by simp [ElimState.resetThought])
    exact ElimState.setThought_thoughts_of_ne s hne _
  refine ⟨?_, fun n o ho => ho, ?_, ?_, ?_, fun o _ n ho => Or.inl ho⟩
  · intro o ho
    simp [ElimState.resetThought, ho]
  · intro o ho
    rw [hother o ho]
  · intro o ho id hid
    rwa [hother o ho] at hid
  · intro o ho id hid hnot
    rw [hother o ho] at hnot
    exact absurd hid hnot

end Logged

variable {player : Observer} {state : Table} {s t : ElimState}
  {name : Identity → Variant.CardName}

theorem addToMaps_elims (player : Observer) (state : Table) (order : ℕ) (holder : Option ℕ)
    (s : ElimState) : (addToMaps player state order holder s).elims = s.elims := by
  unfold addToMaps
  dsimp only
  split
  · rfl
  · split
    · split <;> rfl
    · rfl

theorem addToMaps_logged (player : Observer) (state : Table) (order : ℕ) (holder : Option ℕ)
    (s : ElimState) : Logged name NoneLost s (addToMaps player state order holder s) := by
  have hsame := addToMaps_same player state order holder s
  refine .of_inferred hsame.resets (addToMaps_elims player state order holder s) fun o => ?_
  rw [hsame.thoughts]

theorem foldl_addToMaps_logged (player : Observer) (state : Table) {α : Type} (order : α → ℕ)
    (holder : α → Option ℕ) (l : List α) (s : ElimState) :
    Logged name NoneLost s
      (l.foldl (fun s a => addToMaps player state (order a) (holder a) s) s) := by
  induction l generalizing s with
  | nil => exact .refl s
  | cons a l ih => exact (addToMaps_logged player state (order a) (holder a) s).trans (ih _)

/-! ## Before the first pass -/

/-- Before the first pass, cards lose trash alone. -/
def TrashLost (state : Table) : ℕ → Identity → Prop := fun _ id => state.isBasicTrash id = true

theorem isBasicTrash_of_trashIds {id : Identity} (hid : IdentitySet.Ranked id)
    (hbit : (IdentitySet.identitiesToMask (trashIds player state)).testBit
      (IdentitySet.bit id) = true) : state.isBasicTrash id = true := by
  have hranked : ∀ id ∈ trashIds player state, IdentitySet.Ranked id := by
    intro id hid
    exact (IdentitySet.mem_array.1 (List.mem_of_mem_filter hid)).2.1
  rw [IdentitySet.testBit_identitiesToMask_bit hranked hid, decide_eq_true_eq] at hbit
  exact List.of_mem_filter hbit

theorem addCandidate_logged {i o : ℕ} (hfresh : s.thoughts o = player.thoughts o) :
    Logged name (TrashLost state) s (addCandidate player state i o s) := by
  have hmaps : Logged name (TrashLost state) s (addToMaps player state o (some i) s) :=
    (addToMaps_logged player state o (some i) s).of_noneLost
  have hthoughts := (addToMaps_same player state o (some i) s).thoughts
  unfold addCandidate
  dsimp only
  split
  · exact hmaps
  split
  · have hadd : Logged name (TrashLost state) s { addToMaps player state o (some i) s with
        elimCandidates := (addToMaps player state o (some i) s).elimCandidates ++
          [⟨o, i, !(player.thoughts o).touched && player.playerIndex.isNone⟩] } :=
      hmaps.trans (.of_inferred rfl rfl fun _ => rfl)
    split
    · split
      · exact hadd.trans (.resetThought o _)
      · refine hadd.trans ?_
        rw [← hfresh, ← hthoughts]
        refine .take rfl rfl (fun n o ho => ho) (fun id hid hbit => Or.inr ?_)
          fun o n hn => Or.inl hn
        exact isBasicTrash_of_trashIds (IdentitySet.mem_array.1 hid).2.1 hbit
    · exact hadd
  · exact hmaps

theorem foldl_addCandidate_logged {l : List (ℕ × ℕ)} (hnodup : (l.map Prod.snd).Nodup)
    (hs : Invariant player state s) (hl : ∀ p ∈ l, p.2 ∈ state.allOrders)
    (hfresh : ∀ p ∈ l, s.thoughts p.2 = player.thoughts p.2) :
    Logged name (TrashLost state) s
      (l.foldl (fun s p => addCandidate player state p.1 p.2 s) s) := by
  induction l generalizing s with
  | nil => exact .refl s
  | cons p l ih =>
    obtain ⟨hp, hnodup⟩ := List.nodup_cons.1 hnodup
    obtain ⟨hinv, hrest⟩ := addCandidate_spec hs (i := p.1) (hl p List.mem_cons_self)
      (hfresh p List.mem_cons_self)
    refine (addCandidate_logged (hfresh p List.mem_cons_self)).trans
      (ih hnodup hinv (fun q hq => hl q (List.mem_cons_of_mem p hq)) fun q hq => ?_)
    have hne : q.2 ≠ p.2 := by
      intro heq
      exact hp (heq ▸ List.mem_map_of_mem hq)
    rw [hrest q.2 hne]
    exact hfresh q (List.mem_cons_of_mem p hq)

/-- The variables that the first pass starts from, before any card is looked at. -/
def freshState (player : Observer) (state : Table) : ElimState where
  thoughts := player.thoughts
  elims := player.elims
  identities := (handIdentities player state).subtract
    (IdentitySet.identitiesToMask (trashIds player state))

theorem freshState_invariant : Invariant player state (freshState player state) := by
  refine ⟨fun _ => rfl, fun o _ => IdentitySet.Subset.refl _, fun o => ?_, ?_, ?_⟩
  · simp [freshState]
  · simp [freshState]
  · simp [freshState]

theorem initialState_logged (player : Observer) (state : Table) (onlySelf : Bool) :
    Logged name (TrashLost state) (freshState player state) (initialState player state onlySelf) := by
  have hsub := visited_sublist player state onlySelf
  rw [initialState_eq]
  exact foldl_addCandidate_logged (state.nodup.sublist hsub) freshState_invariant
    (fun p hp => hsub.subset (List.mem_map_of_mem hp)) fun _ _ => rfl

/-! ## The basic elimination -/

/-- What a step of `basic_elim` does: all that is lost is noted, and the identities that are
still to be looked at are identities of cards. -/
structure BasicLogged (v : Variant) (p q : BasicPass) : Prop where
  logged : Logged v.logCard NoneLost p.toElimState q.toElimState
  crossMap : q.crossMap = p.crossMap
  ranked : (∀ id ∈ p.currIdentities, IdentitySet.Ranked id) →
    ∀ id ∈ q.currIdentities, IdentitySet.Ranked id

variable {v : Variant} {p q r : BasicPass}

theorem BasicLogged.refl (p : BasicPass) : BasicLogged v p p := ⟨.refl _, rfl, fun h => h⟩

theorem BasicLogged.trans (hpq : BasicLogged v p q) (hqr : BasicLogged v q r) :
    BasicLogged v p r :=
  ⟨hpq.logged.trans hqr.logged, hqr.crossMap.trans hpq.crossMap,
    fun h => hqr.ranked (hpq.ranked h)⟩

theorem pushEliminated_basicLogged (oldInferred newInferred : IdentitySet) (p : BasicPass) :
    BasicLogged v p (pushEliminated state oldInferred newInferred p) := by
  unfold pushEliminated
  split
  · rename_i id honly
    split
    · refine ⟨.of_inferred rfl rfl fun _ => rfl, rfl, fun h id' hid' => ?_⟩
      obtain hid' | hid' := List.mem_append.1 hid'
      · exact h id' hid'
      · rw [List.mem_singleton] at hid'
        subst hid'
        simp only [IdentitySet.only?, Option.ite_none_right_eq_some] at honly
        exact (IdentitySet.mem_array.1 (List.mem_of_head? honly.2)).2.1
    · exact .refl p
  · exact .refl p

/-- What is taken from a candidate is noted. -/
theorem eliminate_basicLogged {identity : Identity} (hranked : IdentitySet.Ranked identity)
    (c : Candidate) (p : BasicPass) (hhas : (p.thoughts c.order).inferred.has identity = true) :
    BasicLogged state.variant p (eliminate state identity c p) := by
  have htake : Logged state.variant.logCard NoneLost p.toElimState
      ((p.setInferred c.order ((p.thoughts c.order).inferred.subtract
        (IdentitySet.toMask identity))).addElim (state.variant.logCard identity) c.order) := by
    refine .take rfl rfl (fun n o ho => ?_) (fun id hid hbit => Or.inl ?_) fun o n hn => ?_
    · by_cases hn : n = state.variant.logCard identity
      · subst hn
        simp only [ElimState.addElim, Function.update_self, List.mem_append]
        exact Or.inl ho
      · simp only [ElimState.addElim, Function.update_of_ne hn]
        exact ho
    · rw [IdentitySet.testBit_toMask hranked (IdentitySet.mem_array.1 hid).2.1,
        decide_eq_true_eq] at hbit
      subst hbit
      simp [ElimState.addElim]
    · by_cases hname : n = state.variant.logCard identity
      · subst hname
        simp only [ElimState.addElim, Function.update_self, List.mem_append,
          List.mem_singleton] at hn
        refine hn.imp_right fun ho => ⟨ho, identity, rfl, hhas, ?_⟩
        exact Nat.testBit_two_pow_self
      · simp only [ElimState.addElim, Function.update_of_ne hname] at hn
        exact Or.inl hn
  unfold eliminate
  dsimp only
  have hcross : ((p.setInferred c.order ((p.thoughts c.order).inferred.subtract
      (IdentitySet.toMask identity))).addElim (state.variant.logCard identity)
        c.order).crossMap = p.crossMap := rfl
  generalize (p.setInferred c.order ((p.thoughts c.order).inferred.subtract
    (IdentitySet.toMask identity))).addElim (state.variant.logCard identity) c.order = s
    at htake hcross ⊢
  split
  · exact ⟨htake, hcross, fun h => h⟩
  split
  · exact ⟨htake.trans (.resetThought c.order _), hcross, fun h => h⟩
  · refine BasicLogged.trans ⟨?_, ?_, ?_⟩ (pushEliminated_basicLogged _ _ _)
    · exact htake
    · exact hcross
    · exact fun h => h

theorem elimCandidate_basicLogged {identity : Identity} (hranked : IdentitySet.Ranked identity)
    (matched : List ℕ) (c : Candidate) (p : BasicPass) :
    BasicLogged state.variant p (elimCandidate player state identity matched c p) := by
  unfold elimCandidate
  dsimp only
  split
  · exact .refl p
  rename_i hmatch
  simp only [Bool.or_eq_true, Bool.not_eq_true', not_or, Bool.not_eq_false] at hmatch
  split
  · exact .refl p
  split
  · exact .refl p
  split
  · -- only `certain_finessed` is written
    refine ⟨.of_inferred rfl rfl fun o => ?_, rfl, fun h => h⟩
    show ((p.setThought c.order _).thoughts o).inferred = _
    by_cases ho : o = c.order
    · subst ho
      rw [ElimState.setThought_thoughts_self]
    · rw [ElimState.setThought_thoughts_of_ne _ ho]
  split
  · exact ⟨.of_inferred rfl rfl fun _ => rfl, rfl, fun h => h⟩
  split
  · exact .refl p
  · exact eliminate_basicLogged hranked c p hmatch.2

theorem elimCandidates_basicLogged {identity : Identity} (hranked : IdentitySet.Ranked identity)
    (matched : List ℕ) {fuel i : ℕ}
    (h : elimCandidates player state identity matched fuel i p = some q) :
    BasicLogged state.variant p q := by
  induction fuel generalizing i p with
  | zero => simp [elimCandidates] at h
  | succ fuel ih =>
    rw [elimCandidates] at h
    cases hget : p.elimCandidates[i]? with
    | none =>
      simp only [hget, Option.some.injEq] at h
      exact h ▸ .refl p
    | some c =>
      simp only [hget] at h
      exact (elimCandidate_basicLogged hranked matched c p).trans (ih h)

theorem elimIdentities_basicLogged (hranked : ∀ id ∈ p.currIdentities, IdentitySet.Ranked id)
    {fuel i : ℕ} (h : elimIdentities player state fuel i p = some q) :
    BasicLogged state.variant p q := by
  induction fuel generalizing i p with
  | zero => simp [elimIdentities] at h
  | succ fuel ih =>
    rw [elimIdentities] at h
    cases hget : p.currIdentities[i]? with
    | none =>
      simp only [hget, Option.some.injEq] at h
      exact h ▸ .refl p
    | some identity =>
      simp only [hget] at h
      cases husable : usableMatches state identity p.toElimState with
      | none =>
        simp only [husable] at h
        exact ih hranked h
      | some matched =>
        simp only [husable] at h
        obtain ⟨p', hp', h⟩ := Option.bind_eq_some_iff.1 h
        have hstep := elimCandidates_basicLogged
          (hranked identity (List.mem_of_getElem? hget)) matched hp'
        exact hstep.trans (ih (hstep.ranked hranked) h)

/-! ### One result -/

theorem elimCandidates_stable (identity : Identity) (matched : List ℕ) (i : ℕ) (p : BasicPass) :
    Fuel.Stable fun fuel => elimCandidates player state identity matched fuel i p := by
  intro fuel q h
  induction fuel generalizing i p with
  | zero => simp [elimCandidates] at h
  | succ fuel ih =>
    simp only [elimCandidates] at h ⊢
    cases hget : p.elimCandidates[i]? with
    | none => simpa only [hget] using h
    | some c =>
      simp only [hget] at h
      exact ih _ _ h

theorem elimIdentities_stable (i : ℕ) (p : BasicPass) :
    Fuel.Stable fun fuel => elimIdentities player state fuel i p := by
  intro fuel q h
  induction fuel generalizing i p with
  | zero => simp [elimIdentities] at h
  | succ fuel ih =>
    simp only at ih h ⊢
    rw [elimIdentities] at h ⊢
    cases hget : p.currIdentities[i]? with
    | none => simpa only [hget] using h
    | some identity =>
      simp only [hget] at h ⊢
      cases husable : usableMatches state identity p.toElimState with
      | none =>
        simp only [husable] at h ⊢
        exact ih _ _ h
      | some matched =>
        simp only [husable] at h ⊢
        obtain ⟨p', hp', h⟩ := Option.bind_eq_some_iff.1 h
        have hnext := elimCandidates_stable identity matched 0 p fuel p' hp'
        exact Option.bind_eq_some_iff.2 ⟨p', hnext, ih _ _ h⟩

theorem basicElim_stable (s : ElimState) :
    Fuel.Stable fun fuel => basicElim player state fuel s := by
  intro fuel r h
  obtain ⟨p, hp, h⟩ := Option.bind_eq_some_iff.1 h
  exact Option.bind_eq_some_iff.2 ⟨p, elimIdentities_stable 0 _ fuel p hp, h⟩

/-- The basic elimination notes every identity that it takes from a card. -/
theorem basicElim_logged {fuel : ℕ} {changed : Bool}
    (h : basicElim player state fuel s = some (changed, t)) :
    Logged state.variant.logCard NoneLost s t := by
  obtain ⟨p, hp, h⟩ := Option.bind_eq_some_iff.1 h
  rw [Option.some.injEq, Prod.mk.injEq] at h
  rw [← h.2]
  have hloop := (elimIdentities_basicLogged (fun id hid => (IdentitySet.mem_array.1 hid).2.1)
    hp).logged
  have hend : Logged state.variant.logCard NoneLost p.toElimState _ :=
    foldl_addToMaps_logged player state Candidate.order (fun c => some c.playerIndex)
      p.elimCandidates p.toElimState
  exact hloop.trans (hend.trans (.of_inferred rfl rfl fun _ => rfl))

end HanabiBot.Elim
