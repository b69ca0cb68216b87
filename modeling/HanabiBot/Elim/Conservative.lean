import HanabiBot.Elim.GoodTouch
import HanabiBot.Lib.Fuel

/-!
# The Good Touch elimination terminates and is conservative

`potential card` bounds what the elimination can still do to one card: the bits
of its inferences and, as long as it was not reset, the bits a reset could bring
back.  Every change of a card lowers it.

* `Invariant` — what holds of the variables at every point, against the thoughts
  that the player started with;
* `Passed` — what `basic_elim` does: every identity it adds to its list is paid
  for by the potential of a card;
* `goodTouchElim_conservative` — the elimination returns, leaves what is possible
  alone, takes inferences out of all cards but the ones it resets, and resets a
  card at most once.
-/

namespace HanabiBot

namespace IdentitySet

theorem value_subtract_le (s : IdentitySet) (mask : ℕ) : (s.subtract mask).value ≤ s.value := by
  have hand : s.value ^^^ (s.value &&& mask) = s.value &&& (s.value ^^^ (s.value &&& mask)) := by
    apply Nat.eq_of_testBit_eq
    intro i
    simp only [Nat.testBit_xor, Nat.testBit_and]
    cases s.value.testBit i <;> cases mask.testBit i <;> rfl
  show s.value ^^^ (s.value &&& mask) ≤ s.value
  rw [hand]
  exact Nat.and_le_left

theorem value_subtract_lt {s : IdentitySet} {id : Identity} (h : s.has id = true) :
    (s.subtract (toMask id)).value < s.value := by
  refine lt_of_le_of_ne (value_subtract_le s _) ?_
  intro heq
  have hhas : (s.subtract (toMask id)).has id = s.has id := by simp [has, heq]
  rw [has_subtract, h, toMask, Nat.testBit_two_pow_self] at hhas
  simp at hhas

theorem value_intersect_le_left (s : IdentitySet) (mask : ℕ) : (s.intersect mask).value ≤ s.value :=
  Nat.and_le_left

end IdentitySet

namespace Elim

/-! ## What can still be done to a card -/

namespace Thought

/-- The bits that a reset can bring back. -/
def cap (card : Thought) : ℕ :=
  card.possible.value + (card.infoLock.map IdentitySet.value).getD 0 +
    (card.oldInferred.map IdentitySet.value).getD 0

/-- A bound on the changes that can still be made to the card. -/
def potential (card : Thought) : ℕ :=
  card.inferred.value + if card.reset then 0 else card.cap + 1

@[simp] theorem resetInferences_possible (card : Thought) :
    card.resetInferences.possible = card.possible :=
  Card.resetInferences_possible card.toCard

@[simp] theorem resetInferences_reset (card : Thought) : card.resetInferences.reset = true :=
  Card.resetInferences_reset card.toCard

/-- A reset infers the possibilities, the lock or the saved inferences, or a part of them. -/
theorem resetInferences_inferred_le (card : Thought) :
    card.resetInferences.inferred.value ≤ card.cap := by
  show card.toCard.resetInferences.inferred.value ≤ _
  have hlock : ∀ lock, card.toCard.intactLock = some lock → lock.value ≤ card.cap := by
    intro lock h
    have hlock := (Card.intactLock_eq_some.1 h).1
    simp only [cap, hlock, Option.map_some, Option.getD_some]
    omega
  have hpossible : card.possible.value ≤ card.cap := by
    simp only [cap]
    omega
  by_cases hf : card.status = some .finessed
  · cases hi : card.toCard.intactLock with
    | some lock =>
      rw [Card.resetInferences_inferred_lock hf hi]
      exact hlock lock hi
    | none =>
      cases ho : card.oldInferred with
      | some old =>
        rw [Card.resetInferences_inferred_saved hf hi ho]
        refine le_trans (IdentitySet.value_intersect_le_left old _) ?_
        simp only [cap, ho, Option.map_some, Option.getD_some]
        omega
      | none =>
        rw [Card.resetInferences_inferred_possible hf hi ho]
        exact hpossible
  · obtain ⟨lock, hi, h, -⟩ | ⟨h, -⟩ := Card.resetInferences_of_not_finessed hf
    · rw [h]
      exact le_trans (IdentitySet.value_intersect_le_left lock _) (hlock lock hi)
    · rw [h]
      exact hpossible

theorem potential_resetInferences {card : Thought} (h : card.reset = false) :
    card.resetInferences.potential < card.potential := by
  have hle := resetInferences_inferred_le card
  simp only [potential, resetInferences_reset, h, if_true, Bool.false_eq_true, if_false]
  omega

/-- Other inferences leave the rest of the potential as it is. -/
theorem potential_inferred (card : Thought) (inferred : IdentitySet) :
    ({ card with inferred := inferred } : Thought).potential + card.inferred.value =
      card.potential + inferred.value := by
  simp only [potential, cap]
  omega

end Thought

/-- The sum of the potentials of the cards in hand. -/
def measure (state : Table) (s : ElimState) : ℕ :=
  ∑ o ∈ state.allOrders.toFinset, (s.thoughts o).potential

namespace ElimState

@[simp] theorem setThought_thoughts_self (s : ElimState) (o : ℕ) (card : Thought) :
    (s.setThought o card).thoughts o = card := by
  simp [setThought]

theorem setThought_thoughts_of_ne (s : ElimState) {o o' : ℕ} (h : o' ≠ o) (card : Thought) :
    (s.setThought o card).thoughts o' = s.thoughts o' := by
  simp [setThought, h]

end ElimState

/-- Writing a card changes the measure by what it changes the card's potential. -/
theorem measure_setThought {state : Table} {o : ℕ} (ho : o ∈ state.allOrders) (s : ElimState)
    (card : Thought) :
    measure state (s.setThought o card) + (s.thoughts o).potential =
      measure state s + card.potential := by
  have ho' : o ∈ state.allOrders.toFinset := List.mem_toFinset.2 ho
  unfold measure
  have hnew := Finset.add_sum_erase _ (fun o' => ((s.setThought o card).thoughts o').potential) ho'
  have hold := Finset.add_sum_erase _ (fun o' => (s.thoughts o').potential) ho'
  have hrest : ∑ o' ∈ state.allOrders.toFinset.erase o, ((s.setThought o card).thoughts o').potential =
      ∑ o' ∈ state.allOrders.toFinset.erase o, (s.thoughts o').potential := by
    refine Finset.sum_congr rfl fun o' ho' => ?_
    rw [ElimState.setThought_thoughts_of_ne s (Finset.ne_of_mem_erase ho')]
  simp only [ElimState.setThought_thoughts_self, hrest] at hnew
  omega

theorem measure_setInferred {state : Table} {o : ℕ} (ho : o ∈ state.allOrders) (s : ElimState)
    (inferred : IdentitySet) :
    measure state (s.setInferred o inferred) + (s.thoughts o).inferred.value =
      measure state s + inferred.value := by
  have hset : measure state (s.setInferred o inferred) + (s.thoughts o).potential =
      measure state s + ({ s.thoughts o with inferred := inferred } : Thought).potential :=
    measure_setThought ho s _
  have hpotential := (s.thoughts o).potential_inferred inferred
  dsimp only at hset hpotential
  omega

/-- Taking inferences away does not raise the measure. -/
theorem measure_subtract_le {state : Table} {o : ℕ} (ho : o ∈ state.allOrders) (s : ElimState)
    (mask : ℕ) :
    measure state (s.setInferred o ((s.thoughts o).inferred.subtract mask)) ≤ measure state s := by
  have hset := measure_setInferred ho s ((s.thoughts o).inferred.subtract mask)
  have hle := IdentitySet.value_subtract_le (s.thoughts o).inferred mask
  omega

/-- Taking away an inference that the card has lowers it. -/
theorem measure_subtract_lt {state : Table} {o : ℕ} (ho : o ∈ state.allOrders) (s : ElimState)
    {id : Identity} (hid : (s.thoughts o).inferred.has id = true) :
    measure state (s.setInferred o ((s.thoughts o).inferred.subtract (IdentitySet.toMask id))) <
      measure state s := by
  have hset := measure_setInferred ho s ((s.thoughts o).inferred.subtract (IdentitySet.toMask id))
  have hlt := IdentitySet.value_subtract_lt hid
  omega

/-- So does a reset, the first time. -/
theorem measure_resetThought {state : Table} {o : ℕ} (ho : o ∈ state.allOrders) (s : ElimState)
    (hreset : (s.thoughts o).reset = false) :
    measure state (s.resetThought o (s.thoughts o)) < measure state s := by
  show measure state (s.setThought o (s.thoughts o).resetInferences) < _
  have hset := measure_setThought ho s (s.thoughts o).resetInferences
  have hpotential := Thought.potential_resetInferences hreset
  omega

/-! ## The invariant -/

/-- What holds of the variables at every point. -/
structure Invariant (player : Observer) (state : Table) (s : ElimState) : Prop where
  possible : ∀ o, (s.thoughts o).possible = (player.thoughts o).possible
  inferred : ∀ o, o ∉ s.resets → (s.thoughts o).inferred.Subset (player.thoughts o).inferred
  resets : ∀ o, s.resets.count o + (player.thoughts o).reset.toNat = (s.thoughts o).reset.toNat
  candidates : ∀ c ∈ s.elimCandidates, c.order ∈ state.allOrders
  cross : ∀ e ∈ s.crossMap, ∀ o ∈ e.2, o ∈ state.allOrders

section

variable {player : Observer} {state : Table} {s : ElimState}

/-- A card with no more inferences than at the start, and any other fields but the ones of the
invariant. -/
theorem Invariant.setThought (hs : Invariant player state s) {o : ℕ} {card : Thought}
    (hpossible : card.possible = (s.thoughts o).possible)
    (hinferred : o ∉ s.resets → card.inferred.Subset (player.thoughts o).inferred)
    (hreset : card.reset = (s.thoughts o).reset) : Invariant player state (s.setThought o card) := by
  refine ⟨?_, ?_, ?_, hs.candidates, hs.cross⟩
  · intro o'
    by_cases h : o' = o
    · subst h
      rw [ElimState.setThought_thoughts_self, hpossible, hs.possible]
    · rw [ElimState.setThought_thoughts_of_ne s h, hs.possible]
  · intro o' ho'
    by_cases h : o' = o
    · subst h
      rw [ElimState.setThought_thoughts_self]
      exact hinferred ho'
    · rw [ElimState.setThought_thoughts_of_ne s h]
      exact hs.inferred o' ho'
  · intro o'
    show s.resets.count o' + _ = _
    rw [hs.resets o']
    by_cases h : o' = o
    · subst h
      rw [ElimState.setThought_thoughts_self, hreset]
    · rw [ElimState.setThought_thoughts_of_ne s h]

theorem Invariant.setInferred (hs : Invariant player state s) (o mask : ℕ) :
    Invariant player state (s.setInferred o ((s.thoughts o).inferred.subtract mask)) :=
  hs.setThought rfl (fun ho => (IdentitySet.subtract_subset _ _).trans (hs.inferred o ho)) rfl

theorem Invariant.addElim (hs : Invariant player state s) (idHash : Variant.CardName) (o : ℕ) :
    Invariant player state (s.addElim idHash o) :=
  ⟨hs.possible, hs.inferred, hs.resets, hs.candidates, hs.cross⟩

/-- A reset of a card that was not reset yet. -/
theorem Invariant.resetThought (hs : Invariant player state s) {o : ℕ} {card : Thought}
    (hpossible : card.possible = (s.thoughts o).possible)
    (hreset : (s.thoughts o).reset = false) :
    Invariant player state (s.resetThought o card) := by
  have hthoughts : (s.resetThought o card).thoughts = (s.setThought o card.resetInferences).thoughts :=
    rfl
  have hresets : (s.resetThought o card).resets = s.resets ++ [o] := rfl
  refine ⟨?_, ?_, ?_, hs.candidates, hs.cross⟩
  · intro o'
    rw [hthoughts]
    by_cases h : o' = o
    · subst h
      rw [ElimState.setThought_thoughts_self, Thought.resetInferences_possible, hpossible, hs.possible]
    · rw [ElimState.setThought_thoughts_of_ne s h, hs.possible]
  · intro o' ho'
    rw [hresets, List.mem_append, not_or, List.mem_singleton] at ho'
    rw [hthoughts, ElimState.setThought_thoughts_of_ne s ho'.2]
    exact hs.inferred o' ho'.1
  · intro o'
    have hcount := hs.resets o'
    rw [hthoughts, hresets, List.count_append]
    by_cases h : o' = o
    · subst h
      rw [hreset] at hcount
      rw [ElimState.setThought_thoughts_self, Thought.resetInferences_reset]
      simp only [Bool.toNat_false, Bool.toNat_true, List.count_singleton_self] at hcount ⊢
      omega
    · rw [ElimState.setThought_thoughts_of_ne s h]
      simpa [Ne.symm h] using hcount

/-! ## Recording matches -/

theorem mem_addOrder {orders : Option (List ℕ)} {o o' : ℕ} (h : o' ∈ addOrder orders o) :
    o' ∈ orders.getD [] ∨ o' = o := by
  unfold addOrder at h
  split at h
  · exact .inl h
  · simpa using h

theorem addCross_orders {crossMap : List (ℕ × List ℕ)} {value o : ℕ} {P : ℕ → Prop} (ho : P o)
    (h : ∀ e ∈ crossMap, ∀ o' ∈ e.2, P o') : ∀ e ∈ addCross crossMap value o, ∀ o' ∈ e.2, P o' := by
  intro e he o' ho'
  unfold addCross at he
  split at he
  · obtain ⟨e₀, he₀, rfl⟩ := List.mem_map.1 he
    split at ho'
    · obtain hmem | rfl := mem_addOrder ho'
      · exact h e₀ he₀ o' hmem
      · exact ho
    · exact h e₀ he₀ o' ho'
  · rw [List.mem_append, List.mem_singleton] at he
    obtain he | rfl := he
    · exact h e he o' ho'
    · have ho' : o' ∈ addOrder none o := ho'
      obtain hmem | rfl := mem_addOrder ho'
      · simp at hmem
      · exact ho

/-- What recording a match leaves as it is. -/
structure SameThoughts (s t : ElimState) : Prop where
  thoughts : t.thoughts = s.thoughts
  resets : t.resets = s.resets
  candidates : t.elimCandidates = s.elimCandidates

theorem SameThoughts.invariant {t : ElimState} (h : SameThoughts s t) (hs : Invariant player state s)
    (hcross : ∀ e ∈ t.crossMap, ∀ o ∈ e.2, o ∈ state.allOrders) : Invariant player state t := by
  obtain ⟨hthoughts, hresets, hcandidates⟩ := h
  refine ⟨?_, ?_, ?_, ?_, hcross⟩
  · rw [hthoughts]
    exact hs.possible
  · rw [hthoughts, hresets]
    exact hs.inferred
  · rw [hthoughts, hresets]
    exact hs.resets
  · rw [hcandidates]
    exact hs.candidates

theorem SameThoughts.measure {t : ElimState} (h : SameThoughts s t) :
    measure state t = measure state s := by
  unfold Elim.measure
  rw [h.thoughts]

theorem addToMaps_same (player : Observer) (state : Table) (o : ℕ) (holder : Option ℕ)
    (s : ElimState) : SameThoughts s (addToMaps player state o holder s) := by
  unfold addToMaps
  dsimp only
  split
  · exact ⟨rfl, rfl, rfl⟩
  · split
    · split <;> exact ⟨rfl, rfl, rfl⟩
    · exact ⟨rfl, rfl, rfl⟩

theorem addToMaps_cross {o : ℕ} (ho : o ∈ state.allOrders) (holder : Option ℕ)
    (h : ∀ e ∈ s.crossMap, ∀ o ∈ e.2, o ∈ state.allOrders) :
    ∀ e ∈ (addToMaps player state o holder s).crossMap, ∀ o ∈ e.2, o ∈ state.allOrders := by
  unfold addToMaps
  dsimp only
  split
  · exact h
  · split
    · split
      · exact addCross_orders ho h
      · exact h
    · exact h

theorem Invariant.addToMaps (hs : Invariant player state s) {o : ℕ} (ho : o ∈ state.allOrders)
    (holder : Option ℕ) : Invariant player state (addToMaps player state o holder s) :=
  (addToMaps_same player state o holder s).invariant hs (addToMaps_cross ho holder hs.cross)

/-- Recording the matches of a list of cards in hand. -/
theorem foldl_addToMaps {α : Type} (order : α → ℕ) (holder : α → Option ℕ) {l : List α}
    (hl : ∀ a ∈ l, order a ∈ state.allOrders) (hs : Invariant player state s) :
    let t := l.foldl (fun s a => Elim.addToMaps player state (order a) (holder a) s) s
    Invariant player state t ∧ measure state t = measure state s := by
  induction l generalizing s with
  | nil => exact ⟨hs, rfl⟩
  | cons a l ih =>
    have hstep := hs.addToMaps (hl a List.mem_cons_self) (holder a)
    obtain ⟨hinv, hmeasure⟩ := ih (fun b hb => hl b (List.mem_cons_of_mem a hb)) hstep
    refine ⟨hinv, ?_⟩
    rw [List.foldl_cons, hmeasure, (addToMaps_same player state (order a) (holder a) s).measure]

/-! ## Before the first pass -/

theorem addCandidate_spec (hs : Invariant player state s) {i o : ℕ} (ho : o ∈ state.allOrders)
    (hfresh : s.thoughts o = player.thoughts o) :
    Invariant player state (addCandidate player state i o s) ∧
      ∀ o' ≠ o, (addCandidate player state i o s).thoughts o' = s.thoughts o' := by
  obtain ⟨hthoughts, -, -⟩ := addToMaps_same player state o (some i) s
  have hs' := hs.addToMaps ho (some i)
  unfold addCandidate
  dsimp only
  split
  · exact ⟨hs', fun o' _ => by rw [hthoughts]⟩
  split
  · have hadd : Invariant player state { addToMaps player state o (some i) s with
        elimCandidates := (addToMaps player state o (some i) s).elimCandidates ++
          [⟨o, i, !(player.thoughts o).touched && player.playerIndex.isNone⟩] } := by
      refine ⟨hs'.possible, hs'.inferred, hs'.resets, ?_, hs'.cross⟩
      intro c hc
      rw [List.mem_append, List.mem_singleton] at hc
      obtain hc | rfl := hc
      · exact hs'.candidates c hc
      · exact ho
    split
    · split
      · rename_i hreset
        simp only [Bool.and_eq_true, Bool.not_eq_true'] at hreset
        refine ⟨hadd.resetThought (hadd.possible o).symm ?_, fun o' ho' => ?_⟩
        · show ((addToMaps player state o (some i) s).thoughts o).reset = false
          rw [hthoughts, hfresh]
          exact hreset.2
        · show Function.update _ _ _ _ = _
          rw [Function.update_of_ne ho', hthoughts]
      · refine ⟨hadd.setThought rfl (fun _ => IdentitySet.subtract_subset _ _) rfl, fun o' ho' => ?_⟩
        show Function.update _ _ _ _ = _
        rw [Function.update_of_ne ho', hthoughts]
    · exact ⟨hadd, fun o' _ => by rw [hthoughts]⟩
  · exact ⟨hs', fun o' _ => by rw [hthoughts]⟩

/-- The cards that the loops before the first pass go through. -/
def visited (player : Observer) (state : Table) (onlySelf : Bool) : List (ℕ × ℕ) :=
  (List.range state.numPlayers).flatMap fun i =>
    if onlySelf && some i != player.playerIndex then [] else (state.hands i).map (Prod.mk i)

theorem visited_sublist (player : Observer) (state : Table) (onlySelf : Bool) :
    ((visited player state onlySelf).map Prod.snd).Sublist state.allOrders := by
  unfold visited State.allOrders
  rw [List.map_flatMap]
  refine List.Sublist.flatMap_right _ fun i _ => ?_
  split
  · simp
  · simp [Function.comp_def]

theorem initialState_eq (player : Observer) (state : Table) (onlySelf : Bool) :
    initialState player state onlySelf =
      (visited player state onlySelf).foldl (fun s p => addCandidate player state p.1 p.2 s)
        { thoughts := player.thoughts
          elims := player.elims
          identities := (handIdentities player state).subtract
            (IdentitySet.identitiesToMask (trashIds player state)) } := by
  unfold initialState visited
  rw [List.foldl_flatMap]
  congr 1
  funext s i
  split
  · rfl
  · rw [List.foldl_map]

theorem foldl_addCandidate {l : List (ℕ × ℕ)} (hs : Invariant player state s)
    (hl : ∀ p ∈ l, p.2 ∈ state.allOrders)
    (hnodup : (l.map Prod.snd).Nodup) (hfresh : ∀ p ∈ l, s.thoughts p.2 = player.thoughts p.2) :
    Invariant player state (l.foldl (fun s p => addCandidate player state p.1 p.2 s) s) := by
  induction l generalizing s with
  | nil => exact hs
  | cons p l ih =>
    obtain ⟨hp, hnodup⟩ := List.nodup_cons.1 hnodup
    obtain ⟨hinv, hrest⟩ := addCandidate_spec hs (i := p.1) (hl p List.mem_cons_self)
      (hfresh p List.mem_cons_self)
    refine ih hinv (fun q hq => hl q (List.mem_cons_of_mem p hq)) hnodup fun q hq => ?_
    have hne : q.2 ≠ p.2 := by
      intro heq
      exact hp (heq ▸ List.mem_map_of_mem hq)
    rw [hrest q.2 hne]
    exact hfresh q (List.mem_cons_of_mem p hq)

theorem initialState_invariant (player : Observer) (state : Table) (onlySelf : Bool) :
    Invariant player state (initialState player state onlySelf) := by
  have hsub := visited_sublist player state onlySelf
  rw [initialState_eq]
  refine foldl_addCandidate ?_ (fun p hp => hsub.subset (List.mem_map_of_mem hp))
    (state.nodup.sublist hsub) (fun _ _ => rfl)
  refine ⟨fun _ => rfl, fun o _ => IdentitySet.Subset.refl _, fun o => ?_, by simp, by simp⟩
  simp

/-! ## `basic_elim` -/

/-- What the loops of `basic_elim` do: an identity added to the list is paid for by the measure. -/
structure Passed (player : Observer) (state : Table) (s t : BasicPass) : Prop where
  invariant : Invariant player state t.toElimState
  paid : measure state t.toElimState + t.currIdentities.length ≤
    measure state s.toElimState + s.currIdentities.length
  grown : s.currIdentities.length ≤ t.currIdentities.length
  candidates : t.elimCandidates.length ≤ s.elimCandidates.length
  changed : t.changed = true → s.changed = true ∨
    measure state t.toElimState < measure state s.toElimState

variable {p q r : BasicPass}

theorem Passed.refl (hp : Invariant player state p.toElimState) : Passed player state p p :=
  ⟨hp, le_rfl, le_rfl, le_rfl, .inl⟩

theorem Passed.trans (hpq : Passed player state p q) (hqr : Passed player state q r) :
    Passed player state p r := by
  refine ⟨hqr.invariant, hqr.paid.trans hpq.paid, hpq.grown.trans hqr.grown,
    hqr.candidates.trans hpq.candidates, fun h => ?_⟩
  have hpaid := hpq.paid
  have hpaid' := hqr.paid
  have hgrown := hpq.grown
  have hgrown' := hqr.grown
  obtain hq | hlt := hqr.changed h
  · obtain hp | hlt := hpq.changed hq
    · exact .inl hp
    · exact .inr (by omega)
  · exact .inr (by omega)

theorem dropCandidate_passed (hp : Invariant player state p.toElimState) (o : ℕ) :
    Passed player state p (p.dropCandidate o) := by
  refine ⟨⟨hp.possible, hp.inferred, hp.resets, ?_, hp.cross⟩, le_rfl, le_rfl, ?_, .inl⟩
  · intro c hc
    exact hp.candidates c (List.mem_of_mem_eraseP hc)
  · exact List.length_eraseP_le

/-- A lower measure pays for one more identity. -/
theorem Passed.of_lt (hq : Invariant player state q.toElimState)
    (hlt : measure state q.toElimState < measure state p.toElimState)
    (hcurr : q.currIdentities = p.currIdentities ∨ ∃ id, q.currIdentities = p.currIdentities ++ [id])
    (hcandidates : q.elimCandidates = p.elimCandidates) : Passed player state p q := by
  have hlength : q.currIdentities.length = p.currIdentities.length ∨
      q.currIdentities.length = p.currIdentities.length + 1 := by
    obtain h | ⟨id, h⟩ := hcurr
    · simp [h]
    · simp [h]
  exact ⟨hq, by omega, by omega, by rw [hcandidates], fun _ => .inr hlt⟩

theorem pushEliminated_passed (hq : Invariant player state q.toElimState)
    (hlt : measure state q.toElimState < measure state p.toElimState)
    (hcurr : q.currIdentities = p.currIdentities) (hcandidates : q.elimCandidates = p.elimCandidates)
    (oldInferred newInferred : IdentitySet) :
    Passed player state p (pushEliminated state oldInferred newInferred q) := by
  unfold pushEliminated
  split
  · split
    · exact .of_lt hq hlt (.inr ⟨_, congrArg (· ++ _) hcurr⟩) hcandidates
    · exact .of_lt hq hlt (.inl hcurr) hcandidates
  · exact .of_lt hq hlt (.inl hcurr) hcandidates

theorem eliminate_passed (hp : Invariant player state p.toElimState) {identity : Identity}
    {c : Candidate} (hc : c ∈ p.elimCandidates)
    (hid : (p.thoughts c.order).inferred.has identity = true) :
    Passed player state p (eliminate state identity c p) := by
  have ho := hp.candidates c hc
  have hinv := (hp.setInferred c.order (IdentitySet.toMask identity)).addElim
    (state.variant.logCard identity) c.order
  have hlt : measure state ((p.setInferred c.order ((p.thoughts c.order).inferred.subtract
      (IdentitySet.toMask identity))).addElim (state.variant.logCard identity) c.order) < measure state p.toElimState :=
    measure_subtract_lt ho p.toElimState hid
  have hreset : (((p.setInferred c.order ((p.thoughts c.order).inferred.subtract
      (IdentitySet.toMask identity))).addElim (state.variant.logCard identity) c.order).thoughts c.order).reset =
      (p.thoughts c.order).reset := by
    simp [ElimState.addElim, ElimState.setInferred]
  have hcandidates : ((p.setInferred c.order ((p.thoughts c.order).inferred.subtract
      (IdentitySet.toMask identity))).addElim (state.variant.logCard identity) c.order).elimCandidates =
      p.elimCandidates := rfl
  unfold eliminate
  dsimp only
  generalize (p.setInferred c.order ((p.thoughts c.order).inferred.subtract
    (IdentitySet.toMask identity))).addElim (state.variant.logCard identity) c.order = s at hinv hlt hreset hcandidates ⊢
  split
  · exact .of_lt hinv hlt (.inl rfl) hcandidates
  split
  · rename_i hcond
    simp only [Bool.and_eq_true, Bool.not_eq_true', ← hreset] at hcond
    exact .of_lt (hinv.resetThought rfl hcond.2)
      ((measure_resetThought ho s hcond.2).trans hlt) (.inl rfl) hcandidates
  · refine pushEliminated_passed ?_ ?_ ?_ ?_ _ _
    · exact hinv
    · exact hlt
    · rfl
    · exact hcandidates

theorem elimCandidate_passed (hp : Invariant player state p.toElimState) (identity : Identity)
    (matched : List ℕ) {c : Candidate} (hc : c ∈ p.elimCandidates) :
    Passed player state p (elimCandidate player state identity matched c p) := by
  unfold elimCandidate
  dsimp only
  split
  · exact .refl hp
  rename_i hmatch
  simp only [Bool.or_eq_true, Bool.not_eq_true', not_or, Bool.not_eq_false] at hmatch
  split
  · exact .refl hp
  split
  · exact .refl hp
  split
  · -- only `certain_finessed` is written
    have hinv : Invariant player state
        (p.setThought c.order { p.thoughts c.order with certainFinessed := true }) :=
      hp.setThought rfl (hp.inferred c.order) rfl
    have hset : measure state (p.setThought c.order
          { p.thoughts c.order with certainFinessed := true }) + (p.thoughts c.order).potential =
        measure state p.toElimState + (p.thoughts c.order).potential :=
      measure_setThought (hp.candidates c hc) p.toElimState _
    have hwrite : Passed player state p { p with
        toElimState := (p.setThought c.order { p.thoughts c.order with certainFinessed := true }) } :=
      ⟨hinv, by dsimp only at hset ⊢; omega, le_rfl, le_rfl, .inl⟩
    exact hwrite.trans (dropCandidate_passed hinv c.order)
  split
  · exact dropCandidate_passed hp c.order
  split
  · exact .refl hp
  · exact eliminate_passed hp hc hmatch.2

/-- The loop over the candidates ends: its index grows and the list does not. -/
theorem elimCandidates_returns (identity : Identity) (matched : List ℕ) :
    ∀ (k i : ℕ) (p : BasicPass), p.elimCandidates.length - i ≤ k →
      Invariant player state p.toElimState →
        Fuel.Returns (fun fuel => elimCandidates player state identity matched fuel i p)
          (Passed player state p) := by
  intro k
  induction k with
  | zero =>
    intro i p hk hp
    have hnone : p.elimCandidates[i]? = none := List.getElem?_eq_none (by omega)
    refine Fuel.Returns.step (fun fuel => ?_) (.pure (.refl hp))
    simp only [elimCandidates, hnone]
  | succ k ih =>
    intro i p hk hp
    cases hget : p.elimCandidates[i]? with
    | none =>
      refine Fuel.Returns.step (fun fuel => ?_) (.pure (.refl hp))
      simp only [elimCandidates, hget]
    | some c =>
      have hstep := elimCandidate_passed hp identity matched (List.mem_of_getElem? hget)
      have hi := (List.getElem?_eq_some_iff.1 hget).1
      have hlength := hstep.candidates
      refine Fuel.Returns.step (fun fuel => ?_)
        ((ih (i + 1) _ (by omega) hstep.invariant).mono fun _ hrest => hstep.trans hrest)
      simp only [elimCandidates, hget]

/-- The loop over the identities ends: what is left of the list and the measure go down together. -/
theorem elimIdentities_returns :
    ∀ (k i : ℕ) (p : BasicPass),
      measure state p.toElimState + p.currIdentities.length - i ≤ k →
        Invariant player state p.toElimState →
          Fuel.Returns (fun fuel => elimIdentities player state fuel i p)
            (Passed player state p) := by
  intro k
  induction k with
  | zero =>
    intro i p hk hp
    have hnone : p.currIdentities[i]? = none := List.getElem?_eq_none (by omega)
    refine Fuel.Returns.step (fun fuel => ?_) (.pure (.refl hp))
    simp only [elimIdentities, hnone]
  | succ k ih =>
    intro i p hk hp
    cases hget : p.currIdentities[i]? with
    | none =>
      refine Fuel.Returns.step (fun fuel => ?_) (.pure (.refl hp))
      simp only [elimIdentities, hget]
    | some identity =>
      have hi := (List.getElem?_eq_some_iff.1 hget).1
      cases husable : usableMatches state identity p.toElimState with
      | none =>
        refine Fuel.Returns.step (fun fuel => ?_) (ih (i + 1) p (by omega) hp)
        simp only [elimIdentities, hget, husable]
      | some matched =>
        refine Fuel.Returns.step (fun fuel => ?_)
          ((elimCandidates_returns identity matched _ 0 p le_rfl hp).bind
            (k := fun q fuel => elimIdentities player state fuel (i + 1) q) fun q hpq => ?_)
        · simp only [elimIdentities, hget, husable]
        · have hpaid := hpq.paid
          exact (ih (i + 1) q (by omega) hpq.invariant).mono fun _ hrest => hpq.trans hrest

/-- What a pass does to the variables: a change lowers the measure. -/
structure Progress (player : Observer) (state : Table) (s : ElimState) (r : Bool × ElimState) :
    Prop where
  invariant : Invariant player state r.2
  measure_le : measure state r.2 ≤ measure state s
  changed : r.1 = true → measure state r.2 < measure state s

theorem basicElim_returns (hs : Invariant player state s) :
    Fuel.Returns (fun fuel => basicElim player state fuel s) (Progress player state s) := by
  unfold basicElim
  refine (elimIdentities_returns _ 0 _ le_rfl hs).bind fun p hp => .pure ?_
  obtain ⟨hinv, hmeasure⟩ := foldl_addToMaps Candidate.order (fun c => some c.playerIndex)
    hp.invariant.candidates hp.invariant
  have hpaid := hp.paid
  have hgrown := hp.grown
  have hfinish : measure state (finishBasic player state p) = measure state p.toElimState := hmeasure
  refine ⟨⟨hinv.possible, hinv.inferred, hinv.resets, hinv.candidates, hinv.cross⟩, ?_, fun h => ?_⟩
  · show measure state (finishBasic player state p) ≤ measure state s
    dsimp only at hpaid hgrown
    omega
  · show measure state (finishBasic player state p) < measure state s
    obtain hfalse | hlt := hp.changed h
    · simp at hfalse
    · exact hfinish ▸ hlt

/-! ## `cross_elim` -/

/-- What the double loop does: it takes an inference from a card, or leaves the state. -/
structure Crossed (player : Observer) (state : Table) (s t : ElimState) : Prop where
  invariant : Invariant player state t
  measure_le : measure state t ≤ measure state s
  crossMap : t.crossMap = s.crossMap

theorem Crossed.refl (hs : Invariant player state s) : Crossed player state s s :=
  ⟨hs, le_rfl, rfl⟩

theorem Crossed.trans {t u : ElimState} (hst : Crossed player state s t)
    (htu : Crossed player state t u) : Crossed player state s u :=
  ⟨htu.invariant, htu.measure_le.trans hst.measure_le, htu.crossMap.trans hst.crossMap⟩

/-- The double loop between the state `s` and the pair `r`, with the card `o` in the inner loop:
as long as nothing has changed, the card is still the one that was fetched. -/
theorem crossPair_spec {o : ℕ} (ho : o ∈ state.allOrders) (isNew : Bool) {card : Thought}
    {r : ElimState × Bool} (hr : Crossed player state s r.1)
    (hchanged : r.2 = true → measure state r.1 < measure state s)
    (hfetched : r.2 = true ∨ r.1.thoughts o = card) (o2 : ℕ) :
    let r' := crossPair state isNew card o r o2
    Crossed player state s r'.1 ∧ (r'.2 = true → measure state r'.1 < measure state s) ∧
      (r'.2 = true ∨ r'.1.thoughts o = card) := by
  unfold crossPair
  dsimp only
  split
  · exact ⟨hr, hchanged, hfetched⟩
  split
  · exact ⟨hr, hchanged, hfetched⟩
  split
  · rename_i id _ _ hcond
    have hle := measure_subtract_le ho r.1 (IdentitySet.toMask id)
    have hstep : Crossed player state r.1 (r.1.setInferred o
        ((r.1.thoughts o).inferred.subtract (IdentitySet.toMask id))) :=
      ⟨hr.invariant.setInferred o _, hle, rfl⟩
    refine ⟨hr.trans hstep, fun _ => ?_, .inl rfl⟩
    obtain hlt | hcard := hfetched
    · exact hle.trans_lt (hchanged hlt)
    · have hhas : (r.1.thoughts o).inferred.has id = true := by
        simp only [hcard, Bool.cond_self, Bool.and_eq_true] at hcond ⊢
        exact hcond.2
      exact (measure_subtract_lt ho r.1 hhas).trans_le hr.measure_le
  · exact ⟨hr, hchanged, hfetched⟩

theorem crossCard_spec (orders : List ℕ) {o : ℕ} (ho : o ∈ state.allOrders) {r : ElimState × Bool}
    (hr : Crossed player state s r.1) (hchanged : r.2 = true → measure state r.1 < measure state s) :
    let r' := crossCard state orders r o
    Crossed player state s r'.1 ∧ (r'.2 = true → measure state r'.1 < measure state s) := by
  have hinner : ∀ (l : List ℕ) (isNew : Bool) (card : Thought) (q : ElimState × Bool),
      Crossed player state s q.1 → (q.2 = true → measure state q.1 < measure state s) →
        (q.2 = true ∨ q.1.thoughts o = card) →
          Crossed player state s (l.foldl (crossPair state isNew card o) q).1 ∧
            ((l.foldl (crossPair state isNew card o) q).2 = true →
              measure state (l.foldl (crossPair state isNew card o) q).1 < measure state s) := by
    intro l isNew card
    induction l with
    | nil =>
      intro q hq hlt _
      exact ⟨hq, hlt⟩
    | cons o2 l ih =>
      intro q hq hlt hfetched
      obtain ⟨hq', hlt', hfetched'⟩ := crossPair_spec ho isNew hq hlt hfetched o2
      exact ih _ hq' hlt' hfetched'
  exact hinner orders (r.1.isNew o) (r.1.thoughts o) r hr hchanged (.inr rfl)

theorem crossSet_spec (hs : Invariant player state s) {orders : List ℕ}
    (horders : ∀ o ∈ orders, o ∈ state.allOrders) :
    Crossed player state s (crossSet state orders s).1 ∧
      ((crossSet state orders s).2 = true →
        measure state (crossSet state orders s).1 < measure state s) := by
  have houter : ∀ (l : List ℕ) (r : ElimState × Bool), (∀ o ∈ l, o ∈ state.allOrders) →
      Crossed player state s r.1 → (r.2 = true → measure state r.1 < measure state s) →
        Crossed player state s (l.foldl (crossCard state orders) r).1 ∧
          ((l.foldl (crossCard state orders) r).2 = true →
            measure state (l.foldl (crossCard state orders) r).1 < measure state s) := by
    intro l
    induction l with
    | nil =>
      intro r _ hr hlt
      exact ⟨hr, hlt⟩
    | cons o l ih =>
      intro r hl hr hlt
      obtain ⟨hr', hlt'⟩ := crossCard_spec orders (hl o List.mem_cons_self) hr hlt
      exact ih _ (fun o' ho' => hl o' (List.mem_cons_of_mem o ho')) hr' hlt'
  exact houter orders (s, false) horders (.refl hs) (by simp)

theorem readd_spec (hs : Invariant player state s) (i : ℕ) {orders : List ℕ}
    (horders : ∀ o ∈ orders, o ∈ state.allOrders) :
    Invariant player state (readd player state i orders s) ∧
      measure state (readd player state i orders s) = measure state s := by
  have herase : Invariant player state { s with crossMap := s.crossMap.eraseIdx i } :=
    ⟨hs.possible, hs.inferred, hs.resets, hs.candidates,
      fun e he => hs.cross e (List.mem_of_mem_eraseIdx he)⟩
  exact foldl_addToMaps (fun o => o) state.holder horders herase

/-- The loop over `cross_map` ends: a change lowers the measure, and without one there are fewer
entries left. -/
theorem crossSets_returns :
    ∀ (m k i : ℕ) (changed : Bool) (s : ElimState), measure state s ≤ m →
      s.crossMap.length - i ≤ k → Invariant player state s →
        Fuel.Returns (fun fuel => crossSets player state fuel i changed s) fun r =>
          Invariant player state r.2 ∧ measure state r.2 ≤ measure state s ∧
            (r.1 = true → changed = true ∨ measure state r.2 < measure state s) := by
  intro m
  induction m using Nat.strong_induction_on with
  | h m ihm =>
  intro k
  induction k with
  | zero =>
    intro i changed s _ hk hs
    have hnone : s.crossMap[i]? = none := List.getElem?_eq_none (by omega)
    refine Fuel.Returns.step (fun fuel => ?_) (.pure (a := (changed, s)) ⟨hs, le_rfl, .inl⟩)
    simp only [crossSets, hnone]
  | succ k ihk =>
    intro i changed s hm hk hs
    cases hget : s.crossMap[i]? with
    | none =>
      refine Fuel.Returns.step (fun fuel => ?_) (.pure (a := (changed, s)) ⟨hs, le_rfl, .inl⟩)
      simp only [crossSets, hget]
    | some e =>
      obtain ⟨idens, orders⟩ := e
      have hi := (List.getElem?_eq_some_iff.1 hget).1
      have horders : ∀ o ∈ orders, o ∈ state.allOrders := hs.cross _ (List.mem_of_getElem? hget)
      by_cases hlength : orders.length ≠ (IdentitySet.mk state.variant.suits.length idens).length
      · refine Fuel.Returns.step (fun fuel => ?_) (ihk (i + 1) changed s hm (by omega) hs)
        simp only [crossSets, hget, if_pos hlength]
      obtain ⟨hcrossed, hlt⟩ := crossSet_spec hs horders
      cases hchange : (crossSet state orders s).2 with
      | false =>
        have hle := hcrossed.measure_le
        refine Fuel.Returns.step (fun fuel => ?_)
          ((ihk (i + 1) changed (crossSet state orders s).1 (by omega)
            (by rw [hcrossed.crossMap]; omega) hcrossed.invariant).mono ?_)
        · simp only [crossSets, hget, if_neg hlength, hchange, Bool.false_eq_true, if_false]
        · rintro r ⟨hr, hrle, hrchanged⟩
          exact ⟨hr, hrle.trans hle, fun h => (hrchanged h).imp_right fun hr => hr.trans_le hle⟩
      | true =>
        have hdown := hlt hchange
        obtain ⟨hreadd, hmeasure⟩ := readd_spec hcrossed.invariant i horders
        refine Fuel.Returns.step (fun fuel => ?_)
          ((ihm _ (hmeasure ▸ hdown.trans_le hm) _ i true _ le_rfl le_rfl hreadd).mono ?_)
        · simp only [crossSets, hget, if_neg hlength, hchange, if_true]
        · rintro r ⟨hr, hrle, -⟩
          have hrlt : measure state r.2 < measure state s := by omega
          exact ⟨hr, hrlt.le, fun _ => .inr hrlt⟩

theorem crossElim_returns (hs : Invariant player state s) :
    Fuel.Returns (fun fuel => crossElim player state fuel s) (Progress player state s) := by
  refine (crossSets_returns _ _ 0 false s le_rfl le_rfl hs).mono ?_
  rintro r ⟨hr, hle, hchanged⟩
  exact ⟨hr, hle, fun h => (hchanged h).resolve_left (by simp)⟩

/-! ## The rounds -/

theorem elimRounds_done (hs : Invariant player state s) :
    Fuel.Returns (fun fuel => elimRounds player state fuel false false s)
      (Invariant player state) := by
  refine Fuel.Returns.step (fun fuel => ?_) (.pure hs)
  simp only [elimRounds, Bool.or_self, Bool.false_eq_true, if_false]

/-- The rounds end: all but the last lower the measure. -/
theorem elimRounds_returns :
    ∀ (m : ℕ) (basicChanged crossChanged : Bool) (s : ElimState), measure state s ≤ m →
      Invariant player state s →
        Fuel.Returns (fun fuel => elimRounds player state fuel basicChanged crossChanged s)
          (Invariant player state) := by
  intro m
  induction m using Nat.strong_induction_on with
  | h m ih =>
  intro basicChanged crossChanged s hm hs
  -- a round that lowered the measure goes on, one that changed nothing is the last
  have hnext : ∀ (b c : Bool) (t : ElimState), Invariant player state t →
      (b = true ∨ c = true → measure state t < measure state s) →
        Fuel.Returns (fun fuel => elimRounds player state fuel b c t) (Invariant player state) := by
    intro b c t ht hlt
    by_cases hbc : b = true ∨ c = true
    · exact ih _ ((hlt hbc).trans_le hm) b c t le_rfl ht
    · rw [not_or, Bool.not_eq_true, Bool.not_eq_true] at hbc
      rw [hbc.1, hbc.2]
      exact elimRounds_done ht
  cases hchanged : basicChanged || crossChanged with
  | false =>
    rw [Bool.or_eq_false_iff] at hchanged
    rw [hchanged.1, hchanged.2]
    exact elimRounds_done hs
  | true =>
    refine Fuel.Returns.step (fun fuel => ?_) ((basicElim_returns hs).bind
      (k := fun r fuel => if r.1 || crossChanged then
        (crossElim player state fuel r.2).bind fun r' =>
          elimRounds player state fuel r.1 r'.1 r'.2
        else elimRounds player state fuel r.1 crossChanged r.2) fun r hr => ?_)
    · simp only [elimRounds, hchanged, if_true]
    · have hle := hr.measure_le
      cases hcross : r.1 || crossChanged with
      | true =>
        simp only [if_true]
        refine (crossElim_returns hr.invariant).bind
          (k := fun r' fuel => elimRounds player state fuel r.1 r'.1 r'.2) fun r' hr' => ?_
        have hle' := hr'.measure_le
        refine hnext r.1 r'.1 r'.2 hr'.invariant ?_
        rintro (h | h)
        · exact hle'.trans_lt (hr.changed h)
        · exact (hr'.changed h).trans_le hle
      | false =>
        rw [Bool.or_eq_false_iff] at hcross
        simp only [Bool.false_eq_true, if_false]
        refine hnext r.1 crossChanged r.2 hr.invariant ?_
        rintro (h | h)
        · exact hr.changed h
        · rw [hcross.2] at h
          cases h

/-- The elimination returns, with what its last round leaves. -/
theorem goodTouchElim_returns (player : Observer) (state : Table) (onlySelf : Bool) :
    Fuel.Returns (goodTouchElim player state onlySelf) fun r =>
      ∃ s : ElimState, Invariant player state s ∧ r.1.thoughts = s.thoughts ∧ r.2 = s.resets := by
  unfold goodTouchElim
  refine (basicElim_returns (initialState_invariant player state onlySelf)).bind fun r hr => ?_
  refine (crossElim_returns hr.invariant).bind fun r' hr' => ?_
  refine (elimRounds_returns _ r.1 r'.1 r'.2 le_rfl hr'.invariant).bind fun s hs => .pure ?_
  exact ⟨s, hs, rfl, rfl⟩

/-- For every player and state the elimination returns: nothing possible changes, a card that was
not reset has no new inferences, and a card is reset at most once, from not having been reset. -/
theorem goodTouchElim_conservative (player : Observer) (state : Table) (onlySelf : Bool) :
    Fuel.Returns (goodTouchElim player state onlySelf) fun r =>
      (∀ o, (r.1.thoughts o).possible = (player.thoughts o).possible) ∧
      (∀ o, o ∉ r.2 → (r.1.thoughts o).inferred.Subset (player.thoughts o).inferred) ∧
      r.2.Nodup ∧ ∀ o ∈ r.2, (player.thoughts o).reset = false ∧ (r.1.thoughts o).reset = true := by
  refine (goodTouchElim_returns player state onlySelf).mono ?_
  rintro r ⟨s, hs, hthoughts, hresets⟩
  rw [hthoughts, hresets]
  refine ⟨hs.possible, hs.inferred, ?_, fun o ho => ?_⟩
  · rw [List.nodup_iff_count_le_one]
    intro o
    have hcount := hs.resets o
    have hle := Bool.toNat_le (s.thoughts o).reset
    show s.resets.count o ≤ 1
    omega
  · have hcount := hs.resets o
    have hpos : 0 < s.resets.count o := List.count_pos_iff.2 ho
    show (player.thoughts o).reset = false ∧ (s.thoughts o).reset = true
    cases hbefore : (player.thoughts o).reset
    · cases hafter : (s.thoughts o).reset
      · simp [hbefore, hafter] at hcount
        omega
      · exact ⟨rfl, rfl⟩
    · have hle := Bool.toNat_le (s.thoughts o).reset
      rw [hbefore, Bool.toNat_true] at hcount
      omega

end

end Elim

end HanabiBot
