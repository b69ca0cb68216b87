import HanabiBot.Basics.Card

/-!
# What a reset of a card restores

When a card has lost all its inferences, `reset_inferences` starts it over.  The
callers reset a card only once, so the result should be usable at once: some
inference is left, all inferences are possible, and so is what the card is locked
onto.

* Off a finesse a reset always restores this (`resetInferences_consistent_iff`
  has nothing to ask there).
* On a finessed card the lock is taken over as it is, and the saved inferences
  may have nothing left; the same theorem says exactly when the result is still
  consistent, and `resetInferences_finessed_stale` is a card where it is not.
-/

namespace HanabiBot

/-! ## Subsets -/

namespace IdentitySet

/-- Every member of the one set is a member of the other. -/
def Subset (s t : IdentitySet) : Prop := ∀ id ∈ s.array, id ∈ t.array

instance (s t : IdentitySet) : Decidable (s.Subset t) :=
  inferInstanceAs (Decidable (∀ id ∈ s.array, id ∈ t.array))

theorem Subset.refl (s : IdentitySet) : s.Subset s := by
  intro id hid
  exact hid

theorem Subset.trans {s t u : IdentitySet} (hst : s.Subset t) (htu : t.Subset u) : s.Subset u := by
  intro id hid
  exact htu id (hst id hid)

theorem subtract_subset (s : IdentitySet) (mask : ℕ) : (s.subtract mask).Subset s := by
  intro id hid
  simp only [mem_array, has_subtract, Bool.and_eq_true] at hid ⊢
  exact ⟨hid.1, hid.2.1, hid.2.2.1⟩

theorem length_ne_zero {s : IdentitySet} : s.length ≠ 0 ↔ ∃ id, id ∈ s.array := by
  rw [length, Ne, List.length_eq_zero_iff, List.eq_nil_iff_forall_not_mem]
  push Not
  rfl

/-- The members of an intersection of two sets of one variant. -/
theorem mem_intersect {s t : IdentitySet} (h : s.numSuits = t.numSuits) {id : Identity} :
    id ∈ (s.intersect t.value).array ↔ id ∈ s.array ∧ id ∈ t.array := by
  have hbit : t.value.testBit (bit id) = t.has id := rfl
  simp only [mem_array, has_intersect, Bool.and_eq_true, hbit, ← h]
  simp only [intersect]
  tauto

theorem intersect_subset {s t : IdentitySet} (h : s.numSuits = t.numSuits) :
    (s.intersect t.value).Subset t := by
  intro id hid
  exact ((mem_intersect h).1 hid).2

end IdentitySet

/-! ## Resets -/

namespace Card

/-- What the callers of a reset rely on. -/
structure Consistent (card : Card) : Prop where
  inferred_ne : card.inferred.length ≠ 0
  inferred_sub : card.inferred.Subset card.possible
  lock : ∀ lock, card.infoLock = some lock → lock.length ≠ 0 ∧ lock.Subset card.possible

/-- The sets of a card are all of one variant. -/
structure OneVariant (card : Card) : Prop where
  lock : ∀ lock, card.infoLock = some lock → lock.numSuits = card.possible.numSuits
  old : ∀ old, card.oldInferred = some old → old.numSuits = card.possible.numSuits

/-- The lock that the reset keeps: one that some possibility is still in. -/
def intactLock (card : Card) : Option IdentitySet :=
  card.infoLock.filter fun lock => (lock.intersect card.possible.value).length != 0

theorem intactLock_eq_some {card : Card} {lock : IdentitySet} :
    card.intactLock = some lock ↔
      card.infoLock = some lock ∧ (lock.intersect card.possible.value).length ≠ 0 := by
  simp [intactLock, Option.filter_eq_some_iff]

/-- The lock that the reset keeps is the intact one. -/
theorem kept_eq_intactLock (card : Card) :
    (if (card.infoLock.any fun lock => (lock.intersect card.possible.value).length == 0) then none
      else card.infoLock) = card.intactLock := by
  unfold intactLock
  cases card.infoLock with
  | none => simp
  | some lock =>
    by_cases hlock : (lock.intersect card.possible.value).length = 0
    · simp [Option.filter, hlock]
    · simp [Option.filter, hlock]

/-- The lock after a reset of a finessed card. -/
theorem resetInferences_infoLock_finessed {card : Card} (h : card.status = some .finessed) :
    card.resetInferences.infoLock = card.intactLock := by
  unfold resetInferences
  rw [if_pos h]
  exact kept_eq_intactLock card

/-- A finessed card infers its intact lock, whatever else it has. -/
theorem resetInferences_inferred_lock {card : Card} (h : card.status = some .finessed)
    {lock : IdentitySet} (hi : card.intactLock = some lock) :
    card.resetInferences.inferred = lock := by
  rw [← kept_eq_intactLock] at hi
  simp only [resetInferences, if_pos h, hi]

/-- Without an intact lock, a finessed card infers what is possible of the saved inferences. -/
theorem resetInferences_inferred_saved {card : Card} (h : card.status = some .finessed)
    (hi : card.intactLock = none) {old : IdentitySet} (ho : card.oldInferred = some old) :
    card.resetInferences.inferred = old.intersect card.possible.value := by
  rw [← kept_eq_intactLock] at hi
  simp only [resetInferences, if_pos h, hi, ho]

/-- Without both, a finessed card infers all that is possible. -/
theorem resetInferences_inferred_possible {card : Card} (h : card.status = some .finessed)
    (hi : card.intactLock = none) (ho : card.oldInferred = none) :
    card.resetInferences.inferred = card.possible := by
  rw [← kept_eq_intactLock] at hi
  simp only [resetInferences, if_pos h, hi, ho]

/-- A card that was not finessed gets what is possible in its lock, or all that is possible. -/
theorem resetInferences_of_not_finessed {card : Card} (h : card.status ≠ some .finessed) :
    (∃ lock, card.intactLock = some lock ∧
      card.resetInferences.inferred = lock.intersect card.possible.value ∧
      card.resetInferences.infoLock = some (lock.intersect card.possible.value)) ∨
    card.resetInferences.inferred = card.possible ∧
      (card.resetInferences.infoLock = none ∨ card.resetInferences.infoLock = some card.possible) := by
  unfold resetInferences intactLock
  rw [if_neg h]
  cases card.infoLock with
  | none => simp
  | some lock =>
    by_cases hlock : (lock.intersect card.possible.value).length = 0
    · simp [hlock]
    · simp [hlock]

@[simp] theorem resetInferences_possible (card : Card) :
    card.resetInferences.possible = card.possible := by
  unfold resetInferences
  split
  · rfl
  · dsimp only
    split <;> rfl

@[simp] theorem resetInferences_reset (card : Card) : card.resetInferences.reset = true := by
  unfold resetInferences
  split
  · rfl
  · dsimp only
    split <;> rfl

/-- The lock is kept, or becomes what is possible of it, so that it stays non-empty. -/
theorem intact_nonempty {card : Card} (hv : card.OneVariant) {lock : IdentitySet}
    (h : card.intactLock = some lock) :
    (lock.intersect card.possible.value).length ≠ 0 ∧
      (lock.intersect card.possible.value).Subset card.possible ∧ lock.length ≠ 0 := by
  obtain ⟨hlock, hmeet⟩ := intactLock_eq_some.1 h
  refine ⟨hmeet, IdentitySet.intersect_subset (hv.lock lock hlock), ?_⟩
  obtain ⟨id, hid⟩ := IdentitySet.length_ne_zero.1 hmeet
  exact IdentitySet.length_ne_zero.2 ⟨id, ((IdentitySet.mem_intersect (hv.lock lock hlock)).1 hid).1⟩

/-- A reset is consistent exactly if, should the card be finessed, an intact lock is within what is
possible and, without one, the saved inferences have a possible one. -/
theorem resetInferences_consistent_iff (card : Card) (hv : card.OneVariant)
    (hp : card.possible.length ≠ 0) :
    card.resetInferences.Consistent ↔
      (card.status = some .finessed →
        (∀ lock, card.intactLock = some lock → lock.Subset card.possible) ∧
        (card.intactLock = none → ∀ old, card.oldInferred = some old →
          (old.intersect card.possible.value).length ≠ 0)) := by
  by_cases hs : card.status = some .finessed
  · have hlock := resetInferences_infoLock_finessed hs
    simp only [hs, forall_const]
    cases hi : card.intactLock with
    | some lock =>
      have hinf := resetInferences_inferred_lock hs hi
      rw [hi] at hlock
      simp only [Option.some.injEq, forall_eq', reduceCtorEq, false_implies, and_true]
      constructor
      · intro hc
        have := hc.inferred_sub
        rwa [hinf, resetInferences_possible] at this
      · intro hsub
        refine ⟨?_, ?_, ?_⟩
        · rw [hinf]
          exact (intact_nonempty hv hi).2.2
        · rw [hinf, resetInferences_possible]
          exact hsub
        · intro l hl
          rw [hlock] at hl
          cases hl
          rw [resetInferences_possible]
          exact ⟨(intact_nonempty hv hi).2.2, hsub⟩
    | none =>
      rw [hi] at hlock
      simp only [reduceCtorEq, false_implies, implies_true, true_and, forall_const]
      cases ho : card.oldInferred with
      | none =>
        have hinf := resetInferences_inferred_possible hs hi ho
        simp only [reduceCtorEq, false_implies, implies_true, iff_true]
        refine ⟨?_, ?_, ?_⟩
        · rwa [hinf]
        · rw [hinf, resetInferences_possible]
          exact IdentitySet.Subset.refl _
        · intro l hl
          rw [hlock] at hl
          cases hl
      | some old =>
        have hinf := resetInferences_inferred_saved hs hi ho
        simp only [Option.some.injEq, forall_eq']
        constructor
        · intro hc
          have := hc.inferred_ne
          rwa [hinf] at this
        · intro hne
          refine ⟨?_, ?_, ?_⟩
          · rwa [hinf]
          · rw [hinf, resetInferences_possible]
            exact IdentitySet.intersect_subset (hv.old old ho)
          · intro l hl
            rw [hlock] at hl
            cases hl
  · simp only [hs, false_implies, iff_true]
    obtain ⟨lock, hi, hinf, hl⟩ | ⟨hinf, hl⟩ := resetInferences_of_not_finessed hs
    · obtain ⟨hne, hsub, -⟩ := intact_nonempty hv hi
      refine ⟨?_, ?_, ?_⟩
      · rwa [hinf]
      · rwa [hinf, resetInferences_possible]
      · intro l hl'
        rw [hl] at hl'
        cases hl'
        rw [resetInferences_possible]
        exact ⟨hne, hsub⟩
    · refine ⟨?_, ?_, ?_⟩
      · rwa [hinf]
      · rw [hinf, resetInferences_possible]
        exact IdentitySet.Subset.refl _
      · intro l hl'
        rw [resetInferences_possible]
        obtain hl | hl := hl
        · rw [hl] at hl'
          cases hl'
        · rw [hl] at hl'
          cases hl'
          exact ⟨hp, IdentitySet.Subset.refl _⟩

/-- A finessed card that is red 1 or red 2, locked onto red 1 and red 3. -/
def finessedR1R2 : Card :=
  { id := none
    order := 0
    possible := ⟨1, 0b00011⟩
    inferred := ⟨1, 0⟩
    infoLock := some ⟨1, 0b00101⟩
    status := some .finessed }

/-- With the lock narrowed to red 1, the reset is consistent. -/
theorem resetInferences_consistent_r1 :
    ({ finessedR1R2 with infoLock := some ⟨1, 0b00001⟩ } : Card).resetInferences.Consistent :=
  (resetInferences_consistent_iff _
    ⟨fun _ h => (by cases h; rfl), fun _ h => (by cases h)⟩ (by decide)).2
    fun _ => ⟨fun lock h => (by cases h; decide), fun h => absurd h (by decide)⟩

/-- The finessed branch takes the whole lock, red 3 included, although red 3 is not possible, and
keeps the lock with it. -/
theorem resetInferences_finessed_stale :
    finessedR1R2.possible.length ≠ 0 ∧ finessedR1R2.OneVariant ∧
      ¬ finessedR1R2.resetInferences.Consistent := by
  refine ⟨by decide, ⟨fun _ h => (by cases h; rfl), fun _ h => (by cases h)⟩, ?_⟩
  intro h
  exact absurd h.inferred_sub (by decide)

end Card

end HanabiBot
