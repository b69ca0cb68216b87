import HanabiBot.Basics.Card

/-!
# The next identities on the stacks

A card that is called to play is one of `stacks.map((rank, suitIndex) => ({ suitIndex,
rank: rank + 1 }))`, and its inferences are intersected with that list.  On a
completed suit the list has rank 6, whose bit in a mask is the bit of the 1 of the
next suit.

* `intersect_nextIdentities_onStacks_iff` — the intersection holds identities next
  on the stacks alone unless such a 1 was inferred and has been played.
-/

namespace HanabiBot

/-- `stacks.map((rank, suitIndex) => ({ suitIndex, rank: rank + 1 }))`. -/
def nextIdentities (numSuits : ℕ) (playStacks : ℕ → ℕ) : List Identity :=
  (List.range numSuits).map fun s => ⟨s, playStacks s + 1⟩

theorem mem_nextIdentities {numSuits : ℕ} {playStacks : ℕ → ℕ} {id : Identity} :
    id ∈ nextIdentities numSuits playStacks ↔
      id.suitIndex < numSuits ∧ id.rank = playStacks id.suitIndex + 1 := by
  obtain ⟨s, r⟩ := id
  simp only [nextIdentities, List.mem_map, List.mem_range, Identity.mk.injEq]
  constructor
  · rintro ⟨s', hs, rfl, rfl⟩
    exact ⟨hs, rfl⟩
  · rintro ⟨hs, rfl⟩
    exact ⟨s, hs, rfl, rfl⟩

/-- The 1 of a suit that is behind a completed suit, although it is not next on its
own stack. -/
def WrapsOnto (playStacks : ℕ → ℕ) (inferred : IdentitySet) (s : ℕ) : Prop :=
  playStacks s = 5 ∧ playStacks (s + 1) ≠ 0 ∧ s + 1 < inferred.numSuits ∧ inferred.has ⟨s + 1, 1⟩ = true

instance (playStacks : ℕ → ℕ) (inferred : IdentitySet) (s : ℕ) :
    Decidable (WrapsOnto playStacks inferred s) :=
  inferInstanceAs (Decidable (_ ∧ _ ∧ _ ∧ _))

namespace IdentitySet

/-- Every member is next on its stack. -/
def OnStacks (playStacks : ℕ → ℕ) (ids : IdentitySet) : Prop :=
  ∀ id ∈ ids.array, id.rank = playStacks id.suitIndex + 1 ∧ id.rank ≤ 5

instance (playStacks : ℕ → ℕ) (ids : IdentitySet) : Decidable (ids.OnStacks playStacks) :=
  inferInstanceAs (Decidable (∀ id ∈ ids.array, _ ∧ _))

/-- What an intersection with a list keeps: the members whose bit the list sets. -/
theorem mem_intersect_identitiesToMask {s : IdentitySet} {ids : List Identity} {id : Identity} :
    id ∈ (s.intersect (identitiesToMask ids)).array ↔
      id ∈ s.array ∧ ∃ a ∈ ids, bit a = bit id := by
  have hmask : (identitiesToMask ids).testBit (bit id) = true ↔ ∃ a ∈ ids, bit a = bit id := by
    rw [testBit_identitiesToMask, List.any_eq_true]
    simp only [toMask, Nat.testBit_two_pow, decide_eq_true_eq]
  simp only [mem_array, has_intersect, Bool.and_eq_true, hmask]
  simp only [intersect]
  tauto

/-- The bit of an identity next on the stacks is its own, or that of the 1 behind a
completed suit. -/
theorem bit_next_eq {playStacks : ℕ → ℕ} {s : ℕ} (hs : playStacks s ≤ 5) {id : Identity}
    (hid : Ranked id) :
    bit ⟨s, playStacks s + 1⟩ = bit id ↔
      id.suitIndex = s ∧ id.rank = playStacks s + 1 ∨
        playStacks s = 5 ∧ id.suitIndex = s + 1 ∧ id.rank = 1 := by
  obtain ⟨suit, rank⟩ := id
  obtain ⟨h1, h5⟩ := hid
  simp only at h1 h5
  simp only [bit]
  omega

theorem intersect_nextIdentities_onStacks_iff {inferred : IdentitySet} {playStacks : ℕ → ℕ}
    (hs : ∀ s < inferred.numSuits, playStacks s ≤ 5) :
    (inferred.intersect (identitiesToMask (nextIdentities inferred.numSuits playStacks))).OnStacks
        playStacks ↔
      ∀ s, ¬WrapsOnto playStacks inferred s := by
  unfold OnStacks
  constructor
  · rintro h s ⟨hfull, hnext, hsuit, hhas⟩
    have hone : (⟨s + 1, 1⟩ : Identity) ∈ inferred.array :=
      mem_array.2 ⟨hsuit, ⟨le_refl 1, by show 1 ≤ 5; omega⟩, hhas⟩
    have hsix :
        (⟨s, playStacks s + 1⟩ : Identity) ∈ nextIdentities inferred.numSuits playStacks :=
      mem_nextIdentities.2 ⟨by show s < inferred.numSuits; omega, rfl⟩
    -- rank 6 of the completed suit has the bit of the next suit's 1
    have hbit : bit ⟨s, playStacks s + 1⟩ = bit ⟨s + 1, 1⟩ := by
      simp only [bit]
      omega
    have hrank := (h _ (mem_intersect_identitiesToMask.2 ⟨hone, _, hsix, hbit⟩)).1
    simp only at hrank
    omega
  · intro h id hid
    obtain ⟨hmem, ⟨s, rank⟩, ha, hbit⟩ := mem_intersect_identitiesToMask.1 hid
    obtain ⟨hsuit, hranked, hhas⟩ := mem_array.1 hmem
    obtain ⟨hsn, hrank⟩ := mem_nextIdentities.1 ha
    simp only at hsn hrank
    subst hrank
    have h5 := hranked.2
    obtain ⟨rfl, hr⟩ | ⟨hfull, hs', hr⟩ := (bit_next_eq (hs s hsn) hranked).1 hbit
    · exact ⟨hr, h5⟩
    · have hnext : playStacks (s + 1) = 0 := by
        by_contra hne
        refine h s ⟨hfull, hne, hs' ▸ hsuit, ?_⟩
        have hid : id = ⟨s + 1, 1⟩ := Identity.ext hs' hr
        rwa [← hid]
      rw [hs', hnext, hr]
      exact ⟨rfl, by omega⟩

end IdentitySet

end HanabiBot
