import HanabiBot.Basics.Identity

/-!
# Sets of identities

`IdentitySet` of `src/basics/IdentitySet.js`: one bit for each identity of the
variant, at position `5 * suitIndex + rank - 1`.  The binary operations take a
mask; `parse` makes one of a set, a list or a single identity.

Membership is a bit test, so each operation has its one lemma `has_…`;
`mem_array` reads a set back as the list of its members.
-/

namespace HanabiBot

/-- The bits of the identities, for a variant with `numSuits` suits. -/
structure IdentitySet where
  numSuits : ℕ
  value : ℕ
  deriving DecidableEq, Repr

namespace IdentitySet

/-- All identities: `new IdentitySet(numSuits)`. -/
def full (numSuits : ℕ) : IdentitySet := ⟨numSuits, 2 ^ (numSuits * 5) - 1⟩

/-- The position of an identity's bit. -/
def bit (id : Identity) : ℕ := id.suitIndex * 5 + (id.rank - 1)

def toMask (id : Identity) : ℕ := 2 ^ bit id

def identitiesToMask (identities : List Identity) : ℕ :=
  identities.foldl (fun mask id => mask ||| toMask id) 0

def has (s : IdentitySet) (identity : Identity) : Bool := s.value.testBit (bit identity)

def intersect (s : IdentitySet) (mask : ℕ) : IdentitySet := ⟨s.numSuits, s.value &&& mask⟩

/-- `value & ~mask`. -/
def subtract (s : IdentitySet) (mask : ℕ) : IdentitySet :=
  ⟨s.numSuits, s.value ^^^ (s.value &&& mask)⟩

def union (s : IdentitySet) (mask : ℕ) : IdentitySet := ⟨s.numSuits, s.value ||| mask⟩

/-- The members, by suit and then by rank. -/
def array (s : IdentitySet) : List Identity :=
  ((List.range (s.numSuits * 5)).filter s.value.testBit).map fun i => ⟨i / 5, i % 5 + 1⟩

/-- The number of members. -/
def length (s : IdentitySet) : ℕ := s.array.length

/-! ## Membership -/

/-- A rank from 1 to 5: what a bit position stands for. -/
def Ranked (id : Identity) : Prop := 1 ≤ id.rank ∧ id.rank ≤ 5

theorem bit_inj {a b : Identity} (ha : Ranked a) (hb : Ranked b) : bit a = bit b ↔ a = b := by
  obtain ⟨s, r⟩ := a
  obtain ⟨s', r'⟩ := b
  simp only [Ranked] at ha hb
  simp only [bit, Identity.mk.injEq]
  omega

theorem testBit_toMask {a b : Identity} (ha : Ranked a) (hb : Ranked b) :
    (toMask a).testBit (bit b) = decide (a = b) := by
  rw [toMask, Nat.testBit_two_pow]
  exact decide_eq_decide.2 (bit_inj ha hb)

theorem testBit_identitiesToMask (ids : List Identity) (i : ℕ) :
    (identitiesToMask ids).testBit i = ids.any fun id => (toMask id).testBit i := by
  have hfold : ∀ (l : List Identity) (m : ℕ),
      (l.foldl (fun mask id => mask ||| toMask id) m).testBit i =
        (m.testBit i || l.any fun id => (toMask id).testBit i) := by
    intro l
    induction l with
    | nil => simp
    | cons a l ih =>
      intro m
      rw [List.foldl_cons, ih, Nat.testBit_or, List.any_cons, Bool.or_assoc]
  rw [identitiesToMask, hfold, Nat.zero_testBit, Bool.false_or]

theorem testBit_identitiesToMask_bit {ids : List Identity} (hids : ∀ id ∈ ids, Ranked id)
    {b : Identity} (hb : Ranked b) :
    (identitiesToMask ids).testBit (bit b) = decide (b ∈ ids) := by
  rw [testBit_identitiesToMask, Bool.eq_iff_iff, List.any_eq_true, decide_eq_true_eq]
  constructor
  · rintro ⟨a, ha, hbit⟩
    rw [testBit_toMask (hids a ha) hb, decide_eq_true_eq] at hbit
    exact hbit ▸ ha
  · intro hmem
    exact ⟨b, hmem, by rw [testBit_toMask hb hb]; simp⟩

@[simp] theorem has_intersect (s : IdentitySet) (mask : ℕ) (id : Identity) :
    (s.intersect mask).has id = (s.has id && mask.testBit (bit id)) := by
  simp [has, intersect]

@[simp] theorem has_subtract (s : IdentitySet) (mask : ℕ) (id : Identity) :
    (s.subtract mask).has id = (s.has id && !mask.testBit (bit id)) := by
  simp only [has, subtract, Nat.testBit_xor, Nat.testBit_and]
  cases s.value.testBit (bit id) <;> cases mask.testBit (bit id) <;> rfl

@[simp] theorem has_union (s : IdentitySet) (mask : ℕ) (id : Identity) :
    (s.union mask).has id = (s.has id || mask.testBit (bit id)) := by
  simp [has, union]

theorem has_full {n : ℕ} {id : Identity} (hs : id.suitIndex < n) (hr : Ranked id) :
    (full n).has id = true := by
  have hr' := hr.2
  simp only [has, full, Nat.testBit_two_pow_sub_one, decide_eq_true_eq, bit]
  omega

theorem mem_array {s : IdentitySet} {id : Identity} :
    id ∈ s.array ↔ id.suitIndex < s.numSuits ∧ Ranked id ∧ s.has id = true := by
  obtain ⟨suit, r⟩ := id
  simp only [array, List.mem_map, List.mem_filter, List.mem_range, Identity.mk.injEq, Ranked, has,
    bit]
  constructor
  · rintro ⟨i, ⟨hi, hbit⟩, rfl, rfl⟩
    have hindex : i / 5 * 5 + (i % 5 + 1 - 1) = i := by omega
    refine ⟨by omega, ⟨by omega, by omega⟩, ?_⟩
    rwa [hindex]
  · rintro ⟨hs, ⟨h1, h5⟩, hbit⟩
    exact ⟨suit * 5 + (r - 1), ⟨by omega, hbit⟩, by omega, by omega⟩

theorem nodup_array (s : IdentitySet) : s.array.Nodup := by
  refine List.Nodup.map_on ?_ (List.nodup_range.filter _)
  intro i _ j _ hij
  have := Identity.mk.inj hij
  omega

theorem array_valid {s : IdentitySet} {v : Variant} (h : s.numSuits = v.suits.length)
    {id : Identity} (hid : id ∈ s.array) : id.Valid v := by
  obtain ⟨hs, hr, -⟩ := mem_array.1 hid
  exact ⟨h ▸ hs, hr⟩

end IdentitySet

end HanabiBot
