import Mathlib

/-!
# Identities, variants and clues

The data of `src/variants.js`: an identity is a suit index and a rank, a
variant is a row of `variants.json`, and the two functions everything else
rests on are `cardTouched` (does this clue touch this card?) and `cardCount`
(how many copies of this identity does the deck hold?).

`Identity.valid` is the set `all_identities(suits)`: a suit of the variant and
a rank from 1 to 5.  The unknown identity `{ suitIndex: -1, rank: -1 }` of the
source is `none : Option Identity`.
-/

namespace HanabiBot

/-- A suit index and a rank. -/
@[ext] structure Identity where
  suitIndex : ℕ
  rank : ℕ
  deriving DecidableEq, Repr

/-- `Variant`, the fields that the modelled functions read. -/
structure Variant where
  suits : List String
  /-- The letter of each suit in the name of a card; two suits may share one. -/
  shortForms : List Char := []
  specialRank : Option ℕ := none
  specialRankAllClueColors : Bool := false
  specialRankAllClueRanks : Bool := false
  specialRankNoClueColors : Bool := false
  specialRankNoClueRanks : Bool := false
  specialRankDeceptive : Bool := false
  chimneys : Bool := false
  funnels : Bool := false
  criticalRank : Option ℕ := none

/-- The variant 'No Variant'. -/
def noVariant : Variant where
  suits := ["Red", "Yellow", "Green", "Blue", "Purple"]
  shortForms := ['r', 'y', 'g', 'b', 'p']

theorem suits_noVariant : noVariant.suits ≠ [] := by decide

/-- `CLUE.COLOUR` and `CLUE.RANK`. -/
inductive ClueType
  | colour
  | rank
  deriving DecidableEq, Repr

/-- A clue's type and value. -/
structure BaseClue where
  type : ClueType
  value : ℕ
  deriving DecidableEq, Repr

/-- `Clue`: a clue and the player it is given to. -/
structure Clue extends BaseClue where
  target : ℕ
  deriving DecidableEq, Repr

/-! ## The suit regexes -/

/-- `/w₁|w₂|…/.test(s)`: one of the words occurs in `s`. -/
def testWords (words : List String) (s : String) : Bool :=
  words.any fun w => s.toList.tails.any (w.toList.isPrefixOf ·)

namespace variantRegexes

def whitish : String → Bool := testWords ["White", "Gray", "Light", "Null"]
def rainbowish : String → Bool := testWords ["Rainbow", "Omni"]
def brownish : String → Bool := testWords ["Brown", "Muddy", "Cocoa", "Null"]
def pinkish : String → Bool := testWords ["Pink", "Omni"]
def dark : String → Bool := testWords ["Black", "Dark", "Gray", "Cocoa"]
def prism : String → Bool := testWords ["Prism"]
def noColour (s : String) : Bool := whitish s || rainbowish s || prism s

end variantRegexes

namespace Variant

/-- `variant.suits[suitIndex]`; only used at indices of the variant. -/
def suit (v : Variant) (suitIndex : ℕ) : String := v.suits.getD suitIndex ""

/-- The suits that have a colour clue of their own. -/
def colourableSuits (v : Variant) : List String :=
  v.suits.filter fun s => !variantRegexes.noColour s

/-- Whether the card would be touched by the clue. -/
def cardTouched (v : Variant) (card : Identity) (clue : BaseClue) : Bool :=
  let suit := v.suit card.suitIndex
  match clue.type with
  | .colour =>
    if variantRegexes.whitish suit then false
    else if variantRegexes.rainbowish suit then true
    else if some card.rank = v.specialRank ∧ v.specialRankAllClueColors then true
    else if some card.rank = v.specialRank ∧ v.specialRankNoClueColors then false
    else if variantRegexes.prism suit then
      -- with no colourable suit the remainder is `NaN`, which equals nothing
      v.colourableSuits.length != 0 && (card.rank - 1) % v.colourableSuits.length == clue.value
    else v.colourableSuits[clue.value]? == some suit
  | .rank =>
    if variantRegexes.brownish suit then false
    else if some card.rank = v.specialRank ∧ v.specialRankAllClueRanks then
      card.rank != clue.value
    else if some card.rank = v.specialRank ∧ v.specialRankNoClueRanks then false
    else if some card.rank = v.specialRank ∧ v.specialRankDeceptive then
      card.suitIndex % 4 + (if v.specialRank = some 1 then 2 else 1) == clue.value &&
        card.rank != clue.value
    else if variantRegexes.pinkish suit then true
    else if v.chimneys then decide (clue.value ≤ card.rank)
    else if v.funnels then decide (card.rank ≤ clue.value)
    else card.rank == clue.value

/-- `all_identities(suits)`, by suit and then by rank. -/
def allIdentities (v : Variant) : List Identity :=
  (List.range v.suits.length).flatMap fun s => (List.range' 1 5).map fun r => ⟨s, r⟩

/-- The identities a clue touches. -/
def findPossibilities (v : Variant) (clue : BaseClue) : List Identity :=
  v.allIdentities.filter (v.cardTouched · clue)

/-- The number of copies of an identity in the deck. -/
def cardCount (v : Variant) (id : Identity) : ℕ :=
  if variantRegexes.dark (v.suit id.suitIndex) then 1
  else if v.criticalRank = some id.rank then 1
  else match id.rank with
    | 1 => 3
    | 2 | 3 | 4 => 2
    | 5 => 1
    | _ => 0

/-- The name of a card: the letter of its suit, and its rank. -/
abbrev CardName := Char × ℕ

/-- `logCard`; each suit of the variant has a letter. -/
def logCard (v : Variant) (id : Identity) : CardName :=
  (v.shortForms.getD id.suitIndex ' ', id.rank)

/-- `expandShort`: the first suit with the letter, and the rank. -/
def expandShort (v : Variant) (name : CardName) : Identity :=
  ⟨v.shortForms.idxOf name.1, name.2⟩

/-- The number of cards of the whole deck: what the `State` constructor counts
into `cardsLeft`. -/
def deckSize (v : Variant) : ℕ := (v.allIdentities.map v.cardCount).sum

end Variant

namespace Identity

/-- A suit of the variant and a rank from 1 to 5. -/
def Valid (v : Variant) (id : Identity) : Prop :=
  id.suitIndex < v.suits.length ∧ 1 ≤ id.rank ∧ id.rank ≤ 5

instance (v : Variant) (id : Identity) : Decidable (id.Valid v) := by
  unfold Valid; infer_instance

end Identity

namespace Variant

theorem mem_allIdentities {v : Variant} {id : Identity} :
    id ∈ v.allIdentities ↔ id.Valid v := by
  obtain ⟨s, r⟩ := id
  simp only [allIdentities, List.mem_flatMap, List.mem_range, List.mem_map, List.mem_range'_1,
    Identity.mk.injEq, Identity.Valid]
  constructor
  · rintro ⟨s', hs, r', hr, rfl, rfl⟩
    exact ⟨hs, by omega, by omega⟩
  · rintro ⟨hs, h1, h5⟩
    exact ⟨s, hs, r, by omega, rfl, rfl⟩

theorem nodup_allIdentities (v : Variant) : v.allIdentities.Nodup := by
  rw [allIdentities, List.nodup_flatMap]
  refine ⟨fun s _ => ?_, ?_⟩
  · exact (List.nodup_range').map fun r r' h => (Identity.mk.inj h).2
  · refine List.nodup_range.imp_of_mem ?_
    intro s s' _ _ hne id h h'
    obtain ⟨r, -, rfl⟩ := List.mem_map.1 h
    obtain ⟨r', -, hr'⟩ := List.mem_map.1 h'
    exact hne (Identity.mk.inj hr').1.symm

/-- Every identity of the variant has at least one copy. -/
theorem cardCount_pos {v : Variant} {id : Identity} (h : id.Valid v) : 0 < v.cardCount id := by
  obtain ⟨s, r⟩ := id
  obtain ⟨-, h1, h5⟩ := h
  simp only at h1 h5
  unfold cardCount
  split
  · exact Nat.one_pos
  · split
    · exact Nat.one_pos
    · interval_cases r <;> simp

/-! ## Names -/

/-- Every suit has a letter of its own. -/
structure DistinctNames (v : Variant) : Prop where
  length_eq : v.shortForms.length = v.suits.length
  nodup : v.shortForms.Nodup

instance (v : Variant) : Decidable v.DistinctNames :=
  decidable_of_iff (v.shortForms.length = v.suits.length ∧ v.shortForms.Nodup)
    ⟨fun h => ⟨h.1, h.2⟩, fun h => ⟨h.1, h.2⟩⟩

/-- The name of a card can be read back. -/
theorem DistinctNames.expandShort_logCard {v : Variant} (h : v.DistinctNames) {id : Identity}
    (hid : id.Valid v) : v.expandShort (v.logCard id) = id := by
  have hsuit : id.suitIndex < v.shortForms.length := h.length_eq ▸ hid.1
  rw [expandShort, logCard, List.getD_eq_getElem _ _ hsuit, h.nodup.idxOf_getElem]

theorem DistinctNames.logCard_inj {v : Variant} (h : v.DistinctNames) {id id' : Identity}
    (hid : id.Valid v) (hid' : id'.Valid v) : v.logCard id = v.logCard id' ↔ id = id' := by
  refine ⟨fun heq => ?_, congrArg v.logCard⟩
  rw [← h.expandShort_logCard hid, heq, h.expandShort_logCard hid']

end Variant

end HanabiBot
