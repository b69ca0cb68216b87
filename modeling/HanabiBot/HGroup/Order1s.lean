import HanabiBot.HGroup.OrderChopMove

/-!
# The order of unknown 1s

Sender and receiver of an order chop move call `order_1s` of
`src/conventions/h-group/action-helper.js` on lists of cards that they have found in
different ways.  Its comparator is a strict weak order of the cards of a hand; it leaves
open only the order of two blind plays that were first clued on one turn and have the same
finesse index (`Tied`).  So the order of the list it is given does not matter but for those
(`order1s_wellDefined`).
-/

namespace HanabiBot.HGroup

/-- `order_1s`, with its option. -/
def order1sOf (noFilter : Bool) (st : HState) (player : HGroupPlayer) (orders : List ℕ) : List ℕ :=
  if noFilter then order1s st player orders else orderUnknown1s st player orders

/-- The comparator puts the first card before the second. -/
def PlaysBefore (st : HState) (player : HGroupPlayer) (a b : ℕ) : Prop :=
  compare1s st player a b < 0

/-- Two blind plays that nothing tells apart. -/
structure Tied (st : HState) (player : HGroupPlayer) (a b : ℕ) : Prop where
  blind : (player.thoughts.get a).any Card.blindPlaying = true
  blind' : (player.thoughts.get b).any Card.blindPlaying = true
  turn : firstCluedTurn st a = firstCluedTurn st b
  finesseIndex : (player.marks a).finesseIndex = (player.marks b).finesseIndex

section

variable (st : HState) (player : HGroupPlayer)

/-- A card is not before itself, though it may be after itself. -/
theorem compare1s_self (a : ℕ) : 0 ≤ compare1s st player a a := by
  unfold compare1s
  simp only [ne_eq, not_true_eq_false, if_false, sub_self, lt_irrefl, decide_false, Bool.or_false,
    Bool.and_false, Bool.not_and_self]
  split_ifs <;> simp_all

theorem playsBefore_iff (a b : ℕ) :
    PlaysBefore st player a b ↔ keyOf1 st player a < keyOf1 st player b := by
  by_cases hne : a = b
  · subst hne
    exact iff_of_false (compare1s_self st player a).not_gt (lt_irrefl _)
  · exact (compare1s_iff st player hne).2

/-- Cards with one key are the same or tied. -/
theorem tied_of_key_eq {a b : ℕ} (hne : a ≠ b) (hkey : keyOf1 st player a = keyOf1 st player b) :
    Tied st player a b := by
  have hpair := toLex.injective hkey
  have hturn : firstCluedTurn st a = firstCluedTurn st b := by
    have h := congrArg Prod.fst hpair
    simpa using h
  have hkind : kindOf1 st player a = kindOf1 st player b :=
    toLex.injective (congrArg Prod.snd hpair)
  obtain ⟨hba, hka⟩ | ⟨hba, hka⟩ := kindOf1_cases st player a
  · obtain ⟨hbb, hkb⟩ | ⟨hbb, hkb⟩ := kindOf1_cases st player b
    · rw [hka, hkb] at hkind
      exact ⟨hba, hbb, hturn, congrArg Prod.snd hkind⟩
    · rw [hka] at hkind
      -- every other kind is greater than that of a blind play
      rcases hkb with ⟨-, hkb⟩ | ⟨-, ⟨-, hkb⟩ | ⟨-, ⟨-, hkb⟩ | ⟨-, hkb⟩⟩⟩ <;>
        exact absurd (congrArg Prod.fst (hkind.trans hkb)) (by simp)
  · -- the other kinds go by the order of the card
    exfalso
    apply hne
    rcases hka with ⟨-, hka⟩ | ⟨-, ⟨-, hka⟩ | ⟨-, ⟨-, hka⟩ | ⟨-, hka⟩⟩⟩ <;>
      rcases kindOf1_cases st player b with ⟨-, hkb⟩ | ⟨-, ⟨-, hkb⟩ | ⟨-, ⟨-, hkb⟩ |
        ⟨-, ⟨-, hkb⟩ | ⟨-, hkb⟩⟩⟩⟩ <;>
      simp_all

theorem order1sOf_eq (noFilter : Bool) (orders : List ℕ) (hnodup : orders.Nodup) :
    order1sOf noFilter st player orders =
      (if noFilter then orders else orders.filter (isUnknown1 st player)).mergeSort
        (Sorting.keyLE (keyOf1 st player)) := by
  cases noFilter with
  | true => exact order1s_eq st player hnodup
  | false => exact order1s_eq st player (hnodup.filter _)

/-- The comparator is a strict weak order that ties only blind plays, and the sorted cards are the
same up to ties however they are given. -/
theorem order1s_wellDefined (noFilter : Bool) :
    ((∀ a b, PlaysBefore st player a b → ¬ PlaysBefore st player b a) ∧
      (∀ a b c, PlaysBefore st player a b → PlaysBefore st player b c →
        PlaysBefore st player a c) ∧
      (∀ a b c, ¬ PlaysBefore st player a b → ¬ PlaysBefore st player b c →
        ¬ PlaysBefore st player a c) ∧
      ∀ a b, a ≠ b → (0 < compare1s st player a b ↔ PlaysBefore st player b a)) ∧
    (∀ a b, a ≠ b → ¬ PlaysBefore st player a b → ¬ PlaysBefore st player b a →
      Tied st player a b) ∧
    ∀ orders orders' : List ℕ, orders.Nodup → orders.Perm orders' →
      List.Forall₂ (fun a b => a = b ∨ Tied st player a b)
        (order1sOf noFilter st player orders) (order1sOf noFilter st player orders') := by
  simp only [playsBefore_iff]
  refine ⟨⟨fun a b => lt_asymm, fun a b c => lt_trans, ?_, fun a b hne => ?_⟩, ?_, ?_⟩
  · intro a b c hab hbc
    exact not_lt.2 ((not_lt.1 hbc).trans (not_lt.1 hab))
  · rw [← not_le, (compare1s_iff st player hne).1, not_le]
  · intro a b hne hab hba
    exact tied_of_key_eq st player hne (le_antisymm (not_lt.1 hba) (not_lt.1 hab))
  · intro orders orders' hnodup hperm
    have hnodup' := hperm.nodup_iff.1 hnodup
    rw [order1sOf_eq st player noFilter orders hnodup,
      order1sOf_eq st player noFilter orders' hnodup']
    have hkept : (if noFilter then orders else orders.filter (isUnknown1 st player)).Perm
        (if noFilter then orders' else orders'.filter (isUnknown1 st player)) := by
      cases noFilter with
      | true => exact hperm
      | false => exact hperm.filter _
    have hkeys := Sorting.map_key_mergeSort (keyOf1 st player) hkept
    rw [← List.forall₂_eq_eq_eq, List.forall₂_map_left_iff, List.forall₂_map_right_iff] at hkeys
    refine hkeys.imp fun a b hkey => ?_
    by_cases hne : a = b
    · exact .inl hne
    · exact .inr (tied_of_key_eq st player hne hkey)

end

end HanabiBot.HGroup
