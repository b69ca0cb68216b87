import HanabiBot.HGroup.Hypo

/-!
# Positional discards

`find_positional_discard` of `src/conventions/h-group/action-helper.js`: near the end of
the game, discarding a card of a slot tells the other players to play what they hold in
the same slot.  A misplay calls two of them.

The search for the second player reads the slot that has the number of the player's
seat, counted from the discarder, in place of the slot of the first.

* `misplay_twoTargets_iff` — the misplays that call two players call the right ones
  if and only if the first search is not misled by this;
* `misplay_misled` — a position where it is.
-/

namespace HanabiBot.HGroup

/-- `connectable_simple`: whether `target` gets to play the identity before the turn comes
back. If it is not playable now, this is up to `later`: what the players in between
may play, as the convention interprets it. -/
def connectableSimple (later : ℕ → ℕ → Identity → Bool) (game : HypoGame) (start target : ℕ)
    (identity : Identity) : Bool :=
  game.state.isPlayable identity || later start target identity

/-- The player `i` seats after the discarder. -/
def playerAfter (st : HState) (discarder i : ℕ) : ℕ := (discarder + i) % st.numPlayers

/-- `trash`: the cards that the discarder takes for trash or duplicates. -/
def discarderTrash (game : HypoGame) (discarder : ℕ) : List ℕ :=
  let st := game.state
  let player := game.players discarder
  (st.hands discarder).filter fun o => (player.possible o).array.all fun p =>
    st.isBasicTrash p || st.allOrders.any fun o2 =>
      o != o2 && (player.thoughts.get o2).any fun card => card.matchesId p { infer := true }

/-- `valid_target`: not trash, next on our hypo stacks, not going to play anyway, and
reached in time. A slot that the hand does not have is none. -/
def validTarget (later : ℕ → ℕ → Identity → Bool) (game : HypoGame) (discarder playerIndex : ℕ)
    (order : Option ℕ) : Bool :=
  let st := game.state
  let me := game.me
  order.any fun order => (st.identityOf order).any fun card =>
    !isTrashAs {} st me.toHGroupPlayer card order &&
      me.hypoStacks card.suitIndex + 1 == card.rank &&
      !me.hypoPlays.contains order &&
      !(me.hypoPlays.any fun o => (st.hands playerIndex).contains o &&
        (st.identityOf o).any fun played =>
          played.suitIndex == card.suitIndex && decide (played.rank < card.rank)) &&
      connectableSimple later game discarder playerIndex card

/-- The seats and slots in the order of the search. -/
def positions (st : HState) (discarder : ℕ) : List (ℕ × ℕ) :=
  (List.range' 1 (st.numPlayers - 1)).flatMap fun i =>
    (List.range (st.hands (playerAfter st discarder i)).length).map fun j => (i, j)

/-- Whether the player at seat `i` has a target in slot `j`, which is trash in the
discarder's hand. -/
def isTarget (later : ℕ → ℕ → Identity → Bool) (game : HypoGame) (discarder : ℕ) (i j : ℕ) :
    Bool :=
  let pl := playerAfter game.state discarder i
  ((game.state.hands discarder)[j]?.any (discarderTrash game discarder).contains) &&
    validTarget later game discarder pl (game.state.hands pl)[j]?

/-- `playerIndex2`: the next player with a target in the slot numbered like the seat. -/
def secondPlayer (later : ℕ → ℕ → Identity → Bool) (game : HypoGame) (discarder i : ℕ) :
    Option ℕ :=
  (List.range' (i + 1) (game.state.numPlayers - (i + 1))).find? fun k =>
    let pl := playerAfter game.state discarder k
    validTarget later game discarder pl (game.state.hands pl)[k]?

/-- A positional discard: the card, and whether it is a misplay. -/
structure PositionalDiscard where
  misplay : Bool
  order : ℕ
  deriving DecidableEq

/-- One round of the search, at a target. -/
def tryTarget (later : ℕ → ℕ → Identity → Bool) (game : HypoGame) (discarder : ℕ)
    (expectedDiscard : Option ℕ) (i : ℕ) (order : ℕ) : Option PositionalDiscard :=
  if (secondPlayer later game discarder i).isSome ∧ game.state.strikes < 2 then
    some { misplay := true, order }
  else
    let misplay := expectedDiscard == some order
    if misplay ∧ game.state.strikes = 2 then none else some { misplay, order }

/-- Whether positional discards are on: in the endgame, or for the last point. -/
def positionalOn (st : HState) : Bool :=
  st.inEndgame || decide ((st.maxScore : ℤ) - st.score = 1 ∧ st.cardsLeft = 1)

/-- `find_positional_discard`. -/
def findPositionalDiscard (later : ℕ → ℕ → Identity → Bool) (game : HypoGame) (discarder : ℕ)
    (expectedDiscard : Option ℕ) : Option PositionalDiscard :=
  if positionalOn game.state then
    (positions game.state discarder).findSome? fun (i, j) =>
      if isTarget later game discarder i j then
        (game.state.hands discarder)[j]?.bind
          (tryTarget later game discarder expectedDiscard i)
      else none
  else none

/-! ## Two targets -/

/-- Two players other than the discarder hold a target in the slot that the card has in
the discarder's hand. -/
def TwoTargets (later : ℕ → ℕ → Identity → Bool) (game : HypoGame) (discarder order : ℕ) : Prop :=
  let slot := (game.state.hands discarder).idxOf order
  ∃ p q, p ≠ q ∧ p ≠ discarder ∧ q ≠ discarder ∧ p < game.state.numPlayers ∧
    q < game.state.numPlayers ∧
    validTarget later game discarder p (game.state.hands p)[slot]? = true ∧
    validTarget later game discarder q (game.state.hands q)[slot]? = true

/-- Where the search comes to its first target. -/
def firstTarget (later : ℕ → ℕ → Identity → Bool) (game : HypoGame) (discarder : ℕ) :
    Option (ℕ × ℕ) :=
  (positions game.state discarder).find? fun (i, j) => isTarget later game discarder i j

/-- Whether a player from seat `i + 1` on has a target in the slot given for the seat. -/
def LaterTarget (later : ℕ → ℕ → Identity → Bool) (game : HypoGame) (discarder i : ℕ)
    (slot : ℕ → ℕ) : Prop :=
  ∃ k, i < k ∧ k < game.state.numPlayers ∧
    let pl := playerAfter game.state discarder k
    validTarget later game discarder pl (game.state.hands pl)[slot k]? = true

/-- The search for a second player is not misled: where two strikes are not reached and
the first target, in slot `j`, is not behind the expected discard, a later player has a
target in slot `j` if one has a target in the slot of his seat. -/
def SeatsAgree (later : ℕ → ℕ → Identity → Bool) (game : HypoGame) (discarder : ℕ)
    (expectedDiscard : Option ℕ) : Prop :=
  positionalOn game.state = true → game.state.strikes < 2 → ∀ i j, firstTarget later game discarder = some (i, j) →
    (game.state.hands discarder)[j]? ≠ expectedDiscard →
    LaterTarget later game discarder i (fun k => k) →
    LaterTarget later game discarder i (fun _ => j)

/-! ## The search -/

/-- A search whose rounds give a result exactly at the entries that `p` holds of. -/
theorem findSome?_eq_find?_bind {α β : Type*} {p : α → Bool} {f : α → Option β}
    (hnone : ∀ a, p a = false → f a = none) (hsome : ∀ a, p a = true → (f a).isSome = true)
    (l : List α) : l.findSome? f = (l.find? p).bind f := by
  induction l with
  | nil => rfl
  | cons a l ih =>
    cases hp : p a with
    | false =>
      rw [List.findSome?_cons, hnone a hp, List.find?_cons_of_neg (by simp [hp])]
      exact ih
    | true =>
      obtain ⟨b, hb⟩ := Option.isSome_iff_exists.1 (hsome a hp)
      rw [List.findSome?_cons, hb, List.find?_cons_of_pos hp, Option.bind_some, hb]

section

variable {later : ℕ → ℕ → Identity → Bool} {game : HypoGame} {discarder i j : ℕ}
  {expectedDiscard : Option ℕ}

theorem mem_positions {st : HState} : (i, j) ∈ positions st discarder ↔
    1 ≤ i ∧ i < st.numPlayers ∧ j < (st.hands (playerAfter st discarder i)).length := by
  simp only [positions, List.mem_flatMap, List.mem_range'_1, List.mem_map, List.mem_range,
    Prod.mk.injEq]
  constructor
  · rintro ⟨i', ⟨h1, h2⟩, j', hj, rfl, rfl⟩
    exact ⟨h1, by omega, hj⟩
  · rintro ⟨h1, h2, hj⟩
    exact ⟨i, ⟨h1, by omega⟩, j, hj, rfl, rfl⟩

/-- The search goes by seats. -/
theorem positions_pairwise (st : HState) (discarder : ℕ) :
    (positions st discarder).Pairwise fun a b => a.1 ≤ b.1 := by
  rw [positions, List.pairwise_flatMap]
  constructor
  · intro i _
    rw [List.pairwise_map]
    exact List.pairwise_of_forall fun _ _ => le_refl i
  · refine (List.pairwise_lt_range' (s := 1)).imp ?_
    intro i k hik a ha b hb
    obtain ⟨_, _, rfl⟩ := List.mem_map.1 ha
    obtain ⟨_, _, rfl⟩ := List.mem_map.1 hb
    exact hik.le

theorem playerAfter_lt {st : HState} (h : i < st.numPlayers) :
    playerAfter st discarder i < st.numPlayers := Nat.mod_lt _ (by omega)

theorem playerAfter_ne {st : HState} (hd : discarder < st.numPlayers) (h1 : 1 ≤ i)
    (h2 : i < st.numPlayers) : playerAfter st discarder i ≠ discarder := by
  unfold playerAfter
  obtain h | h := lt_or_ge (discarder + i) st.numPlayers
  · rw [Nat.mod_eq_of_lt h]
    omega
  · rw [Nat.mod_eq_sub_mod h, Nat.mod_eq_of_lt (by omega)]
    omega

theorem playerAfter_inj {st : HState} {k : ℕ} (hd : discarder < st.numPlayers)
    (hi : i < st.numPlayers) (hk : k < st.numPlayers)
    (h : playerAfter st discarder i = playerAfter st discarder k) : i = k := by
  unfold playerAfter at h
  obtain h1 | h1 := lt_or_ge (discarder + i) st.numPlayers <;>
    obtain h2 | h2 := lt_or_ge (discarder + k) st.numPlayers
  · rw [Nat.mod_eq_of_lt h1, Nat.mod_eq_of_lt h2] at h
    omega
  · rw [Nat.mod_eq_of_lt h1, Nat.mod_eq_sub_mod h2, Nat.mod_eq_of_lt (by omega)] at h
    omega
  · rw [Nat.mod_eq_sub_mod h1, Nat.mod_eq_of_lt h2, Nat.mod_eq_of_lt (by omega)] at h
    omega
  · rw [Nat.mod_eq_sub_mod h1, Nat.mod_eq_sub_mod h2, Nat.mod_eq_of_lt (by omega),
      Nat.mod_eq_of_lt (by omega)] at h
    omega

/-- Every other player sits at a seat after the discarder. -/
theorem exists_seat {st : HState} {p : ℕ} (hd : discarder < st.numPlayers)
    (hp : p < st.numPlayers) (hne : p ≠ discarder) :
    ∃ k, 1 ≤ k ∧ k < st.numPlayers ∧ playerAfter st discarder k = p := by
  unfold playerAfter
  obtain h | h := lt_or_ge discarder p
  · refine ⟨p - discarder, by omega, by omega, ?_⟩
    rw [Nat.add_sub_cancel' h.le, Nat.mod_eq_of_lt hp]
  · refine ⟨p + st.numPlayers - discarder, by omega, by omega, ?_⟩
    have : discarder + (p + st.numPlayers - discarder) = p + st.numPlayers := by omega
    rw [this, Nat.add_mod_right, Nat.mod_eq_of_lt hp]

/-- A slot with a target is one that the hand has. -/
theorem lt_of_validTarget {playerIndex : ℕ} {hand : List ℕ}
    (h : validTarget later game discarder playerIndex hand[j]? = true) : j < hand.length := by
  by_contra hj
  rw [List.getElem?_eq_none (by omega)] at h
  simp [validTarget] at h

theorem isTarget_of_firstTarget (h : firstTarget later game discarder = some (i, j)) :
    isTarget later game discarder i j = true := by
  have hfind := List.find?_some h
  exact hfind

/-- The first target is at the earliest seat that has one. -/
theorem firstTarget_le (h : firstTarget later game discarder = some (i, j)) {k l : ℕ}
    (hk : 1 ≤ k) (hn : k < game.state.numPlayers)
    (htarget : isTarget later game discarder k l = true) : i ≤ k := by
  obtain ⟨-, before, after, hpos, hbefore⟩ := List.find?_eq_some_iff_append.1 h
  have hmem : (k, l) ∈ positions game.state discarder := by
    rw [mem_positions]
    refine ⟨hk, hn, ?_⟩
    simp only [isTarget, Bool.and_eq_true] at htarget
    exact lt_of_validTarget htarget.2
  have hsorted := positions_pairwise game.state discarder
  rw [hpos] at hmem hsorted
  obtain hmem | hmem := List.mem_append.1 hmem
  · have := hbefore _ hmem
    simp [htarget] at this
  · obtain heq | hmem := List.mem_cons.1 hmem
    · exact (Prod.mk.inj heq).1.ge
    · exact (List.pairwise_cons.1 (List.pairwise_append.1 hsorted).2.1).1 _ hmem

theorem secondPlayer_isSome : (secondPlayer later game discarder i).isSome = true ↔
    LaterTarget later game discarder i fun k => k := by
  simp only [secondPlayer, List.find?_isSome, List.mem_range'_1, LaterTarget]
  constructor
  · rintro ⟨k, ⟨h1, h2⟩, hk⟩
    exact ⟨k, by omega, by omega, hk⟩
  · rintro ⟨k, h1, h2, hk⟩
    exact ⟨k, ⟨by omega, by omega⟩, hk⟩

/-- Short of two strikes, the search stops at the first target. -/
theorem findPositionalDiscard_eq (hon : positionalOn game.state = true)
    (hstrikes : game.state.strikes < 2) :
    findPositionalDiscard later game discarder expectedDiscard =
      (firstTarget later game discarder).bind fun (i, j) =>
        (game.state.hands discarder)[j]?.bind
          (tryTarget later game discarder expectedDiscard i) := by
  rw [findPositionalDiscard, if_pos hon,
    findSome?_eq_find?_bind (p := fun (i, j) => isTarget later game discarder i j)]
  · rw [firstTarget]
    cases hfind : (positions game.state discarder).find? fun (i, j) =>
      isTarget later game discarder i j with
    | none => rfl
    | some a =>
      have htarget := List.find?_some hfind
      simp only [Option.bind_some]
      exact if_pos htarget
  · rintro ⟨i, j⟩ hfalse
    simp only at hfalse
    simp [hfalse]
  · rintro ⟨i, j⟩ htrue
    simp only at htrue
    simp only [htrue, if_true]
    simp only [isTarget, Bool.and_eq_true] at htrue
    cases hslot : (game.state.hands discarder)[j]? with
    | none => simp [hslot] at htrue
    | some order =>
      show (tryTarget later game discarder expectedDiscard i order).isSome = true
      unfold tryTarget
      split
      · rfl
      · rw [if_neg (by omega)]
        rfl

/-- A misplay of an unexpected card stops short of two strikes, at the first target, with
a second player found. -/
theorem of_misplay {order : ℕ} (h : findPositionalDiscard later game discarder expectedDiscard =
      some { misplay := true, order }) (hne : expectedDiscard ≠ some order) :
    positionalOn game.state = true ∧ game.state.strikes < 2 ∧
      ∃ i j, firstTarget later game discarder = some (i, j) ∧
        (game.state.hands discarder)[j]? = some order ∧
        (secondPlayer later game discarder i).isSome = true := by
  have htry : ∀ i o, tryTarget later game discarder expectedDiscard i o =
      some { misplay := true, order } → o = order ∧ game.state.strikes < 2 ∧
        (secondPlayer later game discarder i).isSome = true := by
    intro i o htry
    unfold tryTarget at htry
    split at htry
    · rename_i hsecond
      simp only [Option.some.injEq, PositionalDiscard.mk.injEq, true_and] at htry
      exact ⟨htry, hsecond.2, hsecond.1⟩
    · dsimp only at htry
      split at htry
      · cases htry
      · simp only [Option.some.injEq, PositionalDiscard.mk.injEq, beq_iff_eq] at htry
        exact absurd (htry.2 ▸ htry.1) hne
  have hon : positionalOn game.state = true := by
    by_contra hoff
    simp [findPositionalDiscard, hoff] at h
  have hround : ∃ i o, tryTarget later game discarder expectedDiscard i o =
      some { misplay := true, order } := by
    rw [findPositionalDiscard, if_pos hon] at h
    obtain ⟨⟨i, j⟩, -, hround⟩ := List.exists_of_findSome?_eq_some h
    simp only at hround
    split at hround
    · obtain ⟨o, -, ho⟩ := Option.bind_eq_some_iff.1 hround
      exact ⟨i, o, ho⟩
    · cases hround
  obtain ⟨i', o', ho'⟩ := hround
  have hstrikes := (htry i' o' ho').2.1
  rw [findPositionalDiscard_eq hon hstrikes] at h
  obtain ⟨⟨i, j⟩, hfirst, hround⟩ := Option.bind_eq_some_iff.1 h
  obtain ⟨o, hslot, ho⟩ := Option.bind_eq_some_iff.1 hround
  obtain ⟨rfl, -, hsecond⟩ := htry i o ho
  exact ⟨hon, hstrikes, i, j, hfirst, hslot, hsecond⟩

/-! ## Results -/

/-- The misplays that are to call two players call two that hold a target in the slot
exactly if the search for the second is not misled. -/
theorem misplay_twoTargets_iff (hd : discarder < game.state.numPlayers)
    (hnodup : (game.state.hands discarder).Nodup) :
    (∀ order, findPositionalDiscard later game discarder expectedDiscard =
        some { misplay := true, order } → expectedDiscard ≠ some order →
      TwoTargets later game discarder order) ↔
    SeatsAgree later game discarder expectedDiscard := by
  constructor
  · intro htwo hon hstrikes i j hfirst hslot hseat
    have htarget : isTarget later game discarder i j = true :=
      isTarget_of_firstTarget hfirst
    have htrash := htarget
    simp only [isTarget, Bool.and_eq_true] at htrash
    cases ho : (game.state.hands discarder)[j]? with
    | none => simp [ho] at htrash
    | some order =>
      have hrun : findPositionalDiscard later game discarder expectedDiscard =
          some { misplay := true, order } := by
        rw [findPositionalDiscard_eq hon hstrikes, hfirst]
        simp only [Option.bind_some, ho]
        exact if_pos ⟨secondPlayer_isSome.2 hseat, hstrikes⟩
      rw [ho] at hslot
      obtain ⟨p, q, hpq, hp, hq, hpn, hqn, hpv, hqv⟩ := htwo order hrun fun h => hslot h.symm
      have hidx : (game.state.hands discarder).idxOf order = j := by
        obtain ⟨hj, rfl⟩ := List.getElem?_eq_some_iff.1 ho
        exact hnodup.idxOf_getElem j hj
      rw [hidx] at hpv hqv
      obtain ⟨k, hk1, hkn, rfl⟩ := exists_seat hd hpn hp
      obtain ⟨l, hl1, hln, rfl⟩ := exists_seat hd hqn hq
      have hkl : k ≠ l := fun h => hpq (by rw [h])
      -- both seats hold a target in slot `j`, so neither comes before the first
      have hle : ∀ k, 1 ≤ k → k < game.state.numPlayers →
          validTarget later game discarder (playerAfter game.state discarder k)
            (game.state.hands (playerAfter game.state discarder k))[j]? = true → i ≤ k := by
        intro k hk1 hkn hv
        refine firstTarget_le hfirst hk1 hkn (l := j) ?_
        simp only [isTarget, Bool.and_eq_true]
        exact ⟨htrash.1, hv⟩
      have hik := hle k hk1 hkn hpv
      have hil := hle l hl1 hln hqv
      obtain hlt | hlt := lt_or_gt_of_ne hkl
      · exact ⟨l, by omega, hln, hqv⟩
      · exact ⟨k, by omega, hkn, hpv⟩
  · intro hagree order hrun hne
    obtain ⟨hon, hstrikes, i, j, hfirst, hslot, hsecond⟩ := of_misplay hrun hne
    have htarget : isTarget later game discarder i j = true :=
      isTarget_of_firstTarget hfirst
    simp only [isTarget, Bool.and_eq_true] at htarget
    have hpos := mem_positions.1 (List.mem_of_find?_eq_some hfirst)
    have hslot' : (game.state.hands discarder)[j]? ≠ expectedDiscard := by
      rw [hslot]
      exact fun h => hne h.symm
    obtain ⟨k, hik, hkn, hk⟩ :=
      hagree hon hstrikes i j hfirst hslot' (secondPlayer_isSome.1 hsecond)
    have hidx : (game.state.hands discarder).idxOf order = j := by
      obtain ⟨hj, rfl⟩ := List.getElem?_eq_some_iff.1 hslot
      exact hnodup.idxOf_getElem j hj
    refine ⟨playerAfter game.state discarder i, playerAfter game.state discarder k, ?_,
      playerAfter_ne hd hpos.1 hpos.2.1, playerAfter_ne hd (by omega) hkn,
      playerAfter_lt hpos.2.1, playerAfter_lt hkn, ?_, ?_⟩
    · intro heq
      have := playerAfter_inj hd hpos.2.1 hkn heq
      omega
    · rw [hidx]
      exact htarget.2
    · rw [hidx]
      exact hk

end

/-! ## A search that is misled -/

/-- The cards in the order they are drawn; Alice's unclued cards are never seen. -/
def lastCardsDeck : List Identity :=
  [⟨4, 1⟩, ⟨4, 4⟩, ⟨4, 5⟩, ⟨3, 5⟩, ⟨4, 2⟩, ⟨3, 3⟩, ⟨3, 2⟩, ⟨3, 1⟩, ⟨3, 1⟩, ⟨0, 1⟩, ⟨2, 1⟩, ⟨2, 1⟩,
    ⟨3, 3⟩, ⟨3, 2⟩, ⟨3, 1⟩, ⟨0, 2⟩, ⟨0, 3⟩, ⟨0, 4⟩, ⟨0, 2⟩, ⟨0, 5⟩, ⟨0, 3⟩, ⟨1, 1⟩, ⟨0, 4⟩, ⟨1, 2⟩,
    ⟨1, 1⟩, ⟨1, 3⟩, ⟨1, 2⟩, ⟨1, 4⟩, ⟨1, 3⟩, ⟨1, 5⟩, ⟨1, 4⟩, ⟨2, 1⟩, ⟨2, 2⟩, ⟨2, 2⟩, ⟨2, 3⟩, ⟨2, 3⟩,
    ⟨4, 4⟩, ⟨2, 4⟩, ⟨4, 3⟩, ⟨2, 5⟩, ⟨4, 1⟩, ⟨3, 4⟩, ⟨4, 2⟩, ⟨2, 4⟩]

/-- Alice (0) gave 17 clues, and kept the cards that she was dealt. Bob played the red, yellow and
green suits, always his newest card; Cathy played b1, b2 and b3, and discarded her oldest cards. -/
def lastCardsHands (p : ℕ) : List ℕ :=
  [[4, 3, 2, 1, 0], [41, 8, 7, 6, 5], [43, 42, 40, 38, 36]].getD p []

/-- Alice to play on turn 52, after 18 plays, 11 discards and 22 clues. She looks at b4, b1, b1,
b2, b3 and g4, p2, p1, p3, p4. Two r1 and a y1 are among the six cards left. -/
def lastCards : HState where
  variant := noVariant
  numPlayers := 3
  turnCount := 52
  clueTokens := 0
  hands := lastCardsHands
  deck := ⟨44, fun o => if o < 44 then some ⟨if o < 5 then none else lastCardsDeck[o]?⟩ else none⟩
  playStacks := fun s => if s < 3 then 5 else if s = 3 then 3 else 0
  discardStacks := fun id =>
    if id ∈ [⟨0, 2⟩, ⟨0, 3⟩, ⟨0, 4⟩, ⟨1, 1⟩, ⟨1, 2⟩, ⟨1, 3⟩, ⟨1, 4⟩, ⟨2, 2⟩, ⟨2, 3⟩] then 1
    else if id = ⟨2, 1⟩ then 2 else 0
  cardsLeft := 6
  cardOrder := 43
  earlyGame := false
  marks := fun o => if o = 4 then ⟨true, [{ type := .rank, value := 2, turn := 2 }]⟩ else {}

/-- What the clues leave: a 2 clue went to Alice's newest card; red, yellow and green ones went to
Bob while he held all but his newest card, and blue to Cathy while she held all but hers. -/
def lastCardsClued (o : ℕ) (id : Identity) : Bool :=
  if o = 4 then id.rank == 2
  else if o < 4 then id.rank != 2
  else if o < 9 then decide (3 ≤ id.suitIndex)
  else if o = 41 ∨ o = 43 then true
  else id.suitIndex != 3

/-- The other cards that a player knows to be some identity. Who sees the b2, knows that Alice's 2
is the p2. -/
def lastCardsCertain (hidden : List ℕ) (o : ℕ) (id : Identity) : ℕ :=
  lastCards.allOrders.countP fun o2 => o2 != o && lastCardsDeck[o2]? == some id &&
    (!hidden.contains o2 || (o2 == 4 && !hidden.contains 6))

/-- A player of the position, to whom some cards are hidden. -/
def lastCardsPlayer (playerIndex : Option ℕ) (hidden : List ℕ) : HypoPlayer where
  playerIndex := playerIndex
  thoughts := ⟨44, fun o => if o < 44 then
    let possible := (IdentitySet.full 5).intersect <| IdentitySet.identitiesToMask <|
      noVariant.allIdentities.filter fun id => lastCardsClued o id &&
        decide (lastCards.baseCount id + lastCardsCertain hidden o id < noVariant.cardCount id)
    some { id := if hidden.contains o then none else lastCardsDeck[o]?
           possible, order := o
           inferred := if o = 4 then ⟨5, IdentitySet.toMask ⟨4, 2⟩⟩ else possible
           clued := o == 4, status := if o = 4 then some .clued else none } else none⟩
  allPossible := .full 5
  allInferred := .full 5
  hypoStacks := lastCards.playStacks

def lastCardsGame : HypoGame where
  level := 11
  state := lastCards
  common := lastCardsPlayer none ((List.range 3).flatMap lastCardsHands)
  players := fun p => lastCardsPlayer (some p) (lastCardsHands p ++ lastCardsHands 0)

/-- Every target of this game is playable, so no plays in between are asked for. -/
def nothingLater : ℕ → ℕ → Identity → Bool := fun _ _ _ => false

/-- Alice misplays her p2 from slot 1 to call Bob's b4 in slot 1 and Cathy's p1, but that
is in slot 3, as Cathy sits two seats away: in slot 1 she has a g4. -/
theorem misplay_misled :
    findPositionalDiscard nothingLater lastCardsGame 0 (some 0) =
      some { misplay := true, order := 4 } ∧
    ¬TwoTargets nothingLater lastCardsGame 0 4 := by
  refine ⟨by decide +kernel, ?_⟩
  rintro ⟨p, q, hpq, hp, hq, hpn, hqn, hpv, hqv⟩
  have hcathy : ∀ p, p ≠ 0 → p < 3 → validTarget nothingLater lastCardsGame 0 p
      (lastCards.hands p)[(lastCards.hands 0).idxOf 4]? = true → p = 1 := by
    intro p hp hpn hv
    have hp' : p = 1 ∨ p = 2 := by omega
    obtain rfl | rfl := hp'
    · rfl
    · revert hv
      decide +kernel
  exact hpq ((hcathy p hp hpn hpv).trans (hcathy q hq hqn hqv).symm)

theorem misplay_twoTargets_iff_lastCards :
    (∀ order, findPositionalDiscard nothingLater lastCardsGame 0 (some 0) =
        some { misplay := true, order } → some 0 ≠ some order →
      TwoTargets nothingLater lastCardsGame 0 order) ↔
    SeatsAgree nothingLater lastCardsGame 0 (some 0) :=
  misplay_twoTargets_iff (by decide) (by decide)

end HanabiBot.HGroup
