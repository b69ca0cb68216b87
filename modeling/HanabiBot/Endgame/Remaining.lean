import HanabiBot.Basics.Board
import HanabiBot.Endgame.Solver

/-!
# The identities that are left

`find_remaining_identities` counts the copies that we see or infer, by the names of
their identities, and takes the rest for the deck and our unknown cards.

* `ownIds_perm` — each card of our hand gets one entry, and `ownId` says which;
* `countsAdd_iff` — where names tell the identities apart, the missing copies number the
  cards left and our unknown cards exactly if no identity is seen more often than it has
  copies.
-/

namespace HanabiBot.Endgame

variable {κ : Type} {g : Game κ}

/-! ## Our own cards -/

/-- We only infer what this card is. -/
def inferredOnly (g : Game κ) (o : ℕ) : Bool :=
  (seenAs g {} o).isNone && (seenAs g { infer := true } o).isSome

/-- The name of the identity that we infer. -/
def inferredName (g : Game κ) (o : ℕ) : Option Variant.CardName :=
  (seenAs g { infer := true } o).map g.state.variant.logCard

/-- Our cards that we infer to have this name. -/
def inferredAs (g : Game κ) (name : Variant.CardName) : List ℕ :=
  (g.state.hands g.state.ourPlayerIndex).filter fun o =>
    (seenAs g {} o).isNone && inferredName g o == some name

/-- The identity that our card gets: the one we know, or else the one we infer, unless we infer it
of too many cards. -/
def ownId (g : Game κ) (o : ℕ) : Option Identity :=
  (seenAs g {} o).or (((inferredName g o).filter fun name =>
    !tooMany g name (inferredAs g name)).map g.state.variant.expandShort)

/-- The cards that are only inferred, with the names of their identities. -/
def inferred (g : Game κ) : List (Variant.CardName × ℕ) :=
  (g.state.hands g.state.ourPlayerIndex).filterMap fun o =>
    if (seenAs g {} o).isSome then none
    else (seenAs g { infer := true } o).map fun id => (g.state.variant.logCard id, o)

theorem map_snd_inferred (g : Game κ) :
    (inferred g).map Prod.snd = (g.state.hands g.state.ourPlayerIndex).filter (inferredOnly g) := by
  rw [inferred]
  induction g.state.hands g.state.ourPlayerIndex with
  | nil => rfl
  | cons o hand ih =>
    cases h : seenAs g {} o <;> cases h' : seenAs g { infer := true } o <;>
      simp [inferredOnly, h, h', ih]

theorem seenAs_of_mem_inferred {name : Variant.CardName} {o : ℕ} (h : (name, o) ∈ inferred g) :
    seenAs g {} o = none ∧ inferredName g o = some name := by
  obtain ⟨o', -, ho'⟩ := List.mem_filterMap.1 h
  split at ho'
  · cases ho'
  · rename_i hnone
    obtain ⟨id', hid', heq⟩ := Option.map_eq_some_iff.1 ho'
    cases heq
    exact ⟨by simpa using hnone, by rw [inferredName, hid']; rfl⟩

theorem map_snd_filter_inferred (g : Game κ) (name : Variant.CardName) :
    ((inferred g).filter fun x => x.1 = name).map Prod.snd = inferredAs g name := by
  rw [inferred, inferredAs]
  induction g.state.hands g.state.ourPlayerIndex with
  | nil => rfl
  | cons o hand ih =>
    cases h : seenAs g {} o with
    | some x => simpa [h] using ih
    | none =>
      cases h' : seenAs g { infer := true } o with
      | none => simpa [h, h', inferredName] using ih
      | some x =>
        by_cases hx : g.state.variant.logCard x = name
        · simpa [h, h', hx, inferredName] using ih
        · simpa [h, h', hx, inferredName] using ih

/-- Each card of our hand has one entry. -/
theorem ownIds_perm (g : Game κ) :
    (ownIds g).Perm ((g.state.hands g.state.ourPlayerIndex).map fun o => ⟨o, ownId g o⟩) := by
  have hdirect : ∀ f : ℕ → Option OwnId,
      (∀ o, f o = if inferredOnly g o then none else some ⟨o, ownId g o⟩) →
      ∀ hand : List ℕ, hand.filterMap f =
        (hand.filter fun o => !inferredOnly g o).map fun o => ⟨o, ownId g o⟩ := by
    intro f hf hand
    induction hand with
    | nil => rfl
    | cons o hand ih => cases h : inferredOnly g o <;> simp [hf o, h, ih]
  have hgroups : ((inferIds g).flatMap fun group =>
      group.2.map fun o => (⟨o, if tooMany g group.1 group.2 then none
        else some (g.state.variant.expandShort group.1)⟩ : OwnId)) =
      ((Utils.groupBy (inferred g) Prod.fst).flatMap Prod.snd).map
        fun x => ⟨x.2, ownId g x.2⟩ := by
    rw [inferIds, List.flatMap_map, List.map_flatMap]
    refine List.flatMap_congr fun group hgroup => ?_
    obtain ⟨name, members⟩ := group
    obtain ⟨-, hmembers⟩ := Utils.mem_groupBy.1 hgroup
    dsimp only at hmembers ⊢
    rw [List.map_map]
    refine List.map_congr_left fun x hx => ?_
    have hx' := hx
    rw [hmembers, List.mem_filter] at hx'
    have hname : x.1 = name := by simpa using hx'.2
    obtain ⟨hnone, hinfer⟩ := seenAs_of_mem_inferred (show (x.1, x.2) ∈ inferred g from hx'.1)
    have horders : members.map Prod.snd = inferredAs g name := by
      rw [hmembers]
      exact map_snd_filter_inferred g name
    simp only [Function.comp_apply, ownId, hnone, hinfer, hname, horders, Option.none_or,
      Option.filter_some]
    cases tooMany g name (inferredAs g name) <;> simp
  have hinferred : (((Utils.groupBy (inferred g) Prod.fst).flatMap Prod.snd).map
      fun x => (⟨x.2, ownId g x.2⟩ : OwnId)).Perm
      (((g.state.hands g.state.ourPlayerIndex).filter (inferredOnly g)).map
        fun o => ⟨o, ownId g o⟩) := by
    refine ((Utils.flatMap_groupBy_perm _ _).map _).trans ?_
    rw [← map_snd_inferred, List.map_map]
    rfl
  have hown : ownIds g = ((g.state.hands g.state.ourPlayerIndex).filter fun o =>
      !inferredOnly g o).map (fun o => ⟨o, ownId g o⟩) ++
      ((Utils.groupBy (inferred g) Prod.fst).flatMap Prod.snd).map fun x => ⟨x.2, ownId g x.2⟩ := by
    refine congrArg₂ (· ++ ·) (hdirect _ (fun o => ?_) _) hgroups
    cases h : seenAs g {} o <;> cases h' : seenAs g { infer := true } o <;>
      simp [inferredOnly, ownId, inferredName, h, h']
  rw [hown]
  refine (hinferred.append_left _).trans ?_
  rw [← List.map_append]
  refine List.Perm.map _ (List.perm_append_comm.trans ?_)
  exact List.filter_append_perm (inferredOnly g) _

/-- Our unknown cards. -/
theorem unknownOwn_perm (g : Game κ) :
    (table g).unknownOwn.Perm ((g.state.hands g.state.ourPlayerIndex).filter fun o =>
      (ownId g o).isNone) := by
  have hmap : ((g.state.hands g.state.ourPlayerIndex).map fun o => (⟨o, ownId g o⟩ : OwnId)).filterMap
      (fun own => if own.id.isNone then some own.order else none) =
      (g.state.hands g.state.ourPlayerIndex).filter fun o => (ownId g o).isNone := by
    induction g.state.hands g.state.ourPlayerIndex with
    | nil => rfl
    | cons o hand ih =>
      cases h : ownId g o <;> simpa [h] using ih
  rw [← hmap]
  exact (ownIds_perm g).filterMap _

theorem length_unknownOwn_le (g : Game κ) :
    (table g).unknownOwn.length ≤ (g.state.hands g.state.ourPlayerIndex).length := by
  rw [(unknownOwn_perm g).length_eq]
  exact List.length_filter_le _ _

/-! ## Counting the copies -/

/-- The copies that we see, and those that we infer of few enough cards. -/
theorem seenIds_eq (g : Game κ) (name : Variant.CardName) :
    seenIds g name = seenCount g name +
      if tooMany g name (inferredAs g name) then 0 else (inferredAs g name).length := by
  have hsum : ((inferIds g).map fun group =>
      if group.1 = name ∧ tooMany g name group.2 = false then group.2.length else 0).sum =
      if tooMany g name (inferredAs g name) then 0 else (inferredAs g name).length := by
    rw [← map_snd_filter_inferred, List.length_map]
    refine Eq.trans ?_ (Utils.sum_groupBy_key (inferred g) Prod.fst name
      (w := fun members => if tooMany g name (members.map Prod.snd) then 0 else members.length)
      (by simp))
    rw [inferIds, List.map_map]
    refine congrArg List.sum (List.map_congr_left fun group _ => ?_)
    simp only [Function.comp_apply, List.length_map]
    by_cases hname : group.1 = name <;> cases tooMany g name (group.2.map Prod.snd) <;> simp [hname]
  rw [seenIds]
  exact congrArg (seenCount g name + ·) hsum

/-- The identity that we infer and use for a card of ours. -/
def inferId (g : Game κ) (o : ℕ) : Option Identity :=
  if (seenAs g {} o).isNone then ownId g o else none

/-- We know what every card in the other hands is, and our thoughts are about cards of the variant. -/
structure OthersSeen (g : Game κ) : Prop where
  our_lt : g.state.ourPlayerIndex < g.state.numPlayers
  others : ∀ p < g.state.numPlayers, p ≠ g.state.ourPlayerIndex → ∀ o ∈ g.state.hands p,
    (seenAs g {} o).isSome = true
  ofVariant : ∀ o card, g.me.thoughts.get o = some card → card.OfVariant g.state.variant

theorem OthersSeen.valid (h : OthersSeen g) {options : MatchOptions} {o : ℕ} {id : Identity}
    (hid : seenAs g options o = some id) : id.Valid g.state.variant := by
  obtain ⟨card, hcard, hidentity⟩ := Option.bind_eq_some_iff.1 hid
  exact (h.ofVariant o card hcard).identity_valid hidentity

/-- No identity is on the stacks and seen in hands more often than it has copies. -/
def NotOverseen (g : Game κ) : Prop :=
  ∀ id : Identity, id.Valid g.state.variant →
    g.state.baseCount id + (g.state.allOrders.countP fun o => seenAs g {} o == some id) ≤
      g.state.cardCount id

instance (g : Game κ) : Decidable (NotOverseen g) :=
  decidable_of_iff (∀ id ∈ g.state.variant.allIdentities,
    g.state.baseCount id + (g.state.allOrders.countP fun o => seenAs g {} o == some id) ≤
      g.state.cardCount id)
    (by simp only [Variant.mem_allIdentities, NotOverseen])

/-! ### By name -/

section

variable {id : Identity}

/-- Where names tell the identities apart, the cards of a name are those of its identity. -/
theorem map_logCard_eq_some_iff (hnames : g.state.variant.DistinctNames) (h : OthersSeen g)
    (hid : id.Valid g.state.variant) {options : MatchOptions} {o : ℕ} :
    (seenAs g options o).map g.state.variant.logCard = some (g.state.variant.logCard id) ↔
      seenAs g options o = some id := by
  cases hseen : seenAs g options o with
  | none => simp
  | some x => simp [hnames.logCard_inj (h.valid hseen) hid]

theorem seenCount_logCard (hnames : g.state.variant.DistinctNames) (h : OthersSeen g)
    (hid : id.Valid g.state.variant) : seenCount g (g.state.variant.logCard id) =
      g.state.allOrders.countP fun o => seenAs g {} o == some id :=
  List.countP_congr fun o _ => by
    simp only [beq_iff_eq]
    exact map_logCard_eq_some_iff hnames h hid

/-- Copies of an identity that we see, infer, or find on the stacks do not exceed those there are,
if those that we see do not. -/
theorem seenIds_le (hnames : g.state.variant.DistinctNames) (hid : id.Valid g.state.variant)
    (hle : g.state.baseCount id + seenCount g (g.state.variant.logCard id) ≤
      g.state.cardCount id) :
    g.state.baseCount id + seenIds g (g.state.variant.logCard id) ≤ g.state.cardCount id := by
  rw [seenIds_eq]
  split
  · exact hle
  · rename_i htoo
    simp only [tooMany, hnames.expandShort_logCard hid, decide_eq_true_eq] at htoo
    omega

/-- The inferred identity of a card is used, if few enough cards are inferred to be it. -/
theorem inferId_eq_some_iff (hnames : g.state.variant.DistinctNames) (h : OthersSeen g)
    (hid : id.Valid g.state.variant) {o : ℕ} : inferId g o = some id ↔
      seenAs g {} o = none ∧ seenAs g { infer := true } o = some id ∧
        tooMany g (g.state.variant.logCard id) (inferredAs g (g.state.variant.logCard id)) =
          false := by
  unfold inferId ownId inferredName
  cases hseen : seenAs g {} o with
  | some x => simp
  | none =>
    cases hinfer : seenAs g { infer := true } o with
    | none => simp
    | some x =>
      have hx := h.valid hinfer
      simp only [Option.isNone_none, if_true, Option.none_or, Option.map_some, Option.some.injEq,
        Option.filter_some, true_and]
      constructor
      · intro heq
        cases htoo : tooMany g (g.state.variant.logCard x)
          (inferredAs g (g.state.variant.logCard x)) with
        | true => simp [htoo] at heq
        | false =>
          simp only [htoo, Bool.not_false, if_true, Option.map_some,
            hnames.expandShort_logCard hx, Option.some.injEq] at heq
          exact heq ▸ ⟨rfl, htoo⟩
      · rintro ⟨rfl, htoo⟩
        simp [htoo, hnames.expandShort_logCard hx]

theorem countP_inferId (hnames : g.state.variant.DistinctNames) (h : OthersSeen g)
    (hid : id.Valid g.state.variant) :
    ((g.state.hands g.state.ourPlayerIndex).countP fun o => inferId g o == some id) =
      if tooMany g (g.state.variant.logCard id) (inferredAs g (g.state.variant.logCard id)) then 0
      else (inferredAs g (g.state.variant.logCard id)).length := by
  split
  · rename_i htoo
    rw [List.countP_eq_zero]
    intro o _ ho
    rw [((inferId_eq_some_iff hnames h hid).1 (by simpa using ho)).2.2] at htoo
    cases htoo
  · rename_i htoo
    rw [inferredAs, ← List.countP_eq_length_filter]
    refine List.countP_congr fun o _ => ?_
    rw [beq_iff_eq, inferId_eq_some_iff hnames h hid, Bool.and_eq_true, beq_iff_eq, inferredName,
      map_logCard_eq_some_iff hnames h hid, Option.isNone_iff_eq_none]
    simp [htoo]

end

/-! ### The sum -/

/-- The cards that we do not see are all our own. -/
theorem countP_unseen (h : OthersSeen g) :
    g.state.allOrders.countP (fun o => (seenAs g {} o).isNone) =
      (g.state.hands g.state.ourPlayerIndex).countP fun o => (seenAs g {} o).isNone := by
  have hzero : ∀ p ∈ (List.range g.state.numPlayers).erase g.state.ourPlayerIndex,
      (g.state.hands p).countP (fun o => (seenAs g {} o).isNone) = 0 := by
    intro p hp
    obtain ⟨hne, hmem⟩ := (List.Nodup.mem_erase_iff List.nodup_range).1 hp
    rw [List.countP_eq_zero]
    intro o ho hnone
    have := h.others p (List.mem_range.1 hmem) hne o ho
    rw [Option.isNone_iff_eq_none] at hnone
    rw [hnone] at this
    cases this
  rw [State.allOrders, (Counting.flatMap_perm (List.mem_range.2 h.our_lt) _).countP_eq,
    List.countP_append, List.countP_flatMap, List.sum_eq_zero, Nat.add_zero]
  intro n hn
  obtain ⟨p, hp, rfl⟩ := List.mem_map.1 hn
  exact hzero p hp

/-- Every card in the hands is seen, inferred or unknown. -/
theorem length_allOrders (h : OthersSeen g) :
    g.state.allOrders.length = g.state.allOrders.countP (fun o => (seenAs g {} o).isSome) +
      (g.state.hands g.state.ourPlayerIndex).countP (fun o => (inferId g o).isSome) +
      (table g).unknownOwn.length := by
  have hall := List.length_eq_countP_add_countP (l := g.state.allOrders)
    (p := fun o => (seenAs g {} o).isSome)
  have hunseen : g.state.allOrders.countP (fun o => decide ¬ (seenAs g {} o).isSome = true) =
      g.state.allOrders.countP fun o => (seenAs g {} o).isNone :=
    List.countP_congr fun o _ => by simp
  have hown : (g.state.hands g.state.ourPlayerIndex).countP (fun o => (seenAs g {} o).isNone) =
      (g.state.hands g.state.ourPlayerIndex).countP (fun o => (inferId g o).isSome) +
        (g.state.hands g.state.ourPlayerIndex).countP fun o => (ownId g o).isNone := by
    induction g.state.hands g.state.ourPlayerIndex with
    | nil => rfl
    | cons o hand ih =>
      simp only [List.countP_cons, ih, inferId]
      cases hseen : seenAs g {} o with
      | some id => simp [ownId, hseen]
      | none =>
        cases hid : ownId g o <;> simp
        all_goals omega
  rw [hunseen, countP_unseen h, hown] at hall
  rw [(unknownOwn_perm g).length_eq, ← List.countP_eq_length_filter]
  omega

/-- The copies seen or inferred are counted once for each card. -/
theorem sum_seenIds (hnames : g.state.variant.DistinctNames) (h : OthersSeen g) :
    (g.state.variant.allIdentities.map fun id => seenIds g (g.state.variant.logCard id)).sum =
      g.state.allOrders.countP (fun o => (seenAs g {} o).isSome) +
        (g.state.hands g.state.ourPlayerIndex).countP fun o => (inferId g o).isSome := by
  have hnodup := Variant.nodup_allIdentities g.state.variant
  have hseen := Counting.sum_countP_some hnodup (l := g.state.allOrders) (f := seenAs g {})
    fun o _ id hid => Variant.mem_allIdentities.2 (h.valid hid)
  have hinfer := Counting.sum_countP_some hnodup (l := g.state.hands g.state.ourPlayerIndex)
    (f := inferId g) fun o _ id hid => by
      refine Variant.mem_allIdentities.2 ?_
      unfold inferId ownId inferredName at hid
      cases hs : seenAs g {} o with
      | some x => simp [hs] at hid
      | none =>
        simp only [hs, Option.isNone_none, if_true, Option.none_or, Option.map_eq_some_iff,
          Option.filter_eq_some_iff] at hid
        obtain ⟨name, ⟨⟨x, hx, rfl⟩, -⟩, rfl⟩ := hid
        rw [hnames.expandShort_logCard (h.valid hx)]
        exact h.valid hx
  rw [← hseen, ← hinfer, ← List.sum_map_add]
  refine congrArg List.sum (List.map_congr_left fun id hid => ?_)
  have hvalid := Variant.mem_allIdentities.1 hid
  rw [seenIds_eq, countP_inferId hnames h hvalid, seenCount_logCard hnames h hvalid]

theorem totalMissing_remainingIds (g : Game κ) :
    totalMissing (remainingIds g) = (g.state.variant.allIdentities.map fun id =>
      g.state.cardCount id - (g.state.baseCount id + seenIds g (g.state.variant.logCard id))).sum := by
  rw [totalMissing, remainingIds]
  induction g.state.variant.allIdentities with
  | nil => rfl
  | cons id ids ih =>
    rw [List.filterMap_cons, List.map_cons, List.sum_cons]
    dsimp only
    by_cases hpos : 0 < g.state.cardCount id -
        (g.state.baseCount id + seenIds g (g.state.variant.logCard id))
    · rw [if_pos hpos]
      simp only [List.map_cons, List.sum_cons]
      rw [ih]
    · rw [if_neg hpos, ih]
      omega

variable {v : Variant} {dk : Deck v} {n our : ℕ} {options : TableOptions} {acts : List Action}

/-- The copies on the stacks are those drawn that are in no hand. -/
theorem sum_baseCount (hrun : Run dk n our options acts g.state) :
    ((g.state.variant.allIdentities.map g.state.baseCount).sum : ℤ) + g.state.allOrders.length +
      g.state.cardsLeft = g.state.variant.deckSize := by
  have hinv := hrun.boardInv
  have hvariant := hinv.variant_eq
  have hsum : ∀ l : List ℕ, (∀ o ∈ l, (dk.truth o).Valid v) →
      (v.allIdentities.map fun id => l.countP fun o => decide (dk.truth o = id)).sum = l.length := by
    intro l hl
    have hsome := Counting.sum_countP_some (Variant.nodup_allIdentities v) (l := l)
      (f := fun o => some (dk.truth o)) fun o ho id hid => by
        cases hid
        exact Variant.mem_allIdentities.2 (hl o ho)
    simpa [beq_eq_decide] using hsome
  have hcopies : (v.allIdentities.map g.state.baseCount).sum +
      (v.allIdentities.map (g.state.handCopies dk)).sum =
      (v.allIdentities.map (g.state.drawnCopies dk)).sum := by
    rw [← List.sum_map_add]
    exact congrArg List.sum (List.map_congr_left fun id hid =>
      hinv.copies id (Variant.mem_allIdentities.1 hid))
  have hhand : (v.allIdentities.map (g.state.handCopies dk)).sum = g.state.allOrders.length :=
    hsum _ fun o ho => hinv.truth_valid ho
  have hdrawn : (v.allIdentities.map (g.state.drawnCopies dk)).sum =
      (g.state.cardOrder + 1).toNat := by
    refine (hsum _ fun o ho => ?_).trans List.length_range
    have := List.mem_range.1 ho
    exact dk.truth_valid o (hinv.order_lt_deckSize (by omega))
  have hleft := hinv.cardsLeft_eq
  have horder := hinv.cardOrder_ge
  rw [hhand, hdrawn] at hcopies
  rw [hvariant]
  omega

/-- The copies of all identities that are neither on the stacks or discards nor seen or inferred
under their names are as many as the cards left and our unknown cards. -/
def CountsAdd (g : Game κ) : Prop :=
  ((g.state.variant.allIdentities.map fun id =>
      g.state.cardCount id - (g.state.baseCount id + seenIds g (g.state.variant.logCard id))).sum :
        ℤ) = g.state.cardsLeft + (table g).unknownOwn.length

instance (g : Game κ) : Decidable (CountsAdd g) := by
  unfold CountsAdd
  infer_instance

theorem totalMissing_eq (h : CountsAdd g) :
    (totalMissing (remainingIds g) : ℤ) = g.state.cardsLeft + (table g).unknownOwn.length := by
  rw [totalMissing_remainingIds]
  exact h

/-- Where names tell the identities apart, the copies add up exactly if no identity is
overseen. -/
theorem countsAdd_iff (hnames : g.state.variant.DistinctNames)
    (hrun : Run dk n our options acts g.state) (h : OthersSeen g) :
    CountsAdd g ↔ NotOverseen g := by
  have hbase := sum_baseCount hrun
  have hseen := sum_seenIds hnames h
  have hall := length_allOrders h
  have hsum := List.sum_map_add (l := g.state.variant.allIdentities) (f := g.state.baseCount)
    (g := fun id => seenIds g (g.state.variant.logCard id))
  have hdeck : (g.state.variant.allIdentities.map g.state.cardCount).sum =
      g.state.variant.deckSize := rfl
  have hiff := @Counting.sum_tsub_eq_iff _ g.state.variant.allIdentities g.state.cardCount
    fun id => g.state.baseCount id + seenIds g (g.state.variant.logCard id)
  rw [hdeck, hsum] at hiff
  rw [CountsAdd]
  constructor
  · intro htotal id hid
    have hle := hiff.1 (by omega) id (Variant.mem_allIdentities.2 hid)
    rw [seenIds_eq, seenCount_logCard hnames h hid] at hle
    omega
  · intro hfew
    have := hiff.2 fun id hid => by
      have hvalid := Variant.mem_allIdentities.1 hid
      refine seenIds_le hnames hvalid ?_
      rw [seenCount_logCard hnames h hvalid]
      exact hfew id hvalid
    omega

/-- No identity is overseen, if those that we see are right. -/
theorem notOverseen_of_true (hrun : Run dk n our options acts g.state)
    (h : ∀ o ∈ g.state.allOrders, ∀ id, seenAs g {} o = some id → id = dk.truth o) :
    NotOverseen g := by
  have hinv := hrun.boardInv
  intro id hid
  rw [hinv.variant_eq] at hid
  have hle : (g.state.allOrders.countP fun o => seenAs g {} o == some id) ≤
      g.state.handCopies dk id := by
    refine List.countP_mono_left fun o ho hseen => ?_
    rw [decide_eq_true_eq]
    exact (h o ho id (by simpa using hseen)).symm
  have hcopies := hinv.copies_le hid
  rw [State.cardCount, hinv.variant_eq]
  omega

end HanabiBot.Endgame
