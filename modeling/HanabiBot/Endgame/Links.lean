import HanabiBot.Endgame.Remaining
import HanabiBot.Endgame.Solve

/-!
# Linked cards in the arrangements

The cards of an unresolved link are not all trash, so `expand_arr` means to leave
out the assignments that make them so.

* `assignable_iff` — it leaves out none: the clause asks for an identity that is
  possible for the card and trash, on a card for which no trash is possible;
* `linksRestrict_iff` — so the rule holds exactly where it has nothing to leave out,
  and `linked_all_trash` is a game where the search goes on with two linked cards
  that are both trash.
-/

namespace HanabiBot.Endgame

variable {κ : Type} {t : Table κ} {g : Game κ} {rem : RemainingSet}

/-! ## The clause for linked cards -/

/-- Our card may be this identity, by the deck and by what is possible. -/
def MayBe (t : Table κ) (order : ℕ) (id : Identity) : Prop :=
  (∀ id', t.state.identityOf order = some id' → id' = id) ∧
    ∃ card, t.game.me.thoughts.get order = some card ∧ card.possible.has id = true

/-- What is possible of our cards is a set of the variant's identities. -/
def OwnVariant (g : Game κ) : Prop :=
  ∀ o card, g.me.thoughts.get o = some card → card.possible.numSuits = g.state.variant.suits.length

/-- The clause for linked cards excludes nothing. -/
theorem assignable_iff (hv : OwnVariant t.game) {ids : List Identity} {order : ℕ} {id : Identity}
    (hid : id.Valid t.game.state.variant) : assignable t ids order id = true ↔ MayBe t order id := by
  unfold assignable MayBe
  cases hcard : t.game.me.thoughts.get order with
  | none => simp [IdentitySet.has]
  | some card =>
    -- an identity that is possible and trash makes some trash possible
    have hclause : card.possible.has id = true → (t.state.isBasicTrash id &&
        !(card.possible.array.any t.state.isBasicTrash)) = false := by
      intro hhas
      cases htrash : t.state.isBasicTrash id with
      | false => rfl
      | true =>
        have hmem : id ∈ card.possible.array := by
          refine IdentitySet.mem_array.2 ⟨?_, hid.2, hhas⟩
          rw [hv order card hcard]
          exact hid.1
        rw [List.any_eq_true.2 ⟨id, hmem, htrash⟩]
        rfl
    cases hhas : card.possible.has id with
    | false => simp [hhas]
    | true =>
      cases hdeck : t.state.identityOf order <;> simp [hhas, hclause hhas, hdeck]

/-- An assignment of identities to our unknown cards that respects the missing counts and what is
possible of each card. -/
structure Allowed (t : Table κ) (rem : RemainingSet) (ids : List Identity) : Prop where
  length_eq : ids.length = t.unknownOwn.length
  enough : ∀ id, ids.count id ≤ missingOf rem id
  may : ∀ entry ∈ t.unknownOwn.zip ids, MayBe t entry.1 entry.2

/-- The missing identities are of the variant. -/
def MissingValid (v : Variant) (rem : RemainingSet) : Prop := ∀ r ∈ rem, r.id.Valid v

theorem missingValid_remainingIds (g : Game κ) : MissingValid g.state.variant (remainingIds g) := by
  intro r hr
  obtain ⟨id, hid, h⟩ := List.mem_filterMap.1 hr
  simp only [Option.ite_none_right_eq_some, Option.some.injEq] at h
  obtain ⟨-, rfl⟩ := h
  exact Variant.mem_allIdentities.1 hid

theorem valid_of_enough {v : Variant} (hrem : MissingValid v rem) {ids : List Identity}
    (h : ∀ id, ids.count id ≤ missingOf rem id) {id : Identity} (hid : id ∈ ids) : id.Valid v := by
  have hpos : 0 < missingOf rem id := lt_of_lt_of_le (List.count_pos_iff.2 hid) (h id)
  obtain ⟨r, hr, rfl⟩ := exists_mem_of_missingOf_pos hpos
  exact hrem r hr

/-- The arrangements are exactly the allowed assignments. -/
theorem feasible_iff_allowed (hv : OwnVariant t.game)
    (hrem : MissingValid t.game.state.variant rem) {ids : List Identity} :
    Feasible t rem ids ↔ Allowed t rem ids := by
  constructor
  · intro h
    refine ⟨h.length_eq, h.enough, ?_⟩
    rintro ⟨o, id⟩ hentry
    obtain ⟨i, hi, heq⟩ := List.mem_iff_getElem.1 hentry
    rw [List.getElem_zip, Prod.mk.injEq] at heq
    obtain ⟨rfl, rfl⟩ := heq
    rw [List.length_zip] at hi
    have hassign := h.assignable i (by omega)
    rw [List.getD_eq_getElem _ _ (by omega)] at hassign
    exact (assignable_iff hv (valid_of_enough hrem h.enough (List.getElem_mem _))).1 hassign
  · intro h
    refine ⟨h.length_eq, h.enough, fun i hi => ?_⟩
    have hi' : i < t.unknownOwn.length := h.length_eq ▸ hi
    rw [List.getD_eq_getElem _ _ hi']
    refine (assignable_iff hv (valid_of_enough hrem h.enough (List.getElem_mem _))).2 ?_
    refine h.may (t.unknownOwn[i], ids[i]) (List.mem_iff_getElem.2 ⟨i, ?_, ?_⟩)
    · rw [List.length_zip]
      omega
    · rw [List.getElem_zip]

/-! ## The arrangements of a sample -/

/-- Decimal digits of small numbers tell them apart. -/
theorem digits_inj {l l' : List ℕ} (hl : ∀ n ∈ l, n < 10) (hl' : ∀ n ∈ l', n < 10)
    (h : l.flatMap (Nat.toDigits 10) = l'.flatMap (Nat.toDigits 10)) : l = l' := by
  have hsingle : ∀ l : List ℕ, (∀ n ∈ l, n < 10) →
      l.flatMap (Nat.toDigits 10) = l.map Nat.digitChar := by
    intro l
    induction l with
    | nil => simp
    | cons n l ih =>
      intro hn
      rw [List.flatMap_cons, ih fun m hm => hn m (List.mem_cons_of_mem n hm),
        Nat.toDigits_of_lt_base (hn n List.mem_cons_self)]
      rfl
  rw [hsingle l hl, hsingle l' hl'] at h
  have hchar : ∀ n < 10, ∀ m < 10, Nat.digitChar n = Nat.digitChar m → n = m := by decide
  induction l generalizing l' with
  | nil => exact (List.map_eq_nil_iff.1 h.symm).symm
  | cons n l ih =>
    cases l' with
    | nil => simp at h
    | cons m l' =>
      rw [List.map_cons, List.map_cons, List.cons.injEq] at h
      rw [hchar n (hl n List.mem_cons_self) m (hl' m List.mem_cons_self) h.1,
        ih (fun x hx => hl x (List.mem_cons_of_mem n hx))
          (fun x hx => hl' x (List.mem_cons_of_mem m hx)) h.2]

variable {st : State} {arrs : List Arrangement} {arr : Arrangement}

/-- The first arrangement of a group is selected. -/
theorem exists_mem_selected (first : Arrangement) (rest : List Arrangement) :
    ∃ arr' ∈ selected (first :: rest), arr'.ids = first.ids := by
  have htake : first ∈ (first :: rest).take (min (first :: rest).length 3) := by
    rw [List.length_cons, show min (rest.length + 1) 3 = min rest.length 2 + 1 by omega,
      List.take_succ_cons]
    exact List.mem_cons_self
  exact ⟨_, List.mem_map_of_mem htake, rfl⟩

/-- The loop takes nothing away, and pushes what is selected of a group with trash. -/
theorem subset_foldl_pushSelected (groups : List (List Char × List Arrangement))
    (pushed : List Arrangement) :
    pushed ⊆ groups.foldl pushSelected pushed ∧ ∀ group ∈ groups, group.1 ≠ [] →
      selected group.2 ⊆ groups.foldl pushSelected pushed := by
  induction groups generalizing pushed with
  | nil => exact ⟨fun _ => id, by simp⟩
  | cons group groups ih =>
    obtain ⟨hkeep, hselected⟩ := ih (pushSelected pushed group)
    refine ⟨fun x hx => hkeep (List.mem_append_left _ hx), fun x hx hkey => ?_⟩
    rcases List.mem_cons.1 hx with rfl | hx
    · intro y hy
      refine hkeep (List.mem_append_right _ ?_)
      rwa [if_neg hkey]
    · exact hselected x hx hkey

/-- Every group keeps an arrangement. -/
theorem exists_mem_sample (h : arr ∈ arrs) :
    ∃ arr' ∈ sample st arrs, (∃ prev ∈ arrs, arr'.ids = prev.ids) ∧
      trashHash st arr' = trashHash st arr := by
  rw [sample_eq_foldl]
  obtain ⟨hkeep, hpushed⟩ := subset_foldl_pushSelected (trashGroups st arrs)
    (arrs.filter fun arr => trashHash st arr = [])
  by_cases hnil : trashHash st arr = []
  · exact ⟨arr, hkeep (List.mem_filter.2 ⟨h, by simpa using hnil⟩), ⟨arr, h, rfl⟩, rfl⟩
  · obtain ⟨group, hg, hkey⟩ := @exists_trashGroup st _ _ h
    have hmembers := (mem_trashGroups.1 hg).2
    have hmem : arr ∈ group.2 := by
      rw [hmembers]
      exact List.mem_filter.2 ⟨h, by simp [hkey]⟩
    obtain ⟨first, rest, hgroup⟩ := List.exists_cons_of_ne_nil (List.ne_nil_of_mem hmem)
    have hfirst : first ∈ group.2 := hgroup ▸ List.mem_cons_self
    rw [hmembers] at hfirst
    obtain ⟨hin, hhash⟩ := List.mem_filter.1 hfirst
    rw [decide_eq_true_eq] at hhash
    obtain ⟨arr', hselected, hids⟩ := exists_mem_selected first rest
    refine ⟨arr', hpushed group hg (hkey ▸ hnil) (hgroup ▸ hselected), ⟨first, hin, hids⟩, ?_⟩
    rw [← hkey, ← hhash, trashHash, trashHash, hids]

/-! ## The rule for links -/

/-- Every order of the link is assigned trash. -/
def AllTrash (t : Table κ) (link : Link) (ids : List Identity) : Prop :=
  ∀ o ∈ link.orders, ∃ id, (o, id) ∈ t.unknownOwn.zip ids ∧ t.state.isBasicTrash id = true

/-- The trash of an arrangement is on the link if and only if it is in every arrangement with the
same hash. -/
theorem allTrash_congr (hten : t.unknownOwn.length ≤ 10) {link : Link} {arr arr' : Arrangement}
    (hlen : arr.ids.length = t.unknownOwn.length) (hlen' : arr'.ids.length = t.unknownOwn.length)
    (h : trashHash t.state arr = trashHash t.state arr') (hall : AllTrash t link arr.ids) :
    AllTrash t link arr'.ids := by
  have hsmall : ∀ arr : Arrangement, arr.ids.length = t.unknownOwn.length →
      ∀ n ∈ Utils.findIndices arr.ids t.state.isBasicTrash, n < 10 := by
    intro arr hlen n hn
    obtain ⟨hlt, -⟩ := Utils.mem_findIndices.1 hn
    omega
  have hpositions := digits_inj (hsmall arr hlen) (hsmall arr' hlen') h
  intro o ho
  obtain ⟨id, hentry, htrash⟩ := hall o ho
  obtain ⟨i, hi, heq⟩ := List.mem_iff_getElem.1 hentry
  rw [List.getElem_zip, Prod.mk.injEq] at heq
  obtain ⟨rfl, rfl⟩ := heq
  rw [List.length_zip] at hi
  have hmem : i ∈ Utils.findIndices arr'.ids t.state.isBasicTrash := by
    rw [← hpositions]
    exact Utils.mem_findIndices.2 ⟨by omega, htrash⟩
  obtain ⟨hlt, htrash'⟩ := Utils.mem_findIndices.1 hmem
  refine ⟨arr'.ids[i], List.mem_iff_getElem.2 ⟨i, ?_, ?_⟩, htrash'⟩
  · rw [List.length_zip]
    omega
  · rw [List.getElem_zip]

/-- A link of ours that `linkedOrders` reports, with no order outside our unknown cards. -/
structure OpenLink (g : Game κ) (link : Link) : Prop where
  mem : link ∈ g.me.links
  unresolved : (link.identities.map (Player.unknownIdentities g.state g.me)).sum <
    (link.orders.length : ℤ)
  own : ∀ o ∈ link.orders, o ∈ (table g).unknownOwn

/-- `solve_game` goes on to its arrangements: there are unknown cards, at most two useful identities
are missing altogether, and the missing cards are those in the deck and our unknown ones. -/
structure Arranges (g : Game κ) : Prop where
  few : ((remainingIds g).filter fun r => !g.state.isBasicTrash r.id && r.all).length ≤ 2
  unknown : g.state.cardsLeft + (table g).unknownOwn.length ≠ 0
  total : (totalMissing (remainingIds g) : ℤ) = g.state.cardsLeft + (table g).unknownOwn.length

/-- The arrangements that `solve_game` searches. -/
def SearchedArrangement (g : Game κ) (monteCarlo : Bool) (arr : Arrangement) : Prop :=
  ((remainingIds g).filter fun r => !g.state.isBasicTrash r.id && r.all).length ≤ 2 ∧
  g.state.cardsLeft + (table g).unknownOwn.length ≠ 0 ∧
  ∃ arrs, arrange (table g) (remainingIds g) = pure arrs ∧
    arr ∈ if monteCarlo then sample (table g).state arrs else arrs

/-- No searched arrangement makes all of an open link trash, unless all that are allowed do. -/
def LinksRestrict (g : Game κ) (monteCarlo : Bool) : Prop :=
  ∀ link, OpenLink g link →
    (∃ ids, Allowed (table g) (remainingIds g) ids ∧ ¬ AllTrash (table g) link ids) →
    ∀ arr, SearchedArrangement g monteCarlo arr → ¬ AllTrash (table g) link arr.ids

/-- The searched arrangements are allowed. -/
theorem allowed_of_searched (hv : OwnVariant g) {monteCarlo : Bool}
    (h : SearchedArrangement g monteCarlo arr) :
    Allowed (table g) (remainingIds g) arr.ids ∧ Arranges g := by
  obtain ⟨hfew, hunknown, arrs, harrs, hmem⟩ := h
  obtain ⟨prev, hprev, hids⟩ : ∃ prev ∈ arrs, arr.ids = prev.ids := by
    split at hmem
    · obtain ⟨prev, hprev, hids, -⟩ := exists_of_mem_sample hmem
      exact ⟨prev, hprev, hids⟩
    · exact ⟨arr, hmem, rfl⟩
  have hrem := missingValid_remainingIds g
  rw [arrange_eq] at harrs
  split at harrs
  · exact absurd harrs (Prog.throw_ne_pure {} _ _)
  · rename_i hany
    obtain rfl := Prog.pure_inj {} harrs
    obtain ⟨exp, hexp, hids', -⟩ := mem_normalize hprev
    have hpos := missing_pos_remainingIds g
    have hspec := expanded_of_mem hpos hexp
    have hfeasible := (mem_expansions_iff (t := table g) hpos).1 ⟨exp, hexp, rfl⟩
    rw [hids, hids']
    refine ⟨(feasible_iff_allowed hv hrem).1 hfeasible, hfew, hunknown, ?_⟩
    have htotal : (totalMissing exp.newRemaining : ℤ) = (table g).state.cardsLeft := by
      by_contra hne
      exact hany (List.any_eq_true.2 ⟨exp, hexp, by simpa using hne⟩)
    have hsum := hspec.total_eq
    rw [← hsum]
    push_cast
    rw [htotal]
    rfl

/-- An allowed assignment is searched, or one that has trash on the same cards. -/
theorem searched_of_allowed (hv : OwnVariant g) (harr : Arranges g) (monteCarlo : Bool)
    {ids : List Identity} (h : Allowed (table g) (remainingIds g) ids) :
    ∃ arr, SearchedArrangement g monteCarlo arr ∧ arr.ids.length = (table g).unknownOwn.length ∧
      trashHash (table g).state arr = trashHash (table g).state ⟨ids, 1, []⟩ := by
  have hrem := missingValid_remainingIds g
  have hpos := missing_pos_remainingIds g
  have hfeasible := (feasible_iff_allowed (t := table g) hv hrem).2 h
  obtain ⟨exp, hexp, hids⟩ := (mem_expansions_iff (t := table g) hpos).2 hfeasible
  have harrange := @arrange_of_total _ (table g) _ hpos harr.total
  have hmem := List.mem_map_of_mem (f := fun arr : Arrangement => { arr with
    prob := arr.prob.divide (sumProb (expansions (table g) (remainingIds g)
      (table g).unknownOwn.length)) }) hexp
  cases monteCarlo with
  | false =>
    refine ⟨_, ⟨harr.few, harr.unknown, _, harrange, hmem⟩, ?_, ?_⟩
    · rw [hids, h.length_eq]
    · simp [trashHash, hids]
  | true =>
    obtain ⟨arr', hmem', ⟨prev, hprev, hids'⟩, hhash⟩ :=
      @exists_mem_sample (table g).state _ _ hmem
    refine ⟨arr', ⟨harr.few, harr.unknown, _, harrange, hmem'⟩, ?_, ?_⟩
    · obtain ⟨exp', hexp', heq, -⟩ := mem_normalize hprev
      rw [hids', heq]
      exact (expanded_of_mem hpos hexp').length_eq
    · rw [hhash]
      simp [trashHash, hids]

/-- **The rule for links** holds exactly if it has nothing to leave out: no open link can be all
trash, where some allowed assignment has it otherwise. -/
theorem linksRestrict_iff (hv : OwnVariant g)
    (hten : (g.state.hands g.state.ourPlayerIndex).length ≤ 10) (monteCarlo : Bool) :
    LinksRestrict g monteCarlo ↔ (Arranges g → ∀ link, OpenLink g link →
      (∃ ids, Allowed (table g) (remainingIds g) ids ∧ ¬ AllTrash (table g) link ids) →
      ∀ ids, Allowed (table g) (remainingIds g) ids → ¬ AllTrash (table g) link ids) := by
  constructor
  · intro h harr link hlink hother ids hids hall
    obtain ⟨arr, hsearched, hlen, hhash⟩ := searched_of_allowed hv harr monteCarlo hids
    have hsmall := (length_unknownOwn_le g).trans hten
    refine h link hlink hother arr hsearched ?_
    exact allTrash_congr hsmall hids.length_eq hlen hhash.symm hall
  · intro h link hlink hother arr hsearched
    obtain ⟨hallowed, harr⟩ := allowed_of_searched hv hsearched
    exact h harr link hlink hother arr.ids hallowed

/-- Two linked cards of ours, one of which should be the red 5.  Red 2 and red 3 are trash, and of
each of the three one copy is left; one card is still in the deck. -/
def linkedFive (possible : ℕ) : Game Unit :=
  let own (o : ℕ) : Card :=
    { id := none, possible := ⟨1, possible⟩, inferred := ⟨1, possible⟩, order := o }
  let player : Player :=
    { playerIndex := some 0
      thoughts := ((SparseArray.empty.set 0 (own 0)).set 1 (own 1)).set 2
        { own 2 with id := some ⟨0, 4⟩ }
      links := [{ orders := [0, 1], identities := [⟨0, 5⟩] }]
      allPossible := .full 1
      allInferred := .full 1 }
  { state :=
      { State.fresh { suits := ["Red"], shortForms := ['r'] } 2 0 {} with
        hands := fun p => if p = 0 then [1, 0] else [2]
        deck := ((SparseArray.empty.set 0 ⟨none⟩).set 1 ⟨none⟩).set 2 ⟨some ⟨0, 4⟩⟩
        playStacks := fun _ => 3
        discardStacks := fun id => [0, 2, 0, 0, 1, 0].getD id.rank 0
        cardsLeft := 1
        cardOrder := 8 }
    players := fun _ => player
    common := player
    deckIds := .empty
    data := () }

theorem ownVariant_linkedFive (possible : ℕ) : OwnVariant (linkedFive possible) := by
  intro o card h
  simp only [linkedFive, Game.me, SparseArray.get_set] at h
  split at h
  · cases h; rfl
  · split at h
    · cases h; rfl
    · split at h
      · cases h; rfl
      · cases h

/-- If only red 2 and red 5 are possible, the link cannot be all trash and the rule holds. -/
theorem linksRestrict_linkedTwo : LinksRestrict (linkedFive 0b10010) true := by
  refine (@linksRestrict_iff Unit (linkedFive 0b10010) (ownVariant_linkedFive _) (by decide) true).2 ?_
  intro _ link hlink _ ids hids hall
  have hrem := missingValid_remainingIds (linkedFive 0b10010)
  obtain ⟨arr, harr, rfl⟩ := (mem_expansions_iff (missing_pos_remainingIds _)).2
    ((feasible_iff_allowed (t := table (linkedFive 0b10010)) (ownVariant_linkedFive _) hrem).2 hids)
  obtain rfl : link = { orders := [0, 1], identities := [⟨0, 5⟩] } := by
    simpa [linkedFive, Game.me] using hlink.mem
  have huseful : ∀ arr ∈ expansions (table (linkedFive 0b10010)) (remainingIds (linkedFive 0b10010)) 2,
      ∃ o ∈ [0, 1], ∀ entry ∈ (table (linkedFive 0b10010)).unknownOwn.zip arr.ids, entry.1 = o →
        (table (linkedFive 0b10010)).state.isBasicTrash entry.2 = false := by decide
  obtain ⟨o, ho, hentry⟩ := huseful arr harr
  obtain ⟨id, hmem, htrash⟩ := hall o ho
  rw [hentry (o, id) hmem rfl] at htrash
  cases htrash

/-- Red 2 and red 3 are searched for the linked cards, although red 5 may be one of them. -/
theorem linked_all_trash : ¬ LinksRestrict (linkedFive 0b10110) true := by
  have hv := ownVariant_linkedFive 0b10110
  have hrem := missingValid_remainingIds (linkedFive 0b10110)
  have hallowed : ∀ ids : List Identity, (∃ arr ∈ expansions (table (linkedFive 0b10110))
      (remainingIds (linkedFive 0b10110)) 2, arr.ids = ids) →
      Allowed (table (linkedFive 0b10110)) (remainingIds (linkedFive 0b10110)) ids := by
    intro ids hids
    exact (feasible_iff_allowed (t := table (linkedFive 0b10110)) hv hrem).1
      ((mem_expansions_iff (missing_pos_remainingIds _)).1 hids)
  have htrash := hallowed [⟨0, 2⟩, ⟨0, 3⟩] (by decide)
  have hother := hallowed [⟨0, 2⟩, ⟨0, 5⟩] (by decide)
  obtain ⟨arr, hsearched, hlen, hhash⟩ := searched_of_allowed hv ⟨by decide, by decide, by decide⟩
    true htrash
  intro h
  refine h { orders := [0, 1], identities := [⟨0, 5⟩] } ⟨by decide, by decide, by decide⟩
    ⟨_, hother, ?_⟩ arr hsearched (allTrash_congr (by decide) htrash.length_eq hlen hhash.symm ?_)
  · intro hall
    have huseful : ∀ entry ∈ (table (linkedFive 0b10110)).unknownOwn.zip [⟨0, 2⟩, ⟨0, 5⟩],
        entry.1 = 0 → (table (linkedFive 0b10110)).state.isBasicTrash entry.2 = false := by decide
    obtain ⟨id, hmem, htrash⟩ := hall 0 (by decide)
    rw [huseful (0, id) hmem rfl] at htrash
    cases htrash
  · have hentries : ∀ o ∈ [0, 1], ∃ entry ∈ (table (linkedFive 0b10110)).unknownOwn.zip
        [⟨0, 2⟩, ⟨0, 3⟩], entry.1 = o ∧
          (table (linkedFive 0b10110)).state.isBasicTrash entry.2 = true := by decide
    intro o ho
    obtain ⟨⟨_, id⟩, hmem, rfl, htrash⟩ := hentries o ho
    exact ⟨id, hmem, htrash⟩

end HanabiBot.Endgame
