import HanabiBot.Basics.ShortForms
import HanabiBot.Basics.Trash
import HanabiBot.Endgame.Links
import HanabiBot.Endgame.Plain
import HanabiBot.Lib.Deals

/-!
# The arrangements as a deal

The arrangements stand for a deal of the missing copies over our unknown cards and
the deck.

* `prob_eq_dealProb` — the probability of an arrangement is that of a uniformly
  random deal, given that every card may be what it is dealt;
* `SearchNode.ok` — at every node of the search the missing copies number the
  cards left, so the draws have probability 1 between them;
* `arrangements_exact` — both for every position of a game in which names tell the identities
  apart and none is overseen;
* `arrangements_inexact` — four positions in which they are not what one might expect.
-/

namespace HanabiBot.Endgame

variable {κ : Type} {t : Table κ} {g : Game κ} {rem : RemainingSet}

/-! ## The identities of an arrangement -/

/-- Every identity has one entry. -/
def DistinctIds (rem : RemainingSet) : Prop := (rem.map Remaining.id).Nodup

theorem distinctIds_remainingIds (g : Game κ) : DistinctIds (remainingIds g) := by
  have hids : (remainingIds g).map Remaining.id = g.state.variant.allIdentities.filter fun id =>
      0 < g.state.cardCount id -
        (g.state.baseCount id + seenIds g (g.state.variant.logCard id)) := by
    rw [remainingIds]
    induction g.state.variant.allIdentities with
    | nil => rfl
    | cons id ids ih =>
      rw [List.filterMap_cons]
      dsimp only
      by_cases hpos : 0 < g.state.cardCount id -
          (g.state.baseCount id + seenIds g (g.state.variant.logCard id))
      · rw [if_pos hpos, List.filter_cons_of_pos (by simpa using hpos)]
        simpa using ih
      · rw [if_neg hpos, List.filter_cons_of_neg (by simpa using hpos)]
        exact ih
  rw [DistinctIds, hids]
  exact (Variant.nodup_allIdentities _).filter _

theorem removeRemaining_sublist {rem' : RemainingSet} {id : Identity}
    (h : removeRemaining rem id = some rem') :
    (rem'.map Remaining.id).Sublist (rem.map Remaining.id) := by
  induction rem generalizing rem' with
  | nil => cases h
  | cons r rem ih =>
    rw [removeRemaining] at h
    split at h
    · cases h
      split
      · exact List.sublist_cons_self _ _
      · exact List.Sublist.refl _
    · obtain ⟨rem'', hrem, rfl⟩ := Option.map_eq_some_iff.1 h
      exact (ih hrem).cons_cons _

theorem missingOf_of_mem (h : DistinctIds rem) {r : Remaining} (hr : r ∈ rem) :
    missingOf rem r.id = r.missing := by
  unfold DistinctIds at h
  induction rem with
  | nil => cases hr
  | cons r' rem ih =>
    rw [List.map_cons, List.nodup_cons] at h
    obtain rfl | hr := List.mem_cons.1 hr
    · have hnone : rem.filter (fun r' => r'.id = r.id) = [] := by
        rw [List.filter_eq_nil_iff]
        intro x hx hid
        exact h.1 (List.mem_map.2 ⟨x, hx, by simpa using hid⟩)
      simp [missingOf, totalMissing, hnone]
    · have hne : r'.id ≠ r.id := by
        intro hid
        exact h.1 (List.mem_map.2 ⟨r, hr, hid.symm⟩)
      have := ih h.2 hr
      simpa [missingOf, hne] using this

theorem distinctIds_expansions (h : DistinctIds rem) {n : ℕ} {arr : Arrangement}
    (harr : arr ∈ expansions t rem n) : DistinctIds arr.newRemaining := by
  induction n generalizing arr with
  | zero => rwa [List.mem_singleton.1 harr]
  | succ n ih =>
    obtain ⟨prev, hprev, hext⟩ := List.mem_flatMap.1 harr
    obtain ⟨r, hr, rfl⟩ := List.mem_map.1 hext
    obtain ⟨rem', hrem⟩ := removeRemaining_of_mem (List.mem_filter.1 hr).1
    rw [Arrangement.extend, hrem]
    exact (ih hprev).sublist (removeRemaining_sublist hrem)

/-- No assignment is arranged twice. -/
theorem nodup_expansions (h : DistinctIds rem) (n : ℕ) :
    ((expansions t rem n).map Arrangement.ids).Nodup := by
  induction n with
  | zero => exact List.nodup_singleton _
  | succ n ih =>
    rw [expansions, List.map_flatMap, List.nodup_flatMap]
    constructor
    · intro prev hprev
      have hids := (distinctIds_expansions h hprev).of_map
      rw [extensions, List.map_map]
      refine List.Nodup.map_on ?_ (hids.filter _)
      intro r hr r' hr' heq
      simp only [Function.comp_apply, Arrangement.extend, List.append_cancel_left_eq,
        List.cons.injEq, and_true] at heq
      exact List.inj_on_of_nodup_map (distinctIds_expansions h hprev) (List.mem_filter.1 hr).1
        (List.mem_filter.1 hr').1 heq
    · refine (List.pairwise_map.1 ih).imp ?_
      intro prev prev' hne ids hids hids'
      obtain ⟨arr, harr, rfl⟩ := List.mem_map.1 hids
      obtain ⟨r, -, rfl⟩ := List.mem_map.1 harr
      obtain ⟨arr', harr', heq⟩ := List.mem_map.1 hids'
      obtain ⟨r', -, rfl⟩ := List.mem_map.1 harr'
      simp only [Arrangement.extend] at heq
      exact hne (List.append_inj_left' heq rfl).symm

/-! ## Probabilities -/

/-- The probability that the rounds give an arrangement counts its deals. -/
theorem value_mul_descFactorial (hpos : ∀ r ∈ rem, 0 < r.missing) (h : DistinctIds rem) {n : ℕ}
    {arr : Arrangement} (harr : arr ∈ expansions t rem n) :
    arr.prob.value * (totalMissing rem).descFactorial n =
      (Deals.deals (missingOf rem) arr.ids).card := by
  induction n generalizing arr with
  | zero =>
    rw [List.mem_singleton.1 harr]
    simp [Deals.deals]
  | succ n ih =>
    obtain ⟨prev, hprev, hext⟩ := List.mem_flatMap.1 harr
    obtain ⟨r, hr, rfl⟩ := List.mem_map.1 hext
    have hmem := (List.mem_filter.1 hr).1
    have hexp := expanded_of_mem hpos hprev
    have hmissing := missingOf_of_mem (distinctIds_expansions h hprev) hmem
    have hleft : missingOf rem r.id - prev.ids.count r.id = r.missing := by
      have := hexp.missing_eq r.id
      omega
    have htotal : totalMissing rem - n = totalMissing prev.newRemaining := by
      have := hexp.total_eq
      omega
    have hle : r.missing ≤ totalMissing prev.newRemaining :=
      List.le_sum_of_mem (List.mem_map_of_mem hmem)
    have hsum : (0 : ℤ) < totalMissing prev.newRemaining := by
      have := hexp.missing_pos r hmem
      omega
    have hsumq : (totalMissing prev.newRemaining : ℚ) ≠ 0 := by exact_mod_cast hsum.ne'
    have hmul := hexp.prob_pos.multiply (Fraction.pos_ofInt r.missing)
    have hvalue : (prev.extend r).prob.value =
        prev.prob.value * r.missing / totalMissing prev.newRemaining := by
      rw [Arrangement.extend, Fraction.value_divide hmul hsum,
        Fraction.value_multiply hexp.prob_pos (Fraction.pos_ofInt _)]
      simp
    rw [hvalue, Nat.descFactorial_succ, htotal, Arrangement.extend, Deals.card_deals_append, hleft]
    push_cast
    rw [← ih hprev]
    field_simp

/-- The probability of an arrangement is that of a uniformly random deal of the missing copies, given
that it shows an assignment that may be arranged. -/
theorem prob_eq_dealProb (hpos : ∀ r ∈ rem, 0 < r.missing) (h : DistinctIds rem)
    {P : List Identity → Prop} (hP : ∀ ids, Feasible t rem ids ↔ P ids) {arr : Arrangement}
    (harr : arr ∈ normalize (expansions t rem t.unknownOwn.length)) :
    arr.prob.value = Deals.dealProb (missingOf rem) P arr.ids := by
  obtain ⟨exp, hexp, rfl⟩ := List.mem_map.1 harr
  have hspec := fun arr harr => @expanded_of_mem _ t _ hpos t.unknownOwn.length arr harr
  obtain ⟨hsum, hsumval⟩ := sumProb_spec fun arr harr => (hspec arr harr).prob_pos
  have hne : expansions t rem t.unknownOwn.length ≠ [] := List.ne_nil_of_mem hexp
  have hsumpos := sum_value_pos (fun arr harr => ⟨(hspec arr harr).prob_pos,
    (hspec arr harr).value_pos⟩) hne
  have hnum : 0 < (sumProb (expansions t rem t.unknownOwn.length)).numerator :=
    (Fraction.numerator_pos_iff hsum).2 (hsumval ▸ hsumpos)
  have hfact : (0 : ℚ) < (totalMissing rem).descFactorial t.unknownOwn.length := by
    have := (hspec exp hexp).total_eq
    exact_mod_cast Nat.descFactorial_pos.2 (by omega)
  have hshows : ∀ ids, ids ∈ (expansions t rem t.unknownOwn.length).map Arrangement.ids ↔
      P ids ∧ (Deals.deals (missingOf rem) ids).Nonempty := by
    intro ids
    rw [List.mem_map, mem_expansions_iff hpos]
    constructor
    · intro hfeasible
      exact ⟨(hP ids).1 hfeasible, Deals.deals_nonempty hfeasible.enough⟩
    · rintro ⟨hids, -⟩
      exact (hP ids).2 hids
  have hcard : ((Deals.deals (missingOf rem) exp.ids).card : ℚ) =
      exp.prob.value * (totalMissing rem).descFactorial t.unknownOwn.length :=
    (value_mul_descFactorial hpos h hexp).symm
  have hall : (((expansions t rem t.unknownOwn.length).map Arrangement.ids).map fun ids =>
      (Deals.deals (missingOf rem) ids).card).sum =
      ((expansions t rem t.unknownOwn.length).map fun arr => arr.prob.value).sum *
        (totalMissing rem).descFactorial t.unknownOwn.length := by
    rw [List.map_map, Nat.cast_list_sum, List.map_map, ← List.sum_map_mul_right]
    refine congrArg List.sum (List.map_congr_left fun arr harr => ?_)
    exact (value_mul_descFactorial hpos h harr).symm
  rw [Deals.dealProb, Deals.sum_card_deals (nodup_expansions h _) hshows, hall, hcard]
  dsimp only
  rw [Fraction.value_divide (hspec exp hexp).prob_pos hnum, hsumval]
  field_simp

/-! ## The assignments -/

/-- An assignment of identities to our unknown cards that respects the missing counts and the possible
set of each card. -/
structure RespectsSets (g : Game κ) (ids : List Identity) : Prop where
  length_eq : ids.length = (table g).unknownOwn.length
  enough : ∀ id, ids.count id ≤ missingOf (remainingIds g) id
  possible : ∀ entry ∈ (table g).unknownOwn.zip ids, ∃ card,
    g.me.thoughts.get entry.1 = some card ∧ card.possible.has entry.2 = true

/-- It also respects the identities that the deck has, though we do not see them. -/
structure Respects (g : Game κ) (ids : List Identity) : Prop extends RespectsSets g ids where
  deck : ∀ entry ∈ (table g).unknownOwn.zip ids, ∀ id, g.state.identityOf entry.1 = some id →
    id = entry.2

theorem get_writeIds_of_none {o : ℕ} {ids : List OwnId} {deck : SparseArray ActualCard}
    (h : ∀ own ∈ ids, own.order = o → own.id = none) : (writeIds deck ids).get o = deck.get o := by
  induction ids generalizing deck with
  | nil => rfl
  | cons own ids ih =>
    rw [writeIds, List.foldl_cons, ← writeIds, ih fun x hx => h x (List.mem_cons_of_mem own hx)]
    cases hid : own.id with
    | none => rfl
    | some id =>
      have hne : o ≠ own.order := by
        rintro rfl
        rw [h own List.mem_cons_self rfl] at hid
        cases hid
      dsimp only
      rw [SparseArray.get_set, if_neg hne]

/-- No identity is written on the cards that are arranged. -/
theorem identityOf_unknownOwn {o : ℕ} (ho : o ∈ (table g).unknownOwn) :
    (table g).state.identityOf o = g.state.identityOf o := by
  obtain ⟨-, hnone⟩ := List.mem_filter.1 ((unknownOwn_perm g).mem_iff.1 ho)
  rw [Option.isNone_iff_eq_none] at hnone
  have hget : (table g).state.deck.get o = g.state.deck.get o := by
    refine get_writeIds_of_none fun own hown heq => ?_
    obtain ⟨o', -, rfl⟩ := List.mem_map.1 ((ownIds_perm g).mem_iff.1 hown)
    obtain rfl : o' = o := heq
    exact hnone
  rw [State.identityOf, hget]
  rfl

theorem allowed_iff_respects {ids : List Identity} :
    Allowed (table g) (remainingIds g) ids ↔ Respects g ids := by
  constructor
  · intro h
    refine ⟨⟨h.length_eq, h.enough, fun entry hentry => (h.may entry hentry).2⟩,
      fun entry hentry id hid => (h.may entry hentry).1 id ?_⟩
    rwa [identityOf_unknownOwn (List.of_mem_zip hentry).1]
  · intro h
    refine ⟨h.length_eq, h.enough, fun entry hentry => ⟨fun id hid => ?_, h.possible entry hentry⟩⟩
    rw [identityOf_unknownOwn (List.of_mem_zip hentry).1] at hid
    exact h.deck entry hentry id hid

/-! ## The nodes of the search -/

/-- The games that the search of an arranged game explores, with the identities missing there. A game
that is over is not searched on. -/
inductive SearchNode (conv : Convention κ) (g₀ : Game κ) (p₀ : ℕ) (rem₀ : RemainingSet) :
    Game κ → ℕ → RemainingSet → Prop
  | start : SearchNode conv g₀ p₀ rem₀ g₀ p₀ rem₀
  | step {g g' : Game κ} {p : ℕ} {rem rem' : RemainingSet} {offers : List Offer}
      {hypoGames : HypoGame κ × List (HypoGame κ)} {offer : Offer} {hypo : HypoGame κ}
      {s s' s'' : SolverState} :
      SearchNode conv g₀ p₀ rem₀ g p rem → g.state.endgameTurns ≠ 0 →
      (Prog.exec (possibleActions conv g p rem') s).1 = .ok offers →
      (Prog.exec (genHypoGames g offers rem) s').1 = .ok hypoGames → offer ∈ offers →
      hypo ∈ gamesFor hypoGames offer.action →
      (Prog.exec (advanceGame conv hypo.hypoGame offer.action) s'').1 = .ok g' →
      SearchNode conv g₀ p₀ rem₀ g' (g.state.nextPlayerIndex p) hypo.remaining

/-- The missing copies number the cards left. -/
structure Exact (rem : RemainingSet) (left : ℤ) : Prop where
  missing_pos : ∀ r ∈ rem, 0 < r.missing
  total : (totalMissing rem : ℤ) = left

theorem Exact.counted {left : ℤ} (h : Exact rem left) : Counted rem left :=
  ⟨h.missing_pos, Or.inr h.total⟩

/-- The games that an action leads to after its draw keep the count. -/
theorem exact_hypo {offers : List Offer} {hypoGames : HypoGame κ × List (HypoGame κ)}
    {offer : Offer} {hypo : HypoGame κ} (h : Exact rem g.state.cardsLeft)
    (hgen : genHypoGames g offers rem = pure hypoGames) (ho : offer ∈ offers)
    (hhypo : hypo ∈ gamesFor hypoGames offer.action) :
    Exact hypo.remaining (leftAfter hypo.hypoGame.state offer.action) := by
  have hdefault : offer.action.isClue = true ∨ rem = [] →
      Exact rem (leftAfter g.state offer.action) := by
    rintro (hclue | rfl)
    · rw [leftAfter, if_pos (Or.inl hclue)]
      exact h
    · have hzero : g.state.cardsLeft = 0 := h.total.symm
      rw [leftAfter, if_pos (Or.inr hzero)]
      exact h
  have hdrawn : offer.action.isClue = false → ∀ r ∈ rem,
      Exact (drawnHypo g rem r).remaining (leftAfter (drawnHypo g rem r).hypoGame.state offer.action) := by
    intro hcard r hr
    obtain ⟨rem', hrem⟩ := removeRemaining_of_mem hr
    obtain ⟨-, hleft⟩ := h.counted.left_pos hr
    obtain ⟨hpos, htotal⟩ := removeRemaining_counted hrem h.missing_pos
    have hremaining : (drawnHypo g rem r).remaining = rem' := by
      rw [drawnHypo, hrem]
      rfl
    have hleftAfter : leftAfter (drawnHypo g rem r).hypoGame.state offer.action =
        g.state.cardsLeft - 1 := by
      simp only [leftAfter, hcard, Bool.false_eq_true, false_or, drawnHypo]
      rw [if_neg (by omega)]
    rw [hremaining, hleftAfter]
    refine ⟨hpos, ?_⟩
    have := h.total
    omega
  rw [genHypoGames] at hgen
  split at hgen
  · rename_i hall
    obtain rfl := Prog.pure_inj {} hgen
    have hclue := List.all_eq_true.1 hall offer ho
    rw [gamesFor, if_pos hclue, List.mem_singleton] at hhypo
    rw [hhypo]
    exact hdefault (Or.inl hclue)
  · rw [Prog.mapM_eq_pure fun r hr => drawnGame_eq hr, pure_bind] at hgen
    obtain rfl := Prog.pure_inj {} hgen
    rw [gamesFor] at hhypo
    split at hhypo
    · rename_i hclue
      rw [List.mem_singleton.1 hhypo]
      exact hdefault (Or.inl hclue)
    · rename_i hcard
      dsimp only at hhypo
      split at hhypo
      · rename_i hempty
        rw [List.mem_singleton.1 hhypo]
        exact hdefault (Or.inr (by simpa using hempty))
      · obtain ⟨r, hr, rfl⟩ := List.mem_map.1 hhypo
        exact hdrawn (by simpa using hcard) r hr

/-- A position whose missing copies number the cards left. -/
structure NodeOk (g : Game κ) (p : ℕ) (rem : RemainingSet) : Prop where
  sane : Sane g p
  player_lt : p < g.state.numPlayers
  exact : Exact rem g.state.cardsLeft

section

variable {conv : Convention κ} {g₀ : Game κ} {p₀ p : ℕ} {rem₀ : RemainingSet}

/-- Every node of the search keeps the count. -/
theorem SearchNode.ok (hlaw : conv.Lawful) (hfair : Fair conv) (h₀ : NodeOk g₀ p₀ rem₀)
    (h : SearchNode conv g₀ p₀ rem₀ g p rem) : NodeOk g p rem := by
  induction h with
  | start => exact h₀
  | @step g g' p rem rem' offers hypoGames offer hypo s s' s'' _ hne hoffers hgen ho hhypo hadv ih =>
    have hok := (exec_offers hfair ih.sane hne hoffers offer ho).1
    obtain ⟨hypoGames', hgen', hspec⟩ := genHypoGames_spec ih.sane hne ih.player_lt
      ih.exact.counted offers
    rw [hgen', Prog.exec_pure] at hgen
    cases hgen
    obtain ⟨hplayers, hhypoOk⟩ := (hspec offer ho hok).1 hypo hhypo
    have hexact := exact_hypo ih.exact hgen' ho hhypo
    obtain ⟨⟨hdealt, hturned⟩, -⟩ := (advanceGame_spec (I := fun _ => True)
      (E := fun _ => True) hlaw (fun _ => trivial) hhypoOk.sane hhypoOk.inProgress
      hhypoOk.player_lt hhypoOk.legal).exec_ok trivial hadv
    have hnext : hypo.hypoGame.state.nextPlayerIndex p = g.state.nextPlayerIndex p := by
      rw [State.nextPlayerIndex, State.nextPlayerIndex, hplayers]
    refine ⟨⟨hdealt, hturned.sane, hnext ▸ hturned.stocked⟩, ?_, ?_⟩
    · rw [hturned.numPlayers_eq, hplayers]
      exact Nat.mod_lt _ (lt_of_le_of_lt (Nat.zero_le _) ih.player_lt)
    · rw [hturned.cardsLeft_eq]
      exact hexact

/-- The draws that `gen_hypo_games` makes for an action have probability 1 between them. -/
def DrawsSumToOne (conv : Convention κ) (g : Game κ) (p : ℕ) (rem : RemainingSet) : Prop :=
  ∀ (rem' : RemainingSet) (offers : List Offer) (s s' : SolverState)
    (hypoGames : HypoGame κ × List (HypoGame κ)),
    (Prog.exec (possibleActions conv g p rem') s).1 = .ok offers →
    (Prog.exec (genHypoGames g offers rem) s').1 = .ok hypoGames →
    ∀ offer ∈ offers, ((gamesFor hypoGames offer.action).map fun hypo => hypo.prob.value).sum = 1

theorem NodeOk.drawsSumToOne (hfair : Fair conv) (h : NodeOk g p rem)
    (hne : g.state.endgameTurns ≠ 0) : DrawsSumToOne conv g p rem := by
  intro rem' offers s s' hypoGames hoffers hgen offer ho
  have hok := (exec_offers hfair h.sane hne hoffers offer ho).1
  obtain ⟨hypoGames', hgen', hspec⟩ := genHypoGames_spec h.sane hne h.player_lt h.exact.counted offers
  rw [hgen', Prog.exec_pure] at hgen
  cases hgen
  exact (hspec offer ho hok).2

/-! ## Reachable positions -/

variable {v : Variant} {dk : Deck v} {n our : ℕ} {options : TableOptions} {acts : List Action}

/-- In a game of two to six, a position in which everything is dealt is sane. -/
theorem sane_of_run (hrun : Run dk n our options acts g.state) (hn : 2 ≤ n) (hn6 : n ≤ 6)
    (hdealt : g.dealt = true) (hstocked : Stocked g.state p) : Sane g p := by
  have hinv := hrun.boardInv
  have hplayers := hrun.numPlayers_eq
  have hsize : 0 ≤ g.state.handSize := by
    unfold State.handSize
    rw [hplayers]
    have hcase : n = 2 ∨ n = 3 ∨ n = 4 ∨ n = 5 ∨ n = 6 := by omega
    obtain rfl | rfl | rfl | rfl | rfl := hcase <;>
      simp only [HAND_SIZE, List.getD_cons_succ, List.getD_cons_zero] <;> split_ifs <;> omega
  refine ⟨hdealt, ⟨?_, fun q _ => ?_, hinv.tokens.2⟩, hstocked⟩
  · obtain ⟨hpos, hturns⟩ | ⟨hzero, hturns, -⟩ := hinv.endgame
    · exact Or.inl ⟨hpos, hturns⟩
    · exact Or.inr ⟨hzero, hturns⟩
  · obtain hnil | hle := hinv.hand_le q
    · rw [hnil]
      exact hsize
    · exact hle

/-- **The arrangements are an exact conditional distribution**, in every position of a game in which
we know the other hands, names tell the identities apart and no identity is overseen: the missing
copies are those of the deck and our unknown cards; the arrangements are the assignments that respect
them and what is possible of each card, with the probabilities of a random deal; and at every node of
the search below an arrangement the missing copies are those of the deck. -/
theorem arrangements_exact (hlaw : conv.Lawful) (hfair : Fair conv) (hn : 2 ≤ n) (hn6 : n ≤ 6)
    (hnames : v.DistinctNames) (hrun : Run dk n our options acts g.state) (hdealt : g.dealt = true)
    (hstocked : Stocked g.state p) (hseen : OthersSeen g) (hfew : NotOverseen g)
    (hne : g.state.endgameTurns ≠ 0) (hp : p < g.state.numPlayers) :
    (totalMissing (remainingIds g) : ℤ) = g.state.cardsLeft + (table g).unknownOwn.length ∧
    ∃ arrs, arrange (table g) (remainingIds g) = pure arrs ∧
      (∀ ids, (∃ arr ∈ arrs, arr.ids = ids) ↔ Respects g ids) ∧
      (arrs.map Arrangement.ids).Nodup ∧
      (∀ arr ∈ arrs, arr.prob.value =
        Deals.dealProb (missingOf (remainingIds g)) (Respects g) arr.ids) ∧
      (arrs ≠ [] → mass arrs = 1) ∧
      ∀ arr ∈ arrs, ∀ g' q rem',
        SearchNode conv (arrangedGame (table g) arr).hypoGame p arr.newRemaining g' q rem' →
        (totalMissing rem' : ℤ) = g'.state.cardsLeft ∧
          (g'.state.endgameTurns ≠ 0 → DrawsSumToOne conv g' q rem') := by
  have hsane := sane_of_run hrun hn hn6 hdealt hstocked
  have hpos := missing_pos_remainingIds g
  have hv : OwnVariant g := fun o card h => (hseen.ofVariant o card h).possible
  have hvariant := hrun.boardInv.variant_eq
  have htotal := totalMissing_eq ((countsAdd_iff (hvariant ▸ hnames) hrun hseen).2 hfew)
  have hfeasible : ∀ ids, Feasible (table g) (remainingIds g) ids ↔ Respects g ids := fun ids =>
    (feasible_iff_allowed (t := table g) hv (missingValid_remainingIds g)).trans
      allowed_iff_respects
  have harrange := @arrange_of_total _ (table g) _ hpos htotal
  obtain hthrow | ⟨arrs, harrs, hok, hmass, hids⟩ := arrange_spec (table g) hpos
  · rw [hthrow] at harrange
    exact absurd harrange (Prog.throw_ne_pure {} _ _)
  rw [harrange] at harrs
  obtain rfl := Prog.pure_inj {} harrs
  refine ⟨htotal, _, harrange, fun ids => (hids ids).trans (hfeasible ids), ?_, ?_, hmass, ?_⟩
  · have hnodup := nodup_expansions (t := table g) (distinctIds_remainingIds g)
      (table g).unknownOwn.length
    simpa [normalize, Function.comp_def] using hnodup
  · intro arr harr
    exact prob_eq_dealProb hpos (distinctIds_remainingIds g) hfeasible harr
  · intro arr harr g' q rem' hnode
    obtain ⟨exp, hexp, -, hrem⟩ := mem_normalize harr
    have hmem : arrangedGame (table g) arr ∈ arrangedGames (table g)
        (normalize (expansions (table g) (remainingIds g) (table g).unknownOwn.length)) := by
      rw [arrangedGames, if_neg (by simpa using List.ne_nil_of_mem harr)]
      exact List.mem_map_of_mem harr
    have hroot := arrangedOk hsane hne hp hok _ hmem
    have hexact : Exact arr.newRemaining g.state.cardsLeft := by
      refine ⟨(hok arr harr).counted.missing_pos, ?_⟩
      have hsum := (expanded_of_mem hpos hexp).total_eq
      rw [hrem]
      omega
    have hnodeOk := hnode.ok hlaw hfair ⟨hroot.sane, hroot.player_lt, hexact⟩
    exact ⟨hnodeOk.exact.total, hnodeOk.drawsSumToOne hfair⟩

end

/-- We are dealt the first five cards, the other player the next five. -/
def dealtCards : List Identity :=
  [⟨0, 1⟩, ⟨0, 2⟩, ⟨0, 5⟩, ⟨1, 1⟩, ⟨1, 1⟩, ⟨0, 4⟩, ⟨0, 3⟩, ⟨1, 2⟩, ⟨1, 3⟩, ⟨1, 5⟩,
    ⟨0, 1⟩, ⟨0, 1⟩, ⟨0, 2⟩, ⟨0, 3⟩, ⟨0, 4⟩, ⟨1, 1⟩, ⟨1, 2⟩, ⟨1, 3⟩, ⟨1, 4⟩, ⟨1, 4⟩]

def dealtDeck : Deck redBlue := .ofList suits_redBlue dealtCards (by decide +kernel)

/-- The same deck with other names. -/
def pinkDeck : Deck indigoPink := .ofList suits_indigoPink dealtCards (by decide +kernel)

/-- The deal of these cards; the deck shows what some of ours are. -/
def deal (cards : List Identity) (shown : List ℕ) : List Action :=
  (List.range 10).map fun o => .draw o (if o < 5 then 0 else 1)
    (if o < 5 ∧ o ∉ shown then none else cards[o]?)

/-- A card in our view. -/
def cardOf (order : ℕ) (possible : ℕ) (inferred : ℕ) (id rewind : Option Identity) : Card where
  id
  possible := ⟨2, possible⟩
  inferred := ⟨2, inferred⟩
  order
  rewindIds := rewind.map fun id => ⟨2, IdentitySet.toMask id⟩

theorem ofVariant_cardOf {v : Variant} (hv : v.suits.length = 2) {order possible inferred : ℕ}
    {id rewind : Option Identity} (hid : ∀ x ∈ id, x.Valid v) :
    (cardOf order possible inferred id rewind).OfVariant v := by
  refine ⟨hv.symm, hv.symm, fun lock hlock => ?_, fun ids hids => ?_, fun x hx => hid x hx⟩
  · cases hlock
  · obtain ⟨x, -, rfl⟩ := Option.map_eq_some_iff.1 hids
    exact hv.symm

/-- After the deal we know our blue 1s and the other hand; of our other cards we think this. -/
def dealtGame (v : Variant) (shown : List ℕ) (ours : List Card) : Game Unit :=
  let seen (o : ℕ) : Card := cardOf o 0b1111111111 0b1111111111 dealtCards[o]? none
  let cards : List Card := ours ++ [cardOf 3 0b100000 0b100000 none none,
    cardOf 4 0b100000 0b100000 none none, seen 5, seen 6, seen 7, seen 8, seen 9]
  let player : Player :=
    { playerIndex := some 0
      thoughts := cards.foldl (fun thoughts card => thoughts.set card.order card) .empty
      allPossible := .full 2
      allInferred := .full 2 }
  { state := (deal dealtCards shown).foldl (Basics.after · .empty) (State.fresh v 2 0 {})
    players := fun _ => player
    common := player
    deckIds := .empty
    data := () }

theorem mem_of_get_foldl {cards : List Card} {thoughts : SparseArray Card} {o : ℕ} {card : Card}
    (h : (cards.foldl (fun thoughts card => thoughts.set card.order card) thoughts).get o = some card) :
    card ∈ cards ∨ thoughts.get o = some card := by
  induction cards generalizing thoughts with
  | nil => exact Or.inr h
  | cons c cards ih =>
    obtain hmem | hget := ih h
    · exact Or.inl (List.mem_cons_of_mem c hmem)
    · rw [SparseArray.get_set] at hget
      split at hget
      · cases hget
        exact Or.inl List.mem_cons_self
      · exact Or.inr hget

/-- The other hand is known. -/
theorem othersSeen_dealtGame {v : Variant} (hv : v.suits.length = 2) {shown : List ℕ}
    {ours : List Card} (hours : ∀ card ∈ ours, card.OfVariant v)
    (hseen : ∀ o ∈ (dealtGame v shown ours).state.hands 1,
      (seenAs (dealtGame v shown ours) {} o).isSome = true) :
    OthersSeen (dealtGame v shown ours) := by
  have hplayers : (dealtGame v shown ours).state.numPlayers = 2 := rfl
  have hour : (dealtGame v shown ours).state.ourPlayerIndex = 0 := rfl
  have hdeal : ∀ x ∈ dealtCards, x.Valid v := by
    unfold Identity.Valid
    rw [hv]
    decide
  have hknown : ∀ o p i, (cardOf o p i dealtCards[o]? none).OfVariant v := fun o p i =>
    ofVariant_cardOf hv fun x hx => hdeal x (List.mem_of_getElem? hx)
  have hblue : ∀ o p i, (cardOf o p i none none).OfVariant v := fun o p i =>
    ofVariant_cardOf hv (by simp)
  refine ⟨by rw [hour, hplayers]; exact Nat.two_pos, fun p hp hne => ?_, fun o card h => ?_⟩
  · obtain rfl : p = 1 := by omega
    exact hseen
  · obtain hmem | hempty := mem_of_get_foldl h
    · rcases List.mem_append.1 hmem with hmem | hmem
      · exact hours card hmem
      · simp only [List.mem_cons, List.not_mem_nil, or_false] at hmem
        rcases hmem with rfl | rfl | rfl | rfl | rfl | rfl | rfl
        · exact hblue _ _ _
        · exact hblue _ _ _
        all_goals exact hknown _ _ _
    · cases hempty

/-- A dealt position of a game with this deck in which we know the other hand. -/
structure KnownHand {v : Variant} (dk : Deck v) (g : Game Unit) : Prop where
  run : ∃ acts, Run dk 2 0 {} acts g.state
  dealt : g.dealt = true
  stocked : Stocked g.state 0
  seen : OthersSeen g

/-- Three of our cards may be red. -/
def redThree (v : Variant) (shown : List ℕ) (possible inferred : ℕ → ℕ) (rewind : Option Identity) :
    Game Unit :=
  dealtGame v shown [cardOf 0 (possible 0) (inferred 0) none rewind,
    cardOf 1 (possible 1) (inferred 1) none none, cardOf 2 (possible 2) (inferred 2) none none]

theorem othersSeen_redThree {v : Variant} (hv : v.suits.length = 2) {shown : List ℕ}
    {possible inferred : ℕ → ℕ} {rewind : Option Identity}
    (hseen : ∀ o ∈ (redThree v shown possible inferred rewind).state.hands 1,
      (seenAs (redThree v shown possible inferred rewind) {} o).isSome = true) :
    OthersSeen (redThree v shown possible inferred rewind) := by
  refine othersSeen_dealtGame hv ?_ hseen
  simp only [List.forall_mem_cons, List.not_mem_nil, false_implies, implies_true, and_true]
  refine ⟨?_, ?_, ?_⟩ <;> exact ofVariant_cardOf hv (by simp)

theorem knownHand_redThree {v : Variant} {dk : Deck v} (hv : v.suits.length = 2) {shown : List ℕ}
    {possible inferred : ℕ → ℕ} {rewind : Option Identity}
    (hdeal : legalAll dk (State.fresh v 2 0 {}) (deal dealtCards shown) = true)
    (hturns : (redThree v shown possible inferred rewind).state.endgameTurns = -1)
    (hdealt : (redThree v shown possible inferred rewind).dealt = true)
    (hseen : ∀ o ∈ (redThree v shown possible inferred rewind).state.hands 1,
      (seenAs (redThree v shown possible inferred rewind) {} o).isSome = true) :
    KnownHand dk (redThree v shown possible inferred rewind) where
  run := Run.fresh.append hdeal
  dealt := hdealt
  stocked := by
    refine ⟨hturns.trans_le (by decide : (-1 : ℤ) ≤ 2), fun i hi _ => ?_⟩
    have htwo : i < 2 := hi
    interval_cases i <;> exact (by decide : 2 ≤ 5)
  seen := othersSeen_redThree hv hseen

/-- Two assigned identities are missing. -/
theorem count_pair_le {a b : Identity} (hne : a ≠ b) {missing : Identity → ℕ} (ha : 0 < missing a)
    (hb : 0 < missing b) (id : Identity) : [a, b].count id ≤ missing id := by
  by_cases hida : id = a
  · subst hida
    simpa [hne.symm] using Nat.succ_le_of_lt ha
  · by_cases hidb : id = b
    · subst hidb
      simpa [hne] using Nat.succ_le_of_lt hb
    · simp [Ne.symm hida, Ne.symm hidb]

/-- Our first card is red 1 or red 4, the second red 2 or red 5, and the third red 5. -/
def redPossible (o : ℕ) : ℕ := [0b01001, 0b10010, 0b10000].getD o 0

/-- Two of our cards are unknown. -/
def twoUnknown : Game Unit := redThree redBlue [] redPossible redPossible none

/-- Ten copies are left for the deck and two for our cards. -/
theorem arrangements_exact_twoUnknown :
    (totalMissing (remainingIds twoUnknown) : ℤ) = 10 + 2 ∧
      ∃ arrs, arrange (table twoUnknown) (remainingIds twoUnknown) = pure arrs ∧ mass arrs = 1 := by
  have hknown : KnownHand dealtDeck twoUnknown :=
    knownHand_redThree (by decide) (by decide +kernel) (by decide +kernel) (by decide +kernel)
      (by decide +kernel)
  obtain ⟨acts, hrun⟩ := hknown.run
  obtain ⟨htotal, arrs, harrs, hids, -, -, hmass, -⟩ := @arrangements_exact Unit twoUnknown plain 0
    redBlue dealtDeck 2 0 {} acts plain_lawful plain_fair (by decide) (by decide) (by decide) hrun
    hknown.dealt hknown.stocked hknown.seen (by decide +kernel) (by decide +kernel)
    (by decide +kernel)
  have hrespects : Respects twoUnknown [⟨0, 2⟩, ⟨0, 1⟩] := by
    refine ⟨⟨by decide +kernel, count_pair_le (by decide) (by decide +kernel) (by decide +kernel),
      fun entry hentry => ?_⟩, by decide +kernel⟩
    have hcard : ∀ entry ∈ (table twoUnknown).unknownOwn.zip [⟨0, 2⟩, ⟨0, 1⟩],
        (twoUnknown.me.thoughts.get entry.1).any fun card => card.possible.has entry.2 := by
      decide +kernel
    exact (Option.any_eq_true _ _).1 (hcard entry hentry)
  obtain ⟨arr, harr, -⟩ := (hids _).2 hrespects
  exact ⟨htotal, arrs, harrs, hmass (List.ne_nil_of_mem harr)⟩

/-- Our first two cards are inferred to be the copies of red 4 and red 5 that we do not see; our third
card is one of these two. -/
def inferredTwice : Game Unit :=
  redThree redBlue [] ([0b01001, 0b10010, 0b11000].getD · 0) ([0b01000, 0b10000, 0b11000].getD · 0)
    none

/-- Our first card was identified as the blue 5, which the other player has. -/
def wrongRewind : Game Unit :=
  redThree redBlue [] ([0b1000001001, 0b10010, 0b10000].getD · 0) redPossible (some ⟨1, 5⟩)

/-- The deck knows that our first card is red 1. -/
def firstShown : Game Unit := redThree redBlue [0] redPossible redPossible none

/-- The suits have one letter. -/
def oneLetter : Game Unit := redThree indigoPink [] redPossible redPossible none

/-- In the first game no assignment is left, and the game itself is searched with nothing missing,
although there are cards left.  In the second and the third the missing copies are too many and too
few, and the assertion fails.  In the fourth an assignment that respects the missing counts and the
possible sets is left out. -/
theorem arrangements_inexact :
    (KnownHand dealtDeck inferredTwice ∧ NotOverseen inferredTwice ∧
      arrange (table inferredTwice) (remainingIds inferredTwice) = pure [] ∧
      arrangedGames (table inferredTwice) [] = [⟨inferredTwice, 1, []⟩] ∧
      inferredTwice.state.cardsLeft = 10) ∧
    (KnownHand dealtDeck wrongRewind ∧
      (totalMissing (remainingIds wrongRewind) : ℤ) =
        wrongRewind.state.cardsLeft + (table wrongRewind).unknownOwn.length + 1 ∧
      arrange (table wrongRewind) (remainingIds wrongRewind) = throw .assertion) ∧
    (KnownHand pinkDeck oneLetter ∧ NotOverseen oneLetter ∧
      (totalMissing (remainingIds oneLetter) : ℤ) <
        oneLetter.state.cardsLeft + (table oneLetter).unknownOwn.length ∧
      arrange (table oneLetter) (remainingIds oneLetter) = throw .assertion) ∧
    KnownHand dealtDeck firstShown ∧ NotOverseen firstShown ∧
      RespectsSets firstShown [⟨0, 2⟩, ⟨0, 4⟩] ∧
      ∃ arrs, arrange (table firstShown) (remainingIds firstShown) = pure arrs ∧
        ∀ arr ∈ arrs, arr.ids ≠ [⟨0, 2⟩, ⟨0, 4⟩] := by
  refine ⟨⟨?_, by decide +kernel, ?_, rfl, by decide +kernel⟩, ⟨?_, by decide +kernel, ?_⟩,
    ⟨?_, by decide +kernel, by decide +kernel, ?_⟩, ?_, by decide +kernel, ?_, ?_⟩
  · exact knownHand_redThree (by decide) (by decide +kernel) (by decide +kernel)
      (by decide +kernel) (by decide +kernel)
  · rw [arrange_eq, if_neg (by decide +kernel)]
    have hnil : expansions (table inferredTwice) (remainingIds inferredTwice)
        (table inferredTwice).unknownOwn.length = [] := by
      rw [← List.length_eq_zero_iff]
      decide +kernel
    rw [hnil]
    rfl
  · exact knownHand_redThree (by decide) (by decide +kernel) (by decide +kernel)
      (by decide +kernel) (by decide +kernel)
  · rw [arrange_eq, if_pos (by decide +kernel)]
  · exact knownHand_redThree (by decide) (by decide +kernel) (by decide +kernel)
      (by decide +kernel) (by decide +kernel)
  · rw [arrange_eq, if_pos (by decide +kernel)]
  · exact knownHand_redThree (by decide) (by decide +kernel) (by decide +kernel)
      (by decide +kernel) (by decide +kernel)
  · refine ⟨by decide +kernel, count_pair_le (by decide) (by decide +kernel) (by decide +kernel),
      fun entry hentry => ?_⟩
    have hcard : ∀ entry ∈ (table firstShown).unknownOwn.zip [⟨0, 2⟩, ⟨0, 4⟩],
        (firstShown.me.thoughts.get entry.1).any fun card => card.possible.has entry.2 := by
      decide +kernel
    exact (Option.any_eq_true _ _).1 (hcard entry hentry)
  · rw [arrange_eq, if_neg (by decide +kernel)]
    refine ⟨_, rfl, fun arr harr => ?_⟩
    obtain ⟨exp, hexp, rfl⟩ := List.mem_map.1 harr
    have hids : ∀ arr ∈ expansions (table firstShown) (remainingIds firstShown)
        (table firstShown).unknownOwn.length, arr.ids ≠ [⟨0, 2⟩, ⟨0, 4⟩] := by decide +kernel
    exact hids exp hexp

end HanabiBot.Endgame
