import HanabiBot.Endgame.BottomDeck
import HanabiBot.Endgame.Winrate

/-!
# What the perfect-information search decides

`winnable_simpler` considers the playable cards, one clue and the first card that is unknown or
trash, and gives up where `unwinnable_state` does.  It may discard with all clue tokens left.

* `ConsideredLine` — a line of the moves that it considers, with draws from what is missing;
* `legal_of_mem_simplerActions` — only those discards are not legal;
* `winnableSimpler_iff` — without caches it succeeds if and only if such a line wins.
-/

namespace HanabiBot.Endgame

variable {st st' : State} {p n : ℕ} {action : PerformAction} {draw : Option Identity}
  {rem rem' : RemainingSet} {s : SolverState}

/-- From `st` with player `p` to move, moves that the search considers lead to `st'`. -/
inductive ConsideredLine : State → ℕ → RemainingSet → State → Prop
  | refl (st : State) (p : ℕ) (rem : RemainingSet) : ConsideredLine st p rem st
  | move {st st' : State} {p : ℕ} {action : PerformAction} {draw : Option Identity}
      {rem rem' : RemainingSet} :
      st.ended = false → action ∈ simplerActions st p → Draws st action rem draw rem' →
      ConsideredLine (advanceState st action draw) (st.nextPlayerIndex p) rem' st' →
      ConsideredLine st p rem st'

/-! ## The moves -/

/-- The action is taken by the player, with a card of their own. -/
def Own (st : State) (p : ℕ) (action : PerformAction) : Prop :=
  action.playerIndex = p ∧ ∀ o, action.card? = some o → o ∈ st.hands p

theorem mem_hands_of_mem_getPlayables {o : ℕ} (h : o ∈ getPlayables st p) : o ∈ st.hands p := by
  rw [getPlayables, List.mem_insertionSort] at h
  exact (List.mem_filter.1 h).1

/-- A considered move is legal, unless it discards with all clue tokens left. -/
theorem legal_of_mem_simplerActions (h : action ∈ simplerActions st p) :
    Legal st p action ∨ ∃ o ∈ st.hands p, action = .discard p o ∧ 8 ≤ st.clueTokens := by
  simp only [simplerActions, List.mem_append] at h
  rcases h with (h | h) | h
  · obtain ⟨o, ho, rfl⟩ := List.mem_map.1 h
    exact .inl ⟨rfl, mem_hands_of_mem_getPlayables ho⟩
  · split at h
    · rename_i htokens
      rw [List.mem_singleton.1 h]
      exact .inl ⟨rfl, htokens⟩
    · cases h
  · split at h
    · rename_i o ho
      have hmem := List.mem_of_find?_eq_some ho
      split at h
      · rw [List.mem_singleton.1 h]
        by_cases htokens : st.clueTokens < 8
        · exact .inl ⟨rfl, hmem, htokens⟩
        · exact .inr ⟨o, hmem, rfl, not_lt.1 htokens⟩
      · cases h
    · cases h

theorem own_of_mem_simplerActions (h : action ∈ simplerActions st p) : Own st p action := by
  rcases legal_of_mem_simplerActions h with hlegal | ⟨o, ho, rfl, -⟩
  · exact ⟨hlegal.playerIndex_eq, fun _ => hlegal.card_mem⟩
  · refine ⟨rfl, fun o' ho' => ?_⟩
    cases ho'
    exact ho

namespace Accounted

/-- An action with one's own card and a draw from the remaining cards is a move. -/
theorem move_of_own (h : Accounted st rem) (hne : st.ended = false) (ha : Own st p action)
    (hd : Draws st action rem draw rem') : Move st p action draw where
  inProgress := hne
  player_eq := ha.1
  card_mem := ha.2
  draw_ok id hid := by
    rw [Draws] at hd
    split at hd
    · rw [hd.1] at hid
      cases hid
    · obtain ⟨id', rfl, hrem⟩ := Option.bind_eq_some_iff.1 hd
      cases hid
      obtain ⟨⟨r, hr, rfl⟩, -⟩ := mem_of_removeRemaining hrem
      have h1 := h.copies r.id (h.valid r hr)
      have h2 := missingOf_pos hr h.missing_pos
      exact ⟨h.valid r hr, by omega⟩

/-- After a move the cards are still accounted for. -/
theorem advanceState (h : Accounted st rem) (hp : p < st.numPlayers) (hne : st.ended = false)
    (ha : Own st p action) (hd : Draws st action rem draw rem') :
    Accounted (advanceState st action draw) rem' ∧
      (Endgame.advanceState st action draw).maxScore = st.maxScore := by
  have hm := h.move_of_own hne ha hd
  have hturns : st.endgameTurns ≠ 0 := by simpa [State.ended] using hne
  rw [Draws] at hd
  rcases hm.cases h.consistent with ⟨hclue, hk⟩ | ⟨order, hcard, hk⟩ | ⟨order, hcard, hk⟩
  · rw [if_pos (Or.inl hclue)] at hd
    obtain ⟨rfl, rfl⟩ := hd
    exact ⟨h.clued hturns hk, hk.toKept.maxScore_eq⟩
  · have hno : ¬ (action.isClue = true ∨ st.cardsLeft = 0) := by
      have := hk.cardsLeft_pos
      rintro (hclue | hleft)
      · cases action <;> simp_all [PerformAction.isClue, PerformAction.card?]
      · omega
    rw [if_neg hno] at hd
    obtain ⟨id, rfl, hrem⟩ := Option.bind_eq_some_iff.1 hd
    exact ⟨h.drew hp hm hk hrem, hk.toKept.maxScore_eq⟩
  · rw [if_pos (Or.inr hk.cardsLeft_zero)] at hd
    obtain ⟨rfl, rfl⟩ := hd
    exact ⟨h.putDown hp hturns hk, hk.toKept.maxScore_eq⟩

end Accounted

/-- The search goes along a line of moves. -/
theorem ConsideredLine.line (h : ConsideredLine st p rem st') (hacc : Accounted st rem)
    (hp : p < st.numPlayers) : Line st p st' := by
  induction h with
  | refl => exact .refl _ _
  | @move st st' p action draw rem rem' hne ha hd _ ih =>
    have hown := own_of_mem_simplerActions ha
    refine .move (hacc.move_of_own hne hown hd) (ih (hacc.advanceState hp hne hown hd).1 ?_)
    rw [numPlayers_advanceState]
    exact Nat.mod_lt _ (by omega)

/-! ## The search -/

variable {E : SolverError → Prop} {search : State → ℕ → RemainingSet → SolverM Bool}

/-- An action may win if and only if some draw after it does. -/
theorem sat_winnableIf_iff (good : State → RemainingSet → Prop)
    (h : ∀ draw rem', Draws st action rem draw rem' →
      Prog.Sat Uncached E (search (advanceState st action draw) (st.nextPlayerIndex p) rem') fun b =>
        b = true ↔ good (advanceState st action draw) rem') :
    Prog.Sat Uncached E (winnableIf search st p action rem) fun r => r.winnable = true ↔
      ∃ draw rem', Draws st action rem draw rem' ∧ good (advanceState st action draw) rem' := by
  rw [winnableIf]
  split
  · rename_i hno
    refine (h none rem (by rw [Draws, if_pos hno]; exact ⟨rfl, rfl⟩)).bind fun b hb =>
      Prog.Sat.pure ?_
    rw [hb]
    refine ⟨fun hgood => ⟨none, rem, by rw [Draws, if_pos hno]; exact ⟨rfl, rfl⟩, hgood⟩, ?_⟩
    rintro ⟨draw, rem', hd, hgood⟩
    rw [Draws, if_pos hno] at hd
    obtain ⟨rfl, rfl⟩ := hd
    exact hgood
  · rename_i hdraw
    refine Prog.Sat.bind (Prog.Sat.filterMapM (P := fun r res => res.isSome = true ↔
      ∃ rem', removeRemaining rem r.id = some rem' ∧ good (advanceState st action (some r.id)) rem')
      fun r hr => ?_) fun draws hdraws => Prog.Sat.pure ?_
    · obtain ⟨rem', hrem⟩ := removeRemaining_of_mem hr
      rw [hrem]
      have hd : Draws st action rem (some r.id) rem' := by
        rw [Draws, if_neg hdraw]
        exact hrem
      refine (h _ _ hd).bind fun b hb => Prog.Sat.pure ?_
      cases b with
      | true => exact ⟨fun _ => ⟨rem', rfl, hb.1 rfl⟩, fun _ => rfl⟩
      | false =>
        refine ⟨fun hno => absurd hno (by simp), fun hlater => ?_⟩
        obtain ⟨rem'', hrem', hgood⟩ := hlater
        cases hrem'
        exact absurd (hb.2 hgood) Bool.false_ne_true
    · obtain ⟨ps, rfl, hsub, hsome, hall⟩ := hdraws
      constructor
      · intro hne
        obtain ⟨x, hx⟩ : ∃ x, x ∈ ps := by
          refine List.exists_mem_of_ne_nil ps fun hnil => ?_
          simp [hnil] at hne
        obtain ⟨rem', hrem, hgood⟩ := (hsome x hx).1 rfl
        refine ⟨some x.1.id, rem', ?_, hgood⟩
        rw [Draws, if_neg hdraw]
        exact hrem
      · rintro ⟨draw, rem', hd, hgood⟩
        rw [Draws, if_neg hdraw] at hd
        obtain ⟨id, rfl, hrem⟩ := Option.bind_eq_some_iff.1 hd
        obtain ⟨⟨r, hr, rfl⟩, -⟩ := mem_of_removeRemaining hrem
        obtain hnone | hmem := hall r hr
        · have := hnone.2 ⟨rem', hrem, hgood⟩
          cases this
        · obtain ⟨x, hx, -⟩ := List.mem_map.1 hmem
          have hne : ps ≠ [] := List.ne_nil_of_mem hx
          simpa using hne

/-- Without caches, the search succeeds if and only if a line of the moves it considers wins. -/
theorem sat_winnableSimpler_iff (h : Accounted st rem) (hnames : st.variant.DistinctNames)
    (hp : p < st.numPlayers) (hdealt : dealtState st = true) (hfuel : depthBound st < n) :
    Prog.Sat Uncached E (winnableSimpler n st p rem) fun b =>
      b = true ↔ ∃ st', ConsideredLine st p rem st' ∧ st'.score = st.maxScore := by
  induction n generalizing st p rem with
  | zero => exact absurd hfuel (Nat.not_lt_zero _)
  | succ n ih =>
    rw [winnableSimpler]
    by_cases hscore : st.score = st.maxScore
    · rw [if_pos hscore]
      exact Prog.Sat.pure ⟨fun _ => ⟨st, .refl _ _ _, hscore⟩, fun _ => rfl⟩
    · rw [if_neg hscore, if_neg (by simp [hdealt])]
      by_cases hwin : unwinnableState st p = true
      · rw [if_pos hwin]
        refine Prog.Sat.pure ⟨fun hno => (by cases hno), ?_⟩
        rintro ⟨st', hline, hbest⟩
        cases hended : st.ended with
        | true =>
          cases hline with
          | refl => exact absurd hbest hscore
          | move hne =>
            rw [hended] at hne
            cases hne
        | false =>
          have hlost := lost_of_unwinnableState h.consistent hp
            (fun q hq => h.consistent.namesApart hnames hq) hwin hended
          exact absurd hbest (hlost.line h.consistent hp (hline.line h hp))
      · rw [if_neg hwin]
        have hended : st.ended = false := by
          simp only [unwinnableState, Bool.not_eq_true] at hwin
          cases hended : st.ended with
          | true => simp [hended] at hwin
          | false => rfl
        have hclocked : Clocked st := by
          obtain hpos | ⟨hleft, hturns, -⟩ := h.consistent.clock
          · exact .inl hpos
          · exact .inr ⟨hleft, hturns⟩
        have hne : st.endgameTurns ≠ 0 := by simpa [State.ended] using hended
        have htime : Prog.Sat Uncached E timedOut fun late => late = false :=
          Prog.Sat.of_ok fun s hs => ⟨false, s, exec_timedOut hs.2, rfl, hs⟩
        have hlookup : Prog.Sat Uncached E (lookupSimpler (simplerKey st p rem)) fun cached =>
            cached = none := Prog.Sat.of_ok fun s hs =>
          ⟨none, s, by rw [lookupSimpler, Prog.exec_bind, Prog.exec_get]; simp [hs.1], rfl, hs⟩
        refine htime.bind fun late hlate => ?_
        rw [if_neg (by simp [hlate])]
        refine hlookup.bind fun cached hcached => ?_
        subst hcached
        refine Prog.Sat.bind (Prog.Sat.anyM (P := fun a b => b = true ↔ ∃ draw rem',
          Draws st a rem draw rem' ∧ ∃ st', ConsideredLine (advanceState st a draw)
            (st.nextPlayerIndex p) rem' st' ∧ st'.score = st.maxScore) fun a ha => ?_)
          fun b hb => (stable_uncached.storeSimpler _ _).bind fun _ _ => Prog.Sat.pure ?_
        · refine Prog.Sat.bind (Q := fun r => r.winnable = true ↔ ∃ draw rem',
            Draws st a rem draw rem' ∧ ∃ st', ConsideredLine (advanceState st a draw)
              (st.nextPlayerIndex p) rem' st' ∧ st'.score = st.maxScore) ?_ fun r hr => Prog.Sat.pure hr
          refine sat_winnableIf_iff (fun st'' rem' => ∃ st', ConsideredLine st''
            (st.nextPlayerIndex p) rem' st' ∧ st'.score = st.maxScore) fun draw rem' hd => ?_
          obtain ⟨hacc, hmax⟩ := h.advanceState hp hended (own_of_mem_simplerActions ha) hd
          have hnames' : (advanceState st a draw).variant.DistinctNames :=
            (@variant_advanceState st a draw).symm ▸ hnames
          obtain ⟨-, -, hlt⟩ := @Clocked.advanceState _ a draw hclocked hne
          have hcloser := hlt (isClue_of_mem_simplerActions ha)
          rw [← hmax]
          refine ih hacc hnames' ?_ (dealtState_advanceState hdealt) (by omega)
          rw [numPlayers_advanceState]
          exact Nat.mod_lt _ (by omega)
        · constructor
          · rintro rfl
            rw [if_pos rfl] at hb
            obtain ⟨a, ha, hgood⟩ := hb
            obtain ⟨draw, rem', hd, st', hline, hbest⟩ := hgood.1 rfl
            exact ⟨st', .move hended ha hd hline, hbest⟩
          · rintro ⟨st', hline, hbest⟩
            cases hline with
            | refl => exact absurd hbest hscore
            | @move _ _ _ a draw _ rem' _ ha hd hline =>
              cases b with
              | true => rfl
              | false =>
                rw [if_neg Bool.false_ne_true] at hb
                exact absurd ((hb a ha).2 ⟨draw, rem', hd, st', hline, hbest⟩) Bool.false_ne_true

/-- **The search decides its own lines.** Without caches and in time, `winnable_simpler` answers
whether a line of the moves that it considers reaches the maximum score. -/
theorem winnableSimpler_iff (h : Accounted st rem) (hnames : st.variant.DistinctNames)
    (hp : p < st.numPlayers) (hdealt : dealtState st = true) (hfuel : depthBound st < n) (hs : Uncached s) :
    ∃ b, (Prog.exec (winnableSimpler n st p rem) s).1 = .ok b ∧
      (b = true ↔ ∃ st', ConsideredLine st p rem st' ∧ st'.score = st.maxScore) := by
  have hsat := sat_winnableSimpler_iff (E := fun _ => False) h hnames hp hdealt hfuel
  cases hout : (Prog.exec (winnableSimpler n st p rem) s).1 with
  | error e => exact (hsat.exec_error hs hout).1.elim
  | ok b => exact ⟨b, rfl, (hsat.exec_ok hs hout).1⟩

theorem accounted_twoLeft : Accounted twoLeft.state alicesTurn.remaining where
  consistent :=
    { nodup := by decide +kernel
      order_le := by decide +kernel
      cardOrder_ge := by decide +kernel
      undrawn := fun _ o ho => by
        change (17 : ℤ) < o at ho
        have hne : ∀ i < 18, o ≠ i := fun i hi => by omega
        simp [twoLeft, SparseArray.get_set, hne]
      valid := by decide +kernel
      copies := fun id hid =>
        (by decide +kernel : ∀ id ∈ twoLeft.state.variant.allIdentities,
          twoLeft.state.baseCount id + twoLeft.state.heldCopies id ≤ twoLeft.state.cardCount id)
          id (Variant.mem_allIdentities.2 hid)
      stack_le := by decide +kernel
      maxRanks_le := by decide +kernel
      exhausted := by decide +kernel
      clock := by decide +kernel }
  missing_pos := by decide
  valid := by decide
  copies id hid :=
    (by decide +kernel : ∀ id ∈ twoLeft.state.variant.allIdentities,
      twoLeft.state.baseCount id + twoLeft.state.heldCopies id +
        missingOf alicesTurn.remaining id ≤ twoLeft.state.cardCount id)
      id (Variant.mem_allIdentities.2 hid)
  total := by decide +kernel

/-- Alice's red 4 and Bob's red 5 win. -/
theorem winnableSimpler_iff_twoLeft :
    ∃ st', ConsideredLine twoLeft.state 0 alicesTurn.remaining st' ∧
      st'.score = twoLeft.state.maxScore := by
  obtain ⟨b, hok, hiff⟩ := @winnableSimpler_iff twoLeft.state 0 33 alicesTurn.remaining
    { caching := false } accounted_twoLeft (by decide) (by decide +kernel) (by decide +kernel)
    (by decide +kernel) ⟨rfl, rfl⟩
  have hwins : (Prog.exec (winnableSimpler 33 twoLeft.state 0 alicesTurn.remaining)
      { caching := false }).1 = .ok true := by decide +kernel
  obtain rfl := Except.ok.inj (hwins.symm.trans hok)
  exact hiff.1 rfl

end HanabiBot.Endgame
