import HanabiBot.Endgame.Sampling

/-!
# The winrate and the action that are returned

* `arrange_spec` — the arrangements that `solve_game` goes on with;
* `searchAll_spec` — the credits after the search of all of them;
* `solveGame_spec` — where some card is unknown, the answer is legal, and its winrate is
  what the search of the arranged games credits it with.
-/

namespace HanabiBot.Endgame

variable {κ : Type} {conv : Convention κ} {g : Game κ} {p : ℕ}

/-! ## The arranged games -/

section

variable {t : Table κ} {rem : RemainingSet}

/-- What is known of the arrangements that are searched. -/
structure Arranged (t : Table κ) (arr : Arrangement) : Prop where
  weighted : Weighted arr
  counted : Counted arr.newRemaining t.state.cardsLeft

theorem mem_normalize {arr : Arrangement} {arrs : List Arrangement}
    (h : arr ∈ normalize arrs) : ∃ prev ∈ arrs, arr.ids = prev.ids ∧
      arr.newRemaining = prev.newRemaining := by
  obtain ⟨prev, hprev, rfl⟩ := List.mem_map.1 h
  exact ⟨prev, hprev, rfl, rfl⟩

/-- The arrangements are the feasible assignments and their probabilities sum to 1, if the
assertion that all cards are accounted for holds. -/
theorem arrange_spec (t : Table κ) (hpos : ∀ r ∈ rem, 0 < r.missing) :
    arrange t rem = throw .assertion ∨ ∃ arrs, arrange t rem = pure arrs ∧
      (∀ arr ∈ arrs, Arranged t arr) ∧ (arrs ≠ [] → mass arrs = 1) ∧
      ∀ ids, (∃ arr ∈ arrs, arr.ids = ids) ↔ Feasible t rem ids := by
  rw [arrange_eq]
  split
  · exact Or.inl rfl
  · rename_i hany
    have hexp := fun arr harr => @expanded_of_mem _ t _ hpos t.unknownOwn.length arr harr
    have hweighted : ∀ arr ∈ expansions t rem t.unknownOwn.length, Weighted arr :=
      fun arr harr => ⟨(hexp arr harr).prob_pos, (hexp arr harr).value_pos⟩
    refine Or.inr ⟨_, rfl, fun arr harr => ?_, fun hne => ?_, fun ids => ?_⟩
    · have hne : expansions t rem t.unknownOwn.length ≠ [] := by
        rintro hnil
        rw [hnil] at harr
        cases harr
      refine ⟨(sum_normalize hweighted hne).1 arr harr, ?_⟩
      obtain ⟨prev, hprev, -, hrem⟩ := mem_normalize harr
      rw [hrem]
      refine ⟨(hexp prev hprev).missing_pos, Or.inr ?_⟩
      by_contra hleft
      exact hany (List.any_eq_true.2 ⟨prev, hprev, by simpa using hleft⟩)
    · exact (sum_normalize hweighted (by simpa [normalize] using hne)).2
    · rw [Feasible, ← mem_expansions_iff hpos]
      constructor
      · rintro ⟨arr, harr, rfl⟩
        obtain ⟨prev, hprev, hids, -⟩ := mem_normalize harr
        exact ⟨prev, hprev, hids.symm⟩
      · rintro ⟨prev, hprev, rfl⟩
        exact ⟨_, List.mem_map_of_mem hprev, rfl⟩

end

/-- Only cards with missing copies remain. -/
theorem missing_pos_remainingIds (g : Game κ) : ∀ r ∈ remainingIds g, 0 < r.missing := by
  intro r hr
  obtain ⟨id, -, hid⟩ := List.mem_filterMap.1 hr
  simp only [Option.ite_none_right_eq_some, Option.some.injEq] at hid
  obtain ⟨hpos, rfl⟩ := hid
  exact hpos

/-- Writing identities on cards leaves the position sane. -/
theorem Sane.withDeck (hg : Sane g p) {deck : SparseArray ActualCard}
    (h : ∀ o, (g.state.deck.get o).isSome = true → (deck.get o).isSome = true)
    (deckIds : SparseArray Identity) :
    Sane { g with state := { g.state with deck }, deckIds } p := by
  refine ⟨?_, ⟨hg.state.clocked, hg.state.fit, hg.state.tokens_le⟩,
    ⟨hg.stocked.turns_le, hg.stocked.two_le⟩⟩
  have hdealt := hg.dealt
  rw [Game.dealt, Bool.and_eq_true] at hdealt ⊢
  refine ⟨List.all_eq_true.2 fun o ho => h o ?_, hdealt.2⟩
  exact List.all_eq_true.1 hdealt.1 o ho

theorem isSome_get_set {deck : SparseArray ActualCard} {i o : ℕ} {c : ActualCard}
    (h : (deck.get o).isSome = true) : ((deck.set i c).get o).isSome = true := by
  rw [SparseArray.get_set]
  split
  · rfl
  · exact h

theorem isSome_get_writeIds {o : ℕ} (ids : List OwnId) {deck : SparseArray ActualCard}
    (h : (deck.get o).isSome = true) : ((writeIds deck ids).get o).isSome = true := by
  induction ids generalizing deck with
  | nil => exact h
  | cons own ids ih =>
    rw [writeIds, List.foldl_cons, ← writeIds]
    refine ih ?_
    cases own.id with
    | none => exact h
    | some id => exact isSome_get_set h

theorem isSome_get_assigned {o : ℕ} (assigned : List (ℕ × Identity)) {deck : SparseArray ActualCard}
    (h : (deck.get o).isSome = true) :
    ((assigned.foldl (fun deck (o, id) => deck.set o ⟨some id⟩) deck).get o).isSome = true := by
  induction assigned generalizing deck with
  | nil => exact h
  | cons x assigned ih => exact ih (isSome_get_set h)

/-- The arranged games can be searched. -/
theorem arrangedOk (hg : Sane g p) (hne : g.state.endgameTurns ≠ 0) (hp : p < g.state.numPlayers)
    {arrs : List Arrangement} (harrs : ∀ arr ∈ arrs, Arranged (table g) arr) :
    ∀ arr ∈ arrangedGames (table g) arrs, ArrangedOk g.state p arr := by
  intro arr harr
  rw [arrangedGames] at harr
  split at harr
  · rw [List.mem_singleton.1 harr]
    exact ⟨hg, hne, hp, ⟨by simp, Or.inl rfl⟩, rfl, rfl, rfl, Fraction.pos_one⟩
  · obtain ⟨prev, hprev, rfl⟩ := List.mem_map.1 harr
    refine ⟨?_, hne, hp, (harrs prev hprev).counted, rfl, rfl, rfl, (harrs prev hprev).weighted.1⟩
    exact hg.withDeck (fun o ho => isSome_get_assigned _ (isSome_get_writeIds _ ho)) _

/-! ## The credits -/

/-- The search of the arranged games returns winrates and legal actions, which are credited. -/
theorem searchAll_spec {strict : Prop} (hlaw : conv.Lawful) (hfair : Fair conv) {rem : RemainingSet}
    {st : State} {arrs : List (ArrangedGame κ)} (harrs : ∀ arr ∈ arrs, ArrangedOk st p arr) :
    Prog.Sat (Sound strict) (fun e => strict → Excused conv e) (searchAll conv rem p arrs [])
      fun performs => ∃ bests, performs = creditMany [] (arrs.zip bests) ∧
        bests.length = arrs.length ∧
        ∀ outcome ∈ arrs.zip bests, IsRate outcome.2.1 ∧
          outcome.2.2.Sublist (candidates conv outcome.1.hypoGame p) ∧
          ∀ a ∈ outcome.2.2, Legal st p a := by
  rw [searchAll_eq]
  refine (Prog.Sat.mapM fun arr harr => bestOf_spec hlaw hfair (harrs arr harr)).bind
    fun bests ⟨hlen, hbests⟩ => Prog.Sat.pure ⟨bests, rfl, hlen, hbests⟩

/-- `maxOn` picks one of the elements. -/
theorem mem_of_maxOn {α δ : Type} [LinearOrder δ] {valueFunc : α → δ} {arr : List α} {a : α}
    (h : maxOn valueFunc arr = some a) : a ∈ arr := by
  have hfold : ∀ (l : List α) (b : α),
      l.foldl (fun max b => if valueFunc max < valueFunc b then b else max) b ∈ b :: l := by
    intro l
    induction l with
    | nil => exact fun b => List.mem_singleton_self b
    | cons c l ih =>
      intro b
      rw [List.foldl_cons]
      rcases List.mem_cons.1 (ih (if valueFunc b < valueFunc c then c else b)) with h | h
      · rw [h]
        split <;> simp
      · exact List.mem_cons_of_mem b (List.mem_cons_of_mem c h)
  cases arr with
  | nil => cases h
  | cons b arr =>
    cases h
    exact hfold arr b

/-! ## The answer -/

/-- The answer that is returned after the search of the arranged games `arrs`. -/
structure Answered (conv : Convention κ) (g : Game κ) (p : ℕ) (arrs : List (ArrangedGame κ))
    (best : BestAction) (a : PerformAction) (outcomes : List (Outcome κ)) : Prop where
  action_eq : best.action = some a
  legal : Legal g.state p a
  games_eq : outcomes.map Prod.fst = arrs
  outcome : ∀ outcome ∈ outcomes, IsRate outcome.2.1 ∧
    outcome.2.2.Sublist (candidates conv outcome.1.hypoGame p)
  pos : best.winrate.Pos
  winrate_eq : best.winrate.value = (outcomes.map (creditOf a)).sum

/-- The games that are searched. -/
def searchedGames (t : Table κ) (monteCarlo : Bool) (arrs : List Arrangement) :
    List (ArrangedGame κ) :=
  arrangedGames t (if monteCarlo then sample t.state arrs else arrs)

theorem arranged_sample {t : Table κ} {arrs : List Arrangement} (h : ∀ arr ∈ arrs, Arranged t arr) :
    ∀ arr ∈ sample t.state arrs, Arranged t arr := by
  intro arr harr
  refine ⟨weighted_sample (fun x hx => (h x hx).weighted) arr harr, ?_⟩
  obtain ⟨prev, hprev, -, heq⟩ := exists_of_mem_sample harr
  rw [heq]
  exact (h prev hprev).counted

/-- If some card is unknown, `solve_game` answers from the arranged games. -/
theorem solveGame_spec {strict : Prop} {δ : Type} [LinearOrder δ] (toDecimal : Fraction → δ)
    (hlaw : conv.Lawful) (hfair : Fair conv) (hg : Sane g p) (hne : g.state.endgameTurns ≠ 0)
    (hp : p < g.state.numPlayers)
    (hunknown : g.state.cardsLeft + (table g).unknownOwn.length ≠ 0) (monteCarlo : Bool)
    (time : Option ℕ) :
    Prog.Triple (fun s => Sound strict { s with clock := time })
      (solveGame toDecimal conv monteCarlo time g p)
      (fun best s => (∃ arrs a outcomes, arrange (table g) (remainingIds g) = pure arrs ∧
        Answered conv g p (searchedGames (table g) monteCarlo arrs) best a outcomes) ∧ Sound strict s)
      fun e _ => strict → Excused conv e ∨
        e = .assertion ∧ arrange (table g) (remainingIds g) = throw .assertion := by
  rw [solveGame, if_neg (by simp [hg.dealt])]
  dsimp only
  split
  · exact Prog.Triple.throw fun s _ _ => .inl (.inl ⟨_, rfl⟩)
  · refine Prog.Triple.bind (Q := fun _ s => Sound strict s) (fun s hs => hs) fun _ => ?_
    refine Prog.Triple.conseq (P := Sound strict) ?_ (fun _ => id) (fun _ _ => id) fun _ _ => id
    rw [if_neg (show ¬ (table g).state.cardsLeft + (table g).unknownOwn.length = 0 from hunknown)]
    rcases arrange_spec (table g) (missing_pos_remainingIds g) with hthrow | ⟨arrs, harr, harrs, -⟩
    · rw [hthrow]
      exact Prog.Triple.throw fun s _ _ => Or.inr ⟨rfl, rfl⟩
    · rw [harr, pure_bind]
      have hok : ∀ arr ∈ searchedGames (table g) monteCarlo arrs, ArrangedOk g.state p arr := by
        refine arrangedOk hg hne hp ?_
        split
        · exact arranged_sample harrs
        · exact harrs
      refine Prog.Triple.bind ((searchAll_spec hlaw hfair hok).conseq (fun _ => id) (fun _ _ => id)
        fun e s he hstrict => Or.inl (he.1 hstrict)) fun performs => ?_
      refine Prog.Triple.assume (fun s hs => hs.1) fun ⟨bests, hperforms, hlen, hbests⟩ => ?_
      have hnil : Performs.Ok [] := ⟨List.nodup_nil, by simp⟩
      obtain ⟨hperf, hrate⟩ := winrateOf_creditMany (fun outcome ho =>
        ⟨(hok _ (List.of_mem_zip ho).1).prob_pos, (hbests outcome ho).1.pos⟩) hnil
      rw [← hperforms] at hperf hrate
      refine Prog.Triple.bind (triple_timedOut.conseq (fun s hs => hs.2) (fun _ _ => id)
        fun _ _ => id) fun late => ?_
      split
      · exact Prog.Triple.throw fun s _ _ => .inl (.inl ⟨_, rfl⟩)
      · split
        · exact Prog.Triple.throw fun s _ _ => .inl (.inl ⟨_, rfl⟩)
        · rename_i a w i hmax
          have hmem : (a, w) ∈ performs := (List.mem_zipIdx' (mem_of_maxOn hmax)).2 ▸
            List.getElem_mem _
          have hkeys := keys_creditMany (a := a) (hperforms ▸ List.mem_map_of_mem hmem)
          obtain ⟨outcome, ho, ha⟩ := hkeys.resolve_left (by simp)
          refine Prog.Triple.pure fun s hs =>
            ⟨⟨arrs, a, (searchedGames (table g) monteCarlo arrs).zip bests, rfl, ?_⟩, hs.2⟩
          refine
            { action_eq := rfl
              legal := (hbests outcome ho).2.2 a ha
              games_eq := List.map_fst_zip hlen.ge
              outcome := fun outcome ho => ⟨(hbests outcome ho).1, (hbests outcome ho).2.1⟩
              pos := hperf.pos _ hmem
              winrate_eq := ?_ }
          have := hperf.winrateOf_eq hmem
          rw [hrate] at this
          simpa [Performs.winrateOf] using this.symm

end HanabiBot.Endgame
