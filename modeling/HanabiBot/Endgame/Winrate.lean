import HanabiBot.Lib.Expectimax
import HanabiBot.Endgame.Alike
import HanabiBot.Endgame.Optimal
import HanabiBot.Endgame.Plain

/-!
# The winrate is the best chance of winning

The endgame is a game against chance: a player takes one of the actions that are offered, and
a card is drawn.  It is settled when it is trivially winnable, or given up.

* `arena` — that game;
* `Position.Regular` — the positions that `winnable` can value; actions lead from one to another;
* `winnable_isGreatest` — `winnable` returns the greatest chance of any strategy to reach a
  trivially winnable position, with actions that keep it;
* `winnable_line` — if that is not 0, there are actions and draws that lead there.
-/

namespace HanabiBot.Endgame

variable {κ : Type}

/-! ## Regular positions -/

/-- A position of a game in progress, in which actions follow the rules. -/
structure Position.Proper (x : Position κ) : Prop where
  lawful : x.conv.Lawful
  fair : Fair x.conv
  sane : Sane x.game x.turn
  turn_lt : x.turn < x.game.state.numPlayers
  counted : Counted x.remaining x.game.state.cardsLeft

/-- Simulating legal actions returns, too. -/
structure Position.Regular (x : Position κ) : Prop extends x.Proper where
  returns : x.conv.Returns

namespace Position

section

variable {x x' : Position κ} {offer : Offer} {d : Option Remaining} {s : SolverState}

theorem Explored.inProgress (h : x.Explored) : x.game.state.endgameTurns ≠ 0 := by
  intro h0
  have hwin := h.winnable
  simp [unwinnableState, State.ended, h0] at hwin

/-- The draws of an action have probabilities that add up to 1, and the search can go on. -/
theorem Proper.hypo_ok (h : x.Proper) (hne : x.game.state.endgameTurns ≠ 0)
    (ho : OfferOk x.game x.turn offer) :
    (∀ d ∈ x.draws offer.action, (x.hypo d).hypoGame.state.numPlayers = x.game.state.numPlayers ∧
      HypoOk offer x.turn (depthBound x.game.state) (x.hypo d)) ∧
      ((x.draws offer.action).map fun d => (x.hypo d).prob.value).sum = 1 := by
  obtain ⟨hypoGames, hgen, hok⟩ :=
    genHypoGames_spec h.sane hne h.turn_lt h.counted [offer]
  rw [genHypoGames_eq] at hgen
  obtain rfl := Prog.pure_inj {} hgen
  have hgames := hok offer List.mem_cons_self ho
  rw [gamesFor_eq List.mem_cons_self, List.map_map] at hgames
  exact ⟨fun d hd => hgames.1 _ (List.mem_map_of_mem hd), hgames.2⟩

/-- An offered action leads to a proper position, one turn on. -/
theorem Proper.of_advanced (h : x.Proper) (hne : x.game.state.endgameTurns ≠ 0)
    (ho : OfferOk x.game x.turn offer) (hd : d ∈ x.draws offer.action) {g : Game κ}
    (hadv : advanced x.conv (x.hypo d).hypoGame offer.action = .ok g) :
    Proper ⟨x.conv, g, x.next, (x.hypo d).remaining⟩ ∧
      depthBound g.state < depthBound x.game.state := by
  obtain ⟨hplayers, hok⟩ := (h.hypo_ok hne ho).1 d hd
  have hnext : (x.hypo d).hypoGame.state.nextPlayerIndex x.turn = x.next := by
    rw [next, State.nextPlayerIndex, State.nextPlayerIndex, hplayers]
  obtain ⟨⟨hdealt, hturn⟩, -⟩ := (advanceGame_spec (I := fun _ => True) (E := fun _ => True)
    h.lawful (fun _ => trivial) hok.sane hok.inProgress hok.player_lt
    hok.legal).exec_ok (s := {}) trivial hadv
  refine ⟨⟨h.lawful, h.fair, ⟨hdealt, hturn.sane, hnext ▸ hturn.stocked⟩, ?_, ?_⟩,
    lt_of_lt_of_le hturn.closer hok.depth_le⟩
  · rw [hturn.numPlayers_eq, hplayers]
    exact Nat.mod_lt _ (lt_of_le_of_lt (Nat.zero_le _) h.turn_lt)
  · rw [hturn.cardsLeft_eq]
    exact hok.counted

/-- An offered action leads to a regular position, one turn on. -/
theorem Regular.exists_after (h : x.Regular) (hne : x.game.state.endgameTurns ≠ 0)
    (ho : OfferOk x.game x.turn offer) (hd : d ∈ x.draws offer.action) :
    ∃ g, x.after offer.action d = .ok ⟨x.conv, g, x.next, (x.hypo d).remaining⟩ ∧
      advanced x.conv (x.hypo d).hypoGame offer.action = .ok g ∧
      Regular ⟨x.conv, g, x.next, (x.hypo d).remaining⟩ ∧
      depthBound g.state < depthBound x.game.state := by
  obtain ⟨-, hok⟩ := (h.hypo_ok hne ho).1 d hd
  have hspec := advanceGame_spec (I := fun _ => True) (E := fun _ => False) h.lawful
    (fun hno => hno h.returns) hok.sane hok.inProgress hok.player_lt hok.legal
  cases hadv : advanced x.conv (x.hypo d).hypoGame offer.action with
  | error e => exact (hspec.exec_error (s := {}) trivial hadv).1.elim
  | ok g =>
    obtain ⟨hproper, hcloser⟩ := h.of_advanced hne ho hd hadv
    exact ⟨g, by rw [after, hadv]; rfl, rfl, ⟨hproper, h.returns⟩, hcloser⟩

end

end Position

/-! ## The offered actions -/

/-- Without a clock the program never fails with `UnsolvedGame`. -/
def Patient {α : Type} (m : SolverM α) : Prop :=
  Prog.Sat Uncached (fun e => ¬ IsUnsolved e) m fun _ => True

theorem stable_uncached : Stable Uncached where
  clock s k hs hc := by
    have := hs.2.symm.trans hc
    cases this
  simpler _ _ _ hs := hs

namespace Patient

variable {α : Type}

theorem pure (a : α) : Patient (Pure.pure a : SolverM α) := Prog.Sat.pure trivial

theorem bind {β : Type} {m : SolverM α} {f : α → SolverM β} (h : Patient m)
    (hf : ∀ a, Patient (f a)) : Patient (m >>= f) := Prog.Sat.bind h fun a _ => hf a

theorem timedOut {f : Bool → SolverM α} (h : Patient (f false)) : Patient (Endgame.timedOut >>= f) := by
  intro s hs
  rw [Prog.exec_bind, exec_timedOut hs.2]
  exact h s hs

theorem filterMapM {β : Type} {f : β → SolverM (Option α)} {l : List β}
    (h : ∀ b ∈ l, Patient (f b)) : Patient (l.filterMapM f) :=
  (Prog.Sat.filterMapM (P := fun _ _ => True) fun b hb => h b hb).mono fun _ _ => trivial

theorem winnableSimpler (n : ℕ) (st : State) (p : ℕ) (rem : RemainingSet) :
    Patient (Endgame.winnableSimpler n st p rem) := by
  induction n generalizing st p rem with
  | zero => exact Prog.Sat.throw (by simp [IsUnsolved])
  | succ n ih =>
    rw [Endgame.winnableSimpler]
    split
    · exact .pure _
    · split
      · exact Prog.Sat.throw (by simp [IsUnsolved])
      · split
        · exact .pure _
        · refine timedOut ?_
          rw [if_neg Bool.false_ne_true]
          refine Prog.Sat.bind (sat_lookupSimpler _) fun cached _ => ?_
          cases cached with
          | some b => exact Prog.Sat.pure trivial
          | none =>
            refine Prog.Sat.bind (Q := fun _ => True) ?_ fun b _ =>
              (stable_uncached.storeSimpler _ _).bind fun _ _ => Prog.Sat.pure trivial
            exact (Prog.Sat.anyM (P := fun _ _ => True) fun a _ =>
              (sat_winnableIf fun _ _ => ih _ _ _).bind fun _ _ => Prog.Sat.pure trivial).mono fun _ _ => trivial

theorem offers (x : Position κ) (rem : RemainingSet) : Patient (x.offers rem) := by
  have hnow : ∀ st p action rem, Patient (winnableIfNow st p action rem) :=
    fun st p action rem => (sat_winnableIf fun _ _ => winnableSimpler _ _ _ _).mono fun _ _ => trivial
  have hoffer : ∀ l : List PerformAction, Patient (l.filterMapM (offerIf x.game.state x.turn rem)) :=
    fun l => filterMapM fun a _ => (hnow _ _ _ _).bind fun _ => .pure _
  rw [Position.offers, possibleActions]
  refine timedOut ?_
  rw [if_neg Bool.false_ne_true]
  refine (hoffer _).bind fun plays => .bind (m := clueWinnable x.game.state x.turn rem) ?_
    fun winnable => .bind (m := offerDiscards x.conv x.game x.turn rem) ?_ fun discards => .pure _
  · rw [clueWinnable]
    split
    · exact .pure _
    · exact (hnow _ _ _ _).bind fun _ => .pure _
  · rw [offerDiscards]
    split
    · exact hoffer _
    · exact .pure _

end Patient

namespace Position

variable {x x' : Position κ} {offer : Offer} {d : Option Remaining} {s : SolverState} {n : ℕ}

/-- The actions that are offered with `rem` missing, without caches. -/
def offersFor (x : Position κ) (rem : RemainingSet) : List Offer :=
  (Prog.exec (x.offers rem) { caching := false }).1.toOption.getD []

/-- The actions that the search goes on with. -/
def offered (x : Position κ) : List Offer := x.offersFor x.remaining

/-- The actions are offered, whatever the caches hold. -/
theorem Regular.exec_offers (h : x.Regular) (hne : x.game.state.endgameTurns ≠ 0)
    (rem : RemainingSet) (hs : Uncached s) :
    (Prog.exec (x.offers rem) s).1 = .ok (x.offersFor rem) ∧
      Uncached (Prog.exec (x.offers rem) s).2 ∧
      (∀ offer ∈ x.offersFor rem, OfferOk x.game x.turn offer) ∧
      ((x.offersFor rem).map Offer.action).Sublist (candidates x.conv x.game x.turn) := by
  have hspec := @possibleActions_spec _ x.conv x.game x.turn _ rem stable_uncached h.fair h.sane hne
  have hspec' := Prog.Triple.and hspec (Patient.offers x rem)
  have hempty : Uncached { caching := false } := ⟨rfl, rfl⟩
  have hagree := @agree_offers _ x _ (fun _ => False)
    (fun s t (hst : BothUncached s t) => ⟨hst.1.2, hst.2⟩) rem
    (fun action _ => agree_winnableIfNow_uncached x.game.state x.turn action rem)
    s { caching := false } ⟨hs, hempty⟩
  obtain (⟨e, he, -⟩ | ⟨e, he, -⟩) | ⟨heq, hkeep, -⟩ := hagree
  · exact he.elim
  · exact he.elim
  · cases hout : (Prog.exec (x.offers rem) { caching := false }).1 with
    | error e =>
      obtain ⟨⟨hyes, -⟩, hno, -⟩ := hspec'.exec_error ⟨hempty, hempty⟩ hout
      exact absurd hyes hno
    | ok offers =>
      have hoffers : x.offersFor rem = offers := by rw [offersFor, hout]; rfl
      obtain ⟨⟨hok, -⟩, -⟩ := hspec'.exec_ok ⟨hempty, hempty⟩ hout
      rw [hoffers]
      exact ⟨heq.trans hout, hkeep, hok.1, hok.2⟩

/-! ## The game against chance -/

/-- The draw may still win after the action, and the action loses no critical card. -/
def pursues (x : Position κ) (offer : Offer) (d : Option Remaining) (x' : Position κ) : Bool :=
  Outlook.drawWins offer (x.hypo d) &&
    decide ((x.hypo d).hypoGame.state.maxScore ≤ x'.game.state.maxScore)

/-- Where an action leads after a draw, and how likely it is; nothing if it is not pursued. -/
def chance (x : Position κ) (offer : Offer) (d : Option Remaining) : Option (ℚ × Position κ) :=
  (x.after offer.action d).toOption.bind fun x' =>
    if x.pursues offer d x' then some ((x.hypo d).prob.value, x') else none

/-- The game is as good as won, or is given up. -/
def settled (x : Position κ) : Option ℚ :=
  if (triviallyWinnable x.conv x.game x.turn).isSome then some 1
  else if unwinnableState x.game.state x.turn || bottomDecked x.game.state x.remaining then some 0
  else none

end Position

/-- The endgame as a game against chance. -/
def arena : Arena (Position κ) Offer where
  moves := Position.offered
  chances x offer := (x.draws offer.action).filterMap (x.chance offer)
  settled := Position.settled

namespace Position

variable {x x' : Position κ} {offer : Offer} {d : Option Remaining} {s : SolverState} {n : ℕ}

theorem Regular.explored (h : x.Regular) (hx : x.settled = none) : x.Explored := by
  rw [settled] at hx
  split at hx
  · cases hx
  · rename_i htrivial
    split at hx
    · cases hx
    · rename_i hgo
      obtain ⟨hwinnable, hkept⟩ := Bool.or_eq_false_iff.1 (Bool.eq_false_iff.2 hgo)
      exact ⟨h.sane.dealt, by simpa using htrivial, hwinnable, hkept⟩

theorem Regular.offer_ok (h : x.Regular) (hx : x.settled = none) (ho : offer ∈ x.offered) :
    OfferOk x.game x.turn offer :=
  (h.exec_offers (h.explored hx).inProgress _ (s := { caching := false }) ⟨rfl, rfl⟩).2.2.1 offer ho

/-- What chance does comes from a draw. -/
theorem Regular.of_mem_chances (h : x.Regular) (hx : x.settled = none) (ho : offer ∈ x.offered)
    {c : ℚ × Position κ} (hc : c ∈ arena.chances x offer) :
    c.2.Regular ∧ 0 ≤ c.1 ∧ depthBound c.2.game.state < depthBound x.game.state := by
  obtain ⟨d, hd, hchance⟩ := List.mem_filterMap.1 hc
  have hok := h.offer_ok hx ho
  obtain ⟨g, hafter, -, hregular, hcloser⟩ := h.exists_after (h.explored hx).inProgress hok hd
  rw [chance, hafter] at hchance
  obtain ⟨-, heq⟩ : _ ∧ _ = c := by simpa [Except.toOption] using hchance
  rw [← heq]
  exact ⟨hregular, (((h.hypo_ok (h.explored hx).inProgress hok).1 d hd).2).prob_nonneg, hcloser⟩

end Position

/-- From regular positions the game against chance is fair. -/
theorem arena_fairOn : (@arena κ).FairOn Position.Regular where
  closed _ _ hx hopen ho _ hc := (hx.of_mem_chances hopen ho hc).1
  nonneg _ _ hx hopen ho _ hc := (hx.of_mem_chances hopen ho hc).2.1
  total x offer hx hopen ho := by
    have hsum := hx.hypo_ok (hx.explored hopen).inProgress (hx.offer_ok hopen ho)
    rw [show (arena.chances x offer) = (x.draws offer.action).filterMap (x.chance offer) from rfl,
      Arena.sum_filterMap, ← hsum.2]
    refine List.sum_le_sum fun d hd => ?_
    rw [Position.chance]
    cases x.after offer.action d with
    | error e => exact ((hsum.1 d hd).2).prob_nonneg
    | ok x' =>
      change Option.elim (if x.pursues offer d x' then _ else _) 0 Prod.fst ≤ _
      split
      · exact le_rfl
      · exact ((hsum.1 d hd).2).prob_nonneg
  payoff x q _ hq := by
    change x.settled = some q at hq
    rw [Position.settled] at hq
    split at hq
    · cases hq
      exact ⟨zero_le_one, le_rfl⟩
    · split at hq
      · cases hq
        exact ⟨le_rfl, zero_le_one⟩
      · cases hq

/-! ## The value of a position -/

/-- The search without caches returns results that have the value of the position. -/
structure Valued (n : ℕ) (x : Position κ) (results : List BestAction) : Prop where
  exec : ∀ s, Uncached s → (Prog.exec (x.search n) s).1 = .ok results
  ne_nil : results ≠ []
  rate : ∀ r ∈ results, IsRate r.winrate
  value_eq : ∀ r ∈ results, r.winrate.value = arena.value n x
  attained : ∀ r ∈ results, ∀ a, r.action = some a → triviallyWinnable x.conv x.game x.turn = some (some a) ∨
    ∃ offer ∈ x.offered, offer.action = a ∧
      arena.expected (arena.value (n - 1)) x offer = arena.value n x

section

variable {x : Position κ} {n : ℕ} {results : List BestAction} {s : SolverState}

/-- The results that the search returns without caches, or `failure`. -/
noncomputable def answer (n : ℕ) (x : Position κ) : List BestAction :=
  open Classical in if h : ∃ results, Valued n x results then h.choose else failure

theorem answer_eq (h : Valued n x results) : answer n x = results := by
  have hex : ∃ results, Valued n x results := ⟨results, h⟩
  rw [answer, dif_pos hex]
  have hempty : Uncached { caching := false } := ⟨rfl, rfl⟩
  exact Except.ok.inj ((hex.choose_spec.exec _ hempty).symm.trans (h.exec _ hempty))

theorem exists_answer (n : ℕ) (x : Position κ) :
    ∃ best rest, answer n x = best :: rest ∧ IsRate best.winrate := by
  by_cases hex : ∃ results, Valued n x results
  · obtain ⟨results, h⟩ := hex
    rw [answer_eq h]
    obtain ⟨best, rest, rfl⟩ := List.exists_cons_of_ne_nil h.ne_nil
    exact ⟨best, rest, rfl, h.rate best List.mem_cons_self⟩
  · rw [answer, dif_neg hex]
    exact ⟨_, [], rfl, isRate_zero⟩

/-- What `optimize` is given by the search of the positions after `x`. -/
noncomputable def outlook (n : ℕ) (x : Position κ) : Outlook κ where
  conv := x.conv
  search g p rem := pure (answer n ⟨x.conv, g, p, rem⟩)
  turn := x.next
  next g action := (advanced x.conv g action).toOption.getD g
  winrate g rem := (exists_answer n ⟨x.conv, g, x.next, rem⟩).choose.winrate
  search_eq g rem := by
    obtain ⟨rest, hanswer, -⟩ := (exists_answer n ⟨x.conv, g, x.next, rem⟩).choose_spec
    exact ⟨_, rest, congrArg pure hanswer⟩
  isRate g rem := (exists_answer n ⟨x.conv, g, x.next, rem⟩).choose_spec.choose_spec.2

/-- The share of a draw is what chance makes of it. -/
theorem share_eq (h : x.Regular) (hne : x.game.state.endgameTurns ≠ 0) {offer : Offer} (ho : OfferOk x.game x.turn offer)
    {d : Option Remaining} (hd : d ∈ x.draws offer.action)
    (ih : ∀ x' : Position κ, x'.Regular → depthBound x'.game.state < depthBound x.game.state →
      ∃ results, Valued n x' results) :
    (outlook n x).share offer (x.hypo d) =
      (x.chance offer d).elim 0 fun c => c.1 * arena.value n c.2 := by
  obtain ⟨g, hafter, hadv, hregular, hcloser⟩ := h.exists_after hne ho hd
  obtain ⟨results, hvalued⟩ := ih _ hregular hcloser
  have hnext : (outlook n x).next (x.hypo d).hypoGame offer.action = g := by
    change (advanced x.conv _ _).toOption.getD _ = g
    rw [hadv]
    rfl
  have hwinrate : ((outlook n x).winrate g (x.hypo d).remaining).value =
      arena.value n ⟨x.conv, g, x.next, (x.hypo d).remaining⟩ := by
    obtain ⟨rest, hanswer, -⟩ :=
      (exists_answer n ⟨x.conv, g, x.next, (x.hypo d).remaining⟩).choose_spec
    have hresults := hanswer.symm.trans (answer_eq hvalued)
    exact hvalued.value_eq _ ((congrArg (_ ∈ ·) hresults).mp List.mem_cons_self)
  rw [Outlook.share, Outlook.counts, hnext, hwinrate, Position.chance, hafter]
  change _ = Option.elim (if x.pursues offer d _ then _ else _) 0 _
  rw [Position.pursues]
  split <;> rfl

/-- The rate of an action is what is expected of it. -/
theorem rate_eq (h : x.Regular) (hne : x.game.state.endgameTurns ≠ 0) {offers : List Offer}
    {offer : Offer} (hmem : offer ∈ offers) (ho : OfferOk x.game x.turn offer)
    (ih : ∀ x' : Position κ, x'.Regular → depthBound x'.game.state < depthBound x.game.state →
      ∃ results, Valued n x' results) :
    (outlook n x).rate (x.hypoGames offers) offer = arena.expected (arena.value n) x offer := by
  rw [Outlook.rate, gamesFor_eq hmem, List.map_map, Arena.expected]
  rw [show arena.chances x offer = (x.draws offer.action).filterMap (x.chance offer) from rfl,
    Arena.sum_filterMap]
  exact congrArg _ (List.map_congr_left fun d hd => share_eq h hne ho hd ih)

/-- With the search of the positions after it, `optimize` does what it does with their answers. -/
theorem agree_optimize_outlook (h : x.Regular) (hne : x.game.state.endgameTurns ≠ 0)
    {offers : List Offer} (hoffers : ∀ offer ∈ offers, OfferOk x.game x.turn offer)
    (ih : ∀ x' : Position κ, x'.Regular → depthBound x'.game.state < depthBound x.game.state →
      ∃ results, Valued n x' results) :
    Prog.Agree BothUncached (fun _ => False)
      (optimize x.conv (winnable x.conv n) x.next (x.hypoGames offers) offers 0 [])
      (optimize x.conv (outlook n x).search x.next (x.hypoGames offers) offers 0 []) := by
  refine agree_optimize (fun s t hst => ⟨hst.1.2, hst.2⟩) (.refl x) (List.Subset.refl _)
    (fun offer ho d hd => ?_) _ _
  obtain ⟨g, hafter, -, hregular, hcloser⟩ := h.exists_after hne (hoffers offer ho) hd
  obtain ⟨results, hvalued⟩ := ih _ hregular hcloser
  rw [Matched, hafter]
  refine .ok ⟨rfl, fun _ s t hst => ?_⟩
  obtain (⟨e, he, -⟩ | ⟨e, he, -⟩) | ⟨-, hkeep⟩ := agree_search_alike (F := fun _ => False) n
    (.refl ⟨x.conv, g, x.next, (x.hypo d).remaining⟩) s t hst
  · exact he.elim
  · exact he.elim
  · refine .inr ⟨(hvalued.exec s hst.1).trans ?_, hkeep.1, hst.2⟩
    exact congrArg Except.ok (answer_eq hvalued).symm

/-- The offered actions can be tried with the answers of the search. -/
theorem offered_outlook (h : x.Regular) (hne : x.game.state.endgameTurns ≠ 0) {offers : List Offer}
    {offer : Offer} (hmem : offer ∈ offers) (ho : OfferOk x.game x.turn offer) :
    (outlook n x).Offered (x.hypoGames offers) offer := by
  obtain ⟨hok, hsum⟩ := h.hypo_ok hne ho
  refine ⟨fun hypo hhypo => ?_, ?_⟩
  · rw [gamesFor_eq hmem] at hhypo
    obtain ⟨d, hd, rfl⟩ := List.mem_map.1 hhypo
    obtain ⟨-, hhypo⟩ := hok d hd
    obtain ⟨g, -, hadv, -⟩ := h.exists_after hne ho hd
    refine ⟨hhypo.prob_pos, hhypo.prob_nonneg, fun hdrew => ?_, funext fun s => ?_⟩
    · exact Option.ne_none_iff_isSome.1 (hhypo.draws (Option.ne_none_iff_isSome.2 hdrew))
    · refine (exec_advanceGame x.conv _ _ s).trans ?_
      change _ = (Except.ok ((advanced x.conv _ _).toOption.getD _), s)
      rw [hadv]
      rfl
  · rw [gamesFor_eq hmem, List.map_map]
    exact hsum.le

/-- The best winrate is the greatest that is expected of an action, and the best actions have it. -/
structure BestOf (n : ℕ) (x : Position κ) (offers : List Offer) (best : Fraction)
    (actions : List PerformAction) : Prop where
  rate : IsRate best
  value_eq : best.value = Arena.greatest (offers.map (arena.expected (arena.value n) x))
  attained : ∀ a ∈ actions, ∃ offer ∈ offers, offer.action = a ∧
    arena.expected (arena.value n) x offer = best.value

/-- Without caches, `optimize` finds the best actions. -/
theorem outcome_optimize (h : x.Regular) (hne : x.game.state.endgameTurns ≠ 0) {offers : List Offer}
    (hoffers : ∀ offer ∈ offers, OfferOk x.game x.turn offer) (hs : Uncached s)
    (ih : ∀ x' : Position κ, x'.Regular → depthBound x'.game.state < depthBound x.game.state →
      ∃ results, Valued n x' results) :
    ∃ best actions s', Uncached s' ∧ BestOf n x offers best actions ∧
      Prog.exec (optimize x.conv (winnable x.conv n) x.next (x.hypoGames offers) offers 0 []) s =
        (.ok (best, actions), s') := by
  have hoffered := fun offer ho => offered_outlook (n := n) h hne ho (hoffers offer ho)
  have hstart : (outlook n x).Best (x.hypoGames offers) [] 0 [] :=
    ⟨Fraction.pos_zero, by simp, by simp, Or.inl ⟨rfl, Fraction.value_zero⟩, by simp⟩
  obtain ⟨best, actions, hbest, hgreat⟩ := Outlook.optimize_best hs.2 hoffered hstart
  rw [List.nil_append] at hgreat
  have hrate : ∀ offer ∈ offers, (outlook n x).rate (x.hypoGames offers) offer =
      arena.expected (arena.value n) x offer := fun offer ho =>
    rate_eq h hne ho (hoffers offer ho) ih
  have hnonneg : 0 ≤ best.value := by
    obtain ⟨-, hzero⟩ | ⟨offer, ho, hreached⟩ := hgreat.reached
    · exact hzero.ge
    · exact hreached ▸ Outlook.rate_nonneg (hoffered offer ho)
  obtain (⟨e, he, -⟩ | ⟨e, he, -⟩) | ⟨heq, hkeep, -⟩ :=
    agree_optimize_outlook h hne hoffers ih s s ⟨hs, hs⟩
  · exact he.elim
  · exact he.elim
  have hfst : (Prog.exec (optimize x.conv (outlook n x).search x.next (x.hypoGames offers) offers 0
      []) s).1 = .ok (best, actions) := congrArg Prod.fst hbest
  refine ⟨best, actions, _, hkeep, ⟨⟨hgreat.pos, hnonneg, hgreat.le_one⟩, ?_, ?_⟩,
    Prod.ext (heq.trans hfst) rfl⟩
  · refine le_antisymm ?_ ?_
    · obtain ⟨-, hzero⟩ | ⟨offer, ho, hreached⟩ := hgreat.reached
      · exact hzero.le.trans (Arena.greatest_nonneg _)
      · rw [← hreached, hrate offer ho]
        exact Arena.le_greatest (List.mem_map_of_mem ho)
    · obtain hzero | hmem := Arena.greatest_mem (offers.map (arena.expected (arena.value n) x))
      · rw [hzero]
        exact hnonneg
      · obtain ⟨offer, ho, heq⟩ := List.mem_map.1 hmem
        rw [← heq, ← hrate offer ho]
        exact hgreat.bound offer ho
  · intro a ha
    obtain ⟨offer, ho, haction, hattained⟩ := hgreat.attained a ha
    exact ⟨offer, ho, haction, (hrate offer ho).symm.trans hattained⟩

/-- Remembering the results does not change them. -/
theorem outcome_remember {m : SolverM (List BestAction × Bool)} :
    (Prog.exec (m >>= x.remember) s).1 = (Prog.exec m s).1.map Prod.fst := by
  rw [Prog.exec_bind]
  rcases Prog.exec m s with ⟨r, s'⟩
  cases r with
  | error e => rfl
  | ok r =>
    dsimp only
    rw [Position.remember]
    split <;> rfl

theorem outcome_search (hs : Uncached s) :
    (Prog.exec (x.search (n + 1)) s).1 =
      (Prog.exec (x.weigh (winnable x.conv n)) s).1.map Prod.fst := by
  rw [x.exec_search_succ, x.found_uncached hs]
  exact outcome_remember

/-- A position that is settled is valued at sight. -/
theorem valued_settled (h : x.Regular) {q : ℚ} (hq : x.settled = some q) :
    ∃ results, Valued (n + 1) x results := by
  have hvalue : arena.value (n + 1) x = q := by
    rw [Arena.value, show arena.settled x = some q from hq, Option.getD_some]
  have hdealt : ¬ x.game.dealt = false := by simp [h.sane.dealt]
  rw [Position.settled] at hq
  cases htrivial : triviallyWinnable x.conv x.game x.turn with
  | some action =>
    rw [htrivial] at hq
    obtain rfl : 1 = q := by simpa using hq
    refine ⟨[⟨action, 1⟩], fun s hs => ?_, by simp, ?_, ?_, ?_⟩
    · rw [outcome_search hs, Position.weigh, if_neg hdealt, htrivial]
      rfl
    · simp [isRate_one]
    · simp [hvalue]
    · rintro r hr a ha
      rw [List.mem_singleton.1 hr] at ha
      exact .inl (htrivial.trans (congrArg some ha))
  | none =>
    rw [htrivial] at hq
    split at hq
    · rename_i hsome
      simp at hsome
    · split at hq
      · rename_i hlost
        cases hq
        refine ⟨failure, fun s hs => ?_, by simp [failure], by simp [failure, isRate_zero],
          by simp [failure, hvalue], by simp [failure]⟩
        rw [outcome_search hs, Position.weigh, if_neg hdealt, htrivial]
        dsimp only
        rw [Prog.exec_bind, exec_timedOut hs.2]
        dsimp only
        rw [if_neg Bool.false_ne_true, if_pos hlost]
        rfl
      · cases hq

/-- Without caches, the search ends alike from all states. -/
theorem outcome_uncached (x : Position κ) (n : ℕ) (hs : Uncached s) :
    (Prog.exec (x.search n) s).1 = (Prog.exec (x.search n) { caching := false }).1 ∧
      Uncached (Prog.exec (x.search n) s).2 := by
  obtain (⟨e, he, -⟩ | ⟨e, he, -⟩) | ⟨heq, hkeep, -⟩ := agree_search_alike (F := fun _ => False) n
    (.refl x) s { caching := false } ⟨hs, rfl, rfl⟩
  · exact he.elim
  · exact he.elim
  · exact ⟨heq, hkeep⟩

/-- Some result is returned, if any are, and all are rates. -/
theorem Position.Regular.results_ok (h : x.Regular) (hdepth : depthBound x.game.state < n)
    (hexec : (Prog.exec (x.search n) { caching := false }).1 = .ok results) :
    results ≠ [] ∧ ∀ r ∈ results, IsRate r.winrate := by
  have hspec := @winnable_spec _ _ True h.lawful h.fair n x.game x.turn x.remaining h.sane h.turn_lt
    h.counted hdepth
  obtain ⟨⟨hnil, hrate⟩, -⟩ := hspec.exec_ok (s := { caching := false }) (by simp [Sound]) hexec
  refine ⟨fun hempty => ?_, hrate⟩
  have hlate := hnil trivial hempty
  have hclock := (outcome_uncached x n (s := { caching := false }) ⟨rfl, rfl⟩).2.2
  have := hclock.symm.trans hlate
  cases this

/-- A position that is explored is valued by the positions after it. -/
theorem valued_explored (h : x.Regular) (hopen : x.settled = none)
    (hdepth : depthBound x.game.state < n + 1)
    (ih : ∀ x' : Position κ, x'.Regular → depthBound x'.game.state < depthBound x.game.state →
      ∃ results, Valued n x' results) :
    ∃ results, Valued (n + 1) x results := by
  have hx := h.explored hopen
  have hvalue : arena.value (n + 1) x =
      Arena.greatest (x.offered.map (arena.expected (arena.value n) x)) := by
    rw [Arena.value, show arena.settled x = none from hopen, Option.getD_none]
    rfl
  have hempty : Uncached { caching := false } := ⟨rfl, rfl⟩
  obtain ⟨hoffers, hkeep, hok, -⟩ := h.exec_offers hx.inProgress x.remaining hempty
  change ∀ offer ∈ x.offered, OfferOk x.game x.turn offer at hok
  obtain ⟨best, actions, s', -, hbest, hrun⟩ := outcome_optimize h hx.inProgress hok hkeep ih
  have hsearch : (Prog.exec (x.search (n + 1)) { caching := false }).1 =
      .ok (if x.offered.isEmpty then failure else actions.map fun a => ⟨some a, best⟩) := by
    rw [outcome_search hempty, Position.weigh, if_neg (by simp [hx.dealt]), hx.untrivial]
    dsimp only
    rw [Prog.exec_bind, exec_timedOut rfl]
    dsimp only
    rw [if_neg Bool.false_ne_true, if_neg (by simp [hx.winnable, hx.kept]), Prog.exec_bind]
    revert hrun
    rcases hout : Prog.exec (x.offers x.remaining) { caching := false } with ⟨r, t⟩
    rw [hout] at hoffers
    obtain rfl : r = .ok x.offered := hoffers
    intro hrun
    dsimp only
    split
    · rfl
    · rw [Prog.exec_bind]
      rw [hrun]
      rfl
  obtain ⟨hne, hrates⟩ := h.results_ok hdepth hsearch
  refine ⟨_, fun s hs => (outcome_uncached x _ hs).1.trans hsearch, hne, hrates, ?_, ?_⟩
  · intro r hr
    rw [hvalue]
    split at hr
    · rename_i hnone
      rw [List.isEmpty_iff.1 hnone]
      rw [failure, List.mem_singleton] at hr
      rw [hr]
      exact Fraction.value_zero
    · obtain ⟨a, -, rfl⟩ := List.mem_map.1 hr
      exact hbest.value_eq
  · intro r hr a ha
    split at hr
    · rw [failure, List.mem_singleton] at hr
      rw [hr] at ha
      cases ha
    · obtain ⟨a', ha', rfl⟩ := List.mem_map.1 hr
      obtain rfl : a' = a := by simpa using ha
      obtain ⟨offer, ho, haction, hattained⟩ := hbest.attained a' ha'
      refine .inr ⟨offer, ho, haction, ?_⟩
      rw [Nat.add_sub_cancel, hattained, hvalue]
      exact hbest.value_eq

/-- With enough fuel, every regular position is valued. -/
theorem exists_valued (h : x.Regular) (hdepth : depthBound x.game.state < n) :
    ∃ results, Valued n x results := by
  induction n generalizing x with
  | zero => exact absurd hdepth (Nat.not_lt_zero _)
  | succ n ih =>
    cases hopen : x.settled with
    | some q => exact valued_settled h hopen
    | none => exact valued_explored h hopen hdepth fun x' hx' hcloser => ih hx' (by omega)

/-- Without caches and in time, `winnable` returns the greatest chance of a strategy to reach a
trivially winnable position, with actions that keep it. -/
theorem winnable_isGreatest (h : x.Regular) (hdepth : depthBound x.game.state < n)
    (hs : Uncached s) :
    ∃ results, (Prog.exec (winnable x.conv n x.game x.turn x.remaining) s).1 = .ok results ∧
      results ≠ [] ∧ ∀ r ∈ results,
        IsGreatest (Set.range fun σ : arena.Strategy => σ.worth n x) r.winrate.value ∧
        ∀ a, r.action = some a → triviallyWinnable x.conv x.game x.turn = some (some a) ∨
          ∃ offer ∈ x.offered, offer.action = a ∧
            arena.expected (arena.value (n - 1)) x offer = r.winrate.value := by
  obtain ⟨results, hvalued⟩ := exists_valued h hdepth
  refine ⟨results, hvalued.exec s hs, hvalued.ne_nil, fun r hr => ?_⟩
  rw [hvalued.value_eq r hr]
  exact ⟨Arena.isGreatest_value arena_fairOn n h, hvalued.attained r hr⟩

end

/-- Bob has played blue, and red up to 3, always his newest card after a clue.  Alice has a red 4
and Bob the red 5; with a red 1 and a blue 4 in the deck, everyone knows every card. -/
def twoLeft : Game Unit :=
  let known (o : ℕ) (id : Identity) : Card :=
    { id := none
      possible := ⟨2, IdentitySet.toMask id⟩
      inferred := ⟨2, IdentitySet.toMask id⟩
      order := o }
  let cards : List (ℕ × Identity) :=
    [(0, ⟨0, 4⟩), (1, ⟨0, 1⟩), (2, ⟨0, 2⟩), (3, ⟨1, 1⟩), (4, ⟨1, 1⟩), (5, ⟨0, 5⟩), (6, ⟨0, 4⟩),
      (7, ⟨0, 3⟩), (8, ⟨1, 2⟩), (17, ⟨1, 3⟩)]
  let player : Player :=
    { playerIndex := none
      thoughts := cards.foldl (fun thoughts (o, id) => thoughts.set o (known o id)) .empty
      allPossible := .full 2
      allInferred := .full 2 }
  { state :=
      { State.fresh redBlue 2 0 {} with
        clueTokens := 1
        hands := fun p => if p = 0 then [4, 3, 2, 1, 0] else [17, 8, 7, 6, 5]
        deck := cards.foldl (fun deck (o, id) => deck.set o ⟨some id⟩) .empty
        playStacks := fun suit => if suit = 0 then 3 else 5
        cardsLeft := 2
        cardOrder := 17 }
    players := fun _ => player
    common := player
    deckIds := .empty
    data := () }

/-- Alice is to move. -/
def alicesTurn : Position Unit := ⟨plain, twoLeft, 0, [⟨⟨0, 1⟩, 1, false⟩, ⟨⟨1, 4⟩, 1, false⟩]⟩

theorem regular_alicesTurn : alicesTurn.Regular where
  lawful := plain_lawful
  fair := plain_fair
  returns := plain_returns
  sane := ⟨by decide +kernel, ⟨by decide +kernel, by decide +kernel, by decide +kernel⟩,
    ⟨by decide +kernel, by decide +kernel⟩⟩
  turn_lt := by decide
  counted := ⟨by decide, .inr (by decide)⟩

theorem winnable_alicesTurn :
    (Prog.exec (alicesTurn.search 33) { caching := false }).1 = .ok [⟨some (.play 0 0), 1⟩] := by
  decide +kernel

/-- She plays the red 4, and whatever she draws, Bob plays the red 5. -/
theorem winnable_isGreatest_alicesTurn :
    IsGreatest (Set.range fun σ : (@arena Unit).Strategy => σ.worth 33 alicesTurn) 1 := by
  obtain ⟨results, hok, -, hgreatest⟩ := winnable_isGreatest regular_alicesTurn (n := 33)
    (by decide +kernel) (s := { caching := false }) ⟨rfl, rfl⟩
  obtain rfl := Except.ok.inj (winnable_alicesTurn.symm.trans hok)
  simpa using (hgreatest _ List.mem_cons_self).1

section

variable {x : Position κ} {n : ℕ} {results : List BestAction} {s : SolverState}

/-- A winrate that is not 0 comes with legal actions and draws to a trivially winnable position. -/
theorem winnable_line (h : x.Regular) (hdepth : depthBound x.game.state < n) (hs : Uncached s)
    (hok : (Prog.exec (winnable x.conv n x.game x.turn x.remaining) s).1 = .ok results)
    {r : BestAction} (hr : r ∈ results) (hpos : r.winrate.value ≠ 0) :
    ∃ offers y, offers.length ≤ n ∧ arena.Line x offers y ∧ y.Regular ∧
      (triviallyWinnable y.conv y.game y.turn).isSome := by
  obtain ⟨results', hvalued⟩ := exists_valued h hdepth
  obtain rfl : results' = results := Except.ok.inj ((hvalued.exec s hs).symm.trans hok)
  have hvalue := hvalued.value_eq r hr
  have hlt : 0 < arena.value n x := by
    rw [← hvalue]
    exact lt_of_le_of_ne (hvalued.rate r hr).nonneg hpos.symm
  obtain ⟨offers, y, q, hlen, hline, hy, hq, hq0⟩ := Arena.exists_line_of_pos arena_fairOn h hlt
  refine ⟨offers, y, hlen, hline, hy, ?_⟩
  change y.settled = some q at hq
  rw [Position.settled] at hq
  split at hq
  · assumption
  · split at hq
    · cases hq
      exact absurd hq0 (lt_irrefl _)
    · cases hq

end

/-- From Alice's turn, it is the play that leads there. -/
theorem winnable_line_alicesTurn : ∃ offers y, offers.length ≤ 33 ∧
    arena.Line alicesTurn offers y ∧ y.Regular ∧ (triviallyWinnable y.conv y.game y.turn).isSome :=
  winnable_line regular_alicesTurn (by decide +kernel) (s := { caching := false }) ⟨rfl, rfl⟩
    winnable_alicesTurn List.mem_cons_self (by simp)

end HanabiBot.Endgame
