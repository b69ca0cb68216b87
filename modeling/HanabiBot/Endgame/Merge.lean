import HanabiBot.Endgame.Arrange

/-!
# Merging the arrangements

`solve_game` credits every best action of an arrangement with the winrate of the
arrangement times its probability, and returns the action with the most credit.

* `searchAll_eq` — the loop searches all arrangements, and then credits;
* `winrateOf_creditMany` — the credit of an action;
* `bestOf_spec` — what the search of one arrangement returns.
-/

namespace HanabiBot.Endgame

variable {κ : Type} {conv : Convention κ}

/-! ## Credits -/

/-- The winrate with which an action is credited. -/
def Performs.winrateOf (performs : Performs) (a : PerformAction) : ℚ :=
  ((performs.filter fun entry => entry.1 = a).map fun entry => entry.2.value).sum

/-- Entries with one fraction for each action. -/
structure Performs.Ok (performs : Performs) : Prop where
  nodup : (performs.map Prod.fst).Nodup
  pos : ∀ entry ∈ performs, entry.2.Pos

theorem Performs.winrateOf_cons (entry : PerformAction × Fraction) (performs : Performs)
    (a : PerformAction) : winrateOf (entry :: performs) a =
      (if entry.1 = a then entry.2.value else 0) + winrateOf performs a := by
  by_cases h : entry.1 = a <;> simp [winrateOf, h]

theorem Performs.winrateOf_eq_zero {performs : Performs} {a : PerformAction}
    (h : a ∉ performs.map Prod.fst) : winrateOf performs a = 0 := by
  have hnil : performs.filter (fun entry => entry.1 = a) = [] := by
    rw [List.filter_eq_nil_iff]
    intro entry he ha
    exact h (List.mem_map.2 ⟨entry, he, by simpa using ha⟩)
  rw [winrateOf, hnil]
  rfl

/-- An entry holds the credit of its action. -/
theorem Performs.Ok.winrateOf_eq {performs : Performs} (h : performs.Ok)
    {entry : PerformAction × Fraction} (he : entry ∈ performs) :
    performs.winrateOf entry.1 = entry.2.value := by
  induction performs with
  | nil => cases he
  | cons first performs ih =>
    have hnodup := List.nodup_cons.1 h.nodup
    rw [winrateOf_cons]
    rcases List.mem_cons.1 he with rfl | he
    · rw [if_pos rfl, winrateOf_eq_zero hnodup.1, add_zero]
    · have hne : first.1 ≠ entry.1 := fun heq =>
        hnodup.1 (heq ▸ List.mem_map_of_mem he)
      rw [if_neg hne, zero_add]
      exact ih ⟨hnodup.2, fun x hx => h.pos x (List.mem_cons_of_mem _ hx)⟩ he

section

variable {performs : Performs} {w : Fraction}

theorem Performs.keys_credit (performs : Performs) (a : PerformAction) (w : Fraction) :
    (credit performs a w).map Prod.fst =
      if a ∈ performs.map Prod.fst then performs.map Prod.fst
      else performs.map Prod.fst ++ [a] := by
  induction performs with
  | nil => rfl
  | cons entry performs ih =>
    rw [credit]
    by_cases h : entry.1 = a
    · simp [h]
    · rw [if_neg h, List.map_cons, ih]
      have h' : a ≠ entry.1 := fun heq => h heq.symm
      by_cases hmem : a ∈ performs.map Prod.fst
      · rw [if_pos hmem, if_pos (by simpa using Or.inr hmem), List.map_cons]
      · rw [if_neg hmem, if_neg (by simpa [h'] using hmem), List.map_cons, List.cons_append]

theorem Performs.Ok.credit (h : performs.Ok) (hw : w.Pos) (a : PerformAction) :
    (performs.credit a w).Ok := by
  constructor
  · rw [keys_credit]
    split
    · exact h.nodup
    · rename_i hmem
      exact List.nodup_append.2 ⟨h.nodup, List.nodup_singleton a, fun x hx y hy => by
        rw [List.mem_singleton.1 hy]
        rintro rfl
        exact hmem hx⟩
  · have hpos := h.pos
    clear h
    induction performs with
    | nil =>
      intro entry he
      rw [List.mem_singleton.1 he]
      exact hw
    | cons first performs ih =>
      intro entry he
      rw [Performs.credit] at he
      split at he
      · rcases List.mem_cons.1 he with rfl | he
        · exact (hpos first List.mem_cons_self).plus hw
        · exact hpos entry (List.mem_cons_of_mem _ he)
      · rcases List.mem_cons.1 he with rfl | he
        · exact hpos _ List.mem_cons_self
        · exact ih (fun x hx => hpos x (List.mem_cons_of_mem _ hx)) entry he

theorem Performs.winrateOf_credit (h : ∀ entry ∈ performs, entry.2.Pos) (hw : w.Pos)
    (a b : PerformAction) :
    (performs.credit a w).winrateOf b = performs.winrateOf b + if a = b then w.value else 0 := by
  induction performs with
  | nil =>
    rw [credit, winrateOf_cons, add_comm]
  | cons first performs ih =>
    rw [credit]
    split
    · rename_i hfirst
      rw [winrateOf_cons, winrateOf_cons, hfirst,
        Fraction.value_plus (h first List.mem_cons_self) hw]
      split <;> ring
    · rw [winrateOf_cons, winrateOf_cons, ih fun x hx => h x (List.mem_cons_of_mem _ hx), add_assoc]

/-- Crediting several actions, an action as often as it is listed. -/
theorem Performs.creditList (h : performs.Ok) (hw : w.Pos) (acts : List PerformAction) :
    (acts.foldl (fun performs a => performs.credit a w) performs).Ok ∧
      ∀ b, (acts.foldl (fun performs a => performs.credit a w) performs).winrateOf b =
        performs.winrateOf b + acts.count b * w.value := by
  induction acts generalizing performs with
  | nil => exact ⟨h, fun b => by simp⟩
  | cons a acts ih =>
    obtain ⟨h1, h2⟩ := ih (h.credit hw a)
    refine ⟨h1, fun b => ?_⟩
    rw [List.foldl_cons, h2, winrateOf_credit h.pos hw, List.count_cons]
    by_cases hab : a = b
    · simp only [hab, if_true, beq_self_eq_true]
      push_cast
      ring
    · simp [hab]

end

/-- An arrangement, and the winrate and best actions found for it. -/
abbrev Outcome (κ : Type) := ArrangedGame κ × Fraction × List PerformAction

/-- The credits for all outcomes. -/
def creditMany (performs : Performs) (outcomes : List (Outcome κ)) : Performs :=
  outcomes.foldl (fun performs outcome => creditAll performs outcome.1.prob outcome.2) performs

/-- The credit of an action for an outcome. -/
def creditOf (a : PerformAction) (outcome : Outcome κ) : ℚ :=
  outcome.2.2.count a * (outcome.2.1.value * outcome.1.prob.value)

theorem winrateOf_creditMany {outcomes : List (Outcome κ)}
    (hpos : ∀ outcome ∈ outcomes, outcome.1.prob.Pos ∧ outcome.2.1.Pos) {performs : Performs}
    (h : performs.Ok) :
    (creditMany performs outcomes).Ok ∧ ∀ a, (creditMany performs outcomes).winrateOf a =
      performs.winrateOf a + (outcomes.map (creditOf a)).sum := by
  induction outcomes generalizing performs with
  | nil => exact ⟨h, fun a => by simp [creditMany]⟩
  | cons outcome outcomes ih =>
    obtain ⟨hprob, hbest⟩ := hpos outcome List.mem_cons_self
    have hrest := @ih fun x hx => hpos x (List.mem_cons_of_mem _ hx)
    rw [creditMany, List.foldl_cons, creditAll]
    split
    · obtain ⟨h1, h2⟩ := Performs.creditList h (hbest.multiply hprob) outcome.2.2
      obtain ⟨h3, h4⟩ := hrest h1
      refine ⟨h3, fun a => ?_⟩
      rw [← creditMany, h4, h2, Fraction.value_multiply hbest hprob, List.map_cons, List.sum_cons,
        creditOf, add_assoc]
    · rename_i hzero
      obtain ⟨h3, h4⟩ := hrest h
      refine ⟨h3, fun a => ?_⟩
      have : outcome.2.1.value = 0 := by
        rw [Fraction.value, not_not.1 hzero]
        simp
      rw [← creditMany, h4, List.map_cons, List.sum_cons, creditOf, this]
      ring

/-- Only best actions are credited. -/
theorem keys_creditMany {outcomes : List (Outcome κ)} {performs : Performs} {a : PerformAction}
    (h : a ∈ (creditMany performs outcomes).map Prod.fst) :
    a ∈ performs.map Prod.fst ∨ ∃ outcome ∈ outcomes, a ∈ outcome.2.2 := by
  have hlist : ∀ (acts : List PerformAction) (w : Fraction) (performs : Performs),
      a ∈ (acts.foldl (fun performs a => performs.credit a w) performs).map Prod.fst →
      a ∈ performs.map Prod.fst ∨ a ∈ acts := by
    intro acts w
    induction acts with
    | nil => exact fun _ => Or.inl
    | cons b acts ih =>
      intro performs h
      rcases ih _ h with h | h
      · rw [Performs.keys_credit] at h
        split at h
        · exact Or.inl h
        · rcases List.mem_append.1 h with h | h
          · exact Or.inl h
          · exact Or.inr (List.mem_singleton.1 h ▸ List.mem_cons_self)
      · exact Or.inr (List.mem_cons_of_mem b h)
  induction outcomes generalizing performs with
  | nil => exact Or.inl h
  | cons outcome outcomes ih =>
    rw [creditMany, List.foldl_cons] at h
    rcases ih h with h | ⟨x, hx, hax⟩
    · rw [creditAll] at h
      split at h
      · exact (hlist _ _ _ h).imp_right fun h => ⟨outcome, List.mem_cons_self, h⟩
      · exact Or.inl h
    · exact Or.inr ⟨x, List.mem_cons_of_mem _ hx, hax⟩

/-! ## The loop over the arrangements -/

/-- The loop searches all arrangements, and then credits. -/
theorem searchAll_eq (rem : RemainingSet) (p : ℕ) (arrs : List (ArrangedGame κ))
    (performs : Performs) : searchAll conv rem p arrs performs = (do
      let bests ← arrs.mapM (bestOf conv rem p)
      pure (creditMany performs (arrs.zip bests))) := by
  induction arrs generalizing performs with
  | nil => rfl
  | cons arr arrs ih =>
    rw [searchAll, List.mapM_cons]
    simp only [ih, bind_assoc, pure_bind]
    rfl

/-- A game to search, as an arrangement of a game in the state `st`. -/
structure ArrangedOk (st : State) (p : ℕ) (arr : ArrangedGame κ) : Prop where
  sane : Sane arr.hypoGame p
  inProgress : arr.hypoGame.state.endgameTurns ≠ 0
  player_lt : p < arr.hypoGame.state.numPlayers
  counted : Counted arr.remaining arr.hypoGame.state.cardsLeft
  numPlayers_eq : arr.hypoGame.state.numPlayers = st.numPlayers
  hands_eq : arr.hypoGame.state.hands = st.hands
  clueTokens_eq : arr.hypoGame.state.clueTokens = st.clueTokens
  prob_pos : arr.prob.Pos

/-- The best actions of an arrangement are legal in the game that is arranged. -/
theorem bestOf_spec {strict : Prop} (hlaw : conv.Lawful) (hfair : Fair conv) {rem : RemainingSet}
    {p : ℕ} {st : State} {arr : ArrangedGame κ} (h : ArrangedOk st p arr) :
    Prog.Sat (Sound strict) (fun e => strict → Excused conv e) (bestOf conv rem p arr) fun best =>
      IsRate best.1 ∧ best.2.Sublist (candidates conv arr.hypoGame p) ∧
        ∀ a ∈ best.2, Legal st p a := by
  rw [bestOf]
  refine stable_sound.timedOut.bind fun late _ => ?_
  split
  · exact Prog.Sat.throw fun _ => .inl ⟨_, rfl⟩
  · refine Prog.Sat.bind ((possibleActions_spec stable_sound hfair h.sane h.inProgress).conseq
      (fun _ => id) (fun _ _ => id) fun _ _ he => ⟨fun _ => .inl he.1, he.2⟩)
      fun offers ⟨hoffers, hsub⟩ => ?_
    have hsearch : SearchOk conv strict (winnable conv (depthBound arr.hypoGame.state + 1)) _ :=
      winnable_spec hlaw hfair _
    refine (optimizeFrom_spec hlaw (fun g p rem h1 h2 h3 h4 => hsearch g p rem h1 h2 h3 (by omega))
      h.sane h.inProgress h.player_lt h.counted hoffers).conseq (fun _ => id)
      (fun best s hs => ⟨⟨hs.1.rate, hs.1.offered.trans hsub, fun a ha => ?_⟩, hs.2⟩) fun _ _ => id
    obtain ⟨offer, ho, rfl⟩ := List.mem_map.1 (hs.1.offered.subset ha)
    have hlegal := (hoffers offer ho).legal
    revert hlegal
    cases offer.action <;>
      simp only [Legal, h.hands_eq, h.clueTokens_eq, h.numPlayers_eq] <;> exact id

end HanabiBot.Endgame
