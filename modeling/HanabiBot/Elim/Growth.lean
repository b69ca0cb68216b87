import HanabiBot.Basics.Reset
import HanabiBot.Elim.CardElim
import HanabiBot.Lib.Yields

/-!
# What an elimination leaves behind

`card_elim` only ever takes identities out of cards.  `Grows state s t` relates the
variables before and after any part of it: the writes and the losses go up, what is
possible goes down, the cards that are not in hand stay, and without a write the
cards, the certain map and the candidates stay as they are.

* `Steps` — the same for a part of a removal;
* `updateMap_grows`, `endgameHand_grows` — a whole removal, and a hand in the final round;
* `cardElim_narrows` — what `card_elim` leaves of the thoughts of a player, true or not.
-/

namespace HanabiBot

namespace CardElim

open Except (Yields)

variable {player : Player} {state : State}

theorem mem_handCards {c : ℕ × ℕ} :
    c ∈ handCards state ↔ c.2 < state.numPlayers ∧ c.1 ∈ state.hands c.2 := by
  obtain ⟨o, i⟩ := c
  simp only [handCards, List.mem_flatMap, List.mem_range, List.mem_map, Prod.mk.injEq]
  constructor
  · rintro ⟨j, hj, o', ho', rfl, rfl⟩
    exact ⟨hj, ho'⟩
  · rintro ⟨hi, ho⟩
    exact ⟨i, hi, o, ho, rfl, rfl⟩

theorem mem_allOrders_of_handCards {c : ℕ × ℕ} (hc : c ∈ handCards state) :
    c.1 ∈ state.allOrders := by
  obtain ⟨hi, ho⟩ := mem_handCards.1 hc
  exact State.mem_allOrders.2 ⟨c.2, hi, ho⟩

/-! ## Growth -/

/-- What any part of an elimination does to the variables. -/
structure Grows (state : State) (s t : ElimVars) : Prop where
  writes : s.writes ≤ t.writes
  losses : t.losses = [] → s.losses = []
  eliminated : ∀ id, s.eliminated.has id = true → t.eliminated.has id = true
  numSuits : ∀ o, (t.thoughts o).possible.numSuits = (s.thoughts o).possible.numSuits
  shrinks : ∀ o, (t.thoughts o).possible.Subset (s.thoughts o).possible
  outside : ∀ o, o ∉ state.allOrders → t.thoughts o = s.thoughts o
  same : t.writes = s.writes → t.thoughts = s.thoughts ∧ t.certainMap = s.certainMap ∧
    t.crossElimCandidates = s.crossElimCandidates

variable {s t r : ElimVars}

theorem Grows.refl (state : State) (s : ElimVars) : Grows state s s :=
  ⟨le_rfl, id, fun _ h => h, fun _ => rfl, fun _ => IdentitySet.Subset.refl _, fun _ _ => rfl,
    fun _ => ⟨rfl, rfl, rfl⟩⟩

theorem Grows.trans (hst : Grows state s t) (htr : Grows state t r) : Grows state s r := by
  refine ⟨hst.writes.trans htr.writes, fun h => hst.losses (htr.losses h),
    fun id h => htr.eliminated id (hst.eliminated id h),
    fun o => (htr.numSuits o).trans (hst.numSuits o), fun o => (htr.shrinks o).trans (hst.shrinks o),
    fun o ho => (htr.outside o ho).trans (hst.outside o ho), fun h => ?_⟩
  have hle := hst.writes
  have hle' := htr.writes
  obtain ⟨hthoughts, hcertain, hcandidates⟩ := hst.same (by omega)
  obtain ⟨hthoughts', hcertain', hcandidates'⟩ := htr.same (by omega)
  exact ⟨hthoughts'.trans hthoughts, hcertain'.trans hcertain, hcandidates'.trans hcandidates⟩

theorem losses_of_note {lost : Bool} {loss : Loss} (h : (s.note lost loss).losses = []) :
    s.losses = [] ∧ lost = false := by
  unfold ElimVars.note at h
  cases lost with
  | true => simp at h
  | false => exact ⟨h, rfl⟩

theorem Grows.note (state : State) (s : ElimVars) (lost : Bool) (loss : Loss) :
    Grows state s (s.note lost loss) :=
  ⟨le_rfl, fun h => (losses_of_note h).1, fun _ h => h, fun _ => rfl,
    fun _ => IdentitySet.Subset.refl _, fun _ _ => rfl, fun _ => ⟨rfl, rfl, rfl⟩⟩

/-- An identity that is noted as eliminated. -/
theorem Grows.eliminate (state : State) (s : ElimVars) (id : Identity) :
    Grows state s (s.eliminate id) := by
  refine ⟨le_rfl, fun h => h, fun id h => ?_, fun _ => rfl, fun _ => IdentitySet.Subset.refl _,
    fun _ _ => rfl, fun _ => ⟨rfl, rfl, rfl⟩⟩
  rw [ElimVars.eliminate, IdentitySet.has_union, h, Bool.true_or]

/-- A card in hand is written, with fewer possibilities. -/
theorem Grows.write {o : ℕ} (ho : o ∈ state.allOrders) (s : ElimVars) {card : Card}
    (hsuits : card.possible.numSuits = (s.thoughts o).possible.numSuits)
    (hcard : card.possible.Subset (s.thoughts o).possible) : Grows state s (s.write o card) := by
  refine ⟨Nat.le_succ _, fun h => h, fun _ h => h, fun o' => ?_, fun o' => ?_, fun o' ho' => ?_,
    fun h => ?_⟩
  · by_cases h : o' = o
    · subst h
      simpa [ElimVars.write] using hsuits
    · simp [ElimVars.write, h]
  · by_cases h : o' = o
    · subst h
      simpa [ElimVars.write] using hcard
    · simpa [ElimVars.write, h] using IdentitySet.Subset.refl _
  · have hne : o' ≠ o := by
      rintro rfl
      exact ho' ho
    simp [ElimVars.write, hne]
  · exact absurd h (by simp [ElimVars.write])

/-! ## Removals -/

/-- The steps of a removal: without a write nothing changes at all. -/
structure Steps (state : State) (u u' : UpdateVars) : Prop where
  grows : Grows state u.vars u'.vars
  same : u'.vars.writes = u.vars.writes → u' = u

variable {u u' : UpdateVars}

theorem Steps.refl (state : State) (u : UpdateVars) : Steps state u u :=
  ⟨.refl state _, fun _ => rfl⟩

theorem Steps.trans {u'' : UpdateVars} (h : Steps state u u') (h' : Steps state u' u'') :
    Steps state u u'' := by
  refine ⟨h.grows.trans h'.grows, fun heq => ?_⟩
  have hle := h.grows.writes
  have hle' := h'.grows.writes
  rw [h'.same (by omega), h.same (by omega)]

theorem writes_settle (order : ℕ) (card updated : Card) (u : UpdateVars) :
    (settle state order card updated u).vars.writes = u.vars.writes + 1 := by
  unfold settle
  dsimp only
  split
  · rfl
  split
  · split <;> rfl
  · rfl

theorem removeId_subset (card : Card) (id : Identity) :
    (removeId card id).possible.Subset card.possible :=
  IdentitySet.subtract_subset _ _

theorem settle_grows {o : ℕ} (ho : o ∈ state.allOrders) (id : Identity) (u : UpdateVars) :
    Grows state u.vars
      (settle state o (u.vars.thoughts o) (removeId (u.vars.thoughts o) id) u).vars := by
  have hsub := removeId_subset (u.vars.thoughts o) id
  have hsuits : (removeId (u.vars.thoughts o) id).possible.numSuits =
      (u.vars.thoughts o).possible.numSuits := rfl
  have hwrite := Grows.write ho u.vars hsuits hsub
  unfold settle
  dsimp only
  split
  · have hreset := Card.resetInferences_possible (removeId (u.vars.thoughts o) id)
    exact ((Grows.write ho u.vars (by rw [hreset, hsuits]) (by rwa [hreset])).trans (.note state _ _ _)).trans (.note state _ _ _)
  split
  · split
    · refine ⟨hwrite.writes, hwrite.losses, hwrite.eliminated, hwrite.numSuits, hwrite.shrinks,
        hwrite.outside,
        fun h => absurd h ?_⟩
      simp [ElimVars.certify, ElimVars.write]
    · exact hwrite
  · exact hwrite.trans (.note state _ _ _)

theorem updateCard_of_noElim {id : Identity} {exclude : List ℕ} {c : ℕ × ℕ}
    (h : noElim state u.vars id exclude c = true) :
    updateCard player state id exclude u c = .ok u := by
  unfold updateCard
  rw [if_pos h]

/-- A card that is not passed over is left with no possibility, or it is written. -/
theorem updateCard_of_elim {id : Identity} {exclude : List ℕ} {c : ℕ × ℕ}
    (h : noElim state u.vars id exclude c = false) :
    (updateCard player state id exclude u c).Yields fun u' =>
      (removeId (u.vars.thoughts c.1) id).possible.length ≠ 0 ∧
        u' = settle state c.1 (u.vars.thoughts c.1) (removeId (u.vars.thoughts c.1) id)
          { u with changed := true } := by
  intro u' hu'
  unfold updateCard at hu'
  simp only [h, Bool.false_eq_true, if_false] at hu'
  split at hu'
  · cases hu'
  · rename_i hne
    cases hu'
    exact ⟨hne, rfl⟩

theorem updateCard_steps {id : Identity} {exclude : List ℕ} {c : ℕ × ℕ} (hc : c ∈ handCards state)
    (u : UpdateVars) : (updateCard player state id exclude u c).Yields (Steps state u) := by
  cases h : noElim state u.vars id exclude c with
  | true =>
    rw [updateCard_of_noElim h]
    exact .pure (.refl state u)
  | false =>
    refine (updateCard_of_elim h).mono fun u' hu' => ?_
    have hwrites := @writes_settle state c.1 (u.vars.thoughts c.1)
      (removeId (u.vars.thoughts c.1) id) { u with changed := true }
    rw [hu'.2]
    refine ⟨settle_grows (mem_allOrders_of_handCards hc) id { u with changed := true }, fun h => ?_⟩
    rw [hwrites] at h
    exact absurd h (by simp)

theorem dropRemovals_of_nil (h : u.crossElimRemovals = []) : u.dropRemovals = u := by
  obtain ⟨vars, changed, recursiveIds, removals⟩ := u
  subst h
  simp [UpdateVars.dropRemovals]

theorem foldlM_updateCard_steps (id : Identity) (exclude : List ℕ) (u : UpdateVars) :
    ((handCards state).foldlM (updateCard player state id exclude) u).Yields (Steps state u) :=
  Yields.foldlM (.refl state u) fun _ hc _ hu' =>
    (updateCard_steps hc _).mono fun _ hu'' => hu'.trans hu''

/-- A removal that writes nothing changes nothing. -/
theorem updateMap_grows (id : Identity) (exclude : List ℕ) (s : ElimVars) :
    (updateMap player state id exclude s).Yields fun u =>
      Grows state s u.vars ∧ (u.vars.writes = s.writes → u = { vars := s }) := by
  refine Yields.map ((foldlM_updateCard_steps id exclude { vars := s }).mono fun u hu => ?_)
  have hsame : u.vars.writes = s.writes → u.dropRemovals = { vars := s } := by
    intro h
    rw [hu.same h]
    exact dropRemovals_of_nil rfl
  have hgrows := hu.grows
  refine ⟨⟨hgrows.writes, hgrows.losses, hgrows.eliminated, hgrows.numSuits, hgrows.shrinks,
    hgrows.outside, fun h => ?_⟩, hsame⟩
  rw [hsame h]
  exact ⟨rfl, rfl, rfl⟩

/-! ## The closures -/

theorem elimLoop_grows : ∀ (ids : List Identity) (u : UpdateVars),
    (elimLoop player state ids u).Yields fun u' => Grows state u.vars u'.vars := by
  intro ids
  induction ids with
  | nil =>
    intro u
    exact .pure (.refl state _)
  | cons id rest ih =>
    intro u
    unfold elimLoop
    split
    · refine Yields.bind (updateMap_grows id [] _) fun u' hu' => ?_
      refine (ih u').mono fun u'' hu'' => ?_
      exact (((Grows.note state u.vars _ _).trans (.eliminate state _ id)).trans hu'.1).trans hu''
    · exact ih u

theorem basicElim_grows : ∀ (fuel : ℕ) (ids : List Identity) (s : ElimVars),
    (basicElim player state fuel ids s).Yields fun r => Grows state s r.2 := by
  intro fuel
  induction fuel with
  | zero =>
    intro ids s
    exact .error
  | succ fuel ih =>
    intro ids s
    unfold basicElim
    refine Yields.bind (elimLoop_grows ids { vars := s }) fun u hu => ?_
    split
    · exact .pure hu
    · exact Yields.map ((ih u.recursiveIds u.vars).mono fun r hr => hu.trans hr)

theorem performUpdate_grows (identities : IdentitySet) (id : Identity) (exclude : List ℕ)
    (u : UpdateVars) : (performUpdate player state identities id exclude u).Yields fun u' =>
      Grows state u.vars u'.vars :=
  Yields.map ((updateMap_grows id exclude u.vars).mono fun _ hu' => hu'.1.trans (.note state _ _ _))

theorem performGroup_grows (identities : IdentitySet) (group : Option Identity × List (ℕ × ℕ))
    (u : UpdateVars) : (performGroup player state identities u group).Yields fun u' =>
      Grows state u.vars u'.vars := by
  unfold performGroup
  split
  · exact .pure (.refl state _)
  · dsimp only
    split
    · exact .pure (.refl state _)
    · exact performUpdate_grows identities _ _ u

theorem performElim_grows (fuel : ℕ) (entries : List (ℕ × ℕ)) (identities : IdentitySet)
    (s : ElimVars) : (performElim player state fuel entries identities s).Yields fun r =>
      Grows state s r.2 := by
  unfold performElim
  have hgroups : ((entryGroups state s entries).foldlM (performGroup player state identities)
      { vars := s }).Yields fun u => Grows state s u.vars :=
    Yields.foldlM (.refl state s) fun group _ u hu =>
      (performGroup_grows identities group u).mono fun u' hu' => hu.trans hu'
  refine Yields.bind hgroups fun u hu => ?_
  have hids : (identities.array.foldlM (fun u id => performUpdate player state identities id
      (entries.map Prod.snd) u) u).Yields fun u' => Grows state s u'.vars :=
    Yields.foldlM hu fun id _ u' hu' =>
      (performUpdate_grows identities id _ u').mono fun u'' hu'' => hu'.trans hu''
  refine Yields.bind hids fun u' hu' => ?_
  exact Yields.map ((basicElim_grows fuel _ u'.vars).mono fun r hr =>
    (hu'.trans hr).trans (.note state _ _ _))

theorem genSubset_grows : ∀ (fuel : ℕ) (contained : List (ℕ × ℕ)) (accIds : IdentitySet)
    (certains : List ℕ) (nextIndex : ℕ) (s : ElimVars),
    (genSubset player state fuel contained accIds certains nextIndex s).Yields fun r =>
      Grows state s r.2 := by
  intro fuel
  induction fuel with
  | zero =>
    intro contained accIds certains nextIndex s
    exact .error
  | succ fuel ih =>
    intro contained accIds certains nextIndex s
    unfold genSubset
    dsimp only
    split
    · exact .pure (.refl state s)
    have hperform : (if contained.length ≥ 2 ∧ totalMultiplicity state accIds.array - certains.length =
        contained.length then performElim player state fuel contained accIds s
        else .ok (false, s)).Yields fun r => Grows state s r.2 := by
      split
      · exact performElim_grows fuel contained accIds s
      · exact .pure (.refl state s)
    refine Yields.bind hperform fun r hr => ?_
    split
    · exact .pure hr
    split
    · exact .pure hr
    · refine Yields.bind (ih _ _ _ _ _) fun r' hr' => ?_
      split
      · exact .pure (hr.trans hr')
      · exact (ih _ _ _ _ _).mono fun r'' hr'' => (hr.trans hr').trans hr''

theorem crossElim_grows (fuel : ℕ) (s : ElimVars) :
    (crossElim player state fuel s).Yields fun r => Grows state s r.2 := by
  unfold crossElim
  split
  · exact .pure (.refl state s)
  · exact genSubset_grows fuel _ _ _ _ s

/-! ## The final round -/

theorem endgameCard_steps {id : Identity} {o : ℕ} (ho : o ∈ state.allOrders) (u : UpdateVars) :
    Steps state u (endgameCard state id u o) := by
  unfold endgameCard
  dsimp only
  split
  · exact .refl state u
  · refine ⟨settle_grows ho id u, fun h => ?_⟩
    rw [writes_settle] at h
    exact absurd h (by simp)

theorem foldl_endgameCard_steps {id : Identity} {l : List ℕ} (hl : ∀ o ∈ l, o ∈ state.allOrders)
    (u : UpdateVars) : Steps state u (l.foldl (endgameCard state id) u) := by
  induction l generalizing u with
  | nil => exact .refl state u
  | cons o l ih =>
    exact (endgameCard_steps (hl o List.mem_cons_self) u).trans
      (ih (fun o' ho' => hl o' (List.mem_cons_of_mem o ho')) _)

theorem endgameHand_grows (id : Identity) {i : ℕ} (hi : i < state.numPlayers) (s : ElimVars) :
    Grows state s (endgameHand state id s i) := by
  have hsteps := @foldl_endgameCard_steps state id _
    (fun o ho => State.mem_allOrders.2 ⟨i, hi, ho⟩) { vars := s }
  have hgrows := hsteps.grows
  have hsame : (endgameHand state id s i).writes = s.writes → endgameHand state id s i = s := by
    intro h
    unfold endgameHand
    rw [hsteps.same h, dropRemovals_of_nil rfl]
  refine ⟨hgrows.writes, hgrows.losses, hgrows.eliminated, hgrows.numSuits, hgrows.shrinks,
    hgrows.outside, ?_⟩
  intro h
  rw [hsame h]
  exact ⟨rfl, rfl, rfl⟩

theorem endgameElim_grows (ids : List Identity) (s : ElimVars) :
    Grows state s (endgameElim player state ids s) := by
  have hfoldl : ∀ {α : Type} {f : ElimVars → α → ElimVars} {l : List α},
      (∀ a ∈ l, ∀ s, Grows state s (f s a)) → ∀ s, Grows state s (l.foldl f s) := by
    intro α f l hf
    induction l with
    | nil => exact .refl state
    | cons a l ih =>
      intro s
      exact (hf a List.mem_cons_self s).trans (ih (fun b hb => hf b (List.mem_cons_of_mem a hb)) _)
  unfold endgameElim
  split
  · exact .refl state s
  · refine hfoldl (fun id _ s => hfoldl (fun i hi s => ?_) s) s
    exact endgameHand_grows id (List.mem_range.1 (List.mem_filter.1 hi).1) s

/-! ## The driver -/

theorem cardRounds_grows (ids : List Identity) : ∀ (fuel : ℕ) (s : ElimVars),
    (cardRounds player state ids fuel s).Yields (Grows state s) := by
  intro fuel
  induction fuel with
  | zero =>
    intro s
    exact .error
  | succ fuel ih =>
    intro s
    unfold cardRounds
    refine Yields.bind (crossElim_grows fuel s) fun r hr => ?_
    split
    · exact (ih r.2).mono fun t ht => hr.trans ht
    · exact .pure ((hr.trans (endgameElim_grows ids r.2)).trans (.note state _ _ _))

/-- The candidates are the cards in hand that qualify, in their order. -/
theorem foldl_collect_candidates (l : List (ℕ × ℕ)) (s : ElimVars) :
    (l.foldl (collect player state) s).thoughts = s.thoughts ∧
      (l.foldl (collect player state) s).crossElimCandidates =
        s.crossElimCandidates ++ l.filter fun c => isCrossCandidate state (s.thoughts c.1) := by
  induction l generalizing s with
  | nil => simp
  | cons c l ih =>
    have hstep : (collect player state s c).thoughts = s.thoughts ∧
        (collect player state s c).crossElimCandidates =
          s.crossElimCandidates ++
            if isCrossCandidate state (s.thoughts c.1) then [c] else [] := by
      unfold collect
      dsimp only
      cases (s.thoughts c.1).identity { symmetric := player.playerIndex.isNone } <;> split <;>
        simp [ElimVars.certify]
    obtain ⟨hthoughts, hcandidates⟩ := ih (collect player state s c)
    rw [List.foldl_cons, hthoughts, hcandidates, hstep.1, hstep.2, List.filter_cons]
    refine ⟨rfl, ?_⟩
    split <;> simp

theorem elimThoughts_grows (fuel : ℕ) (thoughts : ℕ → Card) :
    (elimThoughts player state fuel thoughts).Yields
      (Grows state (initialVars player state thoughts)) := by
  unfold elimThoughts
  refine Yields.bind (basicElim_grows fuel _ _) fun r hr => ?_
  exact (cardRounds_grows _ fuel r.2).mono fun s hs => ((endgameElim_grows _ _).trans hr).trans hs

/-! ## Players -/

theorem get_writeThoughts (thoughts : SparseArray Card) (newThoughts : ℕ → Card) (o : ℕ) :
    (writeThoughts state thoughts newThoughts).get o =
      if o ∈ state.allOrders then some (newThoughts o) else thoughts.get o := by
  unfold writeThoughts
  induction state.allOrders generalizing thoughts with
  | nil => simp
  | cons o' l ih =>
    rw [List.foldl_cons, ih]
    by_cases ho : o ∈ l
    · simp [ho]
    · by_cases heq : o = o'
      · subst heq
        simp [ho]
      · simp [ho, heq, SparseArray.get_set_of_ne]

/-- What `card_elim` leaves of the thoughts of a player, whatever they are. -/
structure Narrows (state : State) (player after : Player) : Prop where
  numSuits : after.allPossible.numSuits = player.allPossible.numSuits
  shrinks : ∀ o card, player.thoughts.get o = some card →
    ∃ card', after.thoughts.get o = some card' ∧
      card'.possible.numSuits = card.possible.numSuits ∧ card'.possible.Subset card.possible
  /-- The cards that are not in hand stay as they are. -/
  outside : ∀ o, o ∉ state.allOrders → after.thoughts.get o = player.thoughts.get o
  /-- The cards in hand had thoughts. -/
  inHand : ∀ o ∈ state.allOrders, (player.thoughts.get o).isSome

theorem cardElim_narrows (fuel : ℕ) :
    (cardElim player state fuel).Yields fun r => Narrows state player r.1 := by
  unfold cardElim
  split
  · rename_i hthere
    rw [List.all_eq_true] at hthere
    have hinit : (initialVars player state (thoughtOf player state)).thoughts =
        thoughtOf player state := (foldl_collect_candidates (handCards state) _).1
    refine Yields.map ((elimThoughts_grows fuel _).mono fun s hs => ?_)
    refine ⟨rfl, fun o card hcard => ?_, fun o ho => ?_, hthere⟩
    · rw [get_writeThoughts]
      split
      · have hthought : thoughtOf player state o = card := by
          rw [thoughtOf, hcard]
          rfl
        have hsuits := hs.numSuits o
        have hshrinks := hs.shrinks o
        rw [hinit, hthought] at hsuits hshrinks
        exact ⟨_, rfl, hsuits, hshrinks⟩
      · exact ⟨card, hcard, rfl, IdentitySet.Subset.refl _⟩
    · rw [get_writeThoughts, if_neg ho]
  · exact .error

end CardElim

end HanabiBot
