import HanabiBot.Elim.Logged

/-!
# The cross elimination

`cross_elim` takes identities of two cards that share a set of them, and notes nothing.

* `crossElim_narrows` — it only takes inferences;
* `Crosses` — its test; `crossElim_eq` and `crossElim_takes` say what it does where no two
  cards pass it, and where two do;
* `CallsBetween` — the calls in the rounds of `good_touch_elim`, with the basic eliminations
  in between;
* `crossCalls_uncrossed` — no call finds two such cards if and only if the basic elimination
  alone, run over and over, comes to none.
-/

namespace HanabiBot.Elim

variable {player : Observer} {state : Table} {s t : ElimState}

/-! ## The cross elimination -/

/-- The cross elimination only takes inferences, and notes nothing. -/
structure Narrows (s t : ElimState) : Prop where
  resets : t.resets = s.resets
  elims : t.elims = s.elims
  suits : ∀ o, (t.thoughts o).inferred.numSuits = (s.thoughts o).inferred.numSuits
  has : ∀ o id, (t.thoughts o).inferred.has id = true → (s.thoughts o).inferred.has id = true

/-- What is not noted. -/
def AnyLost : ℕ → Identity → Prop := fun _ _ => True

namespace Narrows

variable {u : ElimState}

theorem refl (s : ElimState) : Narrows s s := ⟨rfl, rfl, fun _ => rfl, fun _ _ h => h⟩

theorem trans (hst : Narrows s t) (htu : Narrows t u) : Narrows s u :=
  ⟨htu.resets.trans hst.resets, htu.elims.trans hst.elims,
    fun o => (htu.suits o).trans (hst.suits o), fun o id h => hst.has o id (htu.has o id h)⟩

theorem not_has (h : Narrows s t) {o : ℕ} {id : Identity}
    (hid : (s.thoughts o).inferred.has id = false) : (t.thoughts o).inferred.has id = false := by
  by_contra hhas
  rw [h.has o id (by simpa using hhas)] at hid
  cases hid

theorem logged (h : Narrows s t) : Logged name AnyLost s t := by
  refine ⟨fun o ho => h.resets ▸ ho, fun n o ho => h.elims ▸ ho, fun o _ => h.suits o,
    fun o _ => h.has o, fun o _ id _ _ => Or.inr trivial, fun o _ n hn => Or.inl ?_⟩
  rwa [h.elims] at hn

theorem setInferred (o mask : ℕ) :
    Narrows s (s.setInferred o ((s.thoughts o).inferred.subtract mask)) := by
  refine ⟨rfl, rfl, fun o' => ?_, fun o' id hid => ?_⟩
  · by_cases ho : o' = o
    · subst ho
      simp [ElimState.setInferred, IdentitySet.subtract]
    · simp [ElimState.setInferred, ElimState.setThought_thoughts_of_ne s ho]
  · by_cases ho : o' = o
    · subst ho
      simp only [ElimState.setInferred, ElimState.setThought_thoughts_self,
        IdentitySet.has_subtract, Bool.and_eq_true] at hid
      exact hid.1
    · simpa [ElimState.setInferred, ElimState.setThought_thoughts_of_ne s ho] using hid

/-- A loop of steps that narrow. -/
theorem foldl {α β : Type} (state : β → ElimState) {f : β → α → β}
    (h : ∀ b a, Narrows (state b) (state (f b a))) (l : List α) (b : β) :
    Narrows (state b) (state (l.foldl f b)) := by
  induction l generalizing b with
  | nil => exact refl _
  | cons a l ih => exact (h b a).trans (ih _)

end Narrows

theorem crossPair_narrows (isNew : Bool) (card : Thought) (o : ℕ) (r : ElimState × Bool) (o2 : ℕ) :
    Narrows r.1 (crossPair state isNew card o r o2).1 := by
  unfold crossPair
  split
  · exact .refl _
  split
  · exact .refl _
  split
  · exact .setInferred o _
  · exact .refl _

theorem crossCard_narrows (orders : List ℕ) (r : ElimState × Bool) (o : ℕ) :
    Narrows r.1 (crossCard state orders r o).1 :=
  .foldl Prod.fst (crossPair_narrows _ _ o) orders r

theorem crossSet_narrows (orders : List ℕ) (s : ElimState) :
    Narrows s (crossSet state orders s).1 :=
  .foldl Prod.fst (crossCard_narrows orders) orders (s, false)

theorem readd_narrows (i : ℕ) (orders : List ℕ) (s : ElimState) :
    Narrows s (readd player state i orders s) := by
  have herase : Narrows s { s with crossMap := s.crossMap.eraseIdx i } :=
    ⟨rfl, rfl, fun _ => rfl, fun _ _ h => h⟩
  refine herase.trans (.foldl (fun s => s) (fun s o => ?_) orders _)
  have hsame := addToMaps_same player state o (state.holder o) s
  refine ⟨hsame.resets, addToMaps_elims player state o (state.holder o) s, ?_, ?_⟩
  · intro o'
    rw [hsame.thoughts]
  · intro o' id hid
    rwa [hsame.thoughts] at hid

theorem crossSets_narrows {fuel i : ℕ} {changed changed' : Bool}
    (h : crossSets player state fuel i changed s = some (changed', t)) : Narrows s t := by
  induction fuel generalizing i changed s with
  | zero => simp [crossSets] at h
  | succ fuel ih =>
    rw [crossSets] at h
    cases hget : s.crossMap[i]? with
    | none =>
      simp only [hget, Option.some.injEq, Prod.mk.injEq] at h
      exact h.2 ▸ .refl s
    | some entry =>
      simp only [hget] at h
      have hset : Narrows s (crossSet state entry.2 s).1 := crossSet_narrows entry.2 s
      split at h
      · exact ih h
      split at h
      · exact hset.trans ((readd_narrows i entry.2 _).trans (ih h))
      · exact hset.trans (ih h)

/-- The cross elimination notes nothing of what it takes. -/
theorem crossElim_narrows {fuel : ℕ} {changed : Bool}
    (h : crossElim player state fuel s = some (changed, t)) : Narrows s t :=
  crossSets_narrows h

/-! ### Its test -/

/-- The test of `cross_elim` on two cards with the same inferences: their holders differ, and the
second is visibly an identity that the first is inferred to have, without an asymmetry. -/
def CrossesPair (state : Table) (s : ElimState) (o o2 : ℕ) (id : Identity) : Prop :=
  state.identityOf o2 = some id ∧
    crossAsymmetricGt state id o o2 (s.thoughts o) (s.thoughts o2) = false ∧
    o ≠ o2 ∧ state.holder o ≠ state.holder o2 ∧ (s.thoughts o).inferred.has id = true

/-- Two cards in an entry of `cross_map` with as many cards as identities pass the test. -/
def Crosses (state : Table) (s : ElimState) : Prop :=
  ∃ e ∈ s.crossMap, e.2.length = (IdentitySet.mk state.variant.suits.length e.1).length ∧
    ∃ o ∈ e.2, ∃ o2 ∈ e.2, ∃ id, CrossesPair state s o o2 id

/-- A step that goes on from `false` without a change. -/
def Flagged {α : Type} (f : ElimState × Bool → α → ElimState × Bool) : Prop :=
  ∀ r a, (f r a).2 = false → f r a = r

namespace Flagged

variable {α : Type} {f : ElimState × Bool → α → ElimState × Bool}

/-- A loop that changed nothing made no step. -/
theorem foldl (hf : Flagged f) {l : List α} {r : ElimState × Bool}
    (h : (l.foldl f r).2 = false) : l.foldl f r = r ∧ ∀ a ∈ l, f r a = r := by
  induction l generalizing r with
  | nil => exact ⟨rfl, by simp⟩
  | cons a l ih =>
    obtain ⟨hrest, hsteps⟩ := ih h
    rw [List.foldl_cons] at h ⊢
    rw [hrest] at h ⊢
    have hfirst := hf r a h
    rw [hfirst] at hsteps ⊢
    exact ⟨rfl, by simpa [hfirst] using hsteps⟩

/-- A loop that changed something had a first step that did. -/
theorem foldl_true (hf : Flagged f) {l : List α} {r : ElimState × Bool} (hr : r.2 = false)
    (h : (l.foldl f r).2 = true) :
    ∃ a ∈ l, (f r a).2 = true ∧ ∃ rest : List α, l.foldl f r = rest.foldl f (f r a) := by
  induction l generalizing r with
  | nil => exact absurd (hr.symm.trans h) (by simp)
  | cons a l ih =>
    cases hstep : (f r a).2 with
    | true => exact ⟨a, List.mem_cons_self, hstep, l, rfl⟩
    | false =>
      rw [List.foldl_cons, hf r a hstep] at h ⊢
      obtain ⟨b, hb, hchanged⟩ := ih hr h
      exact ⟨b, List.mem_cons_of_mem a hb, hchanged⟩

end Flagged

theorem crossPair_flagged (isNew : Bool) (card : Thought) (o : ℕ) :
    Flagged (crossPair state isNew card o) := by
  intro r o2 h
  unfold crossPair at h ⊢
  split
  · rfl
  split
  · rfl
  split
  · simp_all
  · rfl

theorem crossCard_flagged (orders : List ℕ) : Flagged (crossCard state orders) :=
  fun _ o h => ((crossPair_flagged _ _ o).foldl h).1

/-- The first pair of cards that is taken apart: the test holds, and the identity goes. -/
theorem crossPair_iff (isNew : Bool) (s : ElimState) (o o2 : ℕ) :
    (crossPair state isNew (s.thoughts o) o (s, false) o2).2 = true ↔
      ∃ id, CrossesPair state s o o2 id := by
  unfold crossPair CrossesPair
  cases hid : state.identityOf o2 with
  | none => simp
  | some id =>
    simp only [Bool.cond_self, Option.some.injEq]
    split
    · rename_i hasym
      simp [hasym]
    · rename_i hasym
      rw [Bool.not_eq_true] at hasym
      split
      · rename_i hcond
        simp only [Bool.and_eq_true, bne_iff_ne] at hcond
        simp only [true_iff]
        exact ⟨id, rfl, hasym, hcond.1.1, hcond.1.2, hcond.2⟩
      · rename_i hcond
        simp only [Bool.false_eq_true, false_iff]
        rintro ⟨id', rfl, -, hne, hholder, hhas⟩
        simp [hne, hholder, hhas] at hcond

theorem crossPair_takes {isNew : Bool} {o o2 : ℕ}
    (h : (crossPair state isNew (s.thoughts o) o (s, false) o2).2 = true) :
    ∃ id, (s.thoughts o).inferred.has id = true ∧
      ((crossPair state isNew (s.thoughts o) o (s, false) o2).1.thoughts o).inferred.has id =
        false := by
  unfold crossPair at h ⊢
  split at h
  · cases h
  split at h
  · cases h
  split at h
  · rename_i id hid hasym hcond
    simp only [Bool.cond_self, Bool.and_eq_true] at hcond
    refine ⟨id, hcond.2, ?_⟩
    have htoMask : (IdentitySet.toMask id).testBit (IdentitySet.bit id) = true :=
      Nat.testBit_two_pow_self
    simp [hasym, hcond, ElimState.setInferred, htoMask]
  · cases h

theorem crossCard_takes {orders : List ℕ} {o : ℕ}
    (h : (crossCard state orders (s, false) o).2 = true) :
    ∃ id, (s.thoughts o).inferred.has id = true ∧
      ((crossCard state orders (s, false) o).1.thoughts o).inferred.has id = false := by
  obtain ⟨o2, -, hpair, rest, hrest⟩ := (crossPair_flagged _ _ o).foldl_true rfl h
  obtain ⟨id, hhas, hnot⟩ := crossPair_takes hpair
  have hafter : Narrows (crossPair state (s.isNew o) (s.thoughts o) o (s, false) o2).1
      (crossCard state orders (s, false) o).1 := by
    rw [crossCard, hrest]
    exact .foldl Prod.fst (crossPair_narrows _ _ o) rest _
  exact ⟨id, hhas, hafter.not_has hnot⟩

/-- Where no pair passes the test, the double loop changes nothing. -/
theorem crossSet_eq {orders : List ℕ}
    (h : ¬∃ o ∈ orders, ∃ o2 ∈ orders, ∃ id, CrossesPair state s o o2 id) :
    crossSet state orders s = (s, false) := by
  cases hflag : (crossSet state orders s).2 with
  | false => exact ((crossCard_flagged orders).foldl hflag).1
  | true =>
    obtain ⟨o, ho, hcard, -⟩ := (crossCard_flagged orders).foldl_true rfl hflag
    obtain ⟨o2, ho2, hpair, -⟩ := (crossPair_flagged _ _ o).foldl_true rfl hcard
    exact absurd ⟨o, ho, o2, ho2, (crossPair_iff _ s o o2).1 hpair⟩ h

/-- Where one does, it takes an identity from a card. -/
theorem crossSet_takes {orders : List ℕ}
    (h : ∃ o ∈ orders, ∃ o2 ∈ orders, ∃ id, CrossesPair state s o o2 id) :
    (crossSet state orders s).2 = true ∧ ∃ o id, (s.thoughts o).inferred.has id = true ∧
      ((crossSet state orders s).1.thoughts o).inferred.has id = false := by
  have hflag : (crossSet state orders s).2 = true := by
    by_contra hfalse
    rw [Bool.not_eq_true] at hfalse
    obtain ⟨o, ho, o2, ho2, hpair⟩ := h
    have hcard := ((crossCard_flagged orders).foldl hfalse).2 o ho
    have hsnd : (crossCard state orders (s, false) o).2 = false := by rw [hcard]
    have hsame := ((crossPair_flagged _ _ o).foldl hsnd).2 o2 ho2
    have htrue := (crossPair_iff (s.isNew o) s o o2).2 hpair
    rw [hsame] at htrue
    cases htrue
  obtain ⟨o, -, hcard, rest, hrest⟩ := (crossCard_flagged orders).foldl_true rfl hflag
  obtain ⟨id, hhas, hnot⟩ := crossCard_takes hcard
  have hafter : Narrows (crossCard state orders (s, false) o).1 (crossSet state orders s).1 := by
    rw [crossSet, hrest]
    exact .foldl Prod.fst (crossCard_narrows orders) rest _
  exact ⟨hflag, o, id, hhas, hafter.not_has hnot⟩

theorem crossSets_eq {fuel i : ℕ} {changed : Bool} {r : Bool × ElimState}
    (hidle : ¬Crosses state s)
    (h : crossSets player state fuel i changed s = some r) : r = (changed, s) := by
  induction fuel generalizing i with
  | zero => simp [crossSets] at h
  | succ fuel ih =>
    rw [crossSets] at h
    cases hget : s.crossMap[i]? with
    | none =>
      simp only [hget, Option.some.injEq] at h
      exact h.symm
    | some entry =>
      simp only [hget] at h
      split at h
      · exact ih h
      · rename_i hlength
        have hset : crossSet state entry.2 s = (s, false) := by
          refine crossSet_eq fun hpair => hidle ?_
          exact ⟨entry, List.mem_of_getElem? hget, not_not.1 hlength, hpair⟩
        simp only [hset, Bool.false_eq_true, if_false] at h
        exact ih h

/-- A pass in which no pair passes the test changes nothing. -/
theorem crossElim_eq {fuel : ℕ} {r : Bool × ElimState} (hidle : ¬Crosses state s)
    (h : crossElim player state fuel s = some r) : r = (false, s) :=
  crossSets_eq hidle h

theorem crossSets_takes {fuel i : ℕ} {changed changed' : Bool}
    (hcross : ∃ j, i ≤ j ∧ ∃ e, s.crossMap[j]? = some e ∧
      e.2.length = (IdentitySet.mk state.variant.suits.length e.1).length ∧
        ∃ o ∈ e.2, ∃ o2 ∈ e.2, ∃ id, CrossesPair state s o o2 id)
    (h : crossSets player state fuel i changed s = some (changed', t)) :
    ∃ o id, (s.thoughts o).inferred.has id = true ∧ (t.thoughts o).inferred.has id = false := by
  induction fuel generalizing i with
  | zero => simp [crossSets] at h
  | succ fuel ih =>
    obtain ⟨j, hij, e, hj, hlength, hpair⟩ := hcross
    rw [crossSets] at h
    -- an entry that is passed over is not the one with the pair
    have hlater : i ≠ j → ∃ j, i + 1 ≤ j ∧ ∃ e, s.crossMap[j]? = some e ∧
        e.2.length = (IdentitySet.mk state.variant.suits.length e.1).length ∧
          ∃ o ∈ e.2, ∃ o2 ∈ e.2, ∃ id, CrossesPair state s o o2 id :=
      fun hne => ⟨j, by omega, e, hj, hlength, hpair⟩
    cases hget : s.crossMap[i]? with
    | none =>
      have hi := List.getElem?_eq_none_iff.1 hget
      have hj' := (List.getElem?_eq_some_iff.1 hj).1
      omega
    | some entry =>
      simp only [hget] at h
      split at h
      · rename_i hwrong
        refine ih (hlater ?_) h
        rintro rfl
        rw [hget, Option.some.injEq] at hj
        exact hwrong (hj ▸ hlength)
      · by_cases hhere : ∃ o ∈ entry.2, ∃ o2 ∈ entry.2, ∃ id, CrossesPair state s o o2 id
        · obtain ⟨hflag, o, id, hhas, hnot⟩ := crossSet_takes hhere
          simp only [hflag, if_true] at h
          exact ⟨o, id, hhas, (crossSets_narrows h).not_has
            ((readd_narrows i entry.2 _).not_has hnot)⟩
        · simp only [crossSet_eq hhere, Bool.false_eq_true, if_false] at h
          refine ih (hlater ?_) h
          rintro rfl
          rw [hget, Option.some.injEq] at hj
          exact hhere (hj ▸ hpair)

/-- A pass in which one does takes an identity from a card. -/
theorem crossElim_takes {fuel : ℕ} {changed : Bool} (hcross : Crosses state s)
    (h : crossElim player state fuel s = some (changed, t)) :
    ∃ o id, (s.thoughts o).inferred.has id = true ∧ (t.thoughts o).inferred.has id = false := by
  obtain ⟨e, he, hlength, hpair⟩ := hcross
  obtain ⟨j, hj⟩ := List.mem_iff_getElem?.1 he
  exact crossSets_takes ⟨j, Nat.zero_le j, e, hj, hlength, hpair⟩ h

/-! ## The rounds -/

/-- The calls of `cross_elim` in the rounds, with the variables before and after each. -/
def roundCalls (player : Observer) (state : Table) :
    ℕ → Bool → Bool → ElimState → Option (List (ElimState × ElimState))
  | 0, _, _, _ => none
  | fuel + 1, basicChanged, crossChanged, s =>
    if basicChanged || crossChanged then
      (basicElim player state fuel s).bind fun r =>
        if r.1 || crossChanged then
          (crossElim player state fuel r.2).bind fun r' =>
            (roundCalls player state fuel r.1 r'.1 r'.2).map ((r.2, r'.2) :: ·)
        else roundCalls player state fuel r.1 crossChanged r.2
    else some []

/-- The calls of `cross_elim` in `good_touch_elim`. -/
def crossCalls (player : Observer) (state : Table) (onlySelf : Bool) (fuel : ℕ) :
    Option (List (ElimState × ElimState)) :=
  (basicElim player state fuel (initialState player state onlySelf)).bind fun r =>
    (crossElim player state fuel r.2).bind fun r' =>
      (roundCalls player state fuel r.1 r'.1 r'.2).map ((r.2, r'.2) :: ·)

/-- Some calls on the way from `s` to `t`: what is lost between them is noted. -/
structure CallsBetween (player : Observer) (state : Table) (s t : ElimState)
    (calls : List (ElimState × ElimState)) : Prop where
  logged : (∀ call ∈ calls, call.2 = call.1) → Logged state.variant.logCard NoneLost s t
  called : ∀ call ∈ calls, ∃ fuel changed,
    crossElim player state fuel call.1 = some (changed, call.2)
  before : ∀ call ∈ calls, Logged state.variant.logCard AnyLost s call.1
  after : ∀ call ∈ calls, Logged state.variant.logCard AnyLost call.2 t

namespace CallsBetween

variable {u : ElimState} {calls : List (ElimState × ElimState)}

theorem nil (s : ElimState) : CallsBetween player state s s [] :=
  ⟨fun _ => .refl s, by simp, by simp, by simp⟩

/-- Steps that note everything, in front of some calls. -/
theorem prepend (hst : Logged state.variant.logCard NoneLost s t)
    (h : CallsBetween player state t u calls) : CallsBetween player state s u calls := by
  refine ⟨fun hidle => hst.trans (h.logged hidle), h.called, ?_, h.after⟩
  intro call hcall
  exact hst.of_noneLost.trans (h.before call hcall)

/-- One more call in front. -/
theorem cons {fuel : ℕ} {changed : Bool}
    (hcross : crossElim player state fuel s = some (changed, t))
    (htu : Logged state.variant.logCard AnyLost t u) (h : CallsBetween player state t u calls) :
    CallsBetween player state s u ((s, t) :: calls) := by
  have hst : Logged state.variant.logCard AnyLost s t := (crossElim_narrows hcross).logged
  refine ⟨fun hidle => ?_, fun call hcall => ?_, fun call hcall => ?_, fun call hcall => ?_⟩
  · have hsame : t = s := hidle (s, t) List.mem_cons_self
    subst hsame
    exact h.logged fun call hcall => hidle call (List.mem_cons_of_mem _ hcall)
  · obtain rfl | hcall := List.mem_cons.1 hcall
    · exact ⟨fuel, changed, hcross⟩
    · exact h.called call hcall
  · obtain rfl | hcall := List.mem_cons.1 hcall
    · exact .refl s
    · exact hst.trans (h.before call hcall)
  · obtain rfl | hcall := List.mem_cons.1 hcall
    · exact htu
    · exact h.after call hcall

end CallsBetween

theorem roundCalls_between {fuel : ℕ} {basicChanged crossChanged : Bool}
    (h : elimRounds player state fuel basicChanged crossChanged s = some t) :
    Logged state.variant.logCard AnyLost s t ∧
      ∃ calls, roundCalls player state fuel basicChanged crossChanged s = some calls ∧
        CallsBetween player state s t calls := by
  induction fuel generalizing basicChanged crossChanged s with
  | zero => simp [elimRounds] at h
  | succ fuel ih =>
    rw [elimRounds] at h
    rw [roundCalls]
    split at h
    · rename_i hgo
      obtain ⟨⟨b, u⟩, hbasic, h⟩ := Option.bind_eq_some_iff.1 h
      rw [if_pos hgo, hbasic]
      simp only [Option.bind_some] at h ⊢
      have hsu := basicElim_logged hbasic
      split at h
      · rename_i hcross
        obtain ⟨⟨c, w⟩, hcrossed, h⟩ := Option.bind_eq_some_iff.1 h
        obtain ⟨hwt, calls, hcalls, hbetween⟩ := ih h
        have huw : Logged state.variant.logCard AnyLost u w := (crossElim_narrows hcrossed).logged
        refine ⟨hsu.of_noneLost.trans (huw.trans hwt), (u, w) :: calls, ?_, ?_⟩
        · simp only [if_pos hcross, hcrossed, Option.bind_some, hcalls, Option.map_some]
        · exact (hbetween.cons hcrossed hwt).prepend hsu
      · rename_i hcross
        obtain ⟨hut, calls, hcalls, hbetween⟩ := ih h
        refine ⟨hsu.of_noneLost.trans hut, calls, ?_, hbetween.prepend hsu⟩
        rw [if_neg hcross, hcalls]
    · rename_i hgo
      rw [if_neg hgo]
      rw [Option.some.injEq] at h
      exact ⟨h ▸ .refl s, [], rfl, h ▸ .nil s⟩

/-- The calls of `cross_elim` in an elimination that returns, and the variables at its end. -/
theorem crossCalls_between {onlySelf : Bool} {fuel : ℕ} {result : Observer × List ℕ}
    (h : goodTouchElim player state onlySelf fuel = some result) :
    ∃ calls t, crossCalls player state onlySelf fuel = some calls ∧
      Logged state.variant.logCard AnyLost (initialState player state onlySelf) t ∧
      CallsBetween player state (initialState player state onlySelf) t calls ∧
      result = ({ player with thoughts := t.thoughts, elims := t.elims }, t.resets) := by
  obtain ⟨⟨b, u⟩, hbasic, h⟩ := Option.bind_eq_some_iff.1 h
  obtain ⟨⟨c, w⟩, hcross, h⟩ := Option.bind_eq_some_iff.1 h
  obtain ⟨t, hrounds, h⟩ := Option.bind_eq_some_iff.1 h
  obtain ⟨hwt, calls, hcalls, hbetween⟩ := roundCalls_between hrounds
  have hsu := basicElim_logged hbasic
  have huw : Logged state.variant.logCard AnyLost u w := (crossElim_narrows hcross).logged
  refine ⟨(u, w) :: calls, t, ?_, hsu.of_noneLost.trans (huw.trans hwt), ?_,
    (Option.some.inj h).symm⟩
  · simp only [crossCalls, hbasic, hcross, Option.bind_some, hcalls, Option.map_some]
  · exact (hbetween.cons hcross hwt).prepend hsu

/-! ### Without the cross elimination -/

/-- Another pass of `basic_elim` that changes a card. -/
def Again (player : Observer) (state : Table) (s t : ElimState) : Prop :=
  ∃ fuel, basicElim player state fuel s = some (true, t)

/-- However often `basic_elim` alone is run on what `good_touch_elim` starts with, as long as it
changes a card, no two cards pass the test of `cross_elim` after it. -/
def Uncrossed (player : Observer) (state : Table) (onlySelf : Bool) : Prop :=
  ∀ fuel changed s,
    basicElim player state fuel (initialState player state onlySelf) = some (changed, s) →
      ¬Crosses state s ∧
        (changed = true → ∀ t, Relation.TransGen (Again player state) s t → ¬Crosses state t)

theorem Again.unique {fuel : ℕ} {r : Bool × ElimState} (h : Again player state s t)
    (hr : basicElim player state fuel s = some r) : r = (true, t) := by
  obtain ⟨fuel', h⟩ := h
  exact (basicElim_stable s).unique hr h

theorem roundCalls_uncrossed {fuel : ℕ} {changed : Bool} {calls : List (ElimState × ElimState)}
    (h : roundCalls player state fuel changed false s = some calls) :
    (∀ call ∈ calls, ¬Crosses state call.1) ↔
      (changed = true → ∀ t, Relation.TransGen (Again player state) s t → ¬Crosses state t) := by
  induction fuel generalizing changed s calls with
  | zero => simp [roundCalls] at h
  | succ fuel ih =>
    rw [roundCalls] at h
    cases changed with
    | false =>
      simp only [Bool.or_self, Bool.false_eq_true, if_false, Option.some.injEq] at h
      simp [← h]
    | true =>
      simp only [Bool.or_false, if_true] at h
      obtain ⟨⟨b, u⟩, hbasic, h⟩ := Option.bind_eq_some_iff.1 h
      cases b with
      | false =>
        simp only [Bool.false_eq_true, if_false] at h
        have hnone := (ih h).2 (by simp)
        refine iff_of_true hnone fun _ t ht => ?_
        obtain ⟨w, hw, -⟩ := Relation.TransGen.head'_iff.1 ht
        cases hw.unique hbasic
      | true =>
        simp only [if_true] at h
        obtain ⟨⟨c, w⟩, hcross, h⟩ := Option.bind_eq_some_iff.1 h
        obtain ⟨rest, hrest, rfl⟩ := Option.map_eq_some_iff.1 h
        have hagain : Again player state s u := ⟨fuel, hbasic⟩
        simp only [List.forall_mem_cons]
        constructor
        · rintro ⟨hu, hcalls⟩ - t ht
          cases crossElim_eq hu hcross
          obtain ⟨v, hv, hvt⟩ := Relation.TransGen.head'_iff.1 ht
          cases hv.unique hbasic
          obtain rfl | hvt := Relation.reflTransGen_iff_eq_or_transGen.1 hvt
          · exact hu
          · exact (ih hrest).1 hcalls rfl t hvt
        · intro hall
          have hu := hall trivial u (.single hagain)
          cases crossElim_eq hu hcross
          exact ⟨hu, (ih hrest).2 fun _ t ht => hall trivial t (.head hagain ht)⟩

/-- The test holds in no call of the run exactly if it does not without the cross elimination. -/
theorem crossCalls_uncrossed {onlySelf : Bool} {fuel : ℕ} {calls : List (ElimState × ElimState)}
    (h : crossCalls player state onlySelf fuel = some calls) :
    (∀ call ∈ calls, ¬Crosses state call.1) ↔ Uncrossed player state onlySelf := by
  obtain ⟨⟨b, u⟩, hbasic, h⟩ := Option.bind_eq_some_iff.1 h
  obtain ⟨⟨c, w⟩, hcross, h⟩ := Option.bind_eq_some_iff.1 h
  obtain ⟨rest, hrest, rfl⟩ := Option.map_eq_some_iff.1 h
  rw [List.forall_mem_cons]
  constructor
  · rintro ⟨hu, hcalls⟩ fuel' b' u' hbasic'
    cases (basicElim_stable _).unique hbasic hbasic'
    obtain ⟨rfl, rfl⟩ := Prod.mk.inj (crossElim_eq hu hcross)
    exact ⟨hu, (roundCalls_uncrossed hrest).1 hcalls⟩
  · intro hall
    obtain ⟨hu, hagain⟩ := hall fuel b u hbasic
    obtain ⟨rfl, rfl⟩ := Prod.mk.inj (crossElim_eq hu hcross)
    exact ⟨hu, (roundCalls_uncrossed hrest).2 hagain⟩

/-! ### The players themselves -/

/-- `cross_map` is filled for the common player only. -/
theorem addToMaps_crossMap (hplayer : player.playerIndex.isSome = true) (o : ℕ) (holder : Option ℕ)
    (s : ElimState) : (addToMaps player state o holder s).crossMap = s.crossMap := by
  unfold addToMaps
  dsimp only
  split
  · rfl
  · split
    · split
      · rename_i hcond
        obtain ⟨i, hi⟩ := Option.isSome_iff_exists.1 hplayer
        simp [hi] at hcond
      · rfl
    · rfl

theorem foldl_addToMaps_crossMap (hplayer : player.playerIndex.isSome = true) {α : Type}
    (order : α → ℕ) (holder : α → Option ℕ) (l : List α) (s : ElimState) :
    (l.foldl (fun s a => addToMaps player state (order a) (holder a) s) s).crossMap =
      s.crossMap := by
  induction l generalizing s with
  | nil => rfl
  | cons a l ih =>
    rw [List.foldl_cons, ih, addToMaps_crossMap hplayer]

theorem addCandidate_crossMap (hplayer : player.playerIndex.isSome = true) (i o : ℕ)
    (s : ElimState) : (addCandidate player state i o s).crossMap = s.crossMap := by
  unfold addCandidate
  dsimp only
  split
  · exact addToMaps_crossMap hplayer o (some i) s
  split
  · split
    · split <;> exact addToMaps_crossMap hplayer o (some i) s
    · exact addToMaps_crossMap hplayer o (some i) s
  · exact addToMaps_crossMap hplayer o (some i) s

theorem initialState_crossMap (hplayer : player.playerIndex.isSome = true) (onlySelf : Bool) :
    (initialState player state onlySelf).crossMap = [] := by
  rw [initialState_eq]
  generalize visited player state onlySelf = l
  have hloop : ∀ (l : List (ℕ × ℕ)) (s : ElimState),
      (l.foldl (fun s p => addCandidate player state p.1 p.2 s) s).crossMap = s.crossMap := by
    intro l
    induction l with
    | nil => exact fun s => rfl
    | cons p l ih =>
      intro s
      rw [List.foldl_cons, ih, addCandidate_crossMap hplayer]
  exact hloop l _

theorem basicElim_crossMap (hplayer : player.playerIndex.isSome = true) {fuel : ℕ}
    {changed : Bool} (h : basicElim player state fuel s = some (changed, t)) :
    t.crossMap = s.crossMap := by
  obtain ⟨p, hp, h⟩ := Option.bind_eq_some_iff.1 h
  rw [Option.some.injEq, Prod.mk.injEq] at h
  rw [← h.2]
  have hloop := (elimIdentities_basicLogged (fun id hid => (IdentitySet.mem_array.1 hid).2.1)
    hp).crossMap
  exact (foldl_addToMaps_crossMap hplayer Candidate.order (fun c => some c.playerIndex)
    p.elimCandidates p.toElimState).trans hloop

/-- In a player's own view nothing is cross eliminated. -/
theorem uncrossed_of_playerIndex (hplayer : player.playerIndex.isSome = true) (onlySelf : Bool) :
    Uncrossed player state onlySelf := by
  have hidle : ∀ s : ElimState, s.crossMap = [] → ¬Crosses state s := by
    rintro s hs ⟨e, he, -⟩
    rw [hs] at he
    cases he
  intro fuel changed s hs
  have hempty : s.crossMap = [] :=
    (basicElim_crossMap hplayer hs).trans (initialState_crossMap hplayer onlySelf)
  refine ⟨hidle s hempty, fun _ t ht => hidle t ?_⟩
  induction ht with
  | single h =>
    obtain ⟨fuel', h⟩ := h
    exact (basicElim_crossMap hplayer h).trans hempty
  | tail _ h ih =>
    obtain ⟨fuel', h⟩ := h
    exact (basicElim_crossMap hplayer h).trans ih

end HanabiBot.Elim
