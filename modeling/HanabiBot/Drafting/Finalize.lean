import HanabiBot.Drafting.RootInv

/-!
# Finalizing the draft of a card

Finalizing replaces the drafts in the copy of a card by what they stand for.  It returns
whenever the producer does, since each draft is gone through once (`finalize_returns`), and
leaves the properties that are not marked as modified as they were
(`RootInv.finalize_root`).
-/

namespace HanabiBot.Drafting

/-! ## What finalizing changes -/

/-- Drafts of which finalizing has changed some, and of those only the copies. -/
structure SameBut (changed : ℕ → Prop) (d d' : Drafts) : Prop where
  heap : d'.heap = d.heap
  count : d'.count = d.count
  base : ∀ j, (d'.states j).base = (d.states j).base
  isArray : ∀ j, (d'.states j).isArray = (d.states j).isArray
  modified : ∀ j, (d'.states j).modified = (d.states j).modified
  modifiedProps : ∀ j, (d'.states j).modifiedProps = (d.states j).modifiedProps
  wrapped : ∀ j, (d'.states j).wrapped = (d.states j).wrapped
  finalized : ∀ j, (d.states j).finalized = true → (d'.states j).finalized = true
  same : ∀ j, ¬ changed j → d'.states j = d.states j

namespace SameBut

variable {P Q : ℕ → Prop} {d d' d'' : Drafts}

theorem refl (P : ℕ → Prop) (d : Drafts) : SameBut P d d :=
  ⟨rfl, rfl, fun _ => rfl, fun _ => rfl, fun _ => rfl, fun _ => rfl, fun _ => rfl, fun _ => id,
    fun _ _ => rfl⟩

theorem trans (h : SameBut P d d') (h' : SameBut Q d' d'') (hQP : ∀ j, Q j → P j) :
    SameBut P d d'' where
  heap := h'.heap.trans h.heap
  count := h'.count.trans h.count
  base j := (h'.base j).trans (h.base j)
  isArray j := (h'.isArray j).trans (h.isArray j)
  modified j := (h'.modified j).trans (h.modified j)
  modifiedProps j := (h'.modifiedProps j).trans (h.modifiedProps j)
  wrapped j := (h'.wrapped j).trans (h.wrapped j)
  finalized j hj := h'.finalized j (h.finalized j hj)
  same j hj := (h'.same j fun hQ => hj (hQP j hQ)).trans (h.same j hj)

theorem mono (h : SameBut P d d') (hPQ : ∀ j, P j → Q j) : SameBut Q d d' :=
  { h with same := fun j hj => h.same j fun hP => hj (hPQ j hP) }

theorem update {i : ℕ} {s : StateProxy} (hbase : s.base = (d.states i).base)
    (hisArray : s.isArray = (d.states i).isArray) (hmodified : s.modified = (d.states i).modified)
    (hprops : s.modifiedProps = (d.states i).modifiedProps)
    (hwrapped : s.wrapped = (d.states i).wrapped)
    (hfinalized : (d.states i).finalized = true → s.finalized = true) :
    SameBut (fun j => j = i) d (d.update i s) := by
  have hcases : ∀ {α : Type} (f : StateProxy → α), f s = f (d.states i) → ∀ j,
      f ((d.update i s).states j) = f (d.states j) := by
    intro α f hf j
    by_cases hj : j = i
    · rw [hj, Drafts.states_update_self, hf]
    · rw [Drafts.states_update_of_ne d hj]
  refine ⟨rfl, rfl, hcases _ hbase, hcases _ hisArray, hcases _ hmodified, hcases _ hprops,
    hcases _ hwrapped, ?_, ?_⟩
  · intro j hj
    by_cases hji : j = i
    · rw [hji, Drafts.states_update_self]
      exact hfinalized (hji ▸ hj)
    · rwa [Drafts.states_update_of_ne d hji]
  · exact fun j hj => Drafts.states_update_of_ne d hj s

theorem putCopy (d : Drafts) (i : ℕ) (k : Key) (v : Value) :
    SameBut (fun j => j = i) d (d.putCopy i k v) :=
  .update rfl rfl rfl rfl rfl id

end SameBut

/-- Finalizing the entries of a copy changes it, and drafts that are not final yet. -/
theorem finalizeEntries_same {fin : Value → Drafts → Option (Value × Drafts)} {i : ℕ}
    (hfin : ∀ v d v' d', fin v d = some (v', d') →
      SameBut (fun j => (d.states j).finalized = false) d d')
    (entries : List (Key × Value)) (d d' : Drafts)
    (h : finalizeEntries fin i entries d = some d') :
    SameBut (fun j => j = i ∨ (d.states j).finalized = false) d d' := by
  induction entries generalizing d with
  | nil =>
    obtain rfl := Option.some.inj h
    exact .refl _ _
  | cons entry entries ih =>
    obtain ⟨k, value⟩ := entry
    simp only [finalizeEntries] at h
    split at h
    · exact ih d h
    · obtain ⟨⟨v, d₁⟩, hv, h⟩ := Option.bind_eq_some_iff.1 h
      have hstep := (hfin _ d v d₁ hv).mono fun j hj => Or.inr (a := j = i) hj
      have hput := SameBut.putCopy d₁ i k v
      have hboth := hstep.trans hput fun j hj => .inl hj
      refine hboth.trans (ih _ h) ?_
      rintro j (hj | hj)
      · exact .inl hj
      · refine .inr ?_
        by_contra hne
        rw [hboth.finalized j (by simpa using hne)] at hj
        cases hj

theorem finalize_of_not_draft (fuel : ℕ) {v : Value} (hv : ∀ i, v ≠ .draft i) (d : Drafts) :
    finalize fuel v d = some (v, d) := by
  cases v with
  | draft i => exact absurd rfl (hv i)
  | prim p => cases fuel <;> rfl
  | ref r => cases fuel <;> rfl
  | copy i => cases fuel <;> rfl

/-- Finalizing a draft gives its base or its copy. -/
theorem finalize_draft (fuel i : ℕ) (d : Drafts) (v' : Value) (d' : Drafts)
    (h : finalize fuel (.draft i) d = some (v', d')) :
    SameBut (fun j => (d.states j).finalized = false) d d' ∧
      ((d.states i).modified = false ∧ v' = .ref (d.states i).base ∨
        (d.states i).modified = true ∧ v' = .copy i) := by
  induction fuel generalizing i d v' d' with
  | zero =>
    simp only [finalize] at h
    split at h
    · cases h
    split at h
    next hmodified =>
      obtain ⟨rfl, rfl⟩ := Prod.mk.inj (Option.some.inj h)
      exact ⟨.refl _ _, .inl ⟨by simpa using hmodified, rfl⟩⟩
    next hmodified =>
      split at h
      · obtain ⟨rfl, rfl⟩ := Prod.mk.inj (Option.some.inj h)
        exact ⟨.refl _ _, .inr ⟨by simpa using hmodified, rfl⟩⟩
      · cases h
  | succ fuel ih =>
    simp only [finalize] at h
    split at h
    · cases h
    split at h
    next hmodified =>
      obtain ⟨rfl, rfl⟩ := Prod.mk.inj (Option.some.inj h)
      exact ⟨.refl _ _, .inl ⟨by simpa using hmodified, rfl⟩⟩
    next hmodified =>
      split at h
      · obtain ⟨rfl, rfl⟩ := Prod.mk.inj (Option.some.inj h)
        exact ⟨.refl _ _, .inr ⟨by simpa using hmodified, rfl⟩⟩
      next hfinalized =>
        obtain ⟨d₁, hentries, h⟩ := Option.bind_eq_some_iff.1 h
        obtain ⟨rfl, rfl⟩ := Prod.mk.inj (Option.some.inj h)
        have hmark : SameBut (fun j => j = i) d
            (d.update i { d.states i with finalized := true }) :=
          .update rfl rfl rfl rfl rfl fun _ => rfl
        have hfin : ∀ v d v' d', finalize fuel v d = some (v', d') →
            SameBut (fun j => (d.states j).finalized = false) d d' := by
          intro v d v' d' hv
          by_cases hdraft : ∃ j, v = .draft j
          · obtain ⟨j, rfl⟩ := hdraft
            exact (ih j d v' d' hv).1
          · rw [finalize_of_not_draft fuel (not_exists.1 hdraft)] at hv
            obtain ⟨-, rfl⟩ := Prod.mk.inj (Option.some.inj hv)
            exact .refl _ _
        have hloop := finalizeEntries_same hfin _ _ _ hentries
        refine ⟨?_, .inr ⟨by simpa using hmodified, rfl⟩⟩
        refine (hmark.mono ?_).trans hloop ?_
        · rintro j rfl
          simpa using hfinalized
        · rintro j (rfl | hj)
          · simpa using hfinalized
          · by_contra hne
            rw [hmark.finalized j (by simpa using hne)] at hj
            cases hj

/-- Finalizing changes drafts only that are not final yet. -/
theorem finalize_same (fuel : ℕ) (v : Value) (d : Drafts) (v' : Value) (d' : Drafts)
    (h : finalize fuel v d = some (v', d')) :
    SameBut (fun j => (d.states j).finalized = false) d d' := by
  by_cases hdraft : ∃ j, v = .draft j
  · obtain ⟨j, rfl⟩ := hdraft
    exact (finalize_draft fuel j d v' d' h).1
  · rw [finalize_of_not_draft fuel (not_exists.1 hdraft)] at h
    obtain ⟨-, rfl⟩ := Prod.mk.inj (Option.some.inj h)
    exact .refl _ _

/-! ## Finalizing returns -/

/-- Drafts of arrays whose wrappers still hold their states. -/
def Wrapped (d : Drafts) : Prop := ∀ j, (d.states j).wrapped = true

namespace Wrapped

variable {d d' : Drafts}

theorem update (h : Wrapped d) {i : ℕ} {s : StateProxy} (hs : s.wrapped = true) :
    Wrapped (d.update i s) := by
  intro j
  by_cases hj : j = i
  · rw [hj, Drafts.states_update_self, hs]
  · rw [Drafts.states_update_of_ne d hj, h j]

theorem create (h : Wrapped d) {s : StateProxy} (hs : s.wrapped = true) :
    Wrapped (d.create s) := by
  intro j
  by_cases hj : j = d.count
  · rw [hj, Drafts.states_create_self, hs]
  · rw [Drafts.states_create_of_ne d hj, h j]

theorem markChanged (h : Wrapped d) (fuel i : ℕ) : Wrapped (Drafts.markChanged fuel i d) := by
  induction fuel generalizing i d with
  | zero => exact h
  | succ fuel ih =>
    rw [Drafts.markChanged]
    simp only
    split
    · exact h
    · split
      · exact h.update (h i)
      next p key _ =>
        have hparent := ih (h.update (i := i) (s := { d.states i with
          modified := true
          copy := (d.states i).overlay (d.baseOf (d.states i)) }) (h i)) p
        exact hparent.update (hparent p)

theorem getTrap (h : Wrapped d) {i : ℕ} {k : Key} {v : Value}
    (hget : d.getTrap i k = some (v, d')) : Wrapped d' := by
  have hnew : ∀ (r : ℕ) (s : StateProxy), s.wrapped = (d.states i).wrapped →
      Wrapped ((d.create (.fresh d.heap r (some (i, k)))).update i s) :=
    fun r s hs => (h.create rfl).update (hs.trans (h i))
  obtain ⟨rfl, -⟩ | ⟨-, r, -, ⟨-, hd⟩ | ⟨-, -, hd⟩⟩ := Drafts.getTrap_cases hget
  · exact h
  · rw [hd]
    exact hnew r _ rfl
  · rw [hd]
    exact hnew r _ rfl

theorem setTrap (h : Wrapped d) {i : ℕ} {k : Key} {v : Value}
    (hset : d.setTrap i k v = some ((), d')) : Wrapped d' := by
  simp only [Drafts.setTrap] at hset
  split at hset
  · cases hset
  split at hset
  · obtain ⟨-, rfl⟩ := Prod.mk.inj (Option.some.inj hset)
    exact h
  · obtain ⟨copy, -, hset⟩ := Option.map_eq_some_iff.1 hset
    obtain ⟨-, rfl⟩ := Prod.mk.inj hset
    have hmark := h.markChanged d.count i
    exact hmark.update (hmark i)

end Wrapped

/-- What all steps of the machine keep, a producer keeps. -/
theorem CardStep.runAll_ensures {P : Drafts → Prop}
    (hget : ∀ o k, Ensures P (drafts.get o k) fun _ => P)
    (hset : ∀ o k v, Ensures P (drafts.set o k v) fun _ => P)
    (hisArray : ∀ o, Ensures P (drafts.isArray o) fun _ => P)
    (halloc : ∀ lit, Ensures P (drafts.alloc lit) fun _ => P) (func : List CardStep) :
    Ensures P (runAll func) fun _ => P := by
  have hfollow : ∀ path v, Ensures P (drafts.follow v path) fun _ => P := by
    intro path
    induction path with
    | nil => exact fun v => .pure fun _ => id
    | cons k path ih => exact fun v => (hget v k).bind ih
  have hsource : ∀ source : Source, Ensures P source.run fun _ => P := by
    intro source
    cases source with
    | new data => exact halloc data.toLit
    | existing r =>
      intro d v d' hd h
      simp only [Source.run, Option.ite_none_right_eq_some] at h
      obtain ⟨-, rfl⟩ := Prod.mk.inj (Option.some.inj h.2)
      exact hd
    | field f => exact hget _ _
  have hitems : ∀ (o : Value) (values : List Value) (i : ℕ),
      Ensures P (drafts.setItems o i values) fun _ => P := by
    intro o values
    induction values with
    | nil => exact fun i => .pure fun _ => id
    | cons v values ih => exact fun i => (hset o _ v).bind fun _ => ih (i + 1)
  have hpush : ∀ o values, Ensures P (drafts.push o values) fun _ => P := by
    intro o values
    refine Ensures.bind (Q := fun _ => P) ?_ fun len => ?_
    · refine (hget o .length).bind fun v => ?_
      split
      · exact .pure fun _ => id
      · exact .of_failure
    · exact (hitems o values len).bind fun _ => hset o .length _
  have hstep : ∀ step : CardStep, Ensures P step.run fun _ => P := by
    intro step
    cases step with
    | read path => exact (hfollow path _).bind fun _ => .pure fun _ => id
    | assign f value hnew => exact (hsource value).bind fun v => hset _ _ v
    | updateStatus status => exact (hget _ _).bind fun old => (hset _ _ old).bind fun _ => hset _ _ _
    | revertStatus =>
      refine (hget _ _).bind fun clued => ?_
      simp only
      split
      · exact (hset _ _ _).bind fun _ => hset _ _ _
      · exact (hget _ _).bind fun last => (hset _ _ last).bind fun _ => hset _ _ _
    | push f items harray =>
      refine (hget _ _).bind fun o => (hisArray o).bind fun isArray => ?_
      cases isArray with
      | true => exact (Ensures.mapM fun source _ => hsource source).bind (hpush o)
      | false => exact .of_failure
  induction func with
  | nil => exact .pure fun _ => id
  | cons step steps ih => exact (hstep step).bind fun _ => ih

/-- No step of a producer on a card takes a state out of its wrapper. -/
theorem runAll_wrapped (func : List CardStep) :
    Ensures Wrapped (CardStep.runAll func) fun _ => Wrapped := by
  apply CardStep.runAll_ensures
  · intro o k d v d' hd h
    cases o with
    | prim p =>
      obtain ⟨_, -, h⟩ := Option.map_eq_some_iff.1 h
      obtain ⟨-, rfl⟩ := Prod.mk.inj h
      exact hd
    | ref r =>
      obtain ⟨-, rfl⟩ := Prod.mk.inj (Option.some.inj h)
      exact hd
    | draft i => exact hd.getTrap h
    | copy i => cases h
  · intro o k v d _ d' hd h
    cases o with
    | prim p => cases h
    | ref r =>
      obtain ⟨c, -, h⟩ := Option.map_eq_some_iff.1 h
      obtain ⟨-, rfl⟩ := Prod.mk.inj h
      exact hd
    | draft i => exact hd.setTrap h
    | copy i => cases h
  · intro o d b d' hd h
    cases o <;> obtain ⟨-, rfl⟩ := Prod.mk.inj (Option.some.inj h) <;> exact hd
  · intro lit d v d' hd h
    obtain ⟨-, rfl⟩ := Prod.mk.inj (Option.some.inj h)
    exact hd

/-- The drafts that finalizing has yet to go through. -/
def pending (d : Drafts) : Finset ℕ :=
  (Finset.range d.count).filter fun j =>
    (d.states j).modified = true ∧ (d.states j).finalized = false

/-- Drafts that can be finalized with some fuel. -/
structure Ready (fuel : ℕ) (d : Drafts) : Prop where
  wrapped : Wrapped d
  fresh : ∀ j, d.count ≤ j → (d.states j).modified = false
  pending_le : (pending d).card ≤ fuel

/-- Finalizing only takes drafts off those that it has yet to go through. -/
theorem SameBut.pending_subset {P : ℕ → Prop} {d d' : Drafts} (h : SameBut P d d') :
    pending d' ⊆ pending d := by
  intro j hj
  simp only [pending, Finset.mem_filter, h.count, h.modified] at hj ⊢
  refine ⟨hj.1, hj.2.1, ?_⟩
  by_contra hne
  have hfinalized := h.finalized j (by simpa using hne)
  rw [hj.2.2] at hfinalized
  cases hfinalized

theorem SameBut.ready {P : ℕ → Prop} {d d' : Drafts} (h : SameBut P d d') {fuel : ℕ}
    (hready : Ready fuel d) : Ready fuel d' where
  wrapped j := (h.wrapped j).trans (hready.wrapped j)
  fresh j hj := (h.modified j).trans (hready.fresh j (h.count ▸ hj))
  pending_le := (Finset.card_le_card h.pending_subset).trans hready.pending_le

theorem finalizeEntries_returns {fuel : ℕ}
    (hfin : ∀ v d, Ready fuel d → ∃ v' d', finalize fuel v d = some (v', d')) (i : ℕ)
    (entries : List (Key × Value)) {d : Drafts} (hready : Ready fuel d) :
    ∃ d', finalizeEntries (finalize fuel) i entries d = some d' := by
  induction entries generalizing d with
  | nil => exact ⟨d, rfl⟩
  | cons entry entries ih =>
    obtain ⟨k, value⟩ := entry
    simp only [finalizeEntries]
    split
    · exact ih hready
    · obtain ⟨v, d₁, hv⟩ := hfin ((d.states i).copy.read k) d hready
      have hready₁ := (finalize_same fuel _ d v d₁ hv).ready hready
      obtain ⟨d', hd'⟩ := ih ((SameBut.putCopy d₁ i k v).ready hready₁)
      exact ⟨d', by rw [hv]; exact hd'⟩

/-- Finalizing returns: every round goes through another draft. -/
theorem finalize_returns (fuel : ℕ) (v : Value) (d : Drafts) (hready : Ready fuel d) :
    ∃ v' d', finalize fuel v d = some (v', d') := by
  by_cases hdraft : ∃ i, v = .draft i
  swap
  · exact ⟨v, d, finalize_of_not_draft fuel (not_exists.1 hdraft) d⟩
  obtain ⟨i, rfl⟩ := hdraft
  cases hmodified : (d.states i).modified with
  | false =>
    refine ⟨.ref (d.states i).base, d, ?_⟩
    cases fuel <;> simp [finalize, hready.wrapped i, hmodified]
  | true =>
    cases hfinalized : (d.states i).finalized with
    | true =>
      refine ⟨.copy i, d, ?_⟩
      cases fuel <;> simp [finalize, hready.wrapped i, hmodified, hfinalized]
    | false =>
      have hlt : i < d.count := by
        by_contra hge
        rw [hready.fresh i (Nat.le_of_not_lt hge)] at hmodified
        cases hmodified
      have hmem : i ∈ pending d := by simp [pending, hlt, hmodified, hfinalized]
      cases fuel with
      | zero =>
        have hpos := Finset.card_pos.2 ⟨i, hmem⟩
        have hle := hready.pending_le
        omega
      | succ fuel =>
        set d₁ := d.update i { d.states i with finalized := true } with hd₁
        have hmark : SameBut (fun j => j = i) d d₁ := .update rfl rfl rfl rfl rfl fun _ => rfl
        have hgone : i ∉ pending d₁ := by simp [pending, hd₁]
        have hless : (pending d₁).card < (pending d).card :=
          Finset.card_lt_card ⟨hmark.pending_subset, fun hsub => hgone (hsub hmem)⟩
        have hready₁ : Ready fuel d₁ :=
          { hmark.ready hready with
            pending_le := Nat.le_of_lt_succ (hless.trans_le hready.pending_le) }
        obtain ⟨d', hd'⟩ := finalizeEntries_returns (fun v d => finalize_returns fuel v d) i
          ((d.states i).copy.keys.filterMap fun k =>
            ((d.states i).copy.own k).map fun v => (k, v)) hready₁
        refine ⟨.copy i, d', ?_⟩
        have hwrapped := hready.wrapped i
        rw [finalize, if_neg (by simp [hwrapped]), if_neg (by simp [hmodified]),
          if_neg (by simp [hfinalized])]
        show (finalizeEntries (finalize fuel) i _ d₁).bind _ = _
        rw [hd']
        rfl

/-! ## What finalizing leaves -/

/-- What a card can hold once it is final. -/
def Final (d : Drafts) : Value → Prop
  | .prim _ => True
  | .ref r => r < d.heap.next
  | .copy j => j < d.count
  | .draft _ => False

/-- A property of the root is done with: it is final, and as it was unless it is modified. -/
structure Done (card : Cell) (d d' : Drafts) (k : Key) : Prop where
  final : ∀ v, (d'.states 0).copy.own k = some v → Final d v
  kept : k ∉ (d.states 0).modifiedProps → (d'.states 0).copy.own k = card.own k

section

variable {heap : Heap} {card : Cell} {d : Drafts}

/-- Finalizing one property of the root. -/
theorem RootInv.finalize_value (hinv : RootInv heap card d) (hcard : IsCard heap card)
    (hmodified : (d.states 0).modified = true) {k : Key} {value : Value}
    (hown : (d.states 0).copy.own k = some value) {fuel : ℕ} {d₁ d₂ : Drafts} {v : Value}
    (hsame : ∀ j, (d₁.states j).base = (d.states j).base ∧
      (d₁.states j).modified = (d.states j).modified)
    (h : finalize fuel value d₁ = some (v, d₂)) :
    Final d v ∧ (k ∉ (d.states 0).modifiedProps → some v = card.own k) := by
  have hstored := hinv.stored hmodified k value hown
  cases value with
  | prim p =>
    rw [finalize_of_not_draft fuel (by simp)] at h
    obtain ⟨rfl, -⟩ := Prod.mk.inj (Option.some.inj h)
    refine ⟨trivial, fun hk => ?_⟩
    obtain hkept | ⟨j, hj, -⟩ := hinv.kept hmodified k hk
    · rw [← hkept, hown]
    · exact absurd (hown.symm.trans hj) (by simp)
  | ref r =>
    rw [finalize_of_not_draft fuel (by simp)] at h
    obtain ⟨rfl, -⟩ := Prod.mk.inj (Option.some.inj h)
    refine ⟨hstored.1, fun hk => ?_⟩
    obtain hkept | ⟨j, hj, -⟩ := hinv.kept hmodified k hk
    · rw [← hkept, hown]
    · exact absurd (hown.symm.trans hj) (by simp)
  | copy j => exact hstored.elim
  | draft j =>
    obtain ⟨hbase, k', hj, -⟩ := hstored
    obtain ⟨-, ⟨hunmodified, rfl⟩ | ⟨hmod, rfl⟩⟩ := finalize_draft fuel j d₁ v d₂ h
    · rw [(hsame j).1]
      refine ⟨hbase.trans hinv.next_lt, fun hk => ?_⟩
      obtain hkept | ⟨i, hi, -, hi'⟩ := hinv.kept hmodified k hk
      · exact (hcard.below k _ (hkept.symm.trans hown)).elim
      · obtain rfl : i = j := by simpa using hi.symm.trans hown
        exact hi'.symm
    · refine ⟨hj.lt, fun hk => ?_⟩
      obtain hkept | ⟨i, hi, hi', -⟩ := hinv.kept hmodified k hk
      · exact (hcard.below k _ (hkept.symm.trans hown)).elim
      · -- the draft of a property that is not marked has not been modified
        obtain rfl : i = j := by simpa using hi.symm.trans hown
        exact absurd (hinv.child i k hi' ((hsame i).2.symm.trans hmod)).2 hk

/-- A property that already is what it was is done with. -/
theorem RootInv.done_of_strictEq (hinv : RootInv heap card d) (hcard : IsCard heap card)
    (hmodified : (d.states 0).modified = true) {k : Key} {value : Value}
    (hown : (d.states 0).copy.own k = some value) (heq : value.strictEq (card.read k) = true) :
    Final d value ∧ (k ∉ (d.states 0).modifiedProps → some value = card.own k) := by
  have hnot : ∀ i, value ≠ .draft i := by
    rintro i rfl
    obtain ⟨p, hp⟩ | ⟨r, -, hr⟩ := hcard.read_cases k
    · rw [hp] at heq
      exact absurd heq (by simp [Value.strictEq])
    · rw [hr] at heq
      exact absurd heq (by simp [Value.strictEq])
  exact hinv.finalize_value hcard hmodified hown (fun _ => ⟨rfl, rfl⟩)
    (finalize_of_not_draft 0 hnot d)

/-- The loop over the properties of the root. -/
theorem RootInv.finalizeEntries_root (hinv : RootInv heap card d) (hcard : IsCard heap card)
    (hmodified : (d.states 0).modified = true) (fuel : ℕ) (entries : List (Key × Value))
    (hentries : ∀ e ∈ entries, (d.states 0).copy.own e.1 = some e.2) (d₁ d₂ : Drafts)
    (hsame : SameBut (fun _ => True) d d₁) (hobject : (d₁.states 0).copy.isArray = false)
    (hfinalized : (d₁.states 0).finalized = true)
    (hsome : ∀ k, (d.states 0).copy.own k ≠ none → (d₁.states 0).copy.own k ≠ none)
    (hprogress : ∀ k, Done card d d₁ k ∨
      ((d₁.states 0).copy.own k = (d.states 0).copy.own k ∧ ∃ v, (k, v) ∈ entries))
    (h : finalizeEntries (finalize fuel) 0 entries d₁ = some d₂) :
    (∀ k, Done card d d₂ k) ∧ (d₂.states 0).copy.isArray = false := by
  induction entries generalizing d₁ with
  | nil =>
    obtain rfl := Option.some.inj h
    refine ⟨fun k => ?_, hobject⟩
    obtain hdone | ⟨-, v, hv⟩ := hprogress k
    · exact hdone
    · cases hv
  | cons entry entries ih =>
    obtain ⟨k, value⟩ := entry
    have hown : (d.states 0).copy.own k = some value := hentries _ List.mem_cons_self
    have hbase : d₁.baseOf (d₁.states 0) = card := by
      rw [Drafts.baseOf, hsame.heap, hsame.base, ← Drafts.baseOf, hinv.baseOf_root]
    have hrest : ∀ e ∈ entries, (d.states 0).copy.own e.1 = some e.2 :=
      fun e he => hentries e (List.mem_cons_of_mem _ he)
    simp only [finalizeEntries, hbase] at h
    split at h
    next heq =>
      refine ih hrest d₁ hsame hobject hfinalized hsome (fun k' => ?_) h
      obtain hdone | ⟨hwas, v, hv⟩ := hprogress k'
      · exact .inl hdone
      obtain hv | hv := List.mem_cons.1 hv
      · obtain ⟨rfl, rfl⟩ := Prod.mk.inj hv
        obtain ⟨hfinal, hkept⟩ := hinv.done_of_strictEq hcard hmodified hown heq
        refine .inl ⟨fun w hw => ?_, fun hk => ?_⟩
        · rw [hwas, hown] at hw
          exact Option.some.inj hw ▸ hfinal
        · rw [hwas, hown, hkept hk]
      · exact .inr ⟨hwas, v, hv⟩
    next =>
      obtain ⟨⟨v, d₃⟩, hv, h⟩ := Option.bind_eq_some_iff.1 h
      have hfin := finalize_same fuel _ d₁ v d₃ hv
      have hroot : d₃.states 0 = d₁.states 0 := hfin.same 0 (by simp [hfinalized])
      have hput : (d₃.putCopy 0 k v).states 0 =
          { d₁.states 0 with copy := (d₁.states 0).copy.put k v } := by
        rw [Drafts.putCopy, Drafts.states_update_self, hroot]
      have hownput : ∀ k', ((d₃.putCopy 0 k v).states 0).copy.own k' =
          if k' = k then some v else (d₁.states 0).copy.own k' := by
        intro k'
        rw [hput]
        exact Cell.own_put ..
      obtain ⟨w, hw⟩ := Option.ne_none_iff_exists'.1 (hsome k (by rw [hown]; simp))
      have hread : (d₁.states 0).copy.read k = w := by
        rw [Cell.read, if_neg (by simp [hobject]), hw]
        rfl
      rw [hread] at hv
      refine ih hrest (d₃.putCopy 0 k v) ((hsame.trans hfin fun _ _ => trivial).trans
        (SameBut.putCopy d₃ 0 k v) fun _ _ => trivial) ?_ ?_ ?_ (fun k' => ?_) h
      · rw [hput]
        exact hobject
      · rw [hput]
        exact hfinalized
      · intro k' hk'
        rw [hownput]
        split
        · simp
        · exact hsome k' hk'
      by_cases hkk : k' = k
      · subst hkk
        refine .inl ?_
        suffices hdone : Final d v ∧ (k' ∉ (d.states 0).modifiedProps → some v = card.own k') by
          refine ⟨fun w' hw' => ?_, fun hk => ?_⟩
          · rw [hownput, if_pos rfl] at hw'
            exact Option.some.inj hw' ▸ hdone.1
          · rw [hownput, if_pos rfl, hdone.2 hk]
        obtain hdone | ⟨hwas, -⟩ := hprogress k'
        · have hfinal := hdone.final w hw
          have hnot : ∀ i, w ≠ .draft i := by
            rintro i rfl
            exact hfinal
          rw [finalize_of_not_draft fuel hnot] at hv
          obtain ⟨rfl, -⟩ := Prod.mk.inj (Option.some.inj hv)
          exact ⟨hfinal, fun hk => hw.symm.trans (hdone.kept hk)⟩
        · exact hinv.finalize_value hcard hmodified (hwas.symm.trans hw)
            (fun j => ⟨hsame.base j, hsame.modified j⟩) hv
      · obtain hdone | ⟨hwas, v', hv'⟩ := hprogress k'
        · refine .inl ⟨fun w' hw' => ?_, fun hk => ?_⟩
          · rw [hownput, if_neg hkk] at hw'
            exact hdone.final w' hw'
          · rw [hownput, if_neg hkk, hdone.kept hk]
        · refine .inr ⟨by rw [hownput, if_neg hkk, hwas], v', ?_⟩
          obtain hv' | hv' := List.mem_cons.1 hv'
          · exact absurd (Prod.mk.inj hv').1 hkk
          · exact hv'

/-- The card once the producer has finished. -/
theorem RootInv.finalize_root (hinv : RootInv heap card d) (hcard : IsCard heap card)
    (hmodified : (d.states 0).modified = true) {v : Value} {d' : Drafts}
    (h : finalize d.count (.draft 0) d = some (v, d')) :
    v = .copy 0 ∧ (∀ k, Done card d d' k) ∧ (d'.states 0).copy.isArray = false := by
  obtain ⟨fuel, hfuel⟩ : ∃ fuel, d.count = fuel + 1 := ⟨d.count - 1, by
    have hpos := hinv.count_pos
    omega⟩
  rw [hfuel] at h
  simp only [finalize] at h
  split at h
  · cases h
  split at h
  next hnot => exact absurd hmodified (by simpa using hnot)
  split at h
  next hfinalized => exact absurd (hinv.unfinalized.symm.trans hfinalized) (by simp)
  obtain ⟨d₁, hentries, h⟩ := Option.bind_eq_some_iff.1 h
  obtain ⟨rfl, rfl⟩ := Prod.mk.inj (Option.some.inj h)
  refine ⟨rfl, ?_⟩
  have hroot : (d.update 0 { d.states 0 with finalized := true }).states 0 =
      { d.states 0 with finalized := true } := Drafts.states_update_self ..
  have hmem : ∀ k v, (k, v) ∈ ((d.states 0).copy.keys.filterMap fun k =>
      ((d.states 0).copy.own k).map fun v => (k, v)) ↔ (d.states 0).copy.own k = some v := by
    intro k v
    simp only [List.mem_filterMap, Option.map_eq_some_iff, Prod.mk.injEq]
    constructor
    · rintro ⟨k', -, v', hown, rfl, rfl⟩
      exact hown
    · intro hown
      exact ⟨k, (d.states 0).copy.mem_keys k (by rw [hown]; simp), v, hown, rfl, rfl⟩
  have hmark : SameBut (fun _ => True) d (d.update 0 { d.states 0 with finalized := true }) := by
    refine SameBut.mono (P := fun j => j = 0) ?_ fun _ _ => trivial
    exact .update rfl rfl rfl rfl rfl fun _ => rfl
  refine hinv.finalizeEntries_root hcard hmodified fuel _ (fun e he => (hmem e.1 e.2).1 he) _ d₁
    hmark ?_ ?_ ?_ ?_ hentries
  · rw [hroot]
    exact hinv.isObject hmodified
  · rw [hroot]
  · intro k hk
    rw [hroot]
    exact hk
  · intro k
    rw [hroot]
    cases hown : (d.states 0).copy.own k with
    | some v => exact .inr ⟨rfl, v, (hmem k v).2 hown⟩
    | none =>
      refine .inl ⟨fun v hv => ?_, fun hk => ?_⟩
      · rw [hroot] at hv
        exact absurd (hown.symm.trans hv) (by simp)
      · rw [hroot]
        obtain hkept | ⟨j, hj, -⟩ := hinv.kept hmodified k hk
        · exact hkept
        · exact absurd (hown.symm.trans hj) (by simp)

end

end HanabiBot.Drafting
