import HanabiBot.Drafting.MirrorSteps

/-!
# Drafts are copy-on-write

On a tree of plain objects and arrays, `produce` answers with what the producer makes of the
objects themselves, as long as the producer stays clear of the gaps that drafts have
(`produce_agrees`).

* `Advancing.of_finalize` — finalizing replaces every draft in the copies by its base or its copy;
* `Mirror.sameTo` — the objects and the finalized drafts are equal structures;
* `careful_plain` — a careful step is a step on the objects.
-/

namespace HanabiBot.Drafting

variable {heap : Heap} {root : ℕ} {t : Tracked} {d d' : Drafts} {i : ℕ} {k : Key} {v w : Value}

/-! ## What finalizing makes of the drafts -/

/-- What stands for a value once the drafts have been finalized. -/
def Drafts.finalOf (d : Drafts) : Value → Value
  | .draft j => if (d.states j).modified then .copy j else .ref (d.states j).base
  | v => v

theorem Drafts.finalOf_finalOf (d : Drafts) (v : Value) :
    d.finalOf (d.finalOf v) = d.finalOf v := by
  cases v with
  | draft j => cases hmodified : (d.states j).modified <;> simp [finalOf, hmodified]
  | _ => rfl

/-- The copies of a producer's drafts, before they are finalized. -/
structure Copies (d : Drafts) : Prop where
  base : ∀ i k j, (d.states i).modified = true → (d.baseOf (d.states i)).read k ≠ .draft j
  length : ∀ i k v, (d.states i).modified = true → (d.states i).copy.own k = some v →
    ¬((d.states i).copy.isArray = true ∧ k = .length) ∧
      (d.states i).copy.lenWith k = (d.states i).copy.len

/-- A copy that has been gone through. -/
structure Through (d₁ d : Drafts) (i : ℕ) : Prop where
  isArray : (d.states i).copy.isArray = (d₁.states i).copy.isArray
  len : (d.states i).copy.len = (d₁.states i).copy.len
  own : ∀ k, (d.states i).copy.own k = ((d₁.states i).copy.own k).map d₁.finalOf

/-- Drafts that are being finalized: what has not been gone through is as it was. -/
structure Advancing (d₁ : Drafts) (running : ℕ → Prop) (d : Drafts) : Prop where
  same : SameBut (fun _ => True) d₁ d
  waiting : ∀ j, (d.states j).finalized = false → d.states j = d₁.states j
  through : ∀ j, (d.states j).finalized = true → ¬ running j → Through d₁ d j

namespace Advancing

variable {d₁ : Drafts} {running : ℕ → Prop}

/-- What finalizing a single value does. -/
def Does (d₁ : Drafts) (running : ℕ → Prop) (d : Drafts) (v : Value)
    (result : Option (Value × Drafts)) : Prop :=
  ∀ v' d', result = some (v', d') → Advancing d₁ running d →
    Advancing d₁ running d' ∧ v' = d₁.finalOf v

theorem mark (h : Advancing d₁ running d) (i : ℕ) :
    Advancing d₁ (fun j => running j ∨ j = i)
      (d.update i { d.states i with finalized := true }) := by
  have hsame : SameBut (fun j => j = i) d (d.update i { d.states i with finalized := true }) :=
    .update rfl rfl rfl rfl rfl fun _ => rfl
  refine ⟨h.same.trans hsame fun _ _ => trivial, fun j hj => ?_, fun j hj hrunning => ?_⟩
  · by_cases hji : j = i
    · rw [hji, Drafts.states_update_self] at hj
      cases hj
    · rw [Drafts.states_update_of_ne d hji] at hj ⊢
      exact h.waiting j hj
  · obtain ⟨hnot, hne⟩ := not_or.1 hrunning
    rw [Drafts.states_update_of_ne d hne] at hj
    obtain ⟨hisArray, hlen, hown⟩ := h.through j hj hnot
    refine ⟨?_, ?_, ?_⟩ <;> rw [Drafts.states_update_of_ne d hne]
    · exact hisArray
    · exact hlen
    · exact hown

theorem putCopy (h : Advancing d₁ running d) {i : ℕ} (hi : running i)
    (hfinalized : (d.states i).finalized = true) :
    Advancing d₁ running (d.putCopy i k v) := by
  have hsame := SameBut.putCopy d i k v
  refine ⟨h.same.trans hsame fun _ _ => trivial, fun j hj => ?_, fun j hj hrunning => ?_⟩
  · by_cases hji : j = i
    · rw [hji, hsame.finalized i hfinalized] at hj
      cases hj
    · rw [hsame.same j hji] at hj ⊢
      exact h.waiting j hj
  · have hne : j ≠ i := by
      rintro rfl
      exact hrunning hi
    rw [hsame.same j hne] at hj
    obtain ⟨hisArray, hlen, hown⟩ := h.through j hj hrunning
    refine ⟨?_, ?_, ?_⟩ <;> rw [hsame.same j hne]
    · exact hisArray
    · exact hlen
    · exact hown

/-- Going through the entries of a copy. -/
theorem entries {fin : Value → Drafts → Option (Value × Drafts)} {i : ℕ} (hcopies : Copies d₁)
    (hi : running i) (hmodified : (d₁.states i).modified = true)
    (hfin : ∀ v d, Does d₁ running d v (fin v d))
    (hsame : ∀ v d v' d', fin v d = some (v', d') →
      SameBut (fun j => (d.states j).finalized = false) d d')
    (entries : List (Key × Value)) (d d' : Drafts) (h : Advancing d₁ running d)
    (hfinalized : (d.states i).finalized = true)
    (hisArray : (d.states i).copy.isArray = (d₁.states i).copy.isArray)
    (hlen : (d.states i).copy.len = (d₁.states i).copy.len)
    (hentries : ∀ e ∈ entries, (d₁.states i).copy.own e.1 = some e.2)
    (hown : ∀ k, (d.states i).copy.own k = ((d₁.states i).copy.own k).map d₁.finalOf ∨
      (d.states i).copy.own k = (d₁.states i).copy.own k ∧
        ∃ v, (d₁.states i).copy.own k = some v ∧ (k, v) ∈ entries)
    (hrun : finalizeEntries fin i entries d = some d') :
    Advancing d₁ running d' ∧ Through d₁ d' i ∧ (d'.states i).finalized = true := by
  induction entries generalizing d with
  | nil =>
    obtain rfl := Option.some.inj hrun
    refine ⟨h, ⟨hisArray, hlen, fun k => (hown k).resolve_right ?_⟩, hfinalized⟩
    rintro ⟨-, v, -, hmem⟩
    exact List.not_mem_nil hmem
  | cons entry entries ih =>
    obtain ⟨k, value⟩ := entry
    have hvalue : (d₁.states i).copy.own k = some value := hentries _ List.mem_cons_self
    have hrest : ∀ e ∈ entries, (d₁.states i).copy.own e.1 = some e.2 :=
      fun e he => hentries e (List.mem_cons_of_mem _ he)
    -- the other entries
    have hlater : ∀ {k'}, k' ≠ k → (∃ v, (d₁.states i).copy.own k' = some v ∧
        (k', v) ∈ (k, value) :: entries) → ∃ v, (d₁.states i).copy.own k' = some v ∧
          (k', v) ∈ entries := by
      rintro k' hne ⟨v, hv, hmem⟩
      exact ⟨v, hv, (List.mem_cons.1 hmem).resolve_left fun heq => hne (Prod.mk.inj heq).1⟩
    simp only [finalizeEntries] at hrun
    split at hrun
    next heq =>
      refine ih d h hfinalized hisArray hlen hrest (fun k' => ?_) hrun
      by_cases hkk : k' = k
      · subst hkk
        refine .inl ?_
        have hplain : d₁.finalOf value = value := by
          have hbase := fun j => hcopies.base i k' j hmodified
          rw [← Finishing.baseOf_of_same h.same] at hbase
          cases value with
          | draft j =>
            cases hread : (d.baseOf (d.states i)).read k' with
            | draft j' => exact absurd hread (hbase j')
            | _ =>
              rw [hread] at heq
              exact absurd heq (by simp [Value.strictEq])
          | _ => rfl
        obtain hdone | ⟨hsame', -⟩ := hown k'
        · exact hdone
        · rw [hsame', hvalue, Option.map_some, hplain]
      · exact (hown k').imp_right fun hold => ⟨hold.1, hlater hkk hold.2⟩
    next =>
      obtain ⟨⟨v, d₂⟩, hv, hrun⟩ := Option.bind_eq_some_iff.1 hrun
      obtain ⟨h₂, hfinal⟩ := hfin _ d v d₂ hv h
      have hsame₂ := hsame _ d v d₂ hv
      have hstate : d₂.states i = d.states i := hsame₂.same i (by simp [hfinalized])
      obtain ⟨hnot, hlenWith⟩ := hcopies.length i k value hmodified hvalue
      have hread : (d.states i).copy.read k = (((d.states i).copy.own k).getD
          (.prim (inherited (d.states i).copy.isArray k))) := if_neg (by rwa [hisArray])
      have hvfinal : v = d₁.finalOf value := by
        rw [hfinal, hread]
        obtain hdone | ⟨hsame', -⟩ := hown k
        · rw [hdone, hvalue, Option.map_some, Option.getD_some]
          exact d₁.finalOf_finalOf value
        · rw [hsame', hvalue, Option.getD_some]
      have hput : (d₂.putCopy i k v).states i =
          { d.states i with copy := (d.states i).copy.put k v } := by
        rw [Drafts.putCopy, Drafts.states_update_self, hstate]
      refine ih (d₂.putCopy i k v) (h₂.putCopy hi (hstate ▸ hfinalized)) ?_ ?_ ?_ hrest
        (fun k' => ?_) hrun
      · rw [hput]
        exact hfinalized
      · rw [hput]
        exact hisArray
      · rw [hput]
        refine Eq.trans ?_ hlen
        show (d.states i).copy.lenWith k = (d.states i).copy.len
        unfold Cell.lenWith at hlenWith ⊢
        rw [hisArray, hlen]
        exact hlenWith
      · rw [hput]
        show ((d.states i).copy.put k v).own k' = _ ∨ ((d.states i).copy.put k v).own k' = _ ∧ _
        rw [Cell.own_put]
        by_cases hkk : k' = k
        · subst hkk
          rw [if_pos rfl, hvalue, hvfinal]
          exact .inl rfl
        · rw [if_neg hkk]
          exact (hown k').imp_right fun hold => ⟨hold.1, hlater hkk hold.2⟩

theorem does_self (hv : ∀ j, v ≠ .draft j) : Does d₁ running d v (some (v, d)) := by
  intro v' d' hrun h
  obtain ⟨rfl, rfl⟩ := Prod.mk.inj (Option.some.inj hrun)
  refine ⟨h, ?_⟩
  cases v with
  | draft j => exact absurd rfl (hv j)
  | _ => rfl

theorem of_finalize (hcopies : Copies d₁) (fuel : ℕ) (running : ℕ → Prop) (v : Value) (d : Drafts) :
    Does d₁ running d v (finalize fuel v d) := by
  induction fuel generalizing running v d with
  | zero =>
    by_cases hdraft : ∃ i, v = .draft i
    · obtain ⟨i, rfl⟩ := hdraft
      intro v' d' hrun h
      have hv := (finalize_draft 0 i d v' d' hrun).2
      rw [h.same.modified, h.same.base] at hv
      have hd' : d' = d := by
        simp only [finalize] at hrun
        split at hrun
        · cases hrun
        split at hrun
        · exact (Prod.mk.inj (Option.some.inj hrun)).2.symm
        · split at hrun
          · exact (Prod.mk.inj (Option.some.inj hrun)).2.symm
          · cases hrun
      rw [hd']
      refine ⟨h, ?_⟩
      obtain ⟨hmodified, rfl⟩ | ⟨hmodified, rfl⟩ := hv <;> simp [Drafts.finalOf, hmodified]
    · rw [finalize_of_not_draft 0 (not_exists.1 hdraft)]
      exact does_self (not_exists.1 hdraft)
  | succ fuel ih =>
    by_cases hdraft : ∃ i, v = .draft i
    · obtain ⟨i, rfl⟩ := hdraft
      intro v' d' hrun h
      have hv := (finalize_draft (fuel + 1) i d v' d' hrun).2
      rw [h.same.modified, h.same.base] at hv
      refine ⟨?_, by obtain ⟨hmodified, rfl⟩ | ⟨hmodified, rfl⟩ := hv <;>
        simp [Drafts.finalOf, hmodified]⟩
      simp only [finalize] at hrun
      split at hrun
      · cases hrun
      split at hrun
      · exact (Prod.mk.inj (Option.some.inj hrun)).2 ▸ h
      next hmodified =>
        split at hrun
        · exact (Prod.mk.inj (Option.some.inj hrun)).2 ▸ h
        next hfinalized =>
          rw [Bool.not_eq_true] at hfinalized
          obtain ⟨d₂, hentries, hrun⟩ := Option.bind_eq_some_iff.1 hrun
          obtain ⟨-, rfl⟩ := Prod.mk.inj (Option.some.inj hrun)
          have hstate : (d.update i { d.states i with finalized := true }).states i =
              { d.states i with finalized := true } := Drafts.states_update_self ..
          have hwas := h.waiting i hfinalized
          have hmodified₁ : (d₁.states i).modified = true := by
            rw [← hwas]
            simpa using hmodified
          have hi : (fun j => running j ∨ j = i) i := .inr rfl
          have hlisted : ∀ k v, (k, v) ∈ ((d.states i).copy.keys.filterMap fun k =>
              ((d.states i).copy.own k).map fun v => (k, v)) ↔
                (d.states i).copy.own k = some v := by
            intro k v
            simp only [List.mem_filterMap, Option.map_eq_some_iff, Prod.mk.injEq]
            constructor
            · rintro ⟨k', -, v', hown, rfl, rfl⟩
              exact hown
            · intro hown
              exact ⟨k, (d.states i).copy.mem_keys k (by rw [hown]; simp), v, hown, rfl, rfl⟩
          obtain ⟨h₂, hthrough, hfinalized₂⟩ := entries hcopies hi hmodified₁ (ih _)
            (finalize_same fuel) _ _ d₂ (h.mark i) (by rw [hstate])
            (by rw [hstate, hwas]) (by rw [hstate, hwas])
            (fun e he => by
              rw [← hwas]
              exact (hlisted e.1 e.2).1 he)
            (fun k => by
              rw [hstate]
              show (d.states i).copy.own k = _ ∨ (d.states i).copy.own k = _ ∧ _
              rw [← hwas]
              cases hown : (d.states i).copy.own k with
              | none => exact .inl rfl
              | some v => exact .inr ⟨rfl, v, rfl, (hlisted k v).2 hown⟩) hentries
          refine ⟨h₂.same, h₂.waiting, fun j hj hrunning => ?_⟩
          by_cases hji : j = i
          · rw [hji]
            exact hthrough
          · exact h₂.through j hj (not_or.2 ⟨hrunning, hji⟩)
    · rw [finalize_of_not_draft (fuel + 1) (not_exists.1 hdraft)]
      exact does_self (not_exists.1 hdraft)

end Advancing

/-! ## Equal structures -/

namespace Drafts

/-- The object that a value of the answer stands for. -/
def cellOf (d : Drafts) : Value → Option Cell
  | .ref r => some (d.heap.cells r)
  | .copy i => some (d.states i).copy
  | _ => none

end Drafts

/-- A value among some objects and a value of an answer are equal down to a depth. -/
def Heap.sameTo (h : Heap) (d : Drafts) : ℕ → Value → Value → Prop
  | 0, _, _ => True
  | _ + 1, .prim p, w => w = .prim p
  | n + 1, .ref r, w => ∃ c, d.cellOf w = some c ∧ c.isArray = (h.cells r).isArray ∧
      c.len = (h.cells r).len ∧ ∀ k, Option.Rel (h.sameTo d n) ((h.cells r).own k) (c.own k)
  | _, _, _ => False

/-- The two values are structurally equal. -/
def Heap.Same (h : Heap) (d : Drafts) (v w : Value) : Prop := ∀ n, h.sameTo d n v w

/-- What the two programs hold, or an object that none of them has read. -/
def Shown (heap : Heap) (t : Tracked) (d : Drafts) (v w : Value) : Prop :=
  Twin heap.next d v w ∨ ∃ c < heap.next, t.above c = none ∧ v = .ref c ∧ w = .ref c

section

variable {heap : Heap} {root : ℕ} {t : Tracked} {d₁ d₂ : Drafts}

theorem Entry.shown {r : ℕ} {k : Key} {v w : Value} (h : Entry heap t d₁ r k v w) :
    Shown heap t d₁ v w := by
  cases h with
  | held hheld => exact .inl hheld
  | raw hc hnew _ => exact .inr ⟨_, hc, hnew, rfl, rfl⟩

theorem IsTree.closed (h : IsTree heap root) : heap.Closed := by
  intro r hr k v hv
  obtain ⟨p, rfl⟩ | ⟨c, hc, -, rfl⟩ := h.value r hr k v hv
  · trivial
  · exact hc

theorem Tracked.isPending_of_nil (t : Tracked) (h : t.pending = []) (r : ℕ) (k : Key) :
    t.isPending r k = false := by
  cases k with
  | idx n => simp [isPending, h]
  | _ => rfl

theorem Mirror.modified_lt (h : Mirror heap root t d₁) {i : ℕ}
    (hi : (d₁.states i).modified = true) : i < d₁.count := by
  by_contra hge
  exact Bool.false_ne_true ((h.unborn i (not_lt.1 hge)).symm.trans hi)

theorem Mirror.copies (h : Mirror heap root t d₁) (htree : IsTree heap root)
    (hpending : t.pending = []) : Copies d₁ where
  base i k j hi hread := by
    have hlt := h.modified_lt hi
    have hbelow := Heap.below_read (htree.closed _ (h.drafts i hlt).base_lt) k
    rw [← h.baseOf_eq hlt, hread] at hbelow
    exact hbelow
  length i k v hi hown := by
    have hlt := h.modified_lt hi
    have hview : d₁.view i = (d₁.states i).copy := if_pos hi
    have hcell := h.cells i hlt
    have hbase := (h.drafts i hlt).base_lt
    have hrel := hcell.own k (t.isPending_of_nil hpending _ k)
    have hisArray := hcell.isArray
    have hlen := hcell.len
    rw [hview] at hrel hisArray hlen
    have hsome : (t.heap.cells (d₁.states i).base).own k ≠ none := by
      intro hnone'
      rw [hnone', hown] at hrel
      cases hrel
    constructor
    · rintro ⟨harray, rfl⟩
      exact hsome (h.lengths _ hbase (hisArray ▸ harray))
    · unfold Cell.lenWith
      split
      next n =>
        split
        next harray =>
          have hn := h.entries _ hbase (hisArray ▸ harray) n hsome
          omega
        · rfl
      · rfl

/-- What the base has for an entry that an unmodified draft shows. -/
theorem Mirror.own_unmodified (h : Mirror heap root t d₁) (htree : IsTree heap root) {i : ℕ}
    (hi : i < d₁.count) (hmodified : (d₁.states i).modified = false) (k : Key) :
    (heap.cells (d₁.states i).base).own k = ((d₁.view i).own k).map d₁.finalOf := by
  have hview := h.view_unmodified hi hmodified
  have hdraft := h.drafts i hi
  rw [hview, own_overlay]
  cases hlookup : (d₁.states i).proxies.lookup k with
  | some j =>
    obtain ⟨hj, -, hown⟩ := hdraft.proxies k j hlookup
    have hchild : (d₁.states j).modified = false := by
      have hdraftj := h.drafts j hj
      cases hparent : (d₁.states j).parent with
      | none =>
        obtain ⟨hroot, -⟩ := hdraftj.top hparent
        obtain ⟨p, hp⟩ | ⟨c, -, hne, hc⟩ := htree.value _ hdraft.base_lt k _ hown
        · cases hp
        · exact absurd (hroot.symm.trans (Value.ref.inj hc)).symm hne
      | some parent =>
        obtain ⟨hlt, hkey, -⟩ := hdraftj.below parent.1 parent.2 hparent
        have hp := hlt.trans hj
        obtain ⟨hbase, -⟩ := htree.unique _ (h.drafts _ hp).base_lt _ hdraft.base_lt _ k _ hkey hown
        have hpi := h.injective _ hp i hi hbase
        rw [← Bool.not_eq_true]
        intro hm
        have hup := hdraftj.closed parent.1 parent.2 hparent hm
        rw [hpi, hmodified] at hup
        cases hup
    rw [hown]
    simp [Drafts.finalOf, hchild]
  | none =>
    show (heap.cells (d₁.states i).base).own k =
      ((heap.cells (d₁.states i).base).own k).map d₁.finalOf
    cases hv : (heap.cells (d₁.states i).base).own k with
    | none => rfl
    | some v =>
      obtain ⟨p, rfl⟩ | ⟨c, -, -, rfl⟩ := htree.value _ hdraft.base_lt k v hv <;> rfl

/-- What the objects have become, and what the drafts have been finalized to. -/
theorem Mirror.sameTo (h : Mirror heap root t d₁) (htree : IsTree heap root)
    (hpending : t.pending = []) (hadvancing : Advancing d₁ (fun _ => False) d₂)
    (hfinished : ∀ i k j, (d₂.states i).copy.own k = some (.copy j) →
      (d₂.states j).finalized = true) (n : ℕ) {v w : Value} (hshown : Shown heap t d₁ v w)
    (hcopy : ∀ j, d₁.finalOf w = .copy j → (d₂.states j).finalized = true) :
    t.heap.sameTo d₂ n v (d₁.finalOf w) := by
  induction n generalizing v w with
  | zero => exact trivial
  | succ n ih =>
    have hheap : d₂.heap = d₁.heap := hadvancing.same.heap
    have hplain : ∀ {v}, Plain heap.next v → t.heap.sameTo d₂ n v v := by
      intro v hv
      have hfinal : d₁.finalOf v = v := by
        cases v with
        | draft j => exact hv.elim
        | _ => rfl
      have hsame := ih (.inl (.plain hv)) (w := v) fun j hj => by
        rw [hfinal] at hj
        subst hj
        exact hv.elim
      rwa [hfinal] at hsame
    obtain hheld | ⟨c, hc, hnew, rfl, rfl⟩ := hshown
    · cases hheld with
      | plain hv =>
        cases v with
        | prim p => exact rfl
        | ref r =>
          refine ⟨d₂.heap.cells r, rfl, ?_⟩
          rw [hheap, h.fresh r hv]
          refine ⟨rfl, rfl, fun k => ?_⟩
          cases hown : (t.heap.cells r).own k with
          | none => exact .none
          | some v' => exact .some (hplain (h.plain r hv k v' hown))
        | draft i => exact hv.elim
        | copy i => exact hv.elim
      | draft i hi hc hbase =>
        subst hbase
        have hcell := h.cells i hi
        -- the object that the draft has been finalized to
        have hanswer : ∃ c, d₂.cellOf (d₁.finalOf (.draft i)) = some c ∧
            c.isArray = (d₁.view i).isArray ∧ c.len = (d₁.view i).len ∧
              (∀ k, c.own k = ((d₁.view i).own k).map d₁.finalOf) ∧
                ∀ k j, c.own k = some (.copy j) → (d₂.states j).finalized = true := by
          cases hmodified : (d₁.states i).modified with
          | true =>
            have hfinal : d₁.finalOf (.draft i) = .copy i := if_pos hmodified
            have hview : d₁.view i = (d₁.states i).copy := if_pos hmodified
            obtain ⟨hisArray, hlen, hown⟩ := hadvancing.through i (hcopy i hfinal) id
            rw [hfinal, hview]
            exact ⟨_, rfl, hisArray, hlen, hown, hfinished i⟩
          | false =>
            have hfinal : d₁.finalOf (.draft i) = .ref (d₁.states i).base :=
              if_neg (Bool.eq_false_iff.1 hmodified)
            have hview := h.view_unmodified hi hmodified
            have hlt := (h.drafts i hi).base_lt
            rw [hfinal]
            refine ⟨heap.cells (d₁.states i).base, ?_, by rw [hview]; rfl, by rw [hview]; rfl,
              h.own_unmodified htree hi hmodified, fun k j hown => ?_⟩
            · show some (d₂.heap.cells _) = _
              rw [hheap, h.base _ hlt]
            · obtain ⟨p, hp⟩ | ⟨c, -, -, hc⟩ := htree.value _ hlt k _ hown
              · cases hp
              · cases hc
        obtain ⟨c, hcellOf, hisArray, hlen, hown, hnested⟩ := hanswer
        refine ⟨c, hcellOf, hisArray.trans hcell.isArray, hlen.trans hcell.len, fun k => ?_⟩
        have hrel := hcell.own k (t.isPending_of_nil hpending _ k)
        have hnestedk := hnested k
        rw [hown] at hnestedk ⊢
        generalize (t.heap.cells (d₁.states i).base).own k = x at hrel ⊢
        generalize (d₁.view i).own k = y at hrel hnestedk ⊢
        cases hrel with
        | none => exact .none
        | some hentry => exact .some (ih hentry.shown fun j hj => hnestedk j (congrArg some hj))
    · have huntouched := h.untouched c hc hnew
      refine ⟨d₂.heap.cells c, rfl, ?_⟩
      rw [hheap, h.base c hc, huntouched]
      refine ⟨rfl, rfl, fun k => ?_⟩
      cases hown : (heap.cells c).own k with
      | none => exact .none
      | some v =>
        refine .some ?_
        obtain ⟨p, rfl⟩ | ⟨c', hc', -, rfl⟩ := htree.value c hc k v hown
        · exact hplain (v := .prim p) trivial
        · refine ih (w := .ref c') (.inr ⟨c', hc', ?_, rfl, rfl⟩) fun j hj => by cases hj
          by_contra habove
          exact h.above_parent htree hc hc' hown habove hnew

end

/-! ## Careful producers on the objects -/

/-- A careful producer and the producer on the objects themselves. -/
def plainWorld : World Tracked Heap where
  rel t h := t.heap = h
  le _ _ := True
  le_refl _ := trivial
  le_trans _ _ := trivial

theorem Tracked.heap_reach (t : Tracked) (r : ℕ) (v : Value) : (t.reach r v).heap = t.heap := by
  cases v with
  | ref c =>
    unfold Tracked.reach
    dsimp only
    split <;> rfl
  | _ => rfl

/-- Every careful step is a step on the objects themselves. -/
theorem careful_plain : Transfer careful plain plainWorld fun v w _ => v = w where
  mono h _ := h
  prim _ _ := rfl
  eq_prim h := h.symm
  get := by
    rintro v _ h₀ k rfl t _ rfl - a t' hget
    cases v with
    | prim p =>
      obtain ⟨q, hq, hget⟩ := Option.map_eq_some_iff.1 hget
      obtain ⟨rfl, rfl⟩ := Prod.mk.inj hget
      exact ⟨.prim q, t.heap, by simp [plain, hq], rfl, trivial, rfl⟩
    | ref r =>
      refine ⟨(t.heap.cells r).read k, t.heap, rfl, ?_⟩
      simp only [careful] at hget
      split at hget
      · obtain ⟨-, hget⟩ := Option.ite_none_right_eq_some.1 hget
        obtain ⟨rfl, rfl⟩ := Prod.mk.inj (Option.some.inj hget)
        exact ⟨t.heap_reach r _, trivial, rfl⟩
      · obtain ⟨rfl, rfl⟩ := Prod.mk.inj (Option.some.inj hget)
        exact ⟨rfl, trivial, rfl⟩
    | draft i => cases hget
    | copy i => cases hget
  set := by
    rintro v _ x _ h₀ k rfl rfl t _ rfl - a t' hset
    cases v with
    | ref r =>
      obtain ⟨c, hwrite, hset⟩ := Option.bind_eq_some_iff.1 hset
      refine ⟨(), t.heap.update r c, by simp [plain, hwrite], ?_, trivial, trivial⟩
      split at hset
      · obtain ⟨-, hset⟩ := Option.ite_none_right_eq_some.1 hset
        obtain ⟨-, rfl⟩ := Prod.mk.inj (Option.some.inj hset)
        rfl
      · obtain ⟨-, hset⟩ := Option.ite_none_left_eq_some.1 hset
        obtain ⟨-, rfl⟩ := Prod.mk.inj (Option.some.inj hset)
        rfl
    | prim p => cases hset
    | draft i => cases hset
    | copy i => cases hset
  delete := by
    rintro v _ h₀ j rfl t _ rfl - a t' hdelete
    cases v with
    | ref r =>
      refine ⟨(), _, rfl, ?_, trivial, trivial⟩
      simp only [careful] at hdelete
      split at hdelete
      · obtain ⟨-, hdelete⟩ := Option.ite_none_right_eq_some.1 hdelete
        obtain ⟨-, rfl⟩ := Prod.mk.inj (Option.some.inj hdelete)
        rfl
      · obtain ⟨-, rfl⟩ := Prod.mk.inj (Option.some.inj hdelete)
        rfl
    | prim p => cases hdelete
    | draft i => cases hdelete
    | copy i => cases hdelete
  has := by
    rintro v _ h₀ j rfl t _ rfl - a t' hhas
    cases v with
    | ref r =>
      obtain ⟨-, hhas⟩ := Option.ite_none_left_eq_some.1 hhas
      obtain ⟨rfl, rfl⟩ := Prod.mk.inj (Option.some.inj hhas)
      exact ⟨_, _, rfl, rfl, trivial, rfl⟩
    | prim p => cases hhas
    | draft i => cases hhas
    | copy i => cases hhas
  isArray := by
    rintro v _ h₀ rfl t _ rfl - a t' hisArray
    cases v <;> obtain ⟨rfl, rfl⟩ := Prod.mk.inj (Option.some.inj hisArray) <;>
      exact ⟨_, _, rfl, rfl, trivial, rfl⟩
  alloc := by
    rintro lit h₀ t _ rfl - a t' halloc
    obtain ⟨rfl, rfl⟩ := Prod.mk.inj (Option.some.inj halloc)
    exact ⟨_, _, rfl, rfl, trivial, rfl⟩

theorem plainRun_of_careful {heap h' : Heap} {root : ℕ} {producer : List Step}
    (hrun : carefulRun heap root producer = some h') : plainRun heap root producer = some h' := by
  obtain ⟨⟨⟨⟩, t⟩, hcareful, hrun⟩ := Option.bind_eq_some_iff.1 hrun
  obtain ⟨-, hrun⟩ := Option.ite_none_right_eq_some.1 hrun
  obtain rfl := Option.some.inj hrun
  obtain ⟨⟨⟩, _, hplain, rfl, -, -⟩ := careful_plain.run (t := heap) rfl producer
    (Tracked.start heap root) heap rfl trivial () t hcareful
  exact Option.map_eq_some_iff.2 ⟨((), t.heap), hplain, rfl⟩

/-- `produce` on a tree of objects and arrays, with a producer that stays clear of the gaps of
drafts: it returns, its answer is structurally equal to what the producer makes of the objects
themselves, and the objects themselves are as they were. -/
theorem produce_agrees (heap : Heap) (root : ℕ) (producer : List Step) (h' : Heap)
    (htree : IsTree heap root) (hrun : carefulRun heap root producer = some h') :
    ∃ v d, produce heap root producer = some (v, d) ∧
      plainRun heap root producer = some h' ∧ h'.Same d (.ref root) v ∧
        ∀ r < heap.next, d.heap.cells r = heap.cells r := by
  obtain ⟨t, d₁, hdrafts, hmirror, rfl, hpending⟩ := mirror_run htree hrun
  have hready : Ready d₁.count d₁ := by
    refine ⟨hmirror.wrapped, hmirror.unborn, ?_⟩
    exact (Finset.card_filter_le _ _).trans_eq (Finset.card_range _)
  obtain ⟨v, d₂, hfin⟩ := finalize_returns d₁.count (.draft 0) d₁ hready
  have huntouched := (Untouched.start htree.root_lt htree.empty).run htree.closed hdrafts
  obtain ⟨hfinal, hfinished⟩ := Finishing.of_finalize _ (fun _ => False) _ d₁ v d₂ hfin
    (fun j hj => by cases hj) (huntouched.finishing htree.closed)
  have hstart : Advancing d₁ (fun _ => False) d₁ :=
    ⟨.refl _ _, fun _ _ => rfl, fun j hj =>
      absurd ((hmirror.unfinished j).symm.trans hj) Bool.false_ne_true⟩
  obtain ⟨hadvancing, rfl⟩ := Advancing.of_finalize (hmirror.copies htree hpending) _
    (fun _ => False) _ d₁ v d₂ hfin hstart
  refine ⟨d₁.finalOf (.draft 0), d₂, ?_, plainRun_of_careful hrun, fun n => ?_, fun r hr => ?_⟩
  · exact Option.bind_eq_some_iff.2 ⟨((), d₁), hdrafts, hfin⟩
  · refine hmirror.sameTo htree hpending hadvancing hfinal.copies n ?_ fun j hj => ?_
    · have hroot := hmirror.root_draft
      exact .inl (.draft 0 hroot.1 htree.root_lt hroot.2)
    · rw [hj] at hfinished
      exact hfinished
  · rw [hadvancing.same.heap]
    exact huntouched.base r hr

theorem nestedHeap_own {r : ℕ} (hr : r < 2) {k : Key} {v : Value}
    (hown : (nestedHeap.cells r).own k = some v) :
    (∃ p, v = .prim p) ∨ r = 0 ∧ k = .idx 0 ∧ v = .ref 1 := by
  cases k with
  | idx i =>
    interval_cases r
    · obtain ⟨hi, hv⟩ := List.getElem?_eq_some_iff.1 hown
      have hi' : i < 1 := hi
      interval_cases i
      exact .inr ⟨rfl, rfl, hv.symm⟩
    · obtain ⟨hi, hv⟩ := List.getElem?_eq_some_iff.1 hown
      have hi' : i < 2 := hi
      interval_cases i <;> exact .inl ⟨_, hv.symm⟩
  | length => interval_cases r <;> cases hown
  | name s => interval_cases r <;> cases hown

theorem nestedHeap_isTree : IsTree nestedHeap 0 where
  root_lt := Nat.two_pos
  value r hr k v hown := by
    obtain hprim | ⟨-, -, rfl⟩ := nestedHeap_own hr hown
    · exact .inl hprim
    · exact .inr ⟨1, Nat.one_lt_two, Nat.one_ne_zero, rfl⟩
  unique r hr r' hr' k k' c hown hown' := by
    obtain ⟨p, hp⟩ | ⟨rfl, rfl, -⟩ := nestedHeap_own hr hown
    · cases hp
    obtain ⟨p, hp⟩ | ⟨rfl, rfl, -⟩ := nestedHeap_own hr' hown'
    · cases hp
    exact ⟨rfl, rfl⟩
  length r hr _ := by
    have hlt : r < 2 := hr
    interval_cases r <;> rfl
  entries r hr _ i hi := by
    have hlt : r < 2 := hr
    obtain ⟨v, hv⟩ := Option.ne_none_iff_exists'.1 hi
    interval_cases r <;> exact (List.getElem?_eq_some_iff.1 hv).1
  empty r hr k := by
    obtain ⟨n, rfl⟩ := Nat.exists_eq_add_of_le' (show 2 ≤ r from hr)
    rfl

theorem produce_agrees_nested : ∃ h' v d, plainRun nestedHeap 0 nestedProducer = some h' ∧
    produce nestedHeap 0 nestedProducer = some (v, d) ∧ h'.Same d (.ref 0) v := by
  have hcareful : (carefulRun nestedHeap 0 nestedProducer).isSome = true := by decide +kernel
  obtain ⟨h', hrun⟩ := Option.isSome_iff_exists.1 hcareful
  obtain ⟨v, d, hproduce, hplain, hsame, -⟩ := produce_agrees nestedHeap 0 nestedProducer h'
    nestedHeap_isTree hrun
  exact ⟨h', v, d, hplain, hproduce, hsame⟩

end HanabiBot.Drafting
