import HanabiBot.Drafting.Mirror

/-!
# Careful steps on drafts

Every step that a careful producer takes on the objects is matched by the same step on their drafts
(`careful_drafts`), and so is every careful producer (`mirror_run`).

* `Mirror.mark` — the first change marks a draft and all that it is nested in;
* `Mirror.rewrite` — what a change of one object and its draft has to keep;
* `Mirror.set`, `Mirror.delete` — writing and deleting.
-/

namespace HanabiBot.Drafting

variable {heap : Heap} {root : ℕ} {t : Tracked} {d d' : Drafts} {i : ℕ} {k : Key} {v w : Value}

/-! ## Marking drafts as modified -/

/-- A draft, or one that it is nested in. -/
inductive Above (d : Drafts) : ℕ → ℕ → Prop
  | self (i : ℕ) : Above d i i
  | parent {i j p : ℕ} {key : Key} (hparent : (d.states i).parent = some (p, key))
    (habove : Above d p j) : Above d i j

theorem Above.congr {j : ℕ} (h : Above d i j)
    (hparent : ∀ j, (d'.states j).parent = (d.states j).parent) : Above d' i j := by
  induction h with
  | self i => exact .self i
  | parent hp _ ih => exact .parent ((hparent _).trans hp) ih

theorem Above.step {j p : ℕ} {key : Key} (h : Above d i j)
    (hparent : (d.states j).parent = some (p, key)) : Above d i p := by
  induction h with
  | self i => exact .parent hparent (.self p)
  | parent hp _ ih => exact .parent hp (ih hparent)

theorem Entry.mono {t' : Tracked} {r : ℕ} (h : Entry heap t d r k v w)
    (hle : (mirrorWorld heap root).le d d') (habove : t'.above = t.above) :
    Entry heap t' d' r k v w := by
  cases h with
  | held hheld => exact .held (hheld.mono hle)
  | raw hc hnew hown => exact .raw hc (habove ▸ hnew) hown

theorem rel_mono {R S : Value → Value → Prop} {a b : Option Value} (h : Option.Rel R a b)
    (hRS : ∀ v w, R v w → S v w) : Option.Rel S a b := by
  cases h with
  | none => exact .none
  | some h => exact .some (hRS _ _ h)

/-- What changes when some drafts are marked as modified. -/
structure Marked (P : ℕ → Prop) (d d' : Drafts) : Prop where
  heap : d'.heap = d.heap
  count : d'.count = d.count
  base : ∀ j, (d'.states j).base = (d.states j).base
  isArray : ∀ j, (d'.states j).isArray = (d.states j).isArray
  parent : ∀ j, (d'.states j).parent = (d.states j).parent
  finalized : ∀ j, (d'.states j).finalized = (d.states j).finalized
  wrapped : ∀ j, (d'.states j).wrapped = (d.states j).wrapped
  proxies : ∀ j, (d'.states j).proxies = (d.states j).proxies
  view : ∀ j, d'.view j = d.view j
  modified : ∀ j, (d'.states j).modified = true ↔ (d.states j).modified = true ∨ P j

namespace Marked

variable {P Q : ℕ → Prop} {d'' : Drafts}

theorem refl (h : ∀ j, P j → (d.states j).modified = true) : Marked P d d where
  heap := rfl
  count := rfl
  base _ := rfl
  isArray _ := rfl
  parent _ := rfl
  finalized _ := rfl
  wrapped _ := rfl
  proxies _ := rfl
  view _ := rfl
  modified j := ⟨.inl, fun hj => hj.elim id (h j)⟩

theorem trans (h : Marked P d d') (h' : Marked Q d' d'') : Marked (fun j => P j ∨ Q j) d d'' where
  heap := h'.heap.trans h.heap
  count := h'.count.trans h.count
  base j := (h'.base j).trans (h.base j)
  isArray j := (h'.isArray j).trans (h.isArray j)
  parent j := (h'.parent j).trans (h.parent j)
  finalized j := (h'.finalized j).trans (h.finalized j)
  wrapped j := (h'.wrapped j).trans (h.wrapped j)
  proxies j := (h'.proxies j).trans (h.proxies j)
  view j := (h'.view j).trans (h.view j)
  modified j := by rw [h'.modified, h.modified, or_assoc]

theorem congr (h : Marked P d d') (hPQ : ∀ j, P j ↔ Q j) : Marked Q d d' :=
  { h with modified := fun j => by rw [h.modified, hPQ] }

/-- One state is changed in place. -/
theorem update {s : StateProxy} (hbase : s.base = (d.states i).base)
    (hisArray : s.isArray = (d.states i).isArray) (hparent : s.parent = (d.states i).parent)
    (hfinalized : s.finalized = (d.states i).finalized)
    (hwrapped : s.wrapped = (d.states i).wrapped) (hproxies : s.proxies = (d.states i).proxies)
    (hview : (d.update i s).view i = d.view i)
    (hmodified : s.modified = true ↔ (d.states i).modified = true ∨ P i)
    (hP : ∀ j, P j → j = i) : Marked P d (d.update i s) := by
  have hcases : ∀ {α : Type} (f : StateProxy → α), f s = f (d.states i) → ∀ j,
      f ((d.update i s).states j) = f (d.states j) := fun f hf =>
    Drafts.forall_update (P := fun j s => f s = f (d.states j)) hf fun _ => rfl
  refine ⟨rfl, rfl, hcases _ hbase, hcases _ hisArray, hcases _ hparent, hcases _ hfinalized,
    hcases _ hwrapped, hcases _ hproxies, fun j => ?_, fun j => ?_⟩
  · by_cases hj : j = i
    · rw [hj, hview]
    · unfold Drafts.view Drafts.baseOf
      rw [Drafts.states_update_of_ne d hj]
      rfl
  · by_cases hj : j = i
    · rw [hj, Drafts.states_update_self, hmodified]
    · rw [Drafts.states_update_of_ne d hj]
      exact ⟨.inl, fun h => h.resolve_right fun hPj => hj (hP j hPj)⟩

/-- A property is noted as modified. -/
theorem addProp (d : Drafts) (i : ℕ) (props : List Key) :
    Marked (fun _ => False) d (d.update i { d.states i with modifiedProps := props }) := by
  refine .update rfl rfl rfl rfl rfl rfl ?_ (by simp) fun _ h => h.elim
  unfold Drafts.view Drafts.baseOf
  rw [Drafts.states_update_self]
  rfl

/-- A draft is marked, and its copy is what it has shown. -/
theorem copy (h : (d.states i).modified = false) :
    Marked (fun j => j = i) d (d.update i { d.states i with
      modified := true
      copy := (d.states i).overlay (d.baseOf (d.states i)) }) := by
  refine .update rfl rfl rfl rfl rfl rfl ?_ (by simp) fun _ => id
  unfold Drafts.view
  rw [Drafts.states_update_self, if_pos rfl, h, if_neg Bool.false_ne_true]

end Marked

/-- Drafts below `n` whose parents come before them and are modified if they are. -/
def ClosedBelow (n : ℕ) (d : Drafts) : Prop :=
  ∀ j < n, ∀ p key, (d.states j).parent = some (p, key) →
    p < j ∧ ((d.states j).modified = true → (d.states p).modified = true)

theorem ClosedBelow.modified_above (h : ClosedBelow (i + 1) d) (hi : (d.states i).modified = true)
    {j : ℕ} (habove : Above d i j) : (d.states j).modified = true := by
  induction habove with
  | self i => exact hi
  | parent hparent _ ih =>
    obtain ⟨hlt, hmodified⟩ := h _ (Nat.lt_succ_self _) _ _ hparent
    exact ih (fun j hj => h j (by omega)) (hmodified hi)

/-- `markChanged` marks a draft and all that it is nested in. -/
theorem marked_markChanged (fuel i : ℕ) (d : Drafts) (hfuel : i < fuel)
    (h : ClosedBelow (i + 1) d) : Marked (Above d i) d (Drafts.markChanged fuel i d) := by
  induction fuel generalizing i d with
  | zero => omega
  | succ fuel ih =>
    rw [Drafts.markChanged]
    simp only
    split
    next hmodified => exact .refl fun j => h.modified_above hmodified
    next hmodified =>
      rw [Bool.not_eq_true] at hmodified
      have hcopy := Marked.copy hmodified
      split
      next hparent =>
        refine hcopy.congr fun j => ⟨?_, fun habove => ?_⟩
        · rintro rfl
          exact .self j
        · cases habove with
          | self => rfl
          | parent hp _ => cases hparent.symm.trans hp
      next p key hparent =>
        obtain ⟨hlt, -⟩ := h i (Nat.lt_succ_self i) p key hparent
        have hrest := ih p (d.update i { d.states i with
          modified := true
          copy := (d.states i).overlay (d.baseOf (d.states i)) }) (by omega) ?_
        · refine ((hcopy.trans hrest).trans (Marked.addProp _ p _)).congr fun j => ?_
          constructor
          · rintro ((rfl | habove) | hfalse)
            · exact .self j
            · exact .parent hparent (habove.congr fun j => (hcopy.parent j).symm)
            · exact hfalse.elim
          · intro habove
            cases habove with
            | self => exact .inl (.inl rfl)
            | parent hp habove =>
              obtain ⟨rfl, rfl⟩ := Prod.mk.inj (Option.some.inj (hparent.symm.trans hp))
              exact .inl (.inr (habove.congr hcopy.parent))
        · intro j hj p' key' hp'
          rw [hcopy.parent] at hp'
          obtain ⟨hlt', hmodified'⟩ := h j (by omega) p' key' hp'
          refine ⟨hlt', ?_⟩
          rw [Drafts.states_update_of_ne d (by omega), Drafts.states_update_of_ne d (by omega)]
          exact hmodified'

/-- The way up from an object is the objects of the drafts above. -/
theorem Mirror.mem_above (h : Mirror heap root t d) (hi : i < d.count) :
    ∃ l, t.above (d.states i).base = some l ∧
      (∀ x ∈ l, ∃ j < d.count, (d.states j).base = x ∧ Above d i j) ∧
      ∀ j, Above d i j → j < d.count ∧ (d.states j).base ∈ l := by
  induction i using Nat.strong_induction_on with
  | _ i ih =>
    have hdraft := h.drafts i hi
    cases hparent : (d.states i).parent with
    | none =>
      obtain ⟨hroot, habove⟩ := hdraft.top hparent
      refine ⟨[root], by rw [hroot, habove], fun x hx => ?_, fun j hj => ?_⟩
      · exact ⟨i, hi, hroot.trans (List.mem_singleton.1 hx).symm, .self i⟩
      · cases hj with
        | self => exact ⟨hi, List.mem_singleton.2 hroot⟩
        | parent hp _ => cases hparent.symm.trans hp
    | some parent =>
      obtain ⟨p, key⟩ := parent
      obtain ⟨hlt, -, l, hl, habove⟩ := hdraft.below p key hparent
      obtain ⟨l', hl', hsound, hcomplete⟩ := ih p hlt (hlt.trans hi)
      obtain rfl := Option.some.inj (hl.symm.trans hl')
      refine ⟨_, habove, fun x hx => ?_, fun j hj => ?_⟩
      · obtain rfl | hx := List.mem_cons.1 hx
        · exact ⟨i, hi, rfl, .self i⟩
        · obtain ⟨j, hj, hbase, hp⟩ := hsound x hx
          exact ⟨j, hj, hbase, .parent hparent hp⟩
      · cases hj with
        | self => exact ⟨hi, List.mem_cons_self⟩
        | parent hp hj =>
          obtain ⟨rfl, rfl⟩ := Prod.mk.inj (Option.some.inj (hparent.symm.trans hp))
          obtain ⟨hj', hmem⟩ := hcomplete j hj
          exact ⟨hj', List.mem_cons_of_mem _ hmem⟩

/-- The record of a first change. -/
def Tracked.marked (t : Tracked) (r : ℕ) : Tracked :=
  { t with changed := fun x => t.changed x || ((t.above r).getD []).contains x }

theorem Mirror.mark (h : Mirror heap root t d) (hi : i < d.count) :
    Mirror heap root (t.marked (d.states i).base) (Drafts.markChanged d.count i d) ∧
      ((Drafts.markChanged d.count i d).states i).modified = true ∧
      Marked (Above d i) d (Drafts.markChanged d.count i d) := by
  obtain ⟨l, hl, hsound, hcomplete⟩ := h.mem_above hi
  have hclosed : ClosedBelow (i + 1) d := by
    intro j hj p key hparent
    have hdraft := h.drafts j (by omega)
    exact ⟨(hdraft.below p key hparent).1, hdraft.closed p key hparent⟩
  have hmark := marked_markChanged d.count i d hi hclosed
  generalize Drafts.markChanged d.count i d = d' at hmark ⊢
  have hchanged : ∀ x, (t.marked (d.states i).base).changed x = true ↔
      t.changed x = true ∨ x ∈ l := by
    intro x
    simp [Tracked.marked, hl]
  have hmodified : ∀ j < d.count, (d'.states j).modified =
      (t.marked (d.states i).base).changed (d.states j).base := by
    intro j hj
    rw [Bool.eq_iff_iff, hmark.modified, hchanged, (h.drafts j hj).modified]
    refine or_congr_right ⟨fun habove => (hcomplete j habove).2, fun hmem => ?_⟩
    obtain ⟨j', hj', hbase, habove⟩ := hsound _ hmem
    exact h.injective j' hj' j hj hbase ▸ habove
  refine ⟨?_, (hmark.modified i).2 (.inr (.self i)), hmark⟩
  exact {
    bound := h.bound
    le_next := h.le_next
    next := by rw [hmark.heap]; exact h.next
    base := by rw [hmark.heap]; exact h.base
    fresh := by rw [hmark.heap]; exact h.fresh
    plain := h.plain
    wrapped := fun j => (hmark.wrapped j).trans (h.wrapped j)
    unborn := by
      intro j hj
      rw [hmark.count] at hj
      rw [← Bool.not_eq_true, hmark.modified]
      rintro (hm | habove)
      · exact Bool.false_ne_true ((h.unborn j hj).symm.trans hm)
      · exact absurd (hcomplete j habove).1 (not_lt.2 hj)
    unfinished := fun j => (hmark.finalized j).trans (h.unfinished j)
    root_draft := by
      rw [hmark.count, hmark.base]
      exact h.root_draft
    drafts := by
      intro j hj
      rw [hmark.count] at hj
      have hdraft := h.drafts j hj
      refine ⟨?_, ?_, ?_, ?_, ?_, ?_, ?_, ?_⟩ <;> simp only [hmark.base, hmark.isArray,
        hmark.parent, hmark.proxies, hmark.count]
      · exact hdraft.base_lt
      · exact hdraft.isArray
      · exact hdraft.kind
      · exact hmodified j hj
      · exact hdraft.proxies
      · exact hdraft.top
      · exact hdraft.below
      · intro p key hparent
        rw [hmark.modified, hmark.modified]
        rintro (hm | habove)
        · exact .inl (hdraft.closed p key hparent hm)
        · exact .inr (habove.step hparent)
    injective := by
      rw [hmark.count]
      simp only [hmark.base]
      exact h.injective
    above := by
      rw [hmark.count]
      simp only [hmark.base]
      exact h.above
    changed := by
      intro r hr
      obtain hr | hr := (hchanged r).1 hr
      · exact h.changed r hr
      · obtain ⟨j, hj, rfl, -⟩ := hsound r hr
        exact h.above_base hj
    untouched := h.untouched
    lengths := h.lengths
    entries := h.entries
    pending := h.pending
    cells := by
      intro j hj
      rw [hmark.count] at hj
      have hcell := h.cells j hj
      have hle : (mirrorWorld heap root).le d d' :=
        ⟨hmark.count.ge, fun j _ => hmark.base j⟩
      refine ⟨?_, ?_, fun k hk => ?_⟩ <;> rw [hmark.view, hmark.base]
      · exact hcell.isArray
      · exact hcell.len
      · rw [hmark.base] at hk
        exact rel_mono (hcell.own k hk) fun _ _ hentry => hentry.mono hle rfl }
/-! ## Writing -/

/-- A change of a draft and its object. -/
theorem Mirror.rewrite (h : Mirror heap root t d) (hi : i < d.count) {c copy : Cell}
    {props : List Key} {pending : List (ℕ × ℕ)} {t' : Tracked}
    (ht' : t' = { t with heap := t.heap.update (d.states i).base c, pending })
    (hd' : d' = d.update i { d.states i with copy, modifiedProps := props })
    (hisArray : c.isArray = (t.heap.cells (d.states i).base).isArray)
    (hlengths : c.isArray = true → c.own .length = none)
    (hentries : c.isArray = true → ∀ n, c.own (.idx n) ≠ none → n < c.len)
    (hviewArray : (d'.view i).isArray = c.isArray) (hviewLen : (d'.view i).len = c.len)
    (hview : ∀ k, t'.isPending (d.states i).base k = false →
      Option.Rel (Entry heap t d (d.states i).base k) (c.own k) ((d'.view i).own k))
    (hpending : ∀ p ∈ pending, p ∈ t.pending ∧ p.1 ≠ (d.states i).base ∨
      p.1 = (d.states i).base ∧ c.own (.idx p.2) = none ∧ p.2 < c.len)
    (hkept : ∀ p ∈ t.pending, p.1 ≠ (d.states i).base → p ∈ pending) :
    Mirror heap root t' d' := by
  have hlt := (h.drafts i hi).base_lt
  have hcases : ∀ {α : Type} (f : StateProxy → α),
      (∀ copy props, f { d.states i with copy, modifiedProps := props } = f (d.states i)) → ∀ j,
      f (d'.states j) = f (d.states j) := by
    intro α f hf j
    rw [hd']
    by_cases hj : j = i
    · rw [hj, Drafts.states_update_self, hf]
    · rw [Drafts.states_update_of_ne d hj]
  have hbase : ∀ j, (d'.states j).base = (d.states j).base := hcases _ fun _ _ => rfl
  have hmodified : ∀ j, (d'.states j).modified = (d.states j).modified := hcases _ fun _ _ => rfl
  have hparent : ∀ j, (d'.states j).parent = (d.states j).parent := hcases _ fun _ _ => rfl
  have hisArrays : ∀ j, (d'.states j).isArray = (d.states j).isArray := hcases _ fun _ _ => rfl
  have hproxies : ∀ j, (d'.states j).proxies = (d.states j).proxies := hcases _ fun _ _ => rfl
  have hcount : d'.count = d.count := by rw [hd']; rfl
  have hheap : d'.heap = d.heap := by rw [hd']; rfl
  have habove : t'.above = t.above := by rw [ht']
  have hcell : t'.heap.cells (d.states i).base = c := by
    rw [ht']
    exact Function.update_self ..
  have hother : ∀ {r}, r ≠ (d.states i).base → t'.heap.cells r = t.heap.cells r := by
    intro r hr
    rw [ht']
    exact Function.update_of_ne hr ..
  have hkind : ∀ r, (t'.heap.cells r).isArray = (t.heap.cells r).isArray := by
    intro r
    by_cases hr : r = (d.states i).base
    · rw [hr, hcell, hisArray]
    · rw [hother hr]
  have hle : (mirrorWorld heap root).le d d' := ⟨hcount.ge, fun j _ => hbase j⟩
  exact {
    bound := by rw [ht']; exact h.bound
    le_next := by rw [ht']; exact h.le_next
    next := by rw [ht', hheap]; exact h.next
    base := by rw [hheap]; exact h.base
    fresh := by
      intro r hr
      rw [hheap, hother (by omega)]
      exact h.fresh r hr
    plain := by
      intro r hr
      rw [hother (by omega)]
      exact h.plain r hr
    wrapped := fun j => (hcases _ (fun _ _ => rfl) j).trans (h.wrapped j)
    unborn := by
      intro j hj
      rw [hmodified]
      exact h.unborn j (hcount ▸ hj)
    unfinished := fun j => (hcases _ (fun _ _ => rfl) j).trans (h.unfinished j)
    root_draft := by
      rw [hcount, hbase]
      exact h.root_draft
    drafts := by
      intro j hj
      rw [hcount] at hj
      have hdraft := h.drafts j hj
      refine ⟨?_, ?_, ?_, ?_, ?_, ?_, ?_, ?_⟩ <;> simp only [hbase, hmodified, hparent, hisArrays,
        hproxies, hcount, hkind, habove]
      · exact hdraft.base_lt
      · exact hdraft.isArray
      · exact hdraft.kind
      · rw [ht']
        exact hdraft.modified
      · exact hdraft.proxies
      · exact hdraft.top
      · exact hdraft.below
      · exact hdraft.closed
    injective := by
      rw [hcount]
      simp only [hbase]
      exact h.injective
    above := by
      rw [hcount, habove]
      simp only [hbase]
      exact h.above
    changed := by
      rw [habove, ht']
      exact h.changed
    untouched := by
      intro r hr hnone
      rw [habove] at hnone
      rw [hother]
      · exact h.untouched r hr hnone
      · rintro rfl
        exact h.above_base hi hnone
    lengths := by
      intro r hr
      by_cases hri : r = (d.states i).base
      · rw [hri, hcell]
        exact hlengths
      · rw [hother hri]
        exact h.lengths r hr
    entries := by
      intro r hr
      by_cases hri : r = (d.states i).base
      · rw [hri, hcell]
        exact hentries
      · rw [hother hri]
        exact h.entries r hr
    pending := by
      intro p hp
      have hp' : p ∈ pending := by rwa [ht'] at hp
      rw [habove]
      obtain ⟨hold, hne⟩ | ⟨heq, hnone, hlen⟩ := hpending p hp'
      · rw [hother hne]
        exact h.pending p hold
      · rw [heq, hcell]
        exact ⟨hlt, h.above_base hi, hnone, hlen⟩
    cells := by
      intro j hj
      rw [hcount] at hj
      by_cases hji : j = i
      · subst hji
        refine ⟨?_, ?_, fun k hk => ?_⟩ <;> rw [hbase, hcell]
        · exact hviewArray
        · exact hviewLen
        · rw [hbase] at hk
          exact rel_mono (hview k hk) fun _ _ hentry => hentry.mono hle habove
      · have hne : (d.states j).base ≠ (d.states i).base := fun heq =>
          hji (h.injective j hj i hi heq)
        have hviewj : d'.view j = d.view j := by
          unfold Drafts.view Drafts.baseOf
          rw [hd', Drafts.states_update_of_ne d hji]
          rfl
        have hcellj := h.cells j hj
        refine ⟨?_, ?_, fun k hk => ?_⟩ <;> rw [hbase, hother hne, hviewj]
        · exact hcellj.isArray
        · exact hcellj.len
        · rw [hbase] at hk
          refine rel_mono (hcellj.own k ?_) fun _ _ hentry => hentry.mono hle habove
          cases k with
          | idx n =>
            rw [← Bool.not_eq_true] at hk ⊢
            refine fun hmem => hk ?_
            have hmem' : ((d.states j).base, n) ∈ t.pending := List.contains_iff_mem.1 hmem
            have hp : ((d.states j).base, n) ∈ t'.pending := by
              rw [ht']
              exact hkept _ hmem' hne
            exact List.contains_iff_mem.2 hp
          | _ => rfl }

/-- Drafts are the same if and only if their objects are. -/
theorem Mirror.strictEq_twin (h : Mirror heap root t d) {r : ℕ} (hentry : Entry heap t d r k v w)
    {x y : Value} (htwin : Twin heap.next d x y) : w.strictEq y = v.strictEq x := by
  rw [Bool.eq_iff_iff]
  cases hentry with
  | held hheld =>
    cases hheld with
    | plain hv =>
      cases htwin with
      | plain hx => rfl
      | draft j hj hc hbase =>
        cases v with
        | ref c =>
          have hv' : heap.next ≤ c := hv
          have hne : ¬ c = (d.states j).base := by omega
          simp [Value.strictEq, ← hbase, hne]
        | prim p => simp [Value.strictEq]
        | draft i => exact hv.elim
        | copy i => exact hv.elim
    | draft j hj hc hbase =>
      cases htwin with
      | plain hx =>
        cases x with
        | ref c =>
          have hx' : heap.next ≤ c := hx
          have hne : ¬ (d.states j).base = c := by omega
          simp [Value.strictEq, ← hbase, hne]
        | prim p => simp [Value.strictEq]
        | draft i => exact hx.elim
        | copy i => exact hx.elim
      | draft j' hj' hc' hbase' =>
        simp only [Value.strictEq, beq_iff_eq, Value.draft.injEq, Value.ref.injEq, ← hbase,
          ← hbase']
        exact ⟨fun heq => heq ▸ rfl, h.injective j hj j' hj'⟩
  | @raw c hc hnew hown =>
    cases htwin with
    | plain hx => rfl
    | draft j hj _ hbase =>
      have hne : ¬ c = (d.states j).base := fun heq => h.above_base hj (heq ▸ hnew)
      simp [Value.strictEq, ← hbase, hne]

/-- What an unchanged draft takes for the old value is the old value's draft. -/
theorem Mirror.strictEq_current (h : Mirror heap root t d) (htree : IsTree heap root)
    (hi : i < d.count) (hmodified : (d.states i).modified = false)
    (hpending : t.isPending (d.states i).base k = false) {x y : Value}
    (htwin : Twin heap.next d x y) :
    (d.current (d.states i) k).strictEq y =
      (Tracked.current (t.heap.cells (d.states i).base) k).strictEq x := by
  have hview := h.view_unmodified hi hmodified
  have hlt := (h.drafts i hi).base_lt
  have hentry := (h.cells i hi).read hpending
  rw [hview] at hentry
  have hsame : ∀ {v w}, Entry heap t d (d.states i).base k v w → w.strictEq y = v.strictEq x :=
    fun hvw => h.strictEq_twin hvw htwin
  unfold Drafts.current Tracked.current
  cases hlookup : (d.states i).proxies.lookup k with
  | some j =>
    obtain ⟨-, hinherited, -⟩ := (h.drafts i hi).proxies k j hlookup
    rw [h.read_proxy htree hi hlookup] at hentry
    dsimp only
    rw [if_neg (not_not.2 hinherited)]
    exact hsame hentry
  | none =>
    dsimp only
    split
    · exact hsame (.held (.plain trivial))
    · rw [h.read_base hi hlookup] at hentry
      exact hsame hentry

theorem Drafts.eq_update (d : Drafts) (i : ℕ) :
    d = d.update i { d.states i with
      copy := (d.states i).copy
      modifiedProps := (d.states i).modifiedProps } := by
  unfold Drafts.update
  rw [Function.update_eq_self]

/-- A write that is no change, on the object. -/
theorem Mirror.write_same (h : Mirror heap root t d) (hi : i < d.count) {c : Cell}
    (hisArray : c.isArray = (t.heap.cells (d.states i).base).isArray)
    (hlen : c.len = (t.heap.cells (d.states i).base).len)
    (hown : ∀ k, c.own k = (t.heap.cells (d.states i).base).own k) :
    Mirror heap root { t with heap := t.heap.update (d.states i).base c } d := by
  have hcell := h.cells i hi
  refine h.rewrite hi rfl (d.eq_update i) hisArray ?_ ?_ (hcell.isArray.trans hisArray.symm)
    (hcell.len.trans hlen.symm) ?_ ?_ fun _ hp _ => hp
  · intro harray
    rw [hown]
    exact h.lengths _ (h.drafts i hi).base_lt (hisArray ▸ harray)
  · intro harray n
    rw [hown, hlen]
    exact h.entries _ (h.drafts i hi).base_lt (hisArray ▸ harray) n
  · intro k hk
    rw [hown]
    exact hcell.own k hk
  · intro p hp
    by_cases hpi : p.1 = (d.states i).base
    · obtain ⟨-, -, hnone, hlt⟩ := h.pending p hp
      rw [hpi] at hnone hlt
      exact .inr ⟨hpi, (hown _).trans hnone, hlen ▸ hlt⟩
    · exact .inl ⟨hp, hpi⟩

/-- A write to a draft that is modified, and to its object. -/
theorem Mirror.write (h : Mirror heap root t d) (hi : i < d.count)
    (hmodified : (d.states i).modified = true) (props : List Key) {c : Cell} {x y : Value}
    (htwin : Twin heap.next d x y) (hpending : t.isPending (d.states i).base k = false)
    (hwrite : (t.heap.cells (d.states i).base).write k x = some c)
    (hcut : Tracked.isLength (t.heap.cells (d.states i).base) k = true →
      ∀ p ∈ t.pending, p.1 = (d.states i).base → c.len ≤ p.2) :
    ∃ copy, (d.states i).copy.write k y = some copy ∧
      Mirror heap root
        { t with
          heap := t.heap.update (d.states i).base c
          pending := if Tracked.isLength (t.heap.cells (d.states i).base) k then
            t.pending.filter (·.1 ≠ (d.states i).base) else t.pending }
        (d.update i { d.states i with copy, modifiedProps := props }) := by
  have hcell := h.cells i hi
  have hlt := (h.drafts i hi).base_lt
  have hview : d.view i = (d.states i).copy := if_pos hmodified
  have hviewOf : ∀ copy, (d.update i { d.states i with copy, modifiedProps := props }).view i =
      copy := by
    intro copy
    unfold Drafts.view
    rw [Drafts.states_update_self, if_pos hmodified]
  have hisArray := hcell.isArray
  have hlen := hcell.len
  have hown := hcell.own
  rw [hview] at hisArray hlen hown
  generalize (d.states i).copy = copy at hisArray hlen hown
  by_cases hlength : (t.heap.cells (d.states i).base).isArray = true ∧ k = .length
  · have hislength : Tracked.isLength (t.heap.cells (d.states i).base) k = true := by
      simp [Tracked.isLength, hlength.1, hlength.2]
    unfold Cell.write at hwrite ⊢
    rw [if_pos hlength] at hwrite
    rw [if_pos (hisArray.trans hlength.1 |> fun harray => ⟨harray, hlength.2⟩)]
    obtain ⟨n, hn, rfl⟩ := Option.map_eq_some_iff.1 hwrite
    have hn' : Cell.toLength y = some n := by
      cases htwin with
      | plain => exact hn
      | draft => cases hn
    refine ⟨copy.truncate n, by rw [hn']; rfl, ?_⟩
    have hcut' := hcut hislength
    refine h.rewrite hi rfl rfl rfl ?_ ?_ ?_ ?_ ?_ ?_ ?_
    · intro harray
      have hnone := h.lengths _ hlt harray
      rw [Cell.own_truncate, hnone, ite_self]
    · intro _ m hm
      rw [Cell.own_truncate] at hm
      by_contra hge
      exact hm (if_neg (by simpa [Cell.below] using hge))
    · rw [hviewOf]
      exact hisArray
    · rw [hviewOf]
      rfl
    · intro k' _
      rw [hviewOf, Cell.own_truncate, Cell.own_truncate]
      split
      next hbelow =>
        refine hown k' ?_
        cases k' with
        | idx m =>
          rw [← Bool.not_eq_true]
          intro hmem
          have hle := hcut' _ (List.contains_iff_mem.1 hmem) rfl
          have hm : m < n := by simpa [Cell.below] using hbelow
          exact absurd (hm.trans_le hle) (lt_irrefl m)
        | _ => rfl
      · exact .none
    · intro p hp
      rw [if_pos hislength] at hp
      obtain ⟨hp, hne⟩ := List.mem_filter.1 hp
      exact .inl ⟨hp, by simpa using hne⟩
    · intro p hp hne
      rw [if_pos hislength]
      exact List.mem_filter.2 ⟨hp, by simpa using hne⟩
  · have hislength : Tracked.isLength (t.heap.cells (d.states i).base) k = false := by
      simpa [Tracked.isLength] using hlength
    unfold Cell.write at hwrite ⊢
    rw [if_neg hlength] at hwrite
    rw [if_neg (by rw [hisArray]; exact hlength)]
    obtain rfl := Option.some.inj hwrite
    have hlenWith : copy.lenWith k = (t.heap.cells (d.states i).base).lenWith k := by
      unfold Cell.lenWith
      rw [hisArray, hlen]
    refine ⟨copy.put k y, rfl, ?_⟩
    refine h.rewrite hi rfl rfl rfl ?_ ?_ ?_ ?_ ?_ ?_ ?_
    · intro harray
      rw [Cell.own_put, if_neg fun hk => hlength ⟨harray, hk.symm⟩]
      exact h.lengths _ hlt harray
    · intro harray m hm
      rw [Cell.own_put] at hm
      have hold := h.entries _ hlt harray m
      rw [Cell.len_put]
      cases k with
      | idx n =>
        have harray' : (t.heap.cells (d.states i).base).isArray = true := harray
        simp only [Cell.lenWith, harray', if_true]
        by_cases hmn : m = n
        · omega
        · rw [if_neg (by simpa using hmn)] at hm
          have := hold hm
          omega
      | _ => exact hold (by simpa using hm)
    · rw [hviewOf]
      exact hisArray
    · rw [hviewOf]
      exact hlenWith
    · intro k' hk'
      rw [hviewOf, Cell.own_put, Cell.own_put]
      split
      · exact .some (.held htwin)
      · refine hown k' ?_
        cases k' with
        | idx m =>
          rw [← hk']
          simp only [Tracked.isPending, hislength, Bool.false_eq_true, if_false]
        | _ => rfl
    · intro p hp
      simp only [hislength, Bool.false_eq_true, if_false] at hp
      by_cases hpi : p.1 = (d.states i).base
      · obtain ⟨-, -, hnone, hltp⟩ := h.pending p hp
        rw [hpi] at hnone hltp
        refine .inr ⟨hpi, ?_, ?_⟩
        · rw [Cell.own_put, if_neg]
          · exact hnone
          · rintro rfl
            have hmem : t.pending.contains ((d.states i).base, p.2) = true :=
              List.contains_iff_mem.2 (hpi ▸ hp)
            exact Bool.false_ne_true (hpending.symm.trans hmem)
        · rw [Cell.len_put]
          unfold Cell.lenWith
          split
          · split <;> omega
          · exact hltp
      · exact .inl ⟨hp, hpi⟩
    · intro p hp _
      simpa only [hislength, Bool.false_eq_true, if_false] using hp

/-- Data of the producer changes on both sides. -/
theorem Mirror.withHeap (h : Mirror heap root t d) {T D : Heap} (hnext : D.next = T.next)
    (hle : heap.next ≤ T.next) (hT : ∀ x < heap.next, T.cells x = t.heap.cells x)
    (hD : ∀ x < heap.next, D.cells x = d.heap.cells x)
    (hfresh : ∀ x, heap.next ≤ x → D.cells x = T.cells x)
    (hplain : ∀ x, heap.next ≤ x → ∀ k v, (T.cells x).own k = some v → Plain heap.next v) :
    Mirror heap root { t with heap := T } { d with heap := D } := by
  have hview : ∀ j < d.count, Drafts.view { d with heap := D } j = d.view j := by
    intro j hj
    have hbase : D.cells (d.states j).base = d.heap.cells (d.states j).base :=
      hD _ (h.drafts j hj).base_lt
    unfold Drafts.view Drafts.baseOf
    exact congrArg (fun c => if (d.states j).modified = true then (d.states j).copy
      else (d.states j).overlay c) hbase
  exact {
    bound := h.bound
    le_next := hle
    next := hnext
    base := fun x hx => (hD x hx).trans (h.base x hx)
    fresh := hfresh
    plain := hplain
    wrapped := h.wrapped
    unborn := h.unborn
    unfinished := h.unfinished
    root_draft := h.root_draft
    drafts := fun j hj => by
      have hdraft := h.drafts j hj
      have hkind : (T.cells (d.states j).base).isArray =
          (heap.cells (d.states j).base).isArray := by
        rw [hT _ hdraft.base_lt]
        exact hdraft.kind
      exact { hdraft with kind := hkind }
    injective := h.injective
    above := h.above
    changed := h.changed
    untouched := fun x hx hnone => (hT x hx).trans (h.untouched x hx hnone)
    lengths := fun x hx => by
      show (T.cells x).isArray = true → (T.cells x).own .length = none
      rw [hT x hx]
      exact h.lengths x hx
    entries := fun x hx => by
      show (T.cells x).isArray = true → ∀ i, (T.cells x).own (.idx i) ≠ none → i < (T.cells x).len
      rw [hT x hx]
      exact h.entries x hx
    pending := fun p hp => by
      show p.1 < heap.next ∧ t.above p.1 ≠ none ∧ (T.cells p.1).own (.idx p.2) = none ∧
        p.2 < (T.cells p.1).len
      rw [hT _ (h.pending p hp).1]
      exact h.pending p hp
    cells := fun j hj => by
      have hcell := h.cells j hj
      have hbase : T.cells (d.states j).base = t.heap.cells (d.states j).base :=
        hT _ (h.drafts j hj).base_lt
      refine ⟨?_, ?_, fun k hk => ?_⟩ <;> rw [hview j hj]
      · exact hcell.isArray.trans (congrArg Cell.isArray hbase.symm)
      · exact hcell.len.trans (congrArg Cell.len hbase.symm)
      · show Option.Rel _ ((T.cells (d.states j).base).own k) _
        rw [hbase]
        have hle : (mirrorWorld heap root).le d { d with heap := D } := ⟨le_rfl, fun _ _ => rfl⟩
        exact rel_mono (hcell.own k hk) fun _ _ hentry => hentry.mono hle rfl }

theorem Mirror.setFresh (h : Mirror heap root t d) {r : ℕ} (hr : heap.next ≤ r) {c : Cell}
    (hc : ∀ k v, c.own k = some v → Plain heap.next v) :
    Mirror heap root { t with heap := t.heap.update r c }
      { d with heap := d.heap.update r c } := by
  refine h.withHeap h.next h.le_next (fun x hx => Function.update_of_ne (by omega) _ _)
    (fun x hx => Function.update_of_ne (by omega) _ _) (fun x hx => ?_) fun x hx => ?_
  · show Function.update d.heap.cells r c x = Function.update t.heap.cells r c x
    by_cases hxr : x = r
    · rw [hxr, Function.update_self, Function.update_self]
    · rw [Function.update_of_ne hxr, Function.update_of_ne hxr, h.fresh x hx]
  · show ∀ k v, (Function.update t.heap.cells r c x).own k = some v → Plain heap.next v
    by_cases hxr : x = r
    · rw [hxr, Function.update_self]
      exact hc
    · rw [Function.update_of_ne hxr]
      exact h.plain x hx

theorem plain_write {bound : ℕ} {c c' : Cell} (h : ∀ k v, c.own k = some v → Plain bound v)
    (hv : Plain bound v) (hc : c.write k v = some c') :
    ∀ k v, c'.own k = some v → Plain bound v := by
  intro k' w hw
  unfold Cell.write at hc
  split at hc
  · obtain ⟨n, -, rfl⟩ := Option.map_eq_some_iff.1 hc
    rw [Cell.own_truncate] at hw
    exact h k' w (Option.ite_none_right_eq_some.1 hw).2
  · obtain rfl := Option.some.inj hc
    rw [Cell.own_put] at hw
    split at hw
    · exact Option.some.inj hw ▸ hv
    · exact h k' w hw

theorem plain_shift {bound next : ℕ} (hle : bound ≤ next) (v : Value) :
    Plain bound (Heap.shift next v) := by
  cases v with
  | ref r => exact hle.trans (Nat.le_add_right next r)
  | _ => trivial

theorem Mirror.alloc (h : Mirror heap root t d) (lit : Lit) :
    Mirror heap root { t with heap := t.heap.alloc lit } { d with heap := d.heap.alloc lit } := by
  have hle := h.le_next
  refine h.withHeap ?_ (hle.trans (Nat.le_add_right _ _)) (fun x hx => if_pos (hx.trans_le hle))
    (fun x hx => if_pos ?_) (fun x hx => ?_) fun x hx k v hv => ?_
  · show d.heap.next + _ = t.heap.next + _
    rw [h.next]
  · rw [h.next]
    exact hx.trans_le hle
  · unfold Heap.alloc
    dsimp only
    rw [h.next, h.fresh x hx]
  · have hv' : ((t.heap.alloc lit).cells x).own k = some v := hv
    unfold Heap.alloc at hv'
    dsimp only at hv'
    split at hv'
    · exact h.plain x hx k v hv'
    · cases hget : lit.cells[x - t.heap.next]? with
      | none =>
        rw [hget] at hv'
        exact h.plain x hx k v hv'
      | some c =>
        rw [hget] at hv'
        obtain ⟨w, -, rfl⟩ := Option.map_eq_some_iff.1 hv'
        exact plain_shift hle w

/-- A write that looks like none, and goes right, is none. -/
theorem Mirror.write_idle (h : Mirror heap root t d) (hi : i < d.count) {c : Cell} {x : Value}
    (hwrite : (t.heap.cells (d.states i).base).write k x = some c)
    (hequal : (Tracked.current (t.heap.cells (d.states i).base) k).strictEq x = true)
    (hidle : Tracked.isLength (t.heap.cells (d.states i).base) k = true ∨
      (t.heap.cells (d.states i).base).own k = some x) :
    c.isArray = (t.heap.cells (d.states i).base).isArray ∧
      c.len = (t.heap.cells (d.states i).base).len ∧
      ∀ k', c.own k' = (t.heap.cells (d.states i).base).own k' := by
  have hentries := h.entries _ (h.drafts i hi).base_lt
  generalize t.heap.cells (d.states i).base = old at hwrite hequal hidle hentries ⊢
  by_cases hlength : old.isArray = true ∧ k = .length
  · obtain ⟨harray, rfl⟩ := hlength
    unfold Cell.write at hwrite
    rw [if_pos ⟨harray, rfl⟩] at hwrite
    obtain ⟨n, hn, rfl⟩ := Option.map_eq_some_iff.1 hwrite
    have hcurrent : Tracked.current old .length = .prim (.num old.len) := by
      unfold Tracked.current Cell.read
      rw [if_neg (by simp [inherited]), if_pos ⟨harray, rfl⟩]
    rw [hcurrent] at hequal
    have hlen : n = old.len := by
      cases x with
      | prim p =>
        cases p with
        | num m =>
          have hm : (old.len : ℤ) = m := by simpa [Value.strictEq, Prim.strictEq] using hequal
          subst hm
          simpa [Cell.toLength] using hn.symm
        | negZero =>
          have hm : old.len = 0 := by simpa [Value.strictEq, Prim.strictEq] using hequal
          rw [hm]
          simpa [Cell.toLength] using hn.symm
        | _ => cases hn
      | _ => cases hn
    subst hlen
    refine ⟨rfl, rfl, fun k' => ?_⟩
    rw [Cell.own_truncate]
    split
    · rfl
    next hnot =>
      cases k' with
      | idx m =>
        by_contra hne
        exact hnot (by simpa [Cell.below] using hentries harray m (Ne.symm hne))
      | _ => exact absurd rfl hnot
  · have hown : old.own k = some x := by
      refine hidle.resolve_left fun hislength => hlength ?_
      simpa [Tracked.isLength] using hislength
    unfold Cell.write at hwrite
    rw [if_neg hlength] at hwrite
    obtain rfl := Option.some.inj hwrite
    refine ⟨rfl, ?_, fun k' => ?_⟩
    · rw [Cell.len_put]
      unfold Cell.lenWith
      split
      next n =>
        split
        next harray =>
          have hn := hentries harray n (by rw [hown]; exact Option.some_ne_none _)
          omega
        · rfl
      · rfl
    · rw [Cell.own_put]
      split
      next hkk => rw [hkk, hown]
      · rfl

/-- A write to a draft, and to its object. -/
theorem Mirror.set (h : Mirror heap root t d) (htree : IsTree heap root) (hi : i < d.count)
    {c : Cell} {x y : Value} (htwin : Twin heap.next d x y)
    (hwrite : (t.heap.cells (d.states i).base).write k x = some c)
    (hright : t.writesRight (d.states i).base k x c = true) :
    ∃ d', d.setTrap i k y = some ((), d') ∧ Mirror heap root (t.wrote (d.states i).base k x c) d' ∧
      (mirrorWorld heap root).le d d' := by
  simp only [Tracked.writesRight, Bool.and_eq_true, Bool.not_eq_true'] at hright
  obtain ⟨⟨hpending, hcut⟩, hsafe⟩ := hright
  have hcut' : Tracked.isLength (t.heap.cells (d.states i).base) k = true →
      ∀ p ∈ t.pending, p.1 = (d.states i).base → c.len ≤ p.2 := by
    intro hislength p hp hpi
    simp only [hislength, Bool.not_true, Bool.false_or, List.all_eq_true] at hcut
    simpa [hpi] using hcut p hp
  have hchanged := (h.drafts i hi).modified
  by_cases hidle : (d.states i).modified = false ∧
      (Tracked.current (t.heap.cells (d.states i).base) k).strictEq x = true
  · obtain ⟨hmodified, hequal⟩ := hidle
    have hcurrent := (h.strictEq_current htree hi hmodified hpending htwin).trans hequal
    refine ⟨d, ?_, ?_, (mirrorWorld heap root).le_refl d⟩
    · simp only [Drafts.setTrap, h.wrapped i, hmodified, hcurrent, Bool.not_true, Bool.not_false,
        Bool.false_eq_true, if_false, Bool.and_self, if_true]
    · rw [← hchanged, hmodified, hequal] at hsafe
      obtain ⟨hisArray, hlen, hown⟩ := h.write_idle hi hwrite hequal (by simpa using hsafe)
      have hwrote : t.wrote (d.states i).base k x c =
          { t with heap := t.heap.update (d.states i).base c } := by
        have hfilter : (if Tracked.isLength (t.heap.cells (d.states i).base) k then
            t.pending.filter (·.1 ≠ (d.states i).base) else t.pending) = t.pending := by
          split
          next hislength =>
            refine List.filter_eq_self.2 fun p hp => ?_
            rw [decide_eq_true_eq]
            intro hpi
            have hle := hcut' hislength p hp hpi
            have hlt := (h.pending p hp).2.2.2
            rw [hpi, ← hlen] at hlt
            omega
          · rfl
        unfold Tracked.wrote
        simp only [hfilter, ← hchanged, hmodified, hequal, Bool.not_true, Bool.or_self,
          Bool.false_eq_true, if_false]
      rw [hwrote]
      exact h.write_same hi hisArray hlen hown
  · obtain ⟨h₁, hmodified, hmark⟩ := h.mark hi
    have hcond : (t.changed (d.states i).base ||
        !(Tracked.current (t.heap.cells (d.states i).base) k).strictEq x) = true := by
      rw [← hchanged]
      cases hm : (d.states i).modified with
      | true => rfl
      | false =>
        rw [Bool.false_or, Bool.not_eq_true', ← Bool.not_eq_true]
        exact fun hequal => hidle ⟨hm, hequal⟩
    have hnot : (!(d.states i).modified && (d.current (d.states i) k).strictEq y) = false := by
      cases hm : (d.states i).modified with
      | true => rfl
      | false =>
        rw [h.strictEq_current htree hi hm hpending htwin, Bool.not_false, Bool.true_and,
          ← Bool.not_eq_true]
        exact fun hequal => hidle ⟨hm, hequal⟩
    have hbase := hmark.base i
    have hle : (mirrorWorld heap root).le d (Drafts.markChanged d.count i d) :=
      ⟨hmark.count.ge, fun j _ => hmark.base j⟩
    generalize hd₁ : Drafts.markChanged d.count i d = d₁ at h₁ hmodified hmark hbase hle
    have hi₁ : i < d₁.count := hmark.count.symm ▸ hi
    rw [← hbase] at h₁ hwrite hpending hcut' ⊢
    obtain ⟨copy, hcopy, h₂⟩ := h₁.write hi₁ hmodified
      (Drafts.addProp (d₁.states i).modifiedProps k) (htwin.mono hle) hpending hwrite hcut'
    refine ⟨d₁.update i { d₁.states i with
      copy, modifiedProps := Drafts.addProp (d₁.states i).modifiedProps k }, ?_, ?_,
      (mirrorWorld heap root).le_trans hle ⟨le_rfl, fun j _ => ?_⟩⟩
    · simp only [Drafts.setTrap, h.wrapped i, hnot, hd₁, hcopy, Bool.not_true, Bool.false_eq_true,
        if_false, Option.map_some]
    · have hwrote : t.wrote (d₁.states i).base k x c =
          { t.marked (d₁.states i).base with
            heap := t.heap.update (d₁.states i).base c
            pending := if Tracked.isLength (t.heap.cells (d₁.states i).base) k then
              t.pending.filter (·.1 ≠ (d₁.states i).base) else t.pending } := by
        unfold Tracked.wrote
        rw [← hbase] at hcond
        simp only [hcond, if_true]
        rfl
      rw [hwrote]
      exact h₂
    · by_cases hji : j = i
      · rw [hji, Drafts.states_update_self]
      · rw [Drafts.states_update_of_ne _ hji]

/-- The record of a deletion. -/
def Tracked.deleted (t : Tracked) (r j : ℕ) : Tracked :=
  { t with
    heap := t.heap.update r ((t.heap.cells r).erase (.idx j))
    pending := if ((t.heap.cells r).own (.idx j)).isSome then (r, j) :: t.pending else t.pending }

/-- A deletion that does not reach the draft waits for a write of the length. -/
theorem Mirror.delete (h : Mirror heap root t d) (hi : i < d.count) {j : ℕ}
    (harray : (t.heap.cells (d.states i).base).isArray = true) :
    Mirror heap root (t.deleted (d.states i).base j) d := by
  have hcell := h.cells i hi
  have hentries := h.entries _ (h.drafts i hi).base_lt harray
  have hmem : ∀ {p}, p ∈ t.pending → p ∈ (if ((t.heap.cells (d.states i).base).own
      (.idx j)).isSome then ((d.states i).base, j) :: t.pending else t.pending) := by
    intro p hp
    split
    · exact List.mem_cons_of_mem _ hp
    · exact hp
  refine h.rewrite hi rfl (d.eq_update i) rfl ?_ ?_ hcell.isArray hcell.len ?_ ?_
    fun p hp _ => hmem hp
  · intro _
    rw [Cell.own_erase]
    split
    · rfl
    · exact h.lengths _ (h.drafts i hi).base_lt harray
  · intro _ n hn
    rw [Cell.own_erase] at hn
    split at hn
    · exact absurd rfl hn
    · exact hentries n hn
  · intro k hk
    have hkeep : t.isPending (d.states i).base k = false := by
      cases k with
      | idx n =>
        rw [← Bool.not_eq_true] at hk ⊢
        exact fun hp => hk (List.contains_iff_mem.2 (hmem (List.contains_iff_mem.1 hp)))
      | _ => rfl
    have hrel := hcell.own k hkeep
    rw [Cell.own_erase]
    split
    next hkj =>
      subst hkj
      cases hown : (t.heap.cells (d.states i).base).own (.idx j) with
      | none => rwa [hown] at hrel
      | some v =>
        have hpending : (t.deleted (d.states i).base j).isPending (d.states i).base (.idx j) =
            true := by
          simp [Tracked.deleted, Tracked.isPending, hown]
        exact absurd (hk.symm.trans hpending) Bool.false_ne_true
    · exact hrel
  · intro p hp
    have hold : p ∈ t.pending → p ∈ t.pending ∧ p.1 ≠ (d.states i).base ∨
        p.1 = (d.states i).base ∧ ((t.heap.cells (d.states i).base).erase (.idx j)).own (.idx p.2) =
          none ∧ p.2 < ((t.heap.cells (d.states i).base).erase (.idx j)).len := by
      intro hp
      by_cases hpi : p.1 = (d.states i).base
      · obtain ⟨-, -, hnone, hlt⟩ := h.pending p hp
        rw [hpi] at hnone hlt
        refine .inr ⟨hpi, ?_, hlt⟩
        rw [Cell.own_erase]
        split
        · rfl
        · exact hnone
      · exact .inl ⟨hp, hpi⟩
    split at hp
    next hsome =>
      obtain rfl | hp := List.mem_cons.1 hp
      · refine .inr ⟨rfl, ?_, hentries j (Option.ne_none_iff_isSome.2 hsome)⟩
        rw [Cell.own_erase, if_pos rfl]
      · exact hold hp
    · exact hold hp

/-- What a draft reads from has the entries that the draft shows. -/
theorem Mirror.source_isSome (h : Mirror heap root t d) (hi : i < d.count) :
    ((d.source (d.states i)).own k).isSome = ((d.view i).own k).isSome := by
  unfold Drafts.source Drafts.view
  split
  · rfl
  · rw [own_overlay, h.baseOf_eq hi]
    cases hlookup : (d.states i).proxies.lookup k with
    | none => rfl
    | some j =>
      obtain ⟨-, -, hown⟩ := (h.drafts i hi).proxies k j hlookup
      rw [hown]
      rfl

/-! ## Steps -/

/-- Every careful step has its step on drafts. -/
theorem careful_drafts (htree : IsTree heap root) :
    Transfer careful drafts (mirrorWorld heap root) fun v w d => Twin heap.next d v w where
  mono := fun h hle => h.mono hle
  prim _ _ := .plain trivial
  eq_prim h := by
    cases h with
    | plain => rfl
  get := by
    intro v w d₀ k htwin t d h hle a t' hget
    have htwin := htwin.mono hle
    cases htwin with
    | plain hv =>
      cases v with
      | prim p =>
        obtain ⟨q, hq, hget⟩ := Option.map_eq_some_iff.1 hget
        obtain ⟨rfl, rfl⟩ := Prod.mk.inj hget
        exact ⟨.prim q, d, by simp [drafts, hq], h, (mirrorWorld heap root).le_refl d,
          .plain trivial⟩
      | ref r =>
        have hr : ¬ r < t.bound := h.bound ▸ not_lt.2 hv
        have hcell := h.fresh r hv
        have hget' : some ((t.heap.cells r).read k, t) = some (a, t') := by
          rw [← hget]
          exact (if_neg hr).symm
        obtain ⟨rfl, rfl⟩ := Prod.mk.inj (Option.some.inj hget')
        refine ⟨_, d, rfl, h, (mirrorWorld heap root).le_refl d, ?_⟩
        rw [hcell]
        refine .plain ?_
        obtain ⟨p, hp⟩ | ⟨v, hown, hv'⟩ := (t.heap.cells r).read_cases k
        · rw [hp]
          trivial
        · rw [hv']
          exact h.plain r hv k v hown
      | draft i => exact hv.elim
      | copy i => exact hv.elim
    | draft i hi hc hbase =>
      subst hbase
      have hget' : (if t.readsRight (d.states i).base k then
          some ((t.heap.cells (d.states i).base).read k,
            t.reach (d.states i).base ((t.heap.cells (d.states i).base).read k)) else none) =
          some (a, t') := by
        rw [← hget]
        exact (if_pos (h.bound.symm ▸ hc)).symm
      obtain ⟨hright, hget'⟩ := Option.ite_none_right_eq_some.1 hget'
      obtain ⟨rfl, rfl⟩ := Prod.mk.inj (Option.some.inj hget')
      simp only [Tracked.readsRight, Bool.and_eq_true, Bool.not_eq_true'] at hright
      obtain ⟨hpending, hright⟩ := hright
      have hreads : Reads heap root t d (d.states i).base
          ((t.heap.cells (d.states i).base).read k) (d.getTrap i k) := by
        cases hmodified : (d.states i).modified with
        | true => exact h.get_modified htree hi hmodified hpending
        | false =>
          rw [← (h.drafts i hi).modified, hmodified, Bool.false_or] at hright
          exact h.get_unmodified htree hi hmodified hpending (beq_iff_eq.1 hright)
      obtain ⟨w, d', hresult, h', hle', htwin'⟩ := hreads
      exact ⟨w, d', hresult, h', hle', htwin'⟩
  set := by
    intro v w x y d₀ k htwin hvalue t d h hle a t' hset
    have htwin := htwin.mono hle
    have hvalue := hvalue.mono hle
    cases htwin with
    | plain hv =>
      cases v with
      | ref r =>
        have hr : ¬ r < t.bound := h.bound ▸ not_lt.2 hv
        obtain ⟨c, hwrite, hset⟩ := Option.bind_eq_some_iff.1 hset
        rw [if_neg hr] at hset
        obtain ⟨hbase, hset⟩ := Option.ite_none_left_eq_some.1 hset
        obtain ⟨-, rfl⟩ := Prod.mk.inj (Option.some.inj hset)
        have hxy : x = y ∧ Plain heap.next x := by
          cases hvalue with
          | plain hx => exact ⟨rfl, hx⟩
          | draft i _ hc _ => exact absurd (decide_eq_true (h.bound.symm ▸ hc)) hbase
        obtain ⟨rfl, hx⟩ := hxy
        refine ⟨(), { d with heap := d.heap.update r c }, ?_,
          h.setFresh hv (plain_write (h.plain r hv) hx hwrite), ⟨le_rfl, fun _ _ => rfl⟩, trivial⟩
        show ((d.heap.cells r).write k x).map _ = _
        rw [h.fresh r hv, hwrite]
        rfl
      | prim p => cases hset
      | draft i => exact hv.elim
      | copy i => exact hv.elim
    | draft i hi hc hbase =>
      subst hbase
      obtain ⟨c, hwrite, hset⟩ := Option.bind_eq_some_iff.1 hset
      rw [if_pos (h.bound.symm ▸ hc)] at hset
      obtain ⟨hright, hset⟩ := Option.ite_none_right_eq_some.1 hset
      obtain ⟨-, rfl⟩ := Prod.mk.inj (Option.some.inj hset)
      obtain ⟨d', hresult, h', hle'⟩ := h.set htree hi hvalue hwrite hright
      exact ⟨(), d', hresult, h', hle', trivial⟩
  delete := by
    intro v w d₀ j htwin t d h hle a t' hdelete
    have htwin := htwin.mono hle
    cases htwin with
    | plain hv =>
      cases v with
      | ref r =>
        have hr : ¬ r < t.bound := h.bound ▸ not_lt.2 hv
        have hdelete' : some ((), { t with
            heap := t.heap.update r ((t.heap.cells r).erase (.idx j)) }) = some (a, t') := by
          rw [← hdelete]
          exact (if_neg hr).symm
        obtain ⟨-, rfl⟩ := Prod.mk.inj (Option.some.inj hdelete')
        refine ⟨(), { d with heap := d.heap.update r ((t.heap.cells r).erase (.idx j)) }, ?_,
          h.setFresh hv fun k w hw => ?_, ⟨le_rfl, fun _ _ => rfl⟩, trivial⟩
        · rw [← h.fresh r hv]
          rfl
        · rw [Cell.own_erase] at hw
          exact h.plain r hv k w (Option.ite_none_left_eq_some.1 hw).2
      | prim p => cases hdelete
      | draft i => exact hv.elim
      | copy i => exact hv.elim
    | draft i hi hc hbase =>
      subst hbase
      have hdelete' : (if (t.heap.cells (d.states i).base).isArray = true ∧ j ≠ 0 then
          some ((), t.deleted (d.states i).base j) else none) = some (a, t') := by
        rw [← hdelete]
        exact (if_pos (h.bound.symm ▸ hc)).symm
      obtain ⟨⟨harray, hj⟩, hdelete'⟩ := Option.ite_none_right_eq_some.1 hdelete'
      obtain ⟨-, rfl⟩ := Prod.mk.inj (Option.some.inj hdelete')
      refine ⟨(), d, ?_, h.delete hi harray, (mirrorWorld heap root).le_refl d, trivial⟩
      have hnot : ((d.states i).isArray && j == 0) = false := by
        rw [beq_false_of_ne hj, Bool.and_false]
      show some ((), d.deleteTarget i j) = some ((), d)
      unfold Drafts.deleteTarget
      simp only [hnot, Bool.false_eq_true, if_false]
  has := by
    intro v w d₀ j htwin t d h hle a t' hhas
    have htwin := htwin.mono hle
    cases htwin with
    | plain hv =>
      cases v with
      | ref r =>
        have hr : ¬ (r < t.bound ∧ t.isPending r (.idx j)) := fun hboth =>
          absurd (h.bound ▸ hboth.1) (not_lt.2 hv)
        have hhas' : some (((t.heap.cells r).own (.idx j)).isSome, t) = some (a, t') := by
          rw [← hhas]
          exact (if_neg hr).symm
        obtain ⟨rfl, rfl⟩ := Prod.mk.inj (Option.some.inj hhas')
        refine ⟨_, d, rfl, h, (mirrorWorld heap root).le_refl d, ?_⟩
        rw [h.fresh r hv]
      | prim p => cases hhas
      | draft i => exact hv.elim
      | copy i => exact hv.elim
    | draft i hi hc hbase =>
      subst hbase
      obtain ⟨hright, hhas'⟩ := Option.ite_none_left_eq_some.1 hhas
      obtain ⟨rfl, rfl⟩ := Prod.mk.inj (Option.some.inj hhas')
      have hpending : t.isPending (d.states i).base (.idx j) = false := by
        rw [← Bool.not_eq_true]
        exact fun hp => hright ⟨h.bound.symm ▸ hc, hp⟩
      refine ⟨((d.source (d.states i)).own (.idx j)).isSome, d, ?_, h,
        (mirrorWorld heap root).le_refl d, ?_⟩
      · show d.hasTrap i j = _
        simp only [Drafts.hasTrap, h.wrapped i, Bool.not_true, Bool.false_eq_true, if_false]
      · rw [h.source_isSome hi]
        have hrel := (h.cells i hi).own (.idx j) hpending
        generalize (t.heap.cells (d.states i).base).own (.idx j) = x at hrel ⊢
        generalize (d.view i).own (.idx j) = y at hrel ⊢
        cases hrel <;> rfl
  isArray := by
    intro v w d₀ htwin t d h hle a t' hisArray
    have htwin := htwin.mono hle
    cases htwin with
    | plain hv =>
      cases v with
      | ref r =>
        obtain ⟨rfl, rfl⟩ := Prod.mk.inj (Option.some.inj hisArray)
        refine ⟨_, d, rfl, h, (mirrorWorld heap root).le_refl d, ?_⟩
        rw [h.fresh r hv]
      | prim p =>
        obtain ⟨rfl, rfl⟩ := Prod.mk.inj (Option.some.inj hisArray)
        exact ⟨_, d, rfl, h, (mirrorWorld heap root).le_refl d, rfl⟩
      | draft i => exact hv.elim
      | copy i => exact hv.elim
    | draft i hi hc hbase =>
      subst hbase
      obtain ⟨rfl, rfl⟩ := Prod.mk.inj (Option.some.inj hisArray)
      have hdraft := h.drafts i hi
      exact ⟨_, d, rfl, h, (mirrorWorld heap root).le_refl d, hdraft.kind.trans hdraft.isArray.symm⟩
  alloc := by
    intro lit d₀ t d h hle a t' halloc
    obtain ⟨rfl, rfl⟩ := Prod.mk.inj (Option.some.inj halloc)
    refine ⟨Heap.shift d.heap.next lit.root, _, rfl, h.alloc lit, ⟨le_rfl, fun _ _ => rfl⟩, ?_⟩
    rw [h.next]
    exact .plain (plain_shift h.le_next lit.root)

/-- The start of a producer, on both sides. -/
theorem Mirror.start (htree : IsTree heap root) :
    Mirror heap root (Tracked.start heap root) (Drafts.start heap root) where
  bound := rfl
  le_next := le_rfl
  next := rfl
  base _ _ := rfl
  fresh _ _ := rfl
  plain r hr k v hv := absurd ((htree.empty r hr k).symm.trans hv) (by simp)
  wrapped _ := rfl
  unborn _ _ := rfl
  unfinished _ := rfl
  root_draft := ⟨Nat.one_pos, rfl⟩
  drafts i hi :=
    { base_lt := htree.root_lt
      isArray := rfl
      kind := rfl
      modified := rfl
      proxies := fun _ _ hlookup => by cases hlookup
      top := fun _ => ⟨rfl, if_pos rfl⟩
      below := fun _ _ hparent => by cases hparent
      closed := fun _ _ hparent => by cases hparent }
  injective i hi j hj _ := by
    have hi' : i < 1 := hi
    have hj' : j < 1 := hj
    omega
  above r hr := by
    refine ⟨0, Nat.one_pos, ?_⟩
    by_contra hne
    exact hr (if_neg fun heq => hne heq.symm)
  changed r hr := absurd hr Bool.false_ne_true
  untouched _ _ _ := rfl
  lengths := htree.length
  entries := htree.entries
  pending p hp := absurd hp List.not_mem_nil
  cells i hi := by
    refine ⟨rfl, rfl, fun k _ => ?_⟩
    show Option.Rel _ ((heap.cells root).own k) ((heap.cells root).own k)
    cases hv : (heap.cells root).own k with
    | none => exact .none
    | some v =>
      refine .some ?_
      obtain ⟨p, rfl⟩ | ⟨c, hc, hne, rfl⟩ := htree.value root htree.root_lt k v hv
      · exact .held (.plain trivial)
      · exact .raw hc (if_neg hne) hv

/-- A careful producer runs on drafts. -/
theorem mirror_run (htree : IsTree heap root) {producer : List Step} {h' : Heap}
    (hrun : carefulRun heap root producer = some h') :
    ∃ t d, drafts.run (.draft 0) producer (Drafts.start heap root) = some ((), d) ∧
      Mirror heap root t d ∧ t.heap = h' ∧ t.pending = [] := by
  obtain ⟨⟨⟨⟩, t⟩, hcareful, hrun⟩ := Option.bind_eq_some_iff.1 hrun
  obtain ⟨hpending, hrun⟩ := Option.ite_none_right_eq_some.1 hrun
  have hroot : Twin heap.next (Drafts.start heap root) (.ref root) (.draft 0) :=
    .draft 0 Nat.one_pos htree.root_lt rfl
  obtain ⟨⟨⟩, d, hdrafts, hmirror, -, -⟩ := (careful_drafts htree).run hroot producer _ _
    (Mirror.start htree) ((mirrorWorld heap root).le_refl _) _ _ hcareful
  exact ⟨t, d, hdrafts, hmirror, Option.some.inj hrun, List.isEmpty_iff.1 hpending⟩

end HanabiBot.Drafting
