import HanabiBot.Drafting.Careful
import HanabiBot.Drafting.Untouched

/-!
# Drafts mirror the objects

A producer runs twice: on the objects themselves, as far as it is careful, and on a draft of
them.  `Mirror` says what the two have in common at every point: the draft of an object shows what
the object has become (`CellMirror`), and the object itself, on the side of the drafts, has stayed
as it was.

* `Mirror.create` — a nested draft is made of an object that has not been read before;
* `Mirror.get_modified`, `Mirror.get_unmodified` — reading a draft.
-/

namespace HanabiBot.Drafting

/-! ## The base -/

/-- A heap with a tree of plain objects and arrays at its root, and nothing but trees. -/
structure IsTree (heap : Heap) (root : ℕ) : Prop where
  root_lt : root < heap.next
  value : ∀ r < heap.next, ∀ k v, (heap.cells r).own k = some v →
    (∃ p, v = .prim p) ∨ ∃ c < heap.next, c ≠ root ∧ v = .ref c
  unique : ∀ r < heap.next, ∀ r' < heap.next, ∀ k k' c, (heap.cells r).own k = some (.ref c) →
    (heap.cells r').own k' = some (.ref c) → r = r' ∧ k = k'
  length : ∀ r < heap.next, (heap.cells r).isArray = true → (heap.cells r).own .length = none
  entries : ∀ r < heap.next, (heap.cells r).isArray = true →
    ∀ i, (heap.cells r).own (.idx i) ≠ none → i < (heap.cells r).len
  empty : ∀ r, heap.next ≤ r → ∀ k, (heap.cells r).own k = none

/-- A value that refers to nothing of the base. -/
def Plain (bound : ℕ) : Value → Prop
  | .prim _ => True
  | .ref c => bound ≤ c
  | _ => False

/-! ## The relation -/

/-- What the two programs hold: the same plain value, or an object and its draft. -/
inductive Twin (bound : ℕ) (d : Drafts) : Value → Value → Prop
  | plain {v : Value} (hv : Plain bound v) : Twin bound d v v
  | draft {c : ℕ} (i : ℕ) (hi : i < d.count) (hc : c < bound) (hbase : (d.states i).base = c) :
    Twin bound d (.ref c) (.draft i)

/-- An entry of an object and of its draft: what the programs can hold, or an object that has not
been read yet and is where it was. -/
inductive Entry (heap : Heap) (t : Tracked) (d : Drafts) (r : ℕ) (k : Key) : Value → Value → Prop
  | held {v w : Value} (h : Twin heap.next d v w) : Entry heap t d r k v w
  | raw {c : ℕ} (hc : c < heap.next) (hnew : t.above c = none)
    (hown : (heap.cells r).own k = some (.ref c)) : Entry heap t d r k (.ref c) (.ref c)

namespace Drafts

/-- What a draft shows. -/
def view (d : Drafts) (i : ℕ) : Cell :=
  if (d.states i).modified then (d.states i).copy
  else (d.states i).overlay (d.baseOf (d.states i))

end Drafts

/-- A draft shows what its object has become; entries that are about to be cut off may still be
there. -/
structure CellMirror (heap : Heap) (t : Tracked) (d : Drafts) (i : ℕ) : Prop where
  isArray : (d.view i).isArray = (t.heap.cells (d.states i).base).isArray
  len : (d.view i).len = (t.heap.cells (d.states i).base).len
  own : ∀ k, t.isPending (d.states i).base k = false →
    Option.Rel (Entry heap t d (d.states i).base k) ((t.heap.cells (d.states i).base).own k)
      ((d.view i).own k)

/-- A draft, with its place in the tree. -/
structure IsDraft (heap : Heap) (root : ℕ) (t : Tracked) (d : Drafts) (i : ℕ) : Prop where
  base_lt : (d.states i).base < heap.next
  isArray : (d.states i).isArray = (heap.cells (d.states i).base).isArray
  kind : (t.heap.cells (d.states i).base).isArray = (heap.cells (d.states i).base).isArray
  modified : (d.states i).modified = t.changed (d.states i).base
  proxies : ∀ k j, (d.states i).proxies.lookup k = some j → j < d.count ∧
    inherited false k = .undefined ∧
      (heap.cells (d.states i).base).own k = some (.ref (d.states j).base)
  top : (d.states i).parent = none → (d.states i).base = root ∧ t.above root = some [root]
  below : ∀ p key, (d.states i).parent = some (p, key) → p < i ∧
    (heap.cells (d.states p).base).own key = some (.ref (d.states i).base) ∧
      ∃ l, t.above (d.states p).base = some l ∧
        t.above (d.states i).base = some ((d.states i).base :: l)
  closed : ∀ p key, (d.states i).parent = some (p, key) → (d.states i).modified = true →
    (d.states p).modified = true

/-- The objects and the drafts of a producer that has run on both. -/
structure Mirror (heap : Heap) (root : ℕ) (t : Tracked) (d : Drafts) : Prop where
  bound : t.bound = heap.next
  le_next : heap.next ≤ t.heap.next
  next : d.heap.next = t.heap.next
  base : ∀ r < heap.next, d.heap.cells r = heap.cells r
  fresh : ∀ r, heap.next ≤ r → d.heap.cells r = t.heap.cells r
  plain : ∀ r, heap.next ≤ r → ∀ k v, (t.heap.cells r).own k = some v → Plain heap.next v
  wrapped : Wrapped d
  unborn : ∀ j, d.count ≤ j → (d.states j).modified = false
  unfinished : ∀ j, (d.states j).finalized = false
  root_draft : 0 < d.count ∧ (d.states 0).base = root
  drafts : ∀ i < d.count, IsDraft heap root t d i
  injective : ∀ i < d.count, ∀ j < d.count, (d.states i).base = (d.states j).base → i = j
  above : ∀ r, t.above r ≠ none → ∃ i < d.count, (d.states i).base = r
  changed : ∀ r, t.changed r = true → t.above r ≠ none
  untouched : ∀ r < heap.next, t.above r = none → t.heap.cells r = heap.cells r
  lengths : ∀ r < heap.next, (t.heap.cells r).isArray = true →
    (t.heap.cells r).own .length = none
  entries : ∀ r < heap.next, (t.heap.cells r).isArray = true →
    ∀ i, (t.heap.cells r).own (.idx i) ≠ none → i < (t.heap.cells r).len
  pending : ∀ p ∈ t.pending, p.1 < heap.next ∧ t.above p.1 ≠ none ∧
    (t.heap.cells p.1).own (.idx p.2) = none ∧ p.2 < (t.heap.cells p.1).len
  cells : ∀ i < d.count, CellMirror heap t d i

/-- How the two programs are related. -/
def mirrorWorld (heap : Heap) (root : ℕ) : World Tracked Drafts where
  rel := Mirror heap root
  le d d' := d.count ≤ d'.count ∧ ∀ i < d.count, (d'.states i).base = (d.states i).base
  le_refl _ := ⟨le_rfl, fun _ _ => rfl⟩
  le_trans h h' := ⟨h.1.trans h'.1, fun i hi => (h'.2 i (hi.trans_le h.1)).trans (h.2 i hi)⟩

variable {heap : Heap} {root : ℕ} {t : Tracked} {d d' : Drafts} {i : ℕ} {k : Key} {v w : Value}

/-! ## Reading -/

theorem Twin.mono {bound : ℕ} (h : Twin bound d v w) (hle : (mirrorWorld heap root).le d d') :
    Twin bound d' v w := by
  cases h with
  | plain hv => exact .plain hv
  | draft i hi hc hbase => exact .draft i (hi.trans_le hle.1) hc ((hle.2 i hi).trans hbase)

/-- What a draft shows for a property is what the object has there. -/
theorem CellMirror.read (h : CellMirror heap t d i)
    (hk : t.isPending (d.states i).base k = false) :
    Entry heap t d (d.states i).base k ((t.heap.cells (d.states i).base).read k)
      ((d.view i).read k) := by
  have hown := h.own k hk
  unfold Cell.read
  rw [h.isArray, h.len]
  split
  · exact .held (.plain trivial)
  · generalize (t.heap.cells (d.states i).base).own k = a at hown
    generalize (d.view i).own k = b at hown
    cases hown with
    | none => exact .held (.plain trivial)
    | some hentry => exact hentry

/-- An object that is not read yet is not below one that is not read yet. -/
theorem Mirror.above_parent (h : Mirror heap root t d) (htree : IsTree heap root) {r c : ℕ}
    (hr : r < heap.next) (hc : c < heap.next) (hown : (heap.cells r).own k = some (.ref c))
    (habove : t.above c ≠ none) : t.above r ≠ none := by
  obtain ⟨j, hj, rfl⟩ := h.above c habove
  have hdraft := h.drafts j hj
  cases hparent : (d.states j).parent with
  | none =>
    obtain ⟨hroot, -⟩ := hdraft.top hparent
    obtain ⟨p, hp⟩ | ⟨c', -, hne, hc'⟩ := htree.value r hr k _ hown
    · cases hp
    · rw [hroot] at hc'
      exact absurd (Value.ref.inj hc').symm hne
  | some parent =>
    obtain ⟨hlt, hkey, l, hl, -⟩ := hdraft.below parent.1 parent.2 hparent
    have hbase := (h.drafts parent.1 (hlt.trans hj)).base_lt
    obtain ⟨rfl, -⟩ := htree.unique r hr _ hbase k parent.2 _ hown hkey
    rw [hl]
    exact Option.some_ne_none l

/-- A draft's object has been read. -/
theorem Mirror.above_base (h : Mirror heap root t d) {j : ℕ} (hj : j < d.count) :
    t.above (d.states j).base ≠ none := by
  have hdraft := h.drafts j hj
  cases hparent : (d.states j).parent with
  | none =>
    obtain ⟨hroot, habove⟩ := hdraft.top hparent
    rw [hroot, habove]
    exact Option.some_ne_none _
  | some parent =>
    obtain ⟨-, -, l, -, habove⟩ := hdraft.below parent.1 parent.2 hparent
    rw [habove]
    exact Option.some_ne_none _

theorem own_overlay (s : StateProxy) (base : Cell) (k : Key) :
    (s.overlay base).own k = ((s.proxies.lookup k).map Value.draft).or (base.own k) := rfl

/-- The record after an object of the base has been read for the first time. -/
def Tracked.reached (t : Tracked) (r c : ℕ) : Tracked :=
  { t with above := Function.update t.above c (some (c :: (t.above r).getD [])) }

theorem Tracked.above_reached_of_ne (t : Tracked) (r : ℕ) {c x : ℕ} (hx : x ≠ c) :
    (t.reached r c).above x = t.above x := Function.update_of_ne hx _ _

theorem Tracked.above_reached_self (t : Tracked) (r c : ℕ) :
    (t.reached r c).above c = some (c :: (t.above r).getD []) := Function.update_self ..

@[simp] theorem Tracked.heap_reached (t : Tracked) (r c : ℕ) : (t.reached r c).heap = t.heap := rfl

theorem Mirror.reach_eq (h : Mirror heap root t d) {c : ℕ} (hc : c < heap.next)
    (hnew : t.above c = none) (r : ℕ) : t.reach r (.ref c) = t.reached r c := by
  unfold Tracked.reach
  have hcond : c < t.bound ∧ t.above c = none := ⟨h.bound.symm ▸ hc, hnew⟩
  exact if_pos hcond

/-- What changes when a draft of `c` is made below the draft `i`. -/
structure Creates (d d' : Drafts) (i c : ℕ) (k : Key) : Prop where
  heap : d'.heap = d.heap
  count : d'.count = d.count + 1
  born : d'.states d.count = .fresh d.heap c (some (i, k))
  base : ∀ j < d.count, (d'.states j).base = (d.states j).base
  isArray : ∀ j < d.count, (d'.states j).isArray = (d.states j).isArray
  parent : ∀ j < d.count, (d'.states j).parent = (d.states j).parent
  modified : ∀ j < d.count, (d'.states j).modified = (d.states j).modified
  finalized : ∀ j < d.count, (d'.states j).finalized = (d.states j).finalized
  wrapped : ∀ j < d.count, (d'.states j).wrapped = (d.states j).wrapped
  later : ∀ j, d.count < j → d'.states j = d.states j
  other : ∀ j < d.count, j ≠ i → d'.states j = d.states j
  proxies : ∀ k' j, (d'.states i).proxies.lookup k' = some j →
    k' = k ∧ j = d.count ∧ inherited false k = .undefined ∨
      (d.states i).proxies.lookup k' = some j
  viewArray : (d'.view i).isArray = (d.view i).isArray
  viewLen : (d'.view i).len = (d.view i).len
  view : ∀ k', (d'.view i).own k' = if k' = k then some (.draft d.count) else (d.view i).own k'

section

variable {c : ℕ} (h : Mirror heap root t d) (hi : i < d.count) (hc : c < heap.next)
  (hnew : t.above c = none) (hown : (heap.cells (d.states i).base).own k = some (.ref c))
include h hi hc hnew hown

theorem Mirror.create_drafts (hd' : Creates d d' i c k) :
    ∀ j < d'.count, IsDraft heap root (t.reached (d.states i).base c) d' j := by
  have hold : ∀ {r}, t.above r ≠ none → (t.reached (d.states i).base c).above r = t.above r := by
    intro r hr
    refine t.above_reached_of_ne _ ?_
    rintro rfl
    exact hr hnew
  intro j hj
  by_cases hnewborn : j = d.count
  · subst hnewborn
    have hchanged : t.changed c = false := by
      rw [← Bool.not_eq_true]
      exact fun hch => h.changed c hch hnew
    obtain ⟨l, hl⟩ := Option.ne_none_iff_exists'.1 (h.above_base hi)
    refine ⟨?_, ?_, ?_, ?_, ?_, ?_, ?_, ?_⟩ <;> rw [hd'.born]
    · exact hc
    · exact congrArg Cell.isArray (h.base c hc)
    · exact congrArg Cell.isArray (h.untouched c hc hnew)
    · exact hchanged.symm
    · exact fun _ _ hlookup => by cases hlookup
    · exact fun hnone => by cases hnone
    · intro p key hparent
      obtain ⟨rfl, rfl⟩ := Prod.mk.inj (Option.some.inj hparent)
      refine ⟨hi, by rw [hd'.base _ hi]; exact hown, l, ?_, ?_⟩
      · rw [hd'.base _ hi]
        exact (hold (h.above_base hi)).trans hl
      · show (t.reached (d.states i).base c).above c = _
        rw [Tracked.above_reached_self, hl]
        rfl
    · exact fun _ _ _ hmodified => by cases hmodified
  · have hj' : j < d.count := by
      have hle := hd'.count
      omega
    have hdraft := h.drafts j hj'
    refine ⟨?_, ?_, ?_, ?_, ?_, ?_, ?_, ?_⟩
    · rw [hd'.base j hj']
      exact hdraft.base_lt
    · rw [hd'.base j hj', hd'.isArray j hj']
      exact hdraft.isArray
    · rw [hd'.base j hj']
      exact hdraft.kind
    · rw [hd'.base j hj', hd'.modified j hj']
      exact hdraft.modified
    · intro k' j' hlookup
      have hkeep : (d.states j).proxies.lookup k' = some j' → j' < d'.count ∧
          inherited false k' = .undefined ∧
            (heap.cells (d'.states j).base).own k' = some (.ref (d'.states j').base) := by
        intro hlookup
        obtain ⟨hlt, hinherited, hkey⟩ := hdraft.proxies k' j' hlookup
        rw [hd'.base j hj', hd'.base j' hlt, hd'.count]
        exact ⟨by omega, hinherited, hkey⟩
      by_cases hji : j = i
      · subst hji
        obtain ⟨rfl, rfl, hinherited⟩ | hlookup := hd'.proxies k' j' hlookup
        · rw [hd'.base j hj', hd'.born, hd'.count]
          exact ⟨Nat.lt_succ_self _, hinherited, hown⟩
        · exact hkeep hlookup
      · rw [hd'.other j hj' hji] at hlookup
        exact hkeep hlookup
    · rw [hd'.base j hj', hd'.parent j hj']
      intro hparent
      obtain ⟨hroot, habove⟩ := hdraft.top hparent
      exact ⟨hroot, (hold (by rw [habove]; exact Option.some_ne_none _)).trans habove⟩
    · rw [hd'.base j hj', hd'.parent j hj']
      intro p key hparent
      obtain ⟨hlt, hkey, l, hl, habove⟩ := hdraft.below p key hparent
      rw [hd'.base p (hlt.trans hj')]
      refine ⟨hlt, hkey, l, ?_, ?_⟩
      · exact (hold (h.above_base (hlt.trans hj'))).trans hl
      · exact (hold (h.above_base hj')).trans habove
    · rw [hd'.parent j hj', hd'.modified j hj']
      intro p key hparent hmodified
      rw [hd'.modified p ((hdraft.below p key hparent).1.trans hj')]
      exact hdraft.closed p key hparent hmodified

theorem Mirror.create_cells (htree : IsTree heap root) (hd' : Creates d d' i c k)
    (hshown : (t.heap.cells (d.states i).base).own k = some (.ref c)) :
    ∀ j < d'.count, CellMirror heap (t.reached (d.states i).base c) d' j := by
  have hle : (mirrorWorld heap root).le d d' := by
    refine ⟨?_, hd'.base⟩
    have hcount := hd'.count
    omega
  have hcells : d'.heap.cells = d.heap.cells := by rw [hd'.heap]
  intro j hj
  by_cases hnewborn : j = d.count
  · subst hnewborn
    have hview : d'.view d.count =
        (StateProxy.fresh d.heap c (some (i, k))).overlay (heap.cells c) := by
      unfold Drafts.view Drafts.baseOf
      rw [hd'.born, hcells, ← h.base c hc]
      rfl
    have hsame : t.heap.cells c = heap.cells c := h.untouched c hc hnew
    have hbase : (d'.states d.count).base = c := by rw [hd'.born]; rfl
    refine ⟨?_, ?_, fun k' _ => ?_⟩ <;> rw [hview, hbase, Tracked.heap_reached, hsame]
    · rfl
    · rfl
    · rw [own_overlay]
      show Option.Rel _ _ ((heap.cells c).own k')
      cases hv : (heap.cells c).own k' with
      | none => exact .none
      | some v =>
        refine .some ?_
        obtain ⟨p, rfl⟩ | ⟨c', hc', -, rfl⟩ := htree.value c hc k' v hv
        · exact .held (.plain trivial)
        · refine .raw hc' ?_ hv
          have hunread : t.above c' = none := by
            by_contra habove
            exact h.above_parent htree hc hc' hv habove hnew
          have hne : c' ≠ c := by
            rintro rfl
            have heq := (htree.unique c' hc _ (h.drafts i hi).base_lt k' k c' hv hown).1
            exact h.above_base hi (heq ▸ hnew)
          exact (t.above_reached_of_ne _ hne).trans hunread
  · have hj' : j < d.count := by
      have hcount := hd'.count
      omega
    have hcell := h.cells j hj'
    have hentry : ∀ {k' v w}, (j = i → k' ≠ k) → Entry heap t d (d.states j).base k' v w →
        Entry heap (t.reached (d.states i).base c) d' (d.states j).base k' v w := by
      intro k' v w hne hentry
      cases hentry with
      | held hheld => exact .held (hheld.mono hle)
      | raw hc' hunread hkey =>
        refine .raw hc' ((t.above_reached_of_ne _ ?_).trans hunread) hkey
        rintro rfl
        obtain ⟨hbase, hkeys⟩ := htree.unique _ (h.drafts j hj').base_lt _ (h.drafts i hi).base_lt
          k' k _ hkey hown
        exact hne (h.injective j hj' i hi hbase) hkeys
    by_cases hji : j = i
    · subst hji
      refine ⟨?_, ?_, fun k' hk' => ?_⟩ <;> rw [hd'.base j hj']
      · rw [hd'.viewArray]
        exact hcell.isArray
      · rw [hd'.viewLen]
        exact hcell.len
      · rw [hd'.base j hj'] at hk'
        have hrel := hcell.own k' hk'
        rw [hd'.view k']
        split
        · rename_i hkk
          subst hkk
          rw [Tracked.heap_reached, hshown]
          refine .some (.held (.draft d.count ?_ hc ?_))
          · rw [hd'.count]
            exact Nat.lt_succ_self _
          · rw [hd'.born]
            rfl
        · rename_i hne
          rw [Tracked.heap_reached]
          generalize (t.heap.cells (d.states j).base).own k' = a at hrel ⊢
          generalize (d.view j).own k' = b at hrel ⊢
          cases hrel with
          | none => exact .none
          | some hrel => exact .some (hentry (fun _ => hne) hrel)
    · have hsame := hd'.other j hj' hji
      have hview : d'.view j = d.view j := by
        unfold Drafts.view Drafts.baseOf
        rw [hsame, hcells]
      refine ⟨?_, ?_, fun k' hk' => ?_⟩ <;> rw [hd'.base j hj', hview]
      · exact hcell.isArray
      · exact hcell.len
      · rw [hd'.base j hj'] at hk'
        have hrel := hcell.own k' hk'
        rw [Tracked.heap_reached]
        generalize (t.heap.cells (d.states j).base).own k' = a at hrel ⊢
        generalize (d.view j).own k' = b at hrel ⊢
        cases hrel with
        | none => exact .none
        | some hrel => exact .some (hentry (fun heq => absurd heq hji) hrel)

/-- A draft is made of an object that has not been read yet. -/
theorem Mirror.create (htree : IsTree heap root) (hd' : Creates d d' i c k)
    (hshown : (t.heap.cells (d.states i).base).own k = some (.ref c)) :
    Mirror heap root (t.reached (d.states i).base c) d' := by
  have hcount := hd'.count
  have hborn : (d'.states d.count).base = c := by rw [hd'.born]; rfl
  have habove : ∀ {r}, t.above r ≠ none → (t.reached (d.states i).base c).above r ≠ none := by
    intro r hr
    by_cases hrc : r = c
    · rw [hrc, Tracked.above_reached_self]
      exact Option.some_ne_none _
    · rwa [t.above_reached_of_ne _ hrc]
  have hcases : ∀ P : StateProxy → Prop, (∀ j < d.count, P (d'.states j)) →
      P (.fresh d.heap c (some (i, k))) → (∀ j, d.count < j → P (d.states j)) →
      ∀ j, P (d'.states j) := by
    intro P hlt heq hgt j
    obtain hj | rfl | hj := Nat.lt_trichotomy j d.count
    · exact hlt j hj
    · exact hd'.born ▸ heq
    · exact hd'.later j hj ▸ hgt j hj
  exact {
    bound := h.bound
    le_next := h.le_next
    next := by rw [hd'.heap]; exact h.next
    base := by rw [hd'.heap]; exact h.base
    fresh := by rw [hd'.heap]; exact h.fresh
    plain := h.plain
    wrapped := hcases (·.wrapped = true) (fun j hj => (hd'.wrapped j hj).trans (h.wrapped j)) rfl
      fun j _ => h.wrapped j
    unborn := by
      intro j hj
      rw [hd'.later j (by omega)]
      exact h.unborn j (by omega)
    unfinished := hcases (·.finalized = false)
      (fun j hj => (hd'.finalized j hj).trans (h.unfinished j)) rfl fun j _ => h.unfinished j
    root_draft := ⟨by omega, (hd'.base 0 h.root_draft.1).trans h.root_draft.2⟩
    drafts := h.create_drafts hi hc hnew hown hd'
    injective := by
      have hother : ∀ j < d.count, (d'.states j).base ≠ c := by
        intro j hj heq
        rw [hd'.base j hj] at heq
        exact h.above_base hj (heq ▸ hnew)
      intro j hj j' hj' heq
      by_cases hjn : j = d.count <;> by_cases hjn' : j' = d.count
      · rw [hjn, hjn']
      · rw [hjn, hborn] at heq
        exact absurd heq.symm (hother j' (by omega))
      · rw [hjn', hborn] at heq
        exact absurd heq (hother j (by omega))
      · rw [hd'.base j (by omega), hd'.base j' (by omega)] at heq
        exact h.injective j (by omega) j' (by omega) heq
    above := by
      intro r hr
      by_cases hrc : r = c
      · exact ⟨d.count, by omega, hborn.trans hrc.symm⟩
      · rw [t.above_reached_of_ne _ hrc] at hr
        obtain ⟨j, hj, hbase⟩ := h.above r hr
        exact ⟨j, by omega, (hd'.base j hj).trans hbase⟩
    changed := fun r hr => habove (h.changed r hr)
    untouched := by
      intro r hr hnone
      refine h.untouched r hr ?_
      by_contra hne
      exact habove hne hnone
    lengths := h.lengths
    entries := h.entries
    pending := by
      intro p hp
      obtain ⟨hlt, hread, hrest⟩ := h.pending p hp
      exact ⟨hlt, habove hread, hrest⟩
    cells := h.create_cells hi hc hnew hown htree hd' hshown }

end

/-- The two ways to keep a nested draft. -/
inductive Keeps (d : Drafts) (i c : ℕ) (k : Key) : StateProxy → Prop
  | copy (hmodified : (d.states i).modified = true)
    (hlen : (d.states i).copy.lenWith k = (d.states i).copy.len) :
    Keeps d i c k { d.states i with copy := (d.states i).copy.put k (.draft d.count) }
  | proxies (hmodified : (d.states i).modified = false) (hnone : inherited false k = .undefined) :
    Keeps d i c k { d.states i with proxies := (k, d.count) :: (d.states i).proxies }

theorem Keeps.creates {c : ℕ} {s : StateProxy} (hs : Keeps d i c k s) (hi : i < d.count) :
    Creates d ((d.create (.fresh d.heap c (some (i, k)))).update i s) i c k := by
  have hother : ∀ j < d.count, j ≠ i → ((d.create (.fresh d.heap c (some (i, k)))).update i
      s).states j = d.states j := by
    intro j hj hji
    rw [Drafts.states_update_of_ne _ hji, Drafts.states_create_of_ne d hj.ne]
  have hsame : ∀ {α : Type} (f : StateProxy → α), f s = f (d.states i) → ∀ j < d.count,
      f (((d.create (.fresh d.heap c (some (i, k)))).update i s).states j) = f (d.states j) := by
    intro α f hf j hj
    by_cases hji : j = i
    · rw [hji, Drafts.states_update_self, hf]
    · rw [hother j hj hji]
  refine
    { heap := rfl
      count := rfl
      born := by rw [Drafts.states_update_of_ne _ hi.ne', Drafts.states_create_self]
      base := hsame _ (by cases hs <;> rfl)
      isArray := hsame _ (by cases hs <;> rfl)
      parent := hsame _ (by cases hs <;> rfl)
      modified := hsame _ (by cases hs <;> rfl)
      finalized := hsame _ (by cases hs <;> rfl)
      wrapped := hsame _ (by cases hs <;> rfl)
      later := fun j hj => by
        rw [Drafts.states_update_of_ne _ (by omega), Drafts.states_create_of_ne d hj.ne']
      other := hother
      proxies := ?_
      viewArray := ?_
      viewLen := ?_
      view := ?_ }
  · rw [Drafts.states_update_self]
    intro k' j hlookup
    cases hs with
    | copy => exact .inr hlookup
    | proxies _ hnone =>
      rw [List.lookup_cons] at hlookup
      split at hlookup
      next heq => exact .inl ⟨beq_iff_eq.1 heq, (Option.some.inj hlookup).symm, hnone⟩
      next => exact .inr hlookup
  all_goals
    unfold Drafts.view
    rw [Drafts.states_update_self]
    cases hs with
    | copy hmodified hlen => ?_
    | proxies hmodified hnone => ?_
  · simp only [hmodified, if_true, Cell.isArray_put]
  · simp only [hmodified, Bool.false_eq_true, if_false]
    rfl
  · simp only [hmodified, if_true, Cell.len_put, hlen]
  · simp only [hmodified, Bool.false_eq_true, if_false]
    rfl
  · intro k'
    simp only [hmodified, if_true, Cell.own_put]
  · intro k'
    simp only [hmodified, Bool.false_eq_true, if_false, own_overlay, List.lookup_cons]
    by_cases hkk : k' = k
    · simp [hkk]
    · rw [if_neg hkk, beq_false_of_ne hkk]
      rfl

/-! ## Reading a draft -/

theorem IsTree.read_eq (h : IsTree heap root) {r : ℕ} (hr : r < heap.next)
    (hown : (heap.cells r).own k = some v) : (heap.cells r).read k = v := by
  unfold Cell.read
  split
  next hlength =>
    rw [hlength.2, h.length r hr hlength.1] at hown
    cases hown
  next => rw [hown, Option.getD_some]

/-- The base holds no value that is not from the base. -/
theorem IsTree.read_lt (h : IsTree heap root) {r c : ℕ} (hr : r < heap.next)
    (hread : (heap.cells r).read k = .ref c) : c < heap.next := by
  obtain ⟨p, hp⟩ | ⟨v, hown, hv⟩ := Cell.read_cases (heap.cells r) k
  · rw [hp] at hread
    cases hread
  · obtain ⟨p, rfl⟩ | ⟨c', hc', -, rfl⟩ := h.value r hr k v hown
    · rw [hv] at hread
      cases hread
    · rw [hv] at hread
      exact Value.ref.inj hread ▸ hc'

theorem Mirror.baseOf_eq (h : Mirror heap root t d) (hi : i < d.count) :
    d.baseOf (d.states i) = heap.cells (d.states i).base := h.base _ (h.drafts i hi).base_lt

theorem Mirror.view_unmodified (h : Mirror heap root t d) (hi : i < d.count)
    (hmodified : (d.states i).modified = false) :
    d.view i = (d.states i).overlay (heap.cells (d.states i).base) := by
  rw [← h.baseOf_eq hi]
  exact if_neg (Bool.eq_false_iff.1 hmodified)

/-- An unmodified draft shows the drafts it keeps. -/
theorem Mirror.read_proxy (h : Mirror heap root t d) (htree : IsTree heap root) (hi : i < d.count)
    {j : ℕ} (hlookup : (d.states i).proxies.lookup k = some j) :
    ((d.states i).overlay (heap.cells (d.states i).base)).read k = .draft j := by
  obtain ⟨-, -, hown⟩ := (h.drafts i hi).proxies k j hlookup
  unfold Cell.read
  rw [own_overlay, hlookup]
  split
  next hlength =>
    rw [hlength.2, htree.length _ (h.drafts i hi).base_lt hlength.1] at hown
    cases hown
  next => rfl

/-- Where it keeps none, it shows its base. -/
theorem Mirror.read_base (h : Mirror heap root t d) (hi : i < d.count)
    (hlookup : (d.states i).proxies.lookup k = none) :
    ((d.states i).overlay (heap.cells (d.states i).base)).read k =
      (d.baseOf (d.states i)).read k := by
  rw [h.baseOf_eq hi]
  unfold Cell.read
  rw [own_overlay, hlookup]
  rfl

/-- Nothing is recorded for a value that both programs hold already. -/
theorem Mirror.reach_twin (h : Mirror heap root t d) (hv : Twin heap.next d v w) (r : ℕ) :
    t.reach r v = t := by
  cases hv with
  | plain hv =>
    cases v with
    | ref c =>
      have hcond : ¬(c < t.bound ∧ t.above c = none) := fun hcond =>
        absurd (h.bound ▸ hcond.1) (not_lt.2 hv)
      exact if_neg hcond
    | _ => rfl
  | draft j hj _ hbase =>
    rw [← hbase]
    have hcond : ¬((d.states j).base < t.bound ∧ t.above (d.states j).base = none) :=
      fun hcond => h.above_base hj hcond.2
    exact if_neg hcond

/-- The draft after a read, and what the read gives. -/
def Reads (heap : Heap) (root : ℕ) (t : Tracked) (d : Drafts) (r : ℕ) (v : Value)
    (result : Option (Value × Drafts)) : Prop :=
  ∃ w d', result = some (w, d') ∧ Mirror heap root (t.reach r v) d' ∧
    (mirrorWorld heap root).le d d' ∧ Twin heap.next d' v w

theorem Mirror.reads_twin (h : Mirror heap root t d) (hv : Twin heap.next d v w) (r : ℕ) :
    Reads heap root t d r v (some (w, d)) :=
  ⟨w, d, rfl, (h.reach_twin hv r).symm ▸ h, (mirrorWorld heap root).le_refl d, hv⟩

/-- An object that is read for the first time gets a draft. -/
theorem Mirror.reads_new (h : Mirror heap root t d) (htree : IsTree heap root) (hi : i < d.count)
    {c : ℕ} (hc : c < heap.next) (hnew : t.above c = none)
    (hown : (heap.cells (d.states i).base).own k = some (.ref c))
    (hshown : (t.heap.cells (d.states i).base).own k = some (.ref c)) {s : StateProxy}
    (hs : Keeps d i c k s) :
    Reads heap root t d (d.states i).base (.ref c)
      (some (.draft d.count, (d.create (.fresh d.heap c (some (i, k)))).update i s)) := by
  have hcreates : Creates d _ i c k := hs.creates hi
  refine ⟨_, _, rfl, ?_, ⟨?_, hcreates.base⟩, .draft d.count ?_ hc ?_⟩
  · rw [h.reach_eq hc hnew]
    exact h.create hi hc hnew hown htree hcreates hshown
  · rw [hcreates.count]
    exact Nat.le_succ _
  · rw [hcreates.count]
    exact Nat.lt_succ_self _
  · rw [hcreates.born]
    rfl

/-! ### The trap -/

namespace Drafts

theorem getTrap_modified (hwrapped : (d.states i).wrapped = true)
    (hmodified : (d.states i).modified = true) {r : ℕ} (hread : (d.states i).copy.read k = .ref r) :
    d.getTrap i k =
      if Value.ref r ≠ (d.baseOf (d.states i)).read k then some (.ref r, d)
      else some (.draft d.count, (d.create (.fresh d.heap r (some (i, k)))).update i
        { d.states i with copy := (d.states i).copy.put k (.draft d.count) }) := by
  simp only [getTrap, hwrapped, hmodified, hread, Bool.not_true, Bool.false_eq_true, if_false,
    if_true]

theorem getTrap_modified_plain (hwrapped : (d.states i).wrapped = true)
    (hmodified : (d.states i).modified = true)
    (hread : ∀ r, (d.states i).copy.read k ≠ .ref r) :
    d.getTrap i k = some ((d.states i).copy.read k, d) := by
  simp only [getTrap, hwrapped, hmodified, Bool.not_true, Bool.false_eq_true, if_false, if_true]

theorem getTrap_proxy (hwrapped : (d.states i).wrapped = true)
    (hmodified : (d.states i).modified = false) {j : ℕ}
    (hlookup : (d.states i).proxies.lookup k = some j) : d.getTrap i k = some (.draft j, d) := by
  simp only [getTrap, hwrapped, hmodified, hlookup, Bool.not_true, Bool.false_eq_true, if_false]

theorem getTrap_inherited (hwrapped : (d.states i).wrapped = true)
    (hmodified : (d.states i).modified = false)
    (hlookup : (d.states i).proxies.lookup k = none) (hinherited : inherited false k ≠ .undefined) :
    d.getTrap i k = some (.prim (inherited false k), d) := by
  simp only [getTrap, hwrapped, hmodified, hlookup, Bool.not_true, Bool.false_eq_true, if_false,
    ne_eq, hinherited, not_false_eq_true, if_true]

theorem getTrap_base (hwrapped : (d.states i).wrapped = true)
    (hmodified : (d.states i).modified = false)
    (hlookup : (d.states i).proxies.lookup k = none) (hinherited : inherited false k = .undefined)
    {r : ℕ} (hread : (d.baseOf (d.states i)).read k = .ref r) :
    d.getTrap i k = some (.draft d.count, (d.create (.fresh d.heap r (some (i, k)))).update i
      { d.states i with proxies := (k, d.count) :: (d.states i).proxies }) := by
  simp only [getTrap, hwrapped, hmodified, hlookup, hinherited, hread, Bool.not_true,
    Bool.false_eq_true, if_false, ne_eq, not_true_eq_false]

theorem getTrap_base_plain (hwrapped : (d.states i).wrapped = true)
    (hmodified : (d.states i).modified = false)
    (hlookup : (d.states i).proxies.lookup k = none) (hinherited : inherited false k = .undefined)
    (hread : ∀ r, (d.baseOf (d.states i)).read k ≠ .ref r) :
    d.getTrap i k = some ((d.baseOf (d.states i)).read k, d) := by
  simp only [getTrap, hwrapped, hmodified, hlookup, hinherited, Bool.not_true,
    Bool.false_eq_true, if_false, ne_eq, not_true_eq_false]

end Drafts

theorem Cell.own_of_read {c : Cell} {r : ℕ} (hread : c.read k = .ref r) :
    c.own k = some (.ref r) := by
  obtain ⟨p, hp⟩ | ⟨v, hv, hv'⟩ := c.read_cases k
  · cases hread.symm.trans hp
  · rw [hv, ← hv', hread]

theorem Mirror.get_modified (h : Mirror heap root t d) (htree : IsTree heap root)
    (hi : i < d.count) (hmodified : (d.states i).modified = true)
    (hpending : t.isPending (d.states i).base k = false) :
    Reads heap root t d (d.states i).base ((t.heap.cells (d.states i).base).read k)
      (d.getTrap i k) := by
  have hview : d.view i = (d.states i).copy := if_pos hmodified
  have hentry := (h.cells i hi).read hpending
  have hlt := (h.drafts i hi).base_lt
  rw [hview] at hentry
  generalize hold : (t.heap.cells (d.states i).base).read k = v at hentry ⊢
  generalize hread : (d.states i).copy.read k = w at hentry
  cases hentry with
  | held hheld =>
    have hresult := h.reads_twin hheld (d.states i).base
    by_cases href : ∃ r, w = .ref r
    · obtain ⟨r, rfl⟩ := href
      have hne : Value.ref r ≠ (d.baseOf (d.states i)).read k := by
        intro heq
        rw [h.baseOf_eq hi] at heq
        cases hheld with
        | plain hv => exact absurd (htree.read_lt hlt heq.symm) (not_lt.2 hv)
      rw [Drafts.getTrap_modified (h.wrapped i) hmodified hread, if_pos hne]
      exact hresult
    · rw [Drafts.getTrap_modified_plain (h.wrapped i) hmodified
        fun r hr => href ⟨r, hread.symm.trans hr⟩, hread]
      exact hresult
  | raw hc hnew hown =>
    have heq := htree.read_eq hlt hown
    rw [Drafts.getTrap_modified (h.wrapped i) hmodified hread, h.baseOf_eq hi, heq,
      if_neg (not_not.2 rfl)]
    have hshown := Cell.own_of_read hold
    refine h.reads_new htree hi hc hnew hown hshown (.copy hmodified ?_)
    have hisArray := (h.cells i hi).isArray
    have hlen := (h.cells i hi).len
    rw [hview] at hisArray hlen
    cases k with
    | idx n =>
      unfold Cell.lenWith
      simp only [hisArray, hlen]
      split
      next harray =>
        have hn := h.entries _ hlt harray n (by rw [hshown]; exact Option.some_ne_none _)
        omega
      next => rfl
    | _ => rfl

theorem Mirror.get_unmodified (h : Mirror heap root t d) (htree : IsTree heap root)
    (hi : i < d.count) (hmodified : (d.states i).modified = false)
    (hpending : t.isPending (d.states i).base k = false)
    (hright : (t.heap.cells (d.states i).base).read k =
      Tracked.current (t.heap.cells (d.states i).base) k) :
    Reads heap root t d (d.states i).base ((t.heap.cells (d.states i).base).read k)
      (d.getTrap i k) := by
  have hview := h.view_unmodified hi hmodified
  have hentry := (h.cells i hi).read hpending
  have hlt := (h.drafts i hi).base_lt
  rw [hview] at hentry
  cases hlookup : (d.states i).proxies.lookup k with
  | some j =>
    rw [h.read_proxy htree hi hlookup] at hentry
    rw [Drafts.getTrap_proxy (h.wrapped i) hmodified hlookup]
    generalize (t.heap.cells (d.states i).base).read k = v at hentry ⊢
    cases hentry with
    | held hheld => exact h.reads_twin hheld _
  | none =>
    by_cases hinherited : inherited false k = .undefined
    · rw [h.read_base hi hlookup] at hentry
      generalize hold : (t.heap.cells (d.states i).base).read k = v at hentry ⊢
      generalize hbase : (d.baseOf (d.states i)).read k = w at hentry
      cases hentry with
      | held hheld =>
        have hplain : ∀ r, (d.baseOf (d.states i)).read k ≠ .ref r := by
          intro r hr
          rw [hbase] at hr
          subst hr
          rw [h.baseOf_eq hi] at hbase
          cases hheld with
          | plain hv => exact absurd (htree.read_lt hlt hbase) (not_lt.2 hv)
        rw [Drafts.getTrap_base_plain (h.wrapped i) hmodified hlookup hinherited hplain, hbase]
        exact h.reads_twin hheld _
      | raw hc hnew hown =>
        rw [Drafts.getTrap_base (h.wrapped i) hmodified hlookup hinherited hbase]
        exact h.reads_new htree hi hc hnew hown (Cell.own_of_read hold)
          (.proxies hmodified hinherited)
    · rw [Drafts.getTrap_inherited (h.wrapped i) hmodified hlookup hinherited, hright]
      have hcurrent : Tracked.current (t.heap.cells (d.states i).base) k =
          .prim (inherited false k) := if_pos hinherited
      rw [hcurrent]
      have htwin : Twin heap.next d (.prim (inherited false k)) (.prim (inherited false k)) :=
        .plain trivial
      exact h.reads_twin htwin _

end HanabiBot.Drafting
