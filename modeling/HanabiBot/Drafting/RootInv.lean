import HanabiBot.Drafting.Cards

/-!
# What a producer keeps of a card

While a producer works on the draft of a card, a property that is not marked as modified
stands for what it was: it is either still there, or a draft of it that is not modified
(`RootInv`).  Nor is any object written to that existed before.

* `RootInv.setTrap_root`, `RootInv.setTrap_child` — writing to the card and to its properties;
* `runAll_since` — every step of a producer keeps the invariant.
-/

namespace HanabiBot.Drafting

/-! ## What a producer keeps -/

namespace Drafts

variable (d : Drafts)

@[simp] theorem heap_update (i : ℕ) (s : StateProxy) : (d.update i s).heap = d.heap := rfl

@[simp] theorem count_update (i : ℕ) (s : StateProxy) : (d.update i s).count = d.count := rfl

@[simp] theorem states_update_self (i : ℕ) (s : StateProxy) : (d.update i s).states i = s :=
  Function.update_self ..

theorem states_update_of_ne {i j : ℕ} (h : j ≠ i) (s : StateProxy) :
    (d.update i s).states j = d.states j := Function.update_of_ne h ..

@[simp] theorem heap_create (s : StateProxy) : (d.create s).heap = d.heap := rfl

@[simp] theorem count_create (s : StateProxy) : (d.create s).count = d.count + 1 := rfl

@[simp] theorem states_create_self (s : StateProxy) : (d.create s).states d.count = s :=
  Function.update_self ..

theorem states_create_of_ne {j : ℕ} (h : j ≠ d.count) (s : StateProxy) :
    (d.create s).states j = d.states j := Function.update_of_ne h ..

/-- What the `get` trap does: it returns what is there, or makes a draft of it. -/
theorem getTrap_cases {d d' : Drafts} {i : ℕ} {k : Key} {v : Value}
    (h : d.getTrap i k = some (v, d')) :
    (d' = d ∧
      (((d.states i).modified = true ∧ v = (d.states i).copy.read k ∧
          ∀ r, v = .ref r → v ≠ (d.baseOf (d.states i)).read k) ∨
        ((d.states i).modified = false ∧
          ((∃ j, (d.states i).proxies.lookup k = some j ∧ v = .draft j) ∨
            (∃ p, v = .prim p) ∨ v = (d.baseOf (d.states i)).read k ∧ ∀ r, v ≠ .ref r)))) ∨
      (v = .draft d.count ∧ ∃ r, (d.baseOf (d.states i)).read k = .ref r ∧
        (((d.states i).modified = true ∧
            d' = (d.create (.fresh d.heap r (some (i, k)))).update i
              { d.states i with copy := (d.states i).copy.put k (.draft d.count) }) ∨
          ((d.states i).modified = false ∧ (d.states i).proxies.lookup k = none ∧
            d' = (d.create (.fresh d.heap r (some (i, k)))).update i
              { d.states i with proxies := (k, d.count) :: (d.states i).proxies }))) := by
  simp only [getTrap] at h
  split at h
  · cases h
  split at h
  next hmodified =>
    split at h
    next r hvalue =>
      split at h
      next hne =>
        obtain ⟨rfl, rfl⟩ := Prod.mk.inj (Option.some.inj h)
        exact .inl ⟨rfl, .inl ⟨hmodified, rfl, fun _ _ => hne⟩⟩
      next heq =>
        obtain ⟨rfl, rfl⟩ := Prod.mk.inj (Option.some.inj h)
        refine .inr ⟨rfl, r, ?_, .inl ⟨hmodified, rfl⟩⟩
        rw [← not_not.1 heq, hvalue]
    next hvalue =>
      obtain ⟨rfl, rfl⟩ := Prod.mk.inj (Option.some.inj h)
      exact .inl ⟨rfl, .inl ⟨hmodified, rfl, fun r hr => absurd hr (hvalue r)⟩⟩
  next hmodified =>
    rw [Bool.not_eq_true] at hmodified
    split at h
    next j hlookup =>
      obtain ⟨rfl, rfl⟩ := Prod.mk.inj (Option.some.inj h)
      exact .inl ⟨rfl, .inr ⟨hmodified, .inl ⟨j, hlookup, rfl⟩⟩⟩
    next hlookup =>
      split at h
      · obtain ⟨rfl, rfl⟩ := Prod.mk.inj (Option.some.inj h)
        exact .inl ⟨rfl, .inr ⟨hmodified, .inr (.inl ⟨_, rfl⟩)⟩⟩
      · split at h
        next r hread =>
          obtain ⟨rfl, rfl⟩ := Prod.mk.inj (Option.some.inj h)
          exact .inr ⟨rfl, r, hread, .inr ⟨hmodified, hlookup, rfl⟩⟩
        next hread =>
          obtain ⟨rfl, rfl⟩ := Prod.mk.inj (Option.some.inj h)
          exact .inl ⟨rfl, .inr ⟨hmodified, .inr (.inr ⟨rfl, hread⟩)⟩⟩

theorem update_comm {i j : ℕ} (h : i ≠ j) (s t : StateProxy) :
    (d.update i s).update j t = (d.update j t).update i s := by
  simp only [update, Function.update_comm h]

theorem update_update (i : ℕ) (s t : StateProxy) :
    (d.update i s).update i t = d.update i t := by
  simp only [update, Function.update_idem]

/-- Marking a draft without a parent as changed. -/
theorem markChanged_of_root {i : ℕ} (h : (d.states i).parent = none) (fuel : ℕ) :
    markChanged (fuel + 1) i d =
      if (d.states i).modified then d
      else d.update i { d.states i with
        modified := true
        copy := (d.states i).overlay (d.baseOf (d.states i)) } := by
  simp only [markChanged, h]

theorem mem_addProp {props : List Key} {k k' : Key} :
    k' ∈ addProp props k ↔ k' ∈ props ∨ k' = k := by
  unfold addProp
  split
  next h =>
    constructor
    · exact .inl
    · rintro (h' | rfl)
      · exact h'
      · exact h
  next => simp

end Drafts

/-- The key of a field that holds an array. -/
def IsArrayKey (k : Key) : Prop := ∃ f : CardField, f.isArray = true ∧ k = f.key

/-- A draft of a property of the root. -/
structure IsChild (d : Drafts) (j : ℕ) (k : Key) : Prop where
  pos : 0 < j
  lt : j < d.count
  parent : (d.states j).parent = some (0, k)

/-- Drafts after some steps: none has gone, and none has moved. -/
structure Grows (d d' : Drafts) : Prop where
  count_le : d.count ≤ d'.count
  next_le : d.heap.next ≤ d'.heap.next
  parent : ∀ j < d.count, (d'.states j).parent = (d.states j).parent
  base : ∀ j < d.count, (d'.states j).base = (d.states j).base

namespace Grows

variable {d d' d'' : Drafts}

theorem refl (d : Drafts) : Grows d d := ⟨le_rfl, le_rfl, fun _ _ => rfl, fun _ _ => rfl⟩

theorem trans (h : Grows d d') (h' : Grows d' d'') : Grows d d'' where
  count_le := h.count_le.trans h'.count_le
  next_le := h.next_le.trans h'.next_le
  parent j hj := (h'.parent j (hj.trans_le h.count_le)).trans (h.parent j hj)
  base j hj := (h'.base j (hj.trans_le h.count_le)).trans (h.base j hj)

/-- Changing a state in place, but for what it drafts and where. -/
theorem update {i : ℕ} {s : StateProxy} (hparent : s.parent = (d.states i).parent)
    (hbase : s.base = (d.states i).base) : Grows d (d.update i s) where
  count_le := le_rfl
  next_le := le_rfl
  parent j _ := by
    by_cases hji : j = i
    · subst hji
      rw [Drafts.states_update_self, hparent]
    · rw [Drafts.states_update_of_ne d hji]
  base j _ := by
    by_cases hji : j = i
    · subst hji
      rw [Drafts.states_update_self, hbase]
    · rw [Drafts.states_update_of_ne d hji]

/-- A new draft, and a change of a state in place. -/
theorem create_update {i : ℕ} {s s' : StateProxy} (hparent : s'.parent = (d.states i).parent)
    (hbase : s'.base = (d.states i).base) : Grows d ((d.create s).update i s') where
  count_le := Nat.le_succ _
  next_le := le_rfl
  parent j hj := by
    by_cases hji : j = i
    · subst hji
      rw [Drafts.states_update_self, hparent]
    · rw [Drafts.states_update_of_ne _ hji, Drafts.states_create_of_ne d hj.ne]
  base j hj := by
    by_cases hji : j = i
    · subst hji
      rw [Drafts.states_update_self, hbase]
    · rw [Drafts.states_update_of_ne _ hji, Drafts.states_create_of_ne d hj.ne]

theorem isChild (h : Grows d d') {j : ℕ} {k : Key} (hj : IsChild d j k) : IsChild d' j k :=
  ⟨hj.pos, hj.lt.trans_le h.count_le, (h.parent j hj.lt).trans hj.parent⟩

end Grows

section

variable (heap : Heap) (card : Cell)

/-- What the copy of the card can hold. -/
def Stored (d : Drafts) (k : Key) : Value → Prop
  | .prim _ => True
  | .ref r => r < d.heap.next ∧ (IsArrayKey k → heap.next < r ∨ card.own k = some (.ref r))
  | .draft j => (d.states j).base < heap.next ∧ ∃ k', IsChild d j k' ∧ (IsArrayKey k → k' = k)
  | .copy _ => False

/-- What can be pushed to: a draft of a property, or an array that the producer has made. -/
def Target (d : Drafts) : Value → Prop
  | .ref r => heap.next < r
  | .draft j => ∃ k, IsChild d j k
  | _ => True

/-- What holds while a producer works on the draft of a card: the objects that existed are as
they were, and a property that is not marked as modified stands for what it was. -/
structure RootInv (d : Drafts) : Prop where
  next_lt : heap.next < d.heap.next
  frame : ∀ x ≤ heap.next, d.heap.cells x = (heap.place card).cells x
  count_pos : 0 < d.count
  fresh : ∀ j, d.count ≤ j → (d.states j).modified = false
  base : (d.states 0).base = heap.next
  parent : (d.states 0).parent = none
  isArray : (d.states 0).isArray = false
  unfinalized : (d.states 0).finalized = false
  unmodified : (d.states 0).modified = false → (d.states 0).modifiedProps = []
  child : ∀ j k, IsChild d j k → (d.states j).modified = true →
    (d.states 0).modified = true ∧ k ∈ (d.states 0).modifiedProps
  proxies : ∀ k j, (d.states 0).proxies.lookup k = some j →
    IsChild d j k ∧ card.own k = some (.ref (d.states j).base)
  isObject : (d.states 0).modified = true → (d.states 0).copy.isArray = false
  stored : (d.states 0).modified = true → ∀ k v, (d.states 0).copy.own k = some v →
    Stored heap card d k v
  kept : (d.states 0).modified = true → ∀ k ∉ (d.states 0).modifiedProps,
    (d.states 0).copy.own k = card.own k ∨ ∃ j, (d.states 0).copy.own k = some (.draft j) ∧
      IsChild d j k ∧ card.own k = some (.ref (d.states j).base)

end

section

variable {heap : Heap} {card : Cell} {d d' : Drafts}

theorem Stored.mono {k : Key} {v : Value} (h : Stored heap card d k v) (hgrows : Grows d d') :
    Stored heap card d' k v := by
  cases v with
  | prim p => trivial
  | ref r => exact ⟨h.1.trans_le hgrows.next_le, h.2⟩
  | draft j =>
    obtain ⟨hbase, k', hchild, hk⟩ := h
    exact ⟨(hgrows.base j hchild.lt).trans_lt hbase, k', hgrows.isChild hchild, hk⟩
  | copy i => exact h

theorem Target.mono {o : Value} (h : Target heap d o) (hgrows : Grows d d') :
    Target heap d' o := by
  cases o with
  | prim p => trivial
  | ref r => exact h
  | draft j =>
    obtain ⟨k, hchild⟩ := h
    exact ⟨k, hgrows.isChild hchild⟩
  | copy i => trivial

/-- An object that a card reads is one of its own properties. -/
theorem IsCard.own_of_read (hcard : IsCard heap card) {k : Key} {v : Value}
    (hread : card.read k = v) (hv : ∀ p, v ≠ .prim p) : card.own k = some v := by
  rw [Cell.read, if_neg (by simp [hcard.isObject])] at hread
  cases hown : card.own k with
  | none =>
    rw [hown] at hread
    exact absurd hread.symm (hv _)
  | some w =>
    rw [hown] at hread
    exact congrArg some hread

theorem IsCard.read_cases (hcard : IsCard heap card) (k : Key) :
    (∃ p, card.read k = .prim p) ∨ ∃ r < heap.next, card.read k = .ref r := by
  cases hread : card.read k with
  | prim p => exact .inl ⟨p, rfl⟩
  | ref r => exact .inr ⟨r, hcard.below k _ (hcard.own_of_read hread (by simp)), rfl⟩
  | draft i => exact (hcard.below k _ (hcard.own_of_read hread (by simp))).elim
  | copy i => exact (hcard.below k _ (hcard.own_of_read hread (by simp))).elim

namespace RootInv

variable (hinv : RootInv heap card d)
include hinv

/-- What the copy of the card reads. -/
theorem stored_read {k : Key} (hmodified : (d.states 0).modified = true) :
    Stored heap card d k ((d.states 0).copy.read k) := by
  rw [Cell.read, if_neg (by simp [hinv.isObject hmodified])]
  cases hown : (d.states 0).copy.own k with
  | none => trivial
  | some v => exact hinv.stored hmodified k v hown

theorem baseOf_root : d.baseOf (d.states 0) = card := by
  rw [Drafts.baseOf, hinv.base, hinv.frame _ le_rfl]
  exact Function.update_self ..

/-- A change that leaves the root alone, and no property of it newly modified. -/
theorem of_same_root (hgrows : Grows d d') (hroot : d'.states 0 = d.states 0)
    (hframe : ∀ x ≤ heap.next, d'.heap.cells x = d.heap.cells x)
    (hmodified : ∀ j, (d'.states j).modified = true → (d.states j).modified = true) :
    RootInv heap card d' where
  next_lt := hinv.next_lt.trans_le hgrows.next_le
  frame x hx := (hframe x hx).trans (hinv.frame x hx)
  count_pos := hinv.count_pos.trans_le hgrows.count_le
  fresh j hj := by
    have hwas := hinv.fresh j (hgrows.count_le.trans hj)
    by_contra h
    simp [hmodified j (by simpa using h)] at hwas
  base := hroot ▸ hinv.base
  parent := hroot ▸ hinv.parent
  isArray := hroot ▸ hinv.isArray
  unfinalized := hroot ▸ hinv.unfinalized
  unmodified := hroot ▸ hinv.unmodified
  child j k hj hj' := by
    have hwas := hmodified j hj'
    have hlt : j < d.count := by
      by_contra hge
      simp [hinv.fresh j (not_lt.1 hge)] at hwas
    rw [hroot]
    exact hinv.child j k ⟨hj.pos, hlt, (hgrows.parent j hlt).symm.trans hj.parent⟩ hwas
  proxies k j hlookup := by
    rw [hroot] at hlookup
    obtain ⟨hj, hown⟩ := hinv.proxies k j hlookup
    exact ⟨hgrows.isChild hj, by rw [hgrows.base j hj.lt, hown]⟩
  isObject := hroot ▸ hinv.isObject
  stored hroot' k v hown := by
    rw [hroot] at hroot' hown
    exact (hinv.stored hroot' k v hown).mono hgrows
  kept hroot' k hk := by
    rw [hroot] at hroot' hk ⊢
    obtain h | ⟨j, hown, hj, hbase⟩ := hinv.kept hroot' k hk
    · exact .inl h
    · exact .inr ⟨j, hown, hgrows.isChild hj, by rw [hgrows.base j hj.lt, hbase]⟩

/-- Reading a nested draft. -/
theorem getTrap_of_ne {i : ℕ} (hi : i ≠ 0) {k : Key} {v : Value}
    (h : d.getTrap i k = some (v, d')) : RootInv heap card d' ∧ Grows d d' := by
  have hnew : ∀ (r : ℕ) (s' : StateProxy), s'.parent = (d.states i).parent →
      s'.base = (d.states i).base → s'.modified = (d.states i).modified →
      d' = (d.create (.fresh d.heap r (some (i, k)))).update i s' →
      RootInv heap card d' ∧ Grows d d' := by
    rintro r s' hparent hbase hmodified rfl
    have hgrows := Grows.create_update (s := .fresh d.heap r (some (i, k))) hparent hbase
    refine ⟨hinv.of_same_root hgrows ?_ (fun _ _ => rfl) fun j hj => ?_, hgrows⟩
    · rw [Drafts.states_update_of_ne _ hi.symm, Drafts.states_create_of_ne d hinv.count_pos.ne]
    · by_cases hji : j = i
      · subst hji
        rwa [Drafts.states_update_self, hmodified] at hj
      · rw [Drafts.states_update_of_ne _ hji] at hj
        by_cases hjc : j = d.count
        · subst hjc
          rw [Drafts.states_create_self] at hj
          exact absurd hj (by simp [StateProxy.fresh])
        · rwa [Drafts.states_create_of_ne d hjc] at hj
  obtain ⟨hd, -⟩ | ⟨-, r, -, ⟨-, hd⟩ | ⟨-, -, hd⟩⟩ := Drafts.getTrap_cases h
  · subst hd
    exact ⟨hinv, .refl _⟩
  · refine hnew r _ ?_ ?_ ?_ hd <;> rfl
  · refine hnew r _ ?_ ?_ ?_ hd <;> rfl

/-- A root that has made a draft of a property, and is otherwise as it was. -/
structure DraftsProperty (d : Drafts) (k : Key) (s : StateProxy) : Prop where
  base : s.base = (d.states 0).base
  parent : s.parent = (d.states 0).parent
  isArray : s.isArray = (d.states 0).isArray
  finalized : s.finalized = (d.states 0).finalized
  modified : s.modified = (d.states 0).modified
  modifiedProps : s.modifiedProps = (d.states 0).modifiedProps
  proxies : ∀ k' j, s.proxies.lookup k' = some j →
    (d.states 0).proxies.lookup k' = some j ∨ k' = k ∧ j = d.count
  isObject : s.copy.isArray = (d.states 0).copy.isArray
  copy : s.modified = true → ∀ k', s.copy.own k' = (d.states 0).copy.own k' ∨
    k' = k ∧ s.copy.own k' = some (.draft d.count)

theorem of_new_child {k : Key} {r : ℕ} (hr : r < heap.next) (hown : card.own k = some (.ref r))
    {s : StateProxy} (hs : DraftsProperty d k s)
    (hd' : d' = (d.create (.fresh d.heap r (some (0, k)))).update 0 s) :
    RootInv heap card d' ∧ Grows d d' ∧ IsChild d' d.count k ∧ (d'.states d.count).base = r := by
  have hgrows : Grows d d' := hd' ▸ .create_update hs.parent hs.base
  have hroot : d'.states 0 = s := by rw [hd', Drafts.states_update_self]
  have hnew : d'.states d.count = .fresh d.heap r (some (0, k)) := by
    rw [hd', Drafts.states_update_of_ne _ hinv.count_pos.ne', Drafts.states_create_self]
  have hold : ∀ j, j ≠ 0 → j ≠ d.count → d'.states j = d.states j := by
    intro j hj hjc
    rw [hd', Drafts.states_update_of_ne _ hj, Drafts.states_create_of_ne d hjc]
  have hchild : IsChild d' d.count k := by
    refine ⟨hinv.count_pos, ?_, ?_⟩
    · rw [hd']
      exact Nat.lt_succ_self _
    · rw [hnew]
      rfl
  have hbase : (d'.states d.count).base = r := by
    rw [hnew]
    rfl
  refine ⟨?_, hgrows, hchild, hbase⟩
  constructor
  case next_lt => exact hinv.next_lt.trans_le hgrows.next_le
  case frame =>
    intro x hx
    rw [hd']
    exact hinv.frame x hx
  case count_pos => exact hinv.count_pos.trans_le hgrows.count_le
  case fresh =>
    intro j hj
    have hlt : d.count < j := by
      rw [hd'] at hj
      exact hj
    rw [hold j (by omega) hlt.ne']
    exact hinv.fresh j hlt.le
  case base => rw [hroot, hs.base, hinv.base]
  case parent => rw [hroot, hs.parent, hinv.parent]
  case isArray => rw [hroot, hs.isArray, hinv.isArray]
  case unfinalized => rw [hroot, hs.finalized, hinv.unfinalized]
  case unmodified =>
    rw [hroot, hs.modified, hs.modifiedProps]
    exact hinv.unmodified
  case child =>
    intro j k' hj hmodified
    rw [hroot, hs.modified, hs.modifiedProps]
    by_cases hjc : j = d.count
    · rw [hjc, hnew] at hmodified
      exact absurd hmodified (by simp [StateProxy.fresh])
    · have hlt : j < d.count := by
        have hlt := hj.lt
        rw [hd'] at hlt
        exact Nat.lt_of_le_of_ne (Nat.le_of_lt_succ hlt) hjc
      rw [hold j hj.pos.ne' hjc] at hmodified
      exact hinv.child j k' ⟨hj.pos, hlt, (hgrows.parent j hlt).symm.trans hj.parent⟩ hmodified
  case proxies =>
    intro k' j hlookup
    rw [hroot] at hlookup
    obtain hwas | ⟨rfl, rfl⟩ := hs.proxies k' j hlookup
    · obtain ⟨hj, hj'⟩ := hinv.proxies k' j hwas
      exact ⟨hgrows.isChild hj, by rw [hgrows.base j hj.lt, hj']⟩
    · exact ⟨hchild, by rw [hbase, hown]⟩
  case isObject =>
    rw [hroot, hs.modified, hs.isObject]
    exact hinv.isObject
  case stored =>
    intro hmodified k' v hv
    rw [hroot] at hmodified hv
    obtain hwas | ⟨rfl, hdraft⟩ := hs.copy hmodified k'
    · rw [hs.modified] at hmodified
      exact (hinv.stored hmodified k' v (hwas ▸ hv)).mono hgrows
    · obtain rfl := Option.some.inj (hdraft.symm.trans hv)
      exact ⟨hbase ▸ hr, k', hchild, fun _ => rfl⟩
  case kept =>
    intro hmodified k' hk'
    rw [hroot] at hmodified hk' ⊢
    obtain hwas | ⟨rfl, hdraft⟩ := hs.copy hmodified k'
    · rw [hs.modified] at hmodified
      rw [hs.modifiedProps] at hk'
      rw [hwas]
      obtain h | ⟨j, hj, hj', hj''⟩ := hinv.kept hmodified k' hk'
      · exact .inl h
      · exact .inr ⟨j, hj, hgrows.isChild hj', by rw [hgrows.base j hj'.lt, hj'']⟩
    · exact .inr ⟨d.count, hdraft, hchild, by rw [hbase, hown]⟩

/-- Reading a property of the root. -/
theorem getTrap_root (hcard : IsCard heap card) {k : Key} {v : Value}
    (h : d.getTrap 0 k = some (v, d')) : RootInv heap card d' ∧ Grows d d' ∧
      Stored heap card d' k v ∧ (IsArrayKey k → Target heap d' v) := by
  obtain ⟨hd, hv⟩ | ⟨rfl, r, hread, hd⟩ := Drafts.getTrap_cases h
  · subst hd
    refine ⟨hinv, .refl _, ?_⟩
    obtain ⟨hmodified, hread, hne⟩ | ⟨-, ⟨j, hlookup, rfl⟩ | ⟨p, rfl⟩ | ⟨hread, hne⟩⟩ := hv
    · have hstored := hinv.stored_read (k := k) hmodified
      rw [← hread] at hstored
      refine ⟨hstored, fun hk => ?_⟩
      cases v with
      | prim p => trivial
      | ref r =>
        obtain hlt | hown := hstored.2 hk
        · exact hlt
        · rw [hinv.baseOf_root] at hne
          refine absurd ?_ (hne r rfl)
          rw [Cell.read, if_neg (by simp [hcard.isObject]), hown]
          rfl
      | draft j =>
        obtain ⟨-, k', hj, -⟩ := hstored
        exact ⟨k', hj⟩
      | copy i => trivial
    · obtain ⟨hj, hown⟩ := hinv.proxies k j hlookup
      exact ⟨⟨hcard.below k _ hown, k, hj, fun _ => rfl⟩, fun _ => ⟨k, hj⟩⟩
    · exact ⟨trivial, fun _ => trivial⟩
    · rw [hinv.baseOf_root] at hread
      obtain ⟨p, hp⟩ | ⟨r, -, hr⟩ := hcard.read_cases k
      · rw [hread, hp]
        exact ⟨trivial, fun _ => trivial⟩
      · exact absurd (hread.trans hr) (hne r)
  · rw [hinv.baseOf_root] at hread
    have hown := hcard.own_of_read hread (by simp)
    have hr : r < heap.next := hcard.below k _ hown
    suffices hnew : ∃ s, DraftsProperty d k s ∧
        d' = (d.create (.fresh d.heap r (some (0, k)))).update 0 s by
      obtain ⟨s, hs, hd⟩ := hnew
      obtain ⟨hinv', hgrows, hchild, hbase⟩ := hinv.of_new_child hr hown hs hd
      exact ⟨hinv', hgrows, ⟨hbase ▸ hr, k, hchild, fun _ => rfl⟩, fun _ => ⟨k, hchild⟩⟩
    obtain ⟨hmodified, hd⟩ | ⟨hmodified, -, hd⟩ := hd
    · refine ⟨_, ?_, hd⟩
      refine ⟨rfl, rfl, rfl, rfl, rfl, rfl, fun k' j => .inl, rfl, fun _ k' => ?_⟩
      by_cases hk : k' = k
      · exact .inr ⟨hk, by simp [Cell.own_put, hk]⟩
      · exact .inl (by simp [Cell.own_put, hk])
    · refine ⟨_, ?_, hd⟩
      refine ⟨rfl, rfl, rfl, rfl, rfl, rfl, fun k' j hlookup => ?_, rfl, fun _ k' => .inl rfl⟩
      by_cases hk : k' = k
      · subst hk
        exact .inr ⟨rfl, by simpa using hlookup.symm⟩
      · rw [List.lookup_cons, beq_eq_false_iff_ne.2 hk] at hlookup
        exact .inl hlookup

/-- Marking the root as changed. -/
theorem markChanged_root (hcard : IsCard heap card) (fuel : ℕ) :
    ∃ s, Drafts.markChanged (fuel + 1) 0 d = d.update 0 s ∧ RootInv heap card (d.update 0 s) ∧
      s.modified = true ∧ s.parent = (d.states 0).parent ∧ s.base = (d.states 0).base := by
  rw [Drafts.markChanged_of_root d hinv.parent]
  split
  next hmodified =>
    have hd : d.update 0 (d.states 0) = d := by simp [Drafts.update]
    exact ⟨d.states 0, hd.symm, hd.symm ▸ hinv, hmodified, rfl, rfl⟩
  next hmodified =>
    rw [Bool.not_eq_true] at hmodified
    refine ⟨_, rfl, ?_, rfl, rfl, rfl⟩
    set s := d.states 0
    set d₁ := d.update 0 { s with modified := true, copy := s.overlay (d.baseOf s) } with hd₁
    have hgrows : Grows d d₁ := .update rfl rfl
    have hold : ∀ j, j ≠ 0 → d₁.states j = d.states j := fun j hj =>
      Drafts.states_update_of_ne d hj _
    have hroot : d₁.states 0 = { s with modified := true, copy := s.overlay (d.baseOf s) } :=
      Drafts.states_update_self ..
    have hown : ∀ k, (d₁.states 0).copy.own k =
        ((s.proxies.lookup k).map Value.draft).or (card.own k) := by
      intro k
      rw [hroot]
      show ((s.proxies.lookup k).map Value.draft).or ((d.baseOf s).own k) = _
      rw [hinv.baseOf_root]
    constructor
    case next_lt => exact hinv.next_lt
    case frame => exact hinv.frame
    case count_pos => exact hinv.count_pos
    case fresh =>
      intro j hj
      have hj' : d.count ≤ j := hj
      rw [hold j (hinv.count_pos.trans_le hj').ne']
      exact hinv.fresh j hj'
    case base => exact hroot ▸ hinv.base
    case parent => exact hroot ▸ hinv.parent
    case isArray => exact hroot ▸ hinv.isArray
    case unfinalized => exact hroot ▸ hinv.unfinalized
    case unmodified =>
      intro h
      exact absurd ((congrArg StateProxy.modified hroot).symm.trans h) (by simp)
    case child =>
      intro j k hj hj'
      have hwas : IsChild d j k := ⟨hj.pos, hj.lt, (hgrows.parent j hj.lt).symm.trans hj.parent⟩
      have hroot' := (hinv.child j k hwas (hold j hj.pos.ne' ▸ hj')).1
      exact absurd (hmodified.symm.trans hroot') (by simp)
    case proxies =>
      intro k j hlookup
      rw [hroot] at hlookup
      obtain ⟨hj, hj'⟩ := hinv.proxies k j hlookup
      exact ⟨hgrows.isChild hj, by rw [hj', hgrows.base j hj.lt]⟩
    case isObject =>
      intro _
      show (d₁.states 0).copy.isArray = false
      rw [hroot]
      show (d.baseOf s).isArray = false
      rw [hinv.baseOf_root, hcard.isObject]
    case stored =>
      intro _ k v hv
      replace hv := (hown k).symm.trans hv
      refine Stored.mono ?_ hgrows
      cases hlookup : s.proxies.lookup k with
      | none =>
        rw [hlookup] at hv
        have hv' : card.own k = some v := hv
        have hbelow := hcard.below k v hv'
        cases v with
        | prim p => trivial
        | ref r => exact ⟨Nat.lt_trans hbelow hinv.next_lt, fun _ => .inr hv'⟩
        | draft j => exact hbelow.elim
        | copy j => exact hbelow.elim
      | some j =>
        rw [hlookup] at hv
        obtain rfl : Value.draft j = v := Option.some.inj hv
        obtain ⟨hj, hj'⟩ := hinv.proxies k j hlookup
        exact ⟨hcard.below k _ hj', k, hj, fun _ => rfl⟩
    case kept =>
      intro _ k _
      cases hlookup : s.proxies.lookup k with
      | none =>
        refine .inl ((hown k).trans ?_)
        rw [hlookup]
        rfl
      | some j =>
        obtain ⟨hj, hj'⟩ := hinv.proxies k j hlookup
        refine .inr ⟨j, (hown k).trans ?_, hgrows.isChild hj, by rw [hj', hgrows.base j hj.lt]⟩
        rw [hlookup]
        rfl

/-- Marking a property of the root as modified, and writing it. -/
theorem modify_root {k : Key} {copy : Cell} (hmodified : (d.states 0).modified = true)
    (hobject : copy.isArray = false)
    (hsame : ∀ k', k' ≠ k → copy.own k' = (d.states 0).copy.own k')
    (hk : ∀ v, copy.own k = some v → Stored heap card d k v) :
    RootInv heap card (d.update 0 { d.states 0 with
      modifiedProps := Drafts.addProp (d.states 0).modifiedProps k, copy }) := by
  set s : StateProxy := { d.states 0 with
    modifiedProps := Drafts.addProp (d.states 0).modifiedProps k, copy } with hs
  have hgrows : Grows d (d.update 0 s) := .update rfl rfl
  have hold : ∀ j, j ≠ 0 → (d.update 0 s).states j = d.states j := fun j hj =>
    Drafts.states_update_of_ne d hj s
  have hroot : (d.update 0 s).states 0 = s := Drafts.states_update_self ..
  have hprops : ∀ k', k' ∈ s.modifiedProps ↔ k' ∈ (d.states 0).modifiedProps ∨ k' = k :=
    fun k' => Drafts.mem_addProp
  constructor
  case next_lt => exact hinv.next_lt
  case frame => exact hinv.frame
  case count_pos => exact hinv.count_pos
  case fresh =>
    intro j hj
    have hj' : d.count ≤ j := hj
    rw [hold j (hinv.count_pos.trans_le hj').ne']
    exact hinv.fresh j hj'
  case base => rw [hroot]; exact hinv.base
  case parent => rw [hroot]; exact hinv.parent
  case isArray => rw [hroot]; exact hinv.isArray
  case unfinalized => rw [hroot]; exact hinv.unfinalized
  case unmodified =>
    intro h
    rw [hroot] at h
    exact absurd (hmodified.symm.trans h) (by simp)
  case child =>
    intro j k' hj hj'
    rw [hold j hj.pos.ne'] at hj'
    have hwas : IsChild d j k' := ⟨hj.pos, hj.lt, (hgrows.parent j hj.lt).symm.trans hj.parent⟩
    rw [hroot, hprops]
    exact ⟨hmodified, .inl (hinv.child j k' hwas hj').2⟩
  case proxies =>
    intro k' j hlookup
    rw [hroot] at hlookup
    obtain ⟨hj, hj'⟩ := hinv.proxies k' j hlookup
    exact ⟨hgrows.isChild hj, by rw [hj', hgrows.base j hj.lt]⟩
  case isObject =>
    intro _
    rw [hroot]
    exact hobject
  case stored =>
    intro _ k' v hv
    rw [hroot] at hv
    refine Stored.mono ?_ hgrows
    by_cases hkk : k' = k
    · subst hkk
      exact hk v hv
    · exact hinv.stored hmodified k' v ((hsame k' hkk).symm.trans hv)
  case kept =>
    intro _ k' hk'
    rw [hroot, hprops, not_or] at hk'
    rw [hroot]
    have hown : s.copy.own k' = (d.states 0).copy.own k' := hsame k' hk'.2
    rw [hown]
    obtain h | ⟨j, hj, hj', hj''⟩ := hinv.kept hmodified k' hk'.1
    · exact .inl h
    · exact .inr ⟨j, hj, hgrows.isChild hj', by rw [hj'', hgrows.base j hj'.lt]⟩

/-- Changing a draft of a property that is marked as modified. -/
theorem modify_child {j : ℕ} {k : Key} (hj : IsChild d j k)
    (hmodified : (d.states 0).modified = true) (hk : k ∈ (d.states 0).modifiedProps)
    {s : StateProxy} (hparent : s.parent = (d.states j).parent)
    (hbase : s.base = (d.states j).base) :
    RootInv heap card (d.update j s) ∧ Grows d (d.update j s) := by
  have hgrows : Grows d (d.update j s) := .update hparent hbase
  have hroot : (d.update j s).states 0 = d.states 0 :=
    Drafts.states_update_of_ne d hj.pos.ne s
  refine ⟨?_, hgrows⟩
  constructor
  case next_lt => exact hinv.next_lt
  case frame => exact hinv.frame
  case count_pos => exact hinv.count_pos
  case fresh =>
    intro i hi
    have hi' : d.count ≤ i := hi
    rw [Drafts.states_update_of_ne d (hj.lt.trans_le hi').ne' s]
    exact hinv.fresh i hi'
  case base => rw [hroot]; exact hinv.base
  case parent => rw [hroot]; exact hinv.parent
  case isArray => rw [hroot]; exact hinv.isArray
  case unfinalized => rw [hroot]; exact hinv.unfinalized
  case unmodified => rw [hroot]; exact hinv.unmodified
  case child =>
    intro i k' hi hi'
    rw [hroot]
    have hwas : IsChild d i k' := ⟨hi.pos, hi.lt, (hgrows.parent i hi.lt).symm.trans hi.parent⟩
    by_cases hij : i = j
    · subst hij
      have hkk : k = k' := by simpa using hj.parent.symm.trans hwas.parent
      exact ⟨hmodified, hkk ▸ hk⟩
    · rw [Drafts.states_update_of_ne d hij s] at hi'
      exact hinv.child i k' hwas hi'
  case proxies =>
    intro k' i hlookup
    rw [hroot] at hlookup
    obtain ⟨hi, hi'⟩ := hinv.proxies k' i hlookup
    exact ⟨hgrows.isChild hi, by rw [hi', hgrows.base i hi.lt]⟩
  case isObject => rw [hroot]; exact hinv.isObject
  case stored =>
    intro _ k' v hv
    rw [hroot] at hv
    exact (hinv.stored hmodified k' v hv).mono hgrows
  case kept =>
    intro _ k' hk'
    rw [hroot] at hk' ⊢
    obtain h | ⟨i, hi, hi', hi''⟩ := hinv.kept hmodified k' hk'
    · exact .inl h
    · exact .inr ⟨i, hi, hgrows.isChild hi', by rw [hi'', hgrows.base i hi'.lt]⟩

/-- Marking the property that a draft is of, and the root. -/
theorem markChanged_property (hcard : IsCard heap card) (fuel : ℕ) (k : Key) :
    ∃ s, RootInv heap card (d.update 0 s) ∧ s.modified = true ∧ k ∈ s.modifiedProps ∧
      Grows d (d.update 0 s) ∧ ∀ j ≠ 0, ∀ t, (let d' := Drafts.markChanged (fuel + 1) 0 (d.update j t)
        d'.update 0 { d'.states 0 with
          modifiedProps := Drafts.addProp (d'.states 0).modifiedProps k }) =
        (d.update 0 s).update j t := by
  obtain ⟨s, heq, hinv', hmodified, hparent, hbase⟩ := hinv.markChanged_root hcard fuel
  set s' : StateProxy := { s with modifiedProps := Drafts.addProp s.modifiedProps k } with hs'
  have hroot : (d.update 0 s).states 0 = s := Drafts.states_update_self ..
  have hmodified' : ((d.update 0 s).states 0).modified = true := hroot.symm ▸ hmodified
  have hinv'' : RootInv heap card (d.update 0 s') := by
    have hobject : s.copy.isArray = false := hroot ▸ hinv'.isObject hmodified'
    have hmodify := hinv'.modify_root (k := k) hmodified' hobject (fun k' _ => by rw [hroot])
      fun v hv => hinv'.stored hmodified' k v (hroot.symm ▸ hv)
    rw [hroot, Drafts.update_update] at hmodify
    exact hmodify
  refine ⟨s', hinv'', hmodified, Drafts.mem_addProp.2 (.inr rfl), .update hparent hbase, ?_⟩
  intro j hj t
  have hsame : (d.update j t).states 0 = d.states 0 := Drafts.states_update_of_ne d hj.symm t
  have hmark : Drafts.markChanged (fuel + 1) 0 (d.update j t) = (d.update 0 s).update j t := by
    rw [← heq, Drafts.markChanged_of_root _ (hsame ▸ hinv.parent),
      Drafts.markChanged_of_root d hinv.parent, hsame]
    split
    · rfl
    · exact Drafts.update_comm d hj _ _
  have hroot' : ((d.update 0 s).update j t).states 0 = s := by
    rw [Drafts.states_update_of_ne _ hj.symm, hroot]
  rw [hmark]
  show ((d.update 0 s).update j t).update 0 { ((d.update 0 s).update j t).states 0 with
    modifiedProps := _ } = _
  rw [hroot', Drafts.update_comm _ hj, Drafts.update_update]

/-- Marking a draft of a property as changed. -/
theorem markChanged_child (hcard : IsCard heap card) {j : ℕ} {k : Key} (hj : IsChild d j k) :
    RootInv heap card (Drafts.markChanged d.count j d) ∧
      Grows d (Drafts.markChanged d.count j d) ∧
      (((Drafts.markChanged d.count j d)).states 0).modified = true ∧
      k ∈ (((Drafts.markChanged d.count j d)).states 0).modifiedProps := by
  obtain ⟨fuel, hfuel⟩ : ∃ fuel, d.count = fuel + 2 := by
    have hpos := hj.pos
    have hlt := hj.lt
    exact ⟨d.count - 2, by omega⟩
  rw [hfuel, Drafts.markChanged]
  simp only
  split
  next hmodified =>
    obtain ⟨hroot, hk⟩ := hinv.child j k hj hmodified
    exact ⟨hinv, .refl d, hroot, hk⟩
  next =>
    rw [hj.parent]
    obtain ⟨s, hinv', hmodified, hk, hgrows, hmark⟩ := hinv.markChanged_property hcard fuel k
    have hj' := hgrows.isChild hj
    have hroot : (d.update 0 s).states 0 = s := Drafts.states_update_self ..
    have hsame : (d.update 0 s).states j = d.states j :=
      Drafts.states_update_of_ne d hj.pos.ne' s
    set t : StateProxy := { d.states j with
      parent := some (0, k)
      modified := true
      copy := (d.states j).overlay (d.baseOf (d.states j)) } with ht
    obtain ⟨hinv'', hgrows'⟩ := hinv'.modify_child hj' (by rw [hroot]; exact hmodified)
      (by rw [hroot]; exact hk) (s := t) (by rw [hsame, hj.parent]) (by rw [hsame])
    have heq := hmark j hj.pos.ne' t
    have hroot' : ((d.update 0 s).update j t).states 0 = s := by
      rw [Drafts.states_update_of_ne _ hj.pos.ne, hroot]
    simp only at heq ⊢
    rw [heq]
    exact ⟨hinv'', hgrows.trans hgrows', hroot'.symm ▸ hmodified, hroot'.symm ▸ hk⟩

/-- Writing a property of the root. -/
theorem setTrap_root (hcard : IsCard heap card) {k : Key} {v : Value}
    (hv : Stored heap card d k v) (h : d.setTrap 0 k v = some ((), d')) :
    RootInv heap card d' ∧ Grows d d' := by
  simp only [Drafts.setTrap] at h
  split at h
  · cases h
  split at h
  · obtain ⟨-, rfl⟩ := Prod.mk.inj (Option.some.inj h)
    exact ⟨hinv, .refl d⟩
  · obtain ⟨fuel, hfuel⟩ : ∃ fuel, d.count = fuel + 1 := ⟨d.count - 1, by
      have hpos := hinv.count_pos
      omega⟩
    obtain ⟨s, heq, hinv', hmodified, hparent, hbase⟩ := hinv.markChanged_root hcard fuel
    have hroot : (d.update 0 s).states 0 = s := Drafts.states_update_self ..
    have hmodified' : ((d.update 0 s).states 0).modified = true := hroot.symm ▸ hmodified
    have hgrows : Grows d (d.update 0 s) := .update hparent hbase
    have hobject : s.copy.isArray = false := hroot ▸ hinv'.isObject hmodified'
    rw [hfuel, heq, Option.map_eq_some_iff] at h
    obtain ⟨copy, hwrite, h⟩ := h
    obtain ⟨-, rfl⟩ := Prod.mk.inj h
    rw [hroot, Cell.write, if_neg (by simp [hobject])] at hwrite
    obtain rfl := Option.some.inj hwrite
    refine ⟨hinv'.modify_root hmodified' hobject (fun k' hk' => ?_) (fun w hw => ?_),
      hgrows.trans (.update rfl rfl)⟩
    · rw [hroot, Cell.own_put, if_neg hk']
    · rw [Cell.own_put, if_pos rfl] at hw
      obtain rfl := Option.some.inj hw
      exact hv.mono hgrows

/-- Writing an entry of a property. -/
theorem setTrap_child (hcard : IsCard heap card) {j : ℕ} {k k' : Key} (hj : IsChild d j k)
    {v : Value} (h : d.setTrap j k' v = some ((), d')) : RootInv heap card d' ∧ Grows d d' := by
  simp only [Drafts.setTrap] at h
  split at h
  · cases h
  split at h
  · obtain ⟨-, rfl⟩ := Prod.mk.inj (Option.some.inj h)
    exact ⟨hinv, .refl d⟩
  · obtain ⟨hinv', hgrows, hmodified, hk⟩ := hinv.markChanged_child hcard hj
    rw [Option.map_eq_some_iff] at h
    obtain ⟨copy, -, h⟩ := h
    obtain ⟨-, rfl⟩ := Prod.mk.inj h
    refine (hinv'.modify_child (hgrows.isChild hj) hmodified hk ?_ ?_).imp_right hgrows.trans <;> rfl

/-- Objects that are made, or written to in place beyond those that existed. -/
theorem of_heap {heap' : Heap} (hnext : d.heap.next ≤ heap'.next)
    (hcells : ∀ x ≤ heap.next, heap'.cells x = d.heap.cells x) :
    RootInv heap card { d with heap := heap' } ∧ Grows d { d with heap := heap' } := by
  have hgrows : Grows d { d with heap := heap' } := ⟨le_rfl, hnext, fun _ _ => rfl, fun _ _ => rfl⟩
  exact ⟨hinv.of_same_root hgrows rfl hcells fun _ => id, hgrows⟩

end RootInv

end

/-! ## Producers keep it -/

section

variable {heap : Heap} {card : Cell}

/-- What holds since some drafts. -/
def Since (heap : Heap) (card : Cell) (d₀ d : Drafts) : Prop := RootInv heap card d ∧ Grows d₀ d

theorem get_since (hcard : IsCard heap card) (d₀ : Drafts) (v : Value) (k : Key) :
    Ensures (Since heap card d₀) (drafts.get v k) fun _ => Since heap card d₀ := by
  rintro d w d' ⟨hinv, hgrows⟩ h
  cases v with
  | prim p =>
    obtain ⟨_, -, h⟩ := Option.map_eq_some_iff.1 h
    obtain ⟨-, rfl⟩ := Prod.mk.inj h
    exact ⟨hinv, hgrows⟩
  | ref r =>
    obtain ⟨-, rfl⟩ := Prod.mk.inj (Option.some.inj h)
    exact ⟨hinv, hgrows⟩
  | draft i =>
    by_cases hi : i = 0
    · subst hi
      obtain ⟨hinv', hgrows', -⟩ := hinv.getTrap_root hcard h
      exact ⟨hinv', hgrows.trans hgrows'⟩
    · obtain ⟨hinv', hgrows'⟩ := hinv.getTrap_of_ne hi h
      exact ⟨hinv', hgrows.trans hgrows'⟩
  | copy i => cases h

theorem getField_since (hcard : IsCard heap card) (d₀ : Drafts) (f : CardField) :
    Ensures (Since heap card d₀) (CardStep.getField f) fun v d => Since heap card d₀ d ∧
      Stored heap card d f.key v ∧ (f.isArray = true → Target heap d v) := by
  rintro d v d' ⟨hinv, hgrows⟩ h
  obtain ⟨hinv', hgrows', hstored, htarget⟩ := hinv.getTrap_root hcard h
  exact ⟨⟨hinv', hgrows.trans hgrows'⟩, hstored, fun hf => htarget ⟨f, hf, rfl⟩⟩

theorem setField_since (hcard : IsCard heap card) (d₀ : Drafts) (f : CardField) (v : Value) :
    Ensures (fun d => Since heap card d₀ d ∧ Stored heap card d f.key v) (CardStep.setField f v)
      fun _ => Since heap card d₀ := by
  rintro d _ d' ⟨⟨hinv, hgrows⟩, hv⟩ h
  obtain ⟨hinv', hgrows'⟩ := hinv.setTrap_root hcard hv h
  exact ⟨hinv', hgrows.trans hgrows'⟩

theorem alloc_since (d₀ : Drafts) (data : NewData) :
    Ensures (Since heap card d₀) (drafts.alloc data.toLit) fun v d => Since heap card d₀ d ∧
      ∀ k, Stored heap card d k v := by
  rintro d v d' ⟨hinv, hgrows⟩ h
  obtain ⟨rfl, rfl⟩ := Prod.mk.inj (Option.some.inj h)
  have hnext : d.heap.next ≤ (d.heap.alloc data.toLit).next := Nat.le_add_right _ _
  obtain ⟨hinv', hgrows'⟩ := hinv.of_heap hnext fun x hx => if_pos (hx.trans_lt hinv.next_lt)
  refine ⟨⟨hinv', hgrows.trans hgrows'⟩, fun k => ?_⟩
  cases hroot : data.root with
  | ref r =>
    have hr := data.root_mem r hroot
    have hlt := hinv.next_lt
    exact ⟨Nat.add_lt_add_left hr _, fun _ => .inl (Nat.lt_add_right r hlt)⟩
  | prim p => trivial
  | draft i => trivial
  | copy i => trivial

theorem source_since (hcard : IsCard heap card) (d₀ : Drafts) (source : Source) :
    Ensures (Since heap card d₀) source.run fun v d => Since heap card d₀ d ∧
      ∀ k, (IsArrayKey k → source.isNew = true) → Stored heap card d k v := by
  cases source with
  | new data => exact (alloc_since d₀ data).conseq (fun _ => id) fun v d h => ⟨h.1, fun k _ => h.2 k⟩
  | existing r =>
    intro d v d' hd h
    simp only [Source.run, Option.ite_none_right_eq_some] at h
    obtain ⟨hr, h⟩ := h
    obtain ⟨rfl, rfl⟩ := Prod.mk.inj (Option.some.inj h)
    exact ⟨hd, fun k hk => ⟨hr, fun hk' => absurd (hk hk') (by simp [Source.isNew])⟩⟩
  | field f =>
    refine (getField_since hcard d₀ f).conseq (fun _ => id) fun v d h => ⟨h.1, fun k hk => ?_⟩
    obtain ⟨-, hstored, -⟩ := h
    have hnot : ¬ IsArrayKey k := fun hk' => absurd (hk hk') (by simp [Source.isNew])
    cases v with
    | prim p => trivial
    | ref r => exact ⟨hstored.1, fun hk' => absurd hk' hnot⟩
    | draft j =>
      obtain ⟨hbase, k', hj, -⟩ := hstored
      exact ⟨hbase, k', hj, fun hk' => absurd hk' hnot⟩
    | copy i => exact hstored

/-- Writing to what can be pushed to. -/
theorem setTarget_since (hcard : IsCard heap card) {d₀ : Drafts} {o : Value}
    (ho : Target heap d₀ o) (k : Key) (v : Value) :
    Ensures (Since heap card d₀) (drafts.set o k v) fun _ => Since heap card d₀ := by
  rintro d _ d' ⟨hinv, hgrows⟩ h
  cases o with
  | prim p => cases h
  | ref r =>
    obtain ⟨c, -, h⟩ := Option.map_eq_some_iff.1 h
    obtain ⟨-, rfl⟩ := Prod.mk.inj h
    have hr : heap.next < r := ho
    have hframe : ∀ x ≤ heap.next, (d.heap.update r c).cells x = d.heap.cells x := fun x hx =>
      Function.update_of_ne (hx.trans_lt hr).ne _ _
    obtain ⟨hinv', hgrows'⟩ := hinv.of_heap (le_refl (d.heap.update r c).next) hframe
    exact ⟨hinv', hgrows.trans hgrows'⟩
  | draft j =>
    obtain ⟨k', hj⟩ := ho
    obtain ⟨hinv', hgrows'⟩ := hinv.setTrap_child hcard (hgrows.isChild hj) h
    exact ⟨hinv', hgrows.trans hgrows'⟩
  | copy i => cases h

theorem setItems_since (hcard : IsCard heap card) {d₀ : Drafts} {o : Value}
    (ho : Target heap d₀ o) (i : ℕ) (values : List Value) :
    Ensures (Since heap card d₀) (drafts.setItems o i values) fun _ => Since heap card d₀ := by
  induction values generalizing i with
  | nil => exact .pure fun _ => id
  | cons v values ih => exact (setTarget_since hcard ho _ v).bind fun _ => ih (i + 1)

theorem length_since (hcard : IsCard heap card) (d₀ : Drafts) (o : Value) :
    Ensures (Since heap card d₀) (drafts.length o) fun _ => Since heap card d₀ := by
  refine (get_since hcard d₀ o .length).bind fun v => ?_
  split
  · exact .pure fun _ => id
  · exact .of_failure

theorem push_since (hcard : IsCard heap card) {d₀ : Drafts} {o : Value}
    (ho : Target heap d₀ o) (values : List Value) :
    Ensures (Since heap card d₀) (drafts.push o values) fun _ => Since heap card d₀ := by
  refine (length_since hcard d₀ o).bind fun len => ?_
  refine (setItems_since hcard ho len values).bind fun _ => ?_
  exact setTarget_since hcard ho .length _

theorem follow_since (hcard : IsCard heap card) (d₀ : Drafts) (v : Value) (path : List Key) :
    Ensures (Since heap card d₀) (drafts.follow v path) fun _ => Since heap card d₀ := by
  induction path generalizing v with
  | nil => exact .pure fun _ => id
  | cons k path ih => exact (get_since hcard d₀ v k).bind ih

theorem isArray_since (d₀ : Drafts) (o : Value) :
    Ensures (Since heap card d₀) (drafts.isArray o) fun _ => Since heap card d₀ := by
  intro d b d' hd h
  cases o <;> obtain ⟨-, rfl⟩ := Prod.mk.inj (Option.some.inj h) <;> exact hd

theorem CardField.not_isArrayKey {f : CardField} (hf : f.isArray = false) :
    ¬ IsArrayKey f.key := by
  rintro ⟨f', hf', hkey⟩
  cases f' <;> first | exact absurd hf' (by decide) | (cases f <;> revert hf hkey <;> decide)

/-- A value that any field can be given that holds no array. -/
def Held (heap : Heap) (card : Cell) (d₀ : Drafts) (v : Value) (d : Drafts) : Prop :=
  Since heap card d₀ d ∧ ∀ k, ¬ IsArrayKey k → Stored heap card d k v

theorem getHeld_since (hcard : IsCard heap card) (d₀ : Drafts) (f : CardField) :
    Ensures (Since heap card d₀) (CardStep.getField f) (Held heap card d₀) :=
  (source_since hcard d₀ (.field f)).conseq (fun _ => id) fun _ _ h =>
    ⟨h.1, fun k hk => h.2 k fun hk' => absurd hk' hk⟩

theorem setHeld_since (hcard : IsCard heap card) (d₀ : Drafts) {g : CardField}
    (hg : g.isArray = false) (v : Value) :
    Ensures (Held heap card d₀ v) (CardStep.setField g v) fun _ => Since heap card d₀ :=
  (setField_since hcard d₀ g v).conseq
    (fun _ hd => ⟨hd.1, hd.2 g.key (CardField.not_isArrayKey hg)⟩) fun _ _ => id

theorem setPrim_since (hcard : IsCard heap card) (d₀ : Drafts) (f : CardField) (p : Prim) :
    Ensures (Since heap card d₀) (CardStep.setField f (.prim p)) fun _ => Since heap card d₀ :=
  (setField_since hcard d₀ f _).conseq (fun _ hd => ⟨hd, trivial⟩) fun _ _ => id

theorem runPush_since (hcard : IsCard heap card) (d₀ : Drafts) {f : CardField}
    (items : List Source) (hf : f.isArray = true) :
    Ensures (Since heap card d₀) (CardStep.runPush f items) fun _ => Since heap card d₀ := by
  refine (getField_since hcard d₀ f).bind fun o => Ensures.of_state ?_
  rintro d₁ ⟨hd₁, -, htarget⟩
  have ho := htarget hf
  -- from here on, what is pushed to stays a target
  have hpush : Ensures (Since heap card d₁) (do
      if ← drafts.isArray o then
        let values ← items.mapM Source.run
        drafts.push o values
      else failure) fun _ => Since heap card d₁ := by
    refine (isArray_since d₁ o).bind fun isArray => ?_
    cases isArray with
    | true =>
      refine (Ensures.mapM fun source _ => ?_).bind fun values => push_since hcard ho values
      exact (source_since hcard d₁ source).conseq (fun _ => id) fun _ _ h => h.1
    | false => exact .of_failure
  refine hpush.conseq ?_ fun _ d hd => ⟨hd.1, hd₁.2.trans hd.2⟩
  rintro d rfl
  exact ⟨hd₁.1, .refl d⟩

/-- A step of a producer. -/
theorem step_since (hcard : IsCard heap card) (d₀ : Drafts) (step : CardStep) :
    Ensures (Since heap card d₀) step.run fun _ => Since heap card d₀ := by
  cases step with
  | read path =>
    exact (follow_since hcard d₀ _ path).bind fun _ => .pure fun _ => id
  | assign f value hnew =>
    refine (source_since hcard d₀ value).bind fun v => ?_
    refine (setField_since hcard d₀ f v).conseq (fun d hd => ⟨hd.1, hd.2 f.key fun hk => ?_⟩)
      fun _ _ => id
    cases hf : f.isArray with
    | true => exact hnew hf
    | false => exact absurd hk (CardField.not_isArrayKey hf)
  | updateStatus status =>
    refine (getHeld_since hcard d₀ .status).bind fun old => ?_
    refine (setHeld_since hcard d₀ rfl old).bind fun _ => ?_
    exact setPrim_since hcard d₀ .status status
  | revertStatus =>
    refine (getHeld_since hcard d₀ .clued).bind fun clued => ?_
    have hlast := setPrim_since hcard d₀ .lastStatus .undefined
    have hkeep : ∀ v d, Held heap card d₀ v d → Since heap card d₀ d := fun v d hd => hd.1
    simp only
    split
    · refine Ensures.bind ?_ fun _ => hlast
      exact (setPrim_since hcard d₀ .status _).conseq (hkeep clued) fun _ _ => id
    · refine ((getHeld_since hcard d₀ .lastStatus).conseq (hkeep clued) fun _ _ => id).bind
        fun last => ?_
      exact (setHeld_since hcard d₀ rfl last).bind fun _ => hlast
  | push f items harray => exact runPush_since hcard d₀ items harray

/-- A producer. -/
theorem runAll_since (hcard : IsCard heap card) (d₀ : Drafts) (func : List CardStep) :
    Ensures (Since heap card d₀) (CardStep.runAll func) fun _ => Since heap card d₀ := by
  induction func with
  | nil => exact .pure fun _ => id
  | cons step steps ih => exact (step_since hcard d₀ step).bind fun _ => ih

theorem rootInv_start (hcard : IsCard heap card) :
    RootInv heap card (Drafts.start (heap.place card) heap.next) := by
  constructor
  case next_lt => exact Nat.lt_succ_self _
  case frame => exact fun _ _ => rfl
  case count_pos => exact Nat.one_pos
  case fresh => exact fun _ _ => rfl
  case base => rfl
  case parent => rfl
  case isArray =>
    show (Function.update heap.cells heap.next card heap.next).isArray = false
    rw [Function.update_self, hcard.isObject]
  case unfinalized => rfl
  case unmodified => exact fun _ => rfl
  case child => exact fun j k hj => absurd hj.lt (by have := hj.pos; show ¬ j < 1; omega)
  case proxies => exact fun k j h => nomatch h
  case isObject => exact fun h => nomatch h
  case stored => exact fun h => nomatch h
  case kept => exact fun h => nomatch h

end

end HanabiBot.Drafting
