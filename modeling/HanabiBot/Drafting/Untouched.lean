import HanabiBot.Drafting.Finalize
import HanabiBot.Drafting.Replay
import HanabiBot.Drafting.Transfer

/-!
# The base of a draft

However a producer reads, assigns and calls array methods on a draft and on the drafts below it,
it writes to data of its own and to copies: a value it holds is never an object that was there
before (`Value.Own`), and a copy has such an object only where the base has it (`Untouched`).

* `Untouched.getTrap`, `Untouched.setTrap` — reading and writing a draft;
* `untouched_drafts` — every step of a producer, and so every producer;
* `Finishing.of_finalize` — finalizing leaves no draft in the copies that it goes through;
* `produce_copies` — `produce` leaves each object as it was, and answers with the base itself if
  its draft has not been modified, else with its copy.
-/

namespace HanabiBot.Drafting

/-- A value that a producer can hold: a draft, or nothing that was there before. -/
def Value.Own (bound : ℕ) : Value → Prop
  | .prim _ => True
  | .ref r => bound ≤ r
  | .draft _ => True
  | .copy _ => False

/-- An object that holds nothing that was there before, but where `base` has it. -/
def Cell.Own (bound : ℕ) (base : Key → Option Value) (c : Cell) : Prop :=
  ∀ k v, c.own k = some v → v.Own bound ∨ base k = some v

/-- The drafts of a producer that works on `root` and has left all objects of `heap` as they
were. -/
structure Untouched (heap : Heap) (root : ℕ) (d : Drafts) : Prop where
  le_next : heap.next ≤ d.heap.next
  base : ∀ r < heap.next, d.heap.cells r = heap.cells r
  fresh : ∀ r, heap.next ≤ r → (d.heap.cells r).Own heap.next fun _ => none
  root_draft : 0 < d.count ∧ (d.states 0).base = root
  drafted : ∀ i, (d.states i).base < heap.next
  kind : ∀ i, (d.states i).modified = true →
    (d.states i).copy.isArray = (heap.cells (d.states i).base).isArray
  copy : ∀ i, (d.states i).copy.Own heap.next (heap.cells (d.states i).base).own
  unfinished : ∀ i, (d.states i).finalized = false

/-- Both programs are the producer itself. -/
def untouchedWorld (heap : Heap) (root : ℕ) : World Drafts Drafts where
  rel d d' := d = d' ∧ Untouched heap root d
  le _ _ := True
  le_refl _ := trivial
  le_trans _ _ := trivial

variable {heap : Heap} {root : ℕ} {d d' : Drafts} {i : ℕ} {k : Key} {v w : Value}

/-! ## Objects -/

theorem Cell.Own.mono {bound : ℕ} {base base' : Key → Option Value} {c : Cell}
    (h : c.Own bound base) (hbase : ∀ k v, base k = some v → base' k = some v) :
    c.Own bound base' := fun k v hv => (h k v hv).imp_right (hbase k v)

theorem Cell.Own.read {bound : ℕ} {c : Cell} (h : c.Own bound fun _ => none) (k : Key) :
    (c.read k).Own bound := by
  unfold Cell.read
  split
  · trivial
  · cases hown : c.own k with
    | none => trivial
    | some v =>
      obtain hv | hv := h k v hown
      · exact hv
      · cases hv

theorem Cell.Own.put {bound : ℕ} {base : Key → Option Value} {c : Cell} (h : c.Own bound base)
    (hw : w.Own bound) : (c.put k w).Own bound base := by
  intro k' v hv
  rw [Cell.own_put] at hv
  split at hv
  · exact .inl (Option.some.inj hv ▸ hw)
  · exact h k' v hv

theorem Cell.Own.erase {bound : ℕ} {base : Key → Option Value} {c : Cell} (h : c.Own bound base) :
    (c.erase k).Own bound base := by
  intro k' v hv
  rw [Cell.own_erase] at hv
  split at hv
  · cases hv
  · exact h k' v hv

theorem Cell.Own.write {bound : ℕ} {base : Key → Option Value} {c c' : Cell} (h : c.Own bound base)
    (hw : w.Own bound) (hc : c.write k w = some c') :
    c'.isArray = c.isArray ∧ c'.Own bound base := by
  unfold Cell.write at hc
  split at hc
  · obtain ⟨n, -, rfl⟩ := Option.map_eq_some_iff.1 hc
    refine ⟨rfl, fun k' v hv => ?_⟩
    rw [Cell.own_truncate] at hv
    split at hv
    · exact h k' v hv
    · cases hv
  · obtain rfl := Option.some.inj hc
    exact ⟨rfl, h.put hw⟩

theorem Value.own_shift {bound next : ℕ} (hle : bound ≤ next) (v : Value) :
    (Heap.shift next v).Own bound := by
  cases v with
  | ref r => exact hle.trans (Nat.le_add_right next r)
  | _ => trivial

theorem Cell.read_cases (c : Cell) (k : Key) :
    (∃ p, c.read k = .prim p) ∨ ∃ v, c.own k = some v ∧ c.read k = v := by
  unfold Cell.read
  split
  · exact .inl ⟨_, rfl⟩
  · cases c.own k with
    | none => exact .inl ⟨_, rfl⟩
    | some v => exact .inr ⟨v, rfl, rfl⟩

/-! ## Reading and writing -/

namespace Drafts

theorem forall_update {P : ℕ → StateProxy → Prop} {s : StateProxy} (hs : P i s)
    (h : ∀ j, P j (d.states j)) (j : ℕ) : P j ((d.update i s).states j) := by
  by_cases hj : j = i
  · rw [hj, states_update_self]
    exact hs
  · rw [states_update_of_ne d hj]
    exact h j

theorem forall_create {P : ℕ → StateProxy → Prop} {s : StateProxy} (hs : P d.count s)
    (h : ∀ j, P j (d.states j)) (j : ℕ) : P j ((d.create s).states j) := by
  by_cases hj : j = d.count
  · rw [hj, states_create_self]
    exact hs
  · rw [states_create_of_ne d hj]
    exact h j

end Drafts

namespace Untouched

/-- What a draft is of. -/
theorem place (h : Untouched heap root d) (i : ℕ) :
    (d.states i).base < heap.next ∧ (i = 0 → (d.states i).base = root) := by
  refine ⟨h.drafted i, ?_⟩
  rintro rfl
  exact h.root_draft.2

/-- The drafts with one state changed. -/
theorem update (h : Untouched heap root d) {s : StateProxy}
    (hbase : s.base < heap.next ∧ (i = 0 → s.base = root))
    (hkind : s.modified = true → s.copy.isArray = (heap.cells s.base).isArray)
    (hcopy : s.copy.Own heap.next (heap.cells s.base).own) (hfinalized : s.finalized = false) :
    Untouched heap root (d.update i s) := by
  have hbases : ∀ j, ((d.update i s).states j).base < heap.next ∧
      (j = 0 → ((d.update i s).states j).base = root) :=
    Drafts.forall_update (P := fun j s => s.base < heap.next ∧ (j = 0 → s.base = root)) hbase
      h.place
  exact {
    le_next := h.le_next
    base := h.base
    fresh := h.fresh
    root_draft := ⟨h.root_draft.1, (hbases 0).2 rfl⟩
    drafted := fun j => (hbases j).1
    kind := Drafts.forall_update (P := fun _ s => s.modified = true →
      s.copy.isArray = (heap.cells s.base).isArray) hkind h.kind
    copy := Drafts.forall_update (P := fun _ s => s.copy.Own heap.next (heap.cells s.base).own)
      hcopy h.copy
    unfinished := Drafts.forall_update (P := fun _ s => s.finalized = false) hfinalized
      h.unfinished }

/-- A new draft is not modified. -/
theorem create (h : Untouched heap root d) {r : ℕ} (hr : r < heap.next)
    (parent : Option (ℕ × Key)) : Untouched heap root (d.create (.fresh d.heap r parent)) := by
  exact {
    le_next := h.le_next
    base := h.base
    fresh := h.fresh
    root_draft := by
      rw [Drafts.states_create_of_ne d h.root_draft.1.ne]
      exact ⟨Nat.succ_pos _, h.root_draft.2⟩
    drafted := Drafts.forall_create (P := fun _ s => s.base < heap.next) hr h.drafted
    kind := Drafts.forall_create (P := fun _ s => s.modified = true →
      s.copy.isArray = (heap.cells s.base).isArray) (fun hmodified => by cases hmodified) h.kind
    copy := Drafts.forall_create (P := fun _ s => s.copy.Own heap.next (heap.cells s.base).own)
      (fun _ _ hv => by cases hv) h.copy
    unfinished := Drafts.forall_create (P := fun _ s => s.finalized = false) rfl h.unfinished }

theorem baseOf_eq (h : Untouched heap root d) (i : ℕ) :
    d.baseOf (d.states i) = heap.cells (d.states i).base := h.base _ (h.drafted i)

/-- A value that a copy shows, but that is not what the base has there, is not from the base. -/
theorem own_copy (h : Untouched heap root d) (hclosed : heap.Closed)
    (hmodified : (d.states i).modified = true)
    (hne : ∀ r, (d.states i).copy.read k = .ref r →
      (d.states i).copy.read k ≠ (d.baseOf (d.states i)).read k) :
    ((d.states i).copy.read k).Own heap.next := by
  rw [h.baseOf_eq] at hne
  have hkind := h.kind i hmodified
  unfold Cell.read at hne ⊢
  rw [hkind] at hne ⊢
  split
  · trivial
  next hlength =>
    rw [if_neg hlength, if_neg hlength] at hne
    cases hown : (d.states i).copy.own k with
    | none => trivial
    | some v =>
      obtain hv | hv := h.copy i k v hown
      · exact hv
      · rw [hown, hv] at hne
        have hbelow := hclosed _ (h.drafted i) k v hv
        cases v with
        | prim p => trivial
        | ref r => exact absurd rfl (hne r rfl)
        | draft j => exact hbelow.elim
        | copy j => exact hbelow.elim

theorem getTrap (h : Untouched heap root d) (hclosed : heap.Closed)
    (hget : d.getTrap i k = some (v, d')) : Untouched heap root d' ∧ v.Own heap.next := by
  have hbelow : ((d.baseOf (d.states i)).read k).Below heap.next := by
    rw [h.baseOf_eq]
    exact Heap.below_read (hclosed _ (h.drafted i)) k
  obtain ⟨rfl, hv⟩ | ⟨rfl, r, hr, hd'⟩ := Drafts.getTrap_cases hget
  · refine ⟨h, ?_⟩
    obtain ⟨hmodified, rfl, hne⟩ | ⟨-, ⟨j, -, rfl⟩ | ⟨p, rfl⟩ | ⟨rfl, hne⟩⟩ := hv
    · exact h.own_copy hclosed hmodified hne
    · trivial
    · trivial
    · generalize (d'.baseOf (d'.states i)).read k = v at hbelow hne
      cases v with
      | prim p => trivial
      | ref r => exact absurd rfl (hne r)
      | draft j => exact hbelow.elim
      | copy j => exact hbelow.elim
  · rw [hr] at hbelow
    have hnew := h.create hbelow (some (i, k))
    obtain ⟨hmodified, rfl⟩ | ⟨hmodified, -, rfl⟩ := hd'
    · exact ⟨hnew.update (h.place i) (fun _ => h.kind i hmodified) ((h.copy i).put trivial)
        (h.unfinished i), trivial⟩
    · exact ⟨hnew.update (h.place i) (h.kind i) (h.copy i) (h.unfinished i), trivial⟩

/-- The copy that a draft gets when it is first modified. -/
theorem own_overlay (s : StateProxy) (c : Cell) (bound : ℕ) :
    (s.overlay c).Own bound c.own := by
  intro k v hv
  have hv' : ((s.proxies.lookup k).map Value.draft).or (c.own k) = some v := hv
  cases hlookup : s.proxies.lookup k with
  | none =>
    rw [hlookup] at hv'
    exact .inr hv'
  | some j =>
    rw [hlookup] at hv'
    exact .inl (Option.some.inj hv' ▸ trivial)

theorem markChanged (h : Untouched heap root d) (fuel i : ℕ) :
    Untouched heap root (Drafts.markChanged fuel i d) := by
  induction fuel generalizing i d with
  | zero => exact h
  | succ fuel ih =>
    have hcopy : Untouched heap root (d.update i { d.states i with
        modified := true
        copy := (d.states i).overlay (d.baseOf (d.states i)) }) := by
      refine h.update (h.place i) (fun _ => ?_) ?_ (h.unfinished i)
      · show (d.baseOf (d.states i)).isArray = _
        rw [h.baseOf_eq]
      · show ((d.states i).overlay (d.baseOf (d.states i))).Own _ _
        rw [h.baseOf_eq]
        exact own_overlay _ _ _
    rw [Drafts.markChanged]
    simp only
    split
    · exact h
    · split
      · exact hcopy
      next p key _ =>
        have hparent := ih hcopy p
        exact hparent.update (hparent.place p) (hparent.kind p) (hparent.copy p)
          (hparent.unfinished p)


theorem setTrap (h : Untouched heap root d) (hw : w.Own heap.next)
    (hset : d.setTrap i k w = some ((), d')) : Untouched heap root d' := by
  simp only [Drafts.setTrap] at hset
  split at hset
  · cases hset
  split at hset
  · obtain ⟨-, rfl⟩ := Prod.mk.inj (Option.some.inj hset)
    exact h
  · obtain ⟨copy, hcopy, hset⟩ := Option.map_eq_some_iff.1 hset
    obtain ⟨-, rfl⟩ := Prod.mk.inj hset
    have hmark := h.markChanged d.count i
    obtain ⟨hisArray, hown⟩ := (hmark.copy i).write hw hcopy
    exact hmark.update (hmark.place i) (fun hm => hisArray.trans (hmark.kind i hm)) hown
      (hmark.unfinished i)

theorem setFresh (h : Untouched heap root d) {r : ℕ} (hr : heap.next ≤ r) {c : Cell}
    (hc : c.Own heap.next fun _ => none) :
    Untouched heap root { d with heap := d.heap.update r c } where
  le_next := h.le_next
  base x hx := (Function.update_of_ne (by omega) _ _).trans (h.base x hx)
  fresh x hx := by
    show Cell.Own heap.next _ (Function.update d.heap.cells r c x)
    by_cases hxr : x = r
    · rw [hxr, Function.update_self]
      exact hc
    · rw [Function.update_of_ne hxr]
      exact h.fresh x hx
  root_draft := h.root_draft
  drafted := h.drafted
  kind := h.kind
  copy := h.copy
  unfinished := h.unfinished

theorem alloc (h : Untouched heap root d) (lit : Lit) :
    Untouched heap root { d with heap := d.heap.alloc lit } where
  le_next := h.le_next.trans (Nat.le_add_right _ _)
  base r hr := (if_pos (hr.trans_le h.le_next)).trans (h.base r hr)
  fresh r hr := by
    intro k v hv
    by_cases hlt : r < d.heap.next
    · have hcell : (d.heap.alloc lit).cells r = d.heap.cells r := if_pos hlt
      exact h.fresh r hr k v (hcell ▸ hv)
    · have hcell : (d.heap.alloc lit).cells r = ((lit.cells[r - d.heap.next]?).map
          (Cell.map (Heap.shift d.heap.next))).getD (d.heap.cells r) := if_neg hlt
      have hv' : ((d.heap.alloc lit).cells r).own k = some v := hv
      rw [hcell] at hv'
      cases hget : lit.cells[r - d.heap.next]? with
      | none =>
        rw [hget] at hv'
        exact h.fresh r hr k v hv'
      | some c =>
        rw [hget] at hv'
        obtain ⟨w, -, rfl⟩ := Option.map_eq_some_iff.1 hv'
        exact .inl (Value.own_shift h.le_next w)
  root_draft := h.root_draft
  drafted := h.drafted
  kind := h.kind
  copy := h.copy
  unfinished := h.unfinished

/-- A step that does what the invariant allows is the step of both programs. -/
theorem simulates {α : Type} {x : StateT Drafts Option α} {Q : α → Prop}
    (hx : ∀ d a d', Untouched heap root d → x d = some (a, d') → Untouched heap root d' ∧ Q a)
    (d₀ : Drafts) :
    Simulates (untouchedWorld heap root) d₀ x x fun a b _ => a = b ∧ Q a := by
  rintro d _ ⟨rfl, h⟩ - a d' hrun
  obtain ⟨h', hQ⟩ := hx d a d' h hrun
  exact ⟨a, d', hrun, ⟨rfl, h'⟩, trivial, rfl, hQ⟩

end Untouched

/-- No step of a producer writes to an object that was there before. -/
theorem untouched_drafts (hclosed : heap.Closed) :
    Transfer drafts drafts (untouchedWorld heap root) fun v w _ => v = w ∧ v.Own heap.next where
  mono h _ := h
  prim _ _ := ⟨rfl, trivial⟩
  eq_prim h := h.1.symm
  get := by
    rintro v _ d₀ k ⟨rfl, hv⟩
    refine Untouched.simulates (fun d w d' h hget => ?_) d₀
    cases v with
    | prim p =>
      obtain ⟨q, -, hq⟩ := Option.map_eq_some_iff.1 hget
      obtain ⟨rfl, rfl⟩ := Prod.mk.inj hq
      exact ⟨h, trivial⟩
    | ref r =>
      obtain ⟨rfl, rfl⟩ := Prod.mk.inj (Option.some.inj hget)
      exact ⟨h, (h.fresh r hv).read k⟩
    | draft i => exact h.getTrap hclosed hget
    | copy i => exact hv.elim
  set := by
    rintro v _ w _ d₀ k ⟨rfl, hv⟩ ⟨rfl, hw⟩
    refine (Untouched.simulates (Q := fun _ => True) (fun d _ d' h hset => ⟨?_, trivial⟩)
      d₀).conseq trivial fun _ _ _ _ _ => trivial
    cases v with
    | prim p => cases hset
    | ref r =>
      obtain ⟨c, hc, hset⟩ := Option.map_eq_some_iff.1 hset
      obtain ⟨-, rfl⟩ := Prod.mk.inj hset
      exact h.setFresh hv ((h.fresh r hv).write hw hc).2
    | draft i => exact h.setTrap hw hset
    | copy i => exact hv.elim
  delete := by
    rintro v _ d₀ j ⟨rfl, hv⟩
    refine (Untouched.simulates (Q := fun _ => True) (fun d _ d' h hdelete => ⟨?_, trivial⟩)
      d₀).conseq trivial fun _ _ _ _ _ => trivial
    cases v with
    | prim p => cases hdelete
    | ref r =>
      obtain ⟨-, rfl⟩ := Prod.mk.inj (Option.some.inj hdelete)
      exact h.setFresh hv (h.fresh r hv).erase
    | draft i =>
      obtain ⟨-, rfl⟩ := Prod.mk.inj (Option.some.inj hdelete)
      unfold Drafts.deleteTarget
      simp only
      split
      · exact h.update (h.place i) (h.kind i) (h.copy i) (h.unfinished i)
      · exact h
    | copy i => exact hv.elim
  has := by
    rintro v _ d₀ j ⟨rfl, hv⟩
    refine (Untouched.simulates (Q := fun _ => True) (fun d b d' h hhas => ⟨?_, trivial⟩)
      d₀).conseq trivial fun _ _ _ _ hb => hb.1
    cases v with
    | prim p => cases hhas
    | ref r =>
      obtain ⟨-, rfl⟩ := Prod.mk.inj (Option.some.inj hhas)
      exact h
    | draft i =>
      obtain ⟨-, hhas⟩ := Option.ite_none_left_eq_some.1 hhas
      obtain ⟨-, rfl⟩ := Prod.mk.inj (Option.some.inj hhas)
      exact h
    | copy i => exact hv.elim
  isArray := by
    rintro v _ d₀ ⟨rfl, -⟩
    refine (Untouched.simulates (Q := fun _ => True) (fun d b d' h hisArray => ⟨?_, trivial⟩)
      d₀).conseq trivial fun _ _ _ _ hb => hb.1
    cases v <;> obtain ⟨-, rfl⟩ := Prod.mk.inj (Option.some.inj hisArray) <;> exact h
  alloc := by
    intro lit d₀
    refine Untouched.simulates (fun d v d' h halloc => ?_) d₀
    obtain ⟨rfl, rfl⟩ := Prod.mk.inj (Option.some.inj halloc)
    exact ⟨h.alloc lit, Value.own_shift h.le_next lit.root⟩

/-- A producer leaves the objects as they were. -/
theorem Untouched.run (h : Untouched heap root d) (hclosed : heap.Closed) {producer : List Step}
    (hrun : drafts.run (.draft 0) producer d = some ((), d')) : Untouched heap root d' := by
  have hroot : Value.draft 0 = .draft 0 ∧ (Value.draft 0).Own heap.next := ⟨rfl, trivial⟩
  obtain ⟨_, _, -, hrel, -, -⟩ := (untouched_drafts hclosed).run (t := d) hroot producer d d
    ⟨rfl, h⟩ trivial () d' hrun
  exact hrel.2

theorem Untouched.start (hroot : root < heap.next)
    (hfresh : ∀ r, heap.next ≤ r → ∀ k, (heap.cells r).own k = none) :
    Untouched heap root (Drafts.start heap root) where
  le_next := le_rfl
  base _ _ := rfl
  fresh r hr k v hv := absurd ((hfresh r hr k).symm.trans hv) (Option.some_ne_none v).symm
  root_draft := ⟨Nat.one_pos, rfl⟩
  drafted _ := hroot
  kind _ hmodified := nomatch hmodified
  copy _ _ _ hv := nomatch hv
  unfinished _ := rfl

/-! ## Finalizing -/

/-- A value that an answer can hold: plain data, an object, or a copy that has been gone through. -/
def Value.Finished (d : Drafts) : Value → Prop
  | .prim _ => True
  | .ref _ => True
  | .draft _ => False
  | .copy i => (d.states i).finalized = true

/-- Drafts that are being finalized: those that are and are not being gone through at the moment
hold no draft any more. -/
structure Finishing (running : ℕ → Prop) (d : Drafts) : Prop where
  base : ∀ i k j, (d.baseOf (d.states i)).read k ≠ .draft j
  copies : ∀ i k j, (d.states i).copy.own k = some (.copy j) → (d.states j).finalized = true
  finished : ∀ i, (d.states i).finalized = true → ¬ running i → ∀ k j,
    (d.states i).copy.own k ≠ some (.draft j)

/-- What one call of `finalize` is to do. -/
def Finishes (running : ℕ → Prop) (d : Drafts) (v : Value) (result : Option (Value × Drafts)) :
    Prop :=
  ∀ v' d', result = some (v', d') → (∀ j, v = .copy j → (d.states j).finalized = true) →
    Finishing running d → Finishing running d' ∧ v'.Finished d'

namespace Finishing

variable {running : ℕ → Prop}

theorem baseOf_of_same {P : ℕ → Prop} (h : SameBut P d d') (i : ℕ) :
    d'.baseOf (d'.states i) = d.baseOf (d.states i) := by
  unfold Drafts.baseOf
  rw [h.heap, h.base]

/-- A draft is marked before it is gone through. -/
theorem mark (h : Finishing running d) (i : ℕ) :
    Finishing (fun j => running j ∨ j = i) (d.update i { d.states i with finalized := true }) := by
  have hsame : SameBut (fun j => j = i) d (d.update i { d.states i with finalized := true }) :=
    .update rfl rfl rfl rfl rfl fun _ => rfl
  have hcopy : ∀ j, ((d.update i { d.states i with finalized := true }).states j).copy =
      (d.states j).copy := by
    intro j
    by_cases hj : j = i
    · rw [hj, Drafts.states_update_self]
    · rw [Drafts.states_update_of_ne d hj]
  refine ⟨fun j k j' => ?_, fun j k j' hown => ?_, fun j hj hrunning k j' => ?_⟩
  · rw [baseOf_of_same hsame]
    exact h.base j k j'
  · rw [hcopy] at hown
    exact hsame.finalized j' (h.copies j k j' hown)
  · obtain ⟨hnot, hne⟩ := not_or.1 hrunning
    rw [Drafts.states_update_of_ne d hne] at hj ⊢
    exact h.finished j hj hnot k j'

/-- An entry of a copy that is gone through gets its value. -/
theorem putCopy (h : Finishing running d) {i : ℕ} (hi : running i) (hv : v.Finished d) :
    Finishing running (d.putCopy i k v) := by
  have hsame := SameBut.putCopy d i k v
  refine ⟨fun j k' j' => ?_, fun j k' j' hown => ?_, fun j hj hrunning k' j' => ?_⟩
  · rw [baseOf_of_same hsame]
    exact h.base j k' j'
  · refine hsame.finalized j' ?_
    by_cases hji : j = i
    · rw [hji, Drafts.putCopy, Drafts.states_update_self, Cell.own_put] at hown
      split at hown
      · obtain rfl := Option.some.inj hown
        exact hv
      · exact h.copies i k' j' hown
    · rw [hsame.same j hji] at hown
      exact h.copies j k' j' hown
  · have hne : j ≠ i := by
      rintro rfl
      exact hrunning hi
    rw [hsame.same j hne] at hj ⊢
    exact h.finished j hj hrunning k' j'

/-- Going through the entries of a copy leaves no draft in it. -/
theorem entries {fin : Value → Drafts → Option (Value × Drafts)} {i : ℕ} (hi : running i)
    (hfin : ∀ v d, Finishes running d v (fin v d))
    (hsame : ∀ v d v' d', fin v d = some (v', d') →
      SameBut (fun j => (d.states j).finalized = false) d d')
    (entries : List (Key × Value)) (d d' : Drafts) (h : Finishing running d)
    (hfinalized : (d.states i).finalized = true)
    (hlisted : ∀ k j, (d.states i).copy.own k = some (.draft j) → (k, Value.draft j) ∈ entries)
    (hrun : finalizeEntries fin i entries d = some d') :
    Finishing running d' ∧ ∀ k j, (d'.states i).copy.own k ≠ some (.draft j) := by
  induction entries generalizing d with
  | nil =>
    obtain rfl := Option.some.inj hrun
    exact ⟨h, fun k j hown => List.not_mem_nil (hlisted k j hown)⟩
  | cons entry entries ih =>
    obtain ⟨k, value⟩ := entry
    simp only [finalizeEntries] at hrun
    split at hrun
    next heq =>
      refine ih d h hfinalized (fun k' j hown => ?_) hrun
      refine (List.mem_cons.1 (hlisted k' j hown)).resolve_left fun hhead => ?_
      obtain ⟨rfl, rfl⟩ := Prod.mk.inj hhead
      -- a draft is not what the base has
      have hbase := h.base i k'
      cases hread : (d.baseOf (d.states i)).read k' with
      | draft j' => exact hbase j' hread
      | _ =>
        rw [hread] at heq
        exact absurd heq (by simp [Value.strictEq])
    next =>
      obtain ⟨⟨v, d₁⟩, hv, hrun⟩ := Option.bind_eq_some_iff.1 hrun
      have hcopy : ∀ j, (d.states i).copy.read k = .copy j → (d.states j).finalized = true := by
        intro j hread
        obtain ⟨p, hp⟩ | ⟨w, hw, hw'⟩ := Cell.read_cases (d.states i).copy k
        · exact absurd (hread.symm.trans hp) (by simp)
        · exact h.copies i k j (hw.trans (congrArg some (hw'.symm.trans hread)))
      obtain ⟨h₁, hfinished⟩ := hfin _ d v d₁ hv hcopy h
      have hsame₁ := hsame _ d v d₁ hv
      have hstate : d₁.states i = d.states i := hsame₁.same i (by simp [hfinalized])
      refine ih (d₁.putCopy i k v) (h₁.putCopy hi hfinished) ?_ (fun k' j hown => ?_) hrun
      · rw [(SameBut.putCopy d₁ i k v).finalized i (hstate ▸ hfinalized)]
      · rw [Drafts.putCopy, Drafts.states_update_self, Cell.own_put] at hown
        split at hown
        · obtain rfl := Option.some.inj hown
          exact hfinished.elim
        next hne =>
          rw [hstate] at hown
          refine (List.mem_cons.1 (hlisted k' j hown)).resolve_left fun hhead => ?_
          exact hne (Prod.mk.inj hhead).1

/-- A draft that has been gone through before, or never changed, or a value that is none. -/
theorem finishes_self (hv : v.Finished d ∨ ∃ j, v = .copy j) :
    Finishes running d v (some (v, d)) := by
  intro v' d' hrun hcopy h
  obtain ⟨rfl, rfl⟩ := Prod.mk.inj (Option.some.inj hrun)
  refine ⟨h, ?_⟩
  obtain hv | ⟨j, rfl⟩ := hv
  · exact hv
  · exact hcopy j rfl

/-- Finalizing goes through every draft that it leaves a copy of. -/
theorem of_finalize (fuel : ℕ) (running : ℕ → Prop) (v : Value) (d : Drafts) :
    Finishes running d v (finalize fuel v d) := by
  induction fuel generalizing running v d with
  | zero =>
    cases v with
    | draft i =>
      intro v' d' hrun _ h
      simp only [finalize] at hrun
      split at hrun
      · cases hrun
      split at hrun
      · obtain ⟨rfl, rfl⟩ := Prod.mk.inj (Option.some.inj hrun)
        exact ⟨h, trivial⟩
      · split at hrun
        next hfinalized =>
          obtain ⟨rfl, rfl⟩ := Prod.mk.inj (Option.some.inj hrun)
          exact ⟨h, hfinalized⟩
        · cases hrun
    | prim p => exact finishes_self (.inl trivial)
    | ref r => exact finishes_self (.inl trivial)
    | copy j => exact finishes_self (.inr ⟨j, rfl⟩)
  | succ fuel ih =>
    cases v with
    | draft i =>
      intro v' d' hrun _ h
      simp only [finalize] at hrun
      split at hrun
      · cases hrun
      split at hrun
      · obtain ⟨rfl, rfl⟩ := Prod.mk.inj (Option.some.inj hrun)
        exact ⟨h, trivial⟩
      · split at hrun
        next hfinalized =>
          obtain ⟨rfl, rfl⟩ := Prod.mk.inj (Option.some.inj hrun)
          exact ⟨h, hfinalized⟩
        · obtain ⟨d₁, hentries, hrun⟩ := Option.bind_eq_some_iff.1 hrun
          obtain ⟨rfl, rfl⟩ := Prod.mk.inj (Option.some.inj hrun)
          have hstate : (d.update i { d.states i with finalized := true }).states i =
              { d.states i with finalized := true } := Drafts.states_update_self ..
          have hmarked : ((d.update i { d.states i with finalized := true }).states i).finalized =
              true := by rw [hstate]
          have hsame := finalizeEntries_same (finalize_same fuel) _ _ _ hentries
          have hi : (fun j => running j ∨ j = i) i := .inr rfl
          have hlisted : ∀ k j,
              ((d.update i { d.states i with finalized := true }).states i).copy.own k =
                some (.draft j) → (k, Value.draft j) ∈ (d.states i).copy.keys.filterMap fun k =>
                ((d.states i).copy.own k).map fun v => (k, v) := by
            intro k j hown
            rw [hstate] at hown
            have hkey := (d.states i).copy.mem_keys k (by rw [hown]; exact Option.some_ne_none _)
            refine List.mem_filterMap.2 ⟨k, hkey, ?_⟩
            rw [show (d.states i).copy.own k = some (.draft j) from hown]
            rfl
          obtain ⟨h₁, hnone⟩ := entries hi (ih _) (finalize_same fuel) _ _ d₁ (h.mark i) hmarked
            hlisted hentries
          refine ⟨⟨h₁.base, h₁.copies, fun j hj hrunning k j' => ?_⟩, hsame.finalized i hmarked⟩
          by_cases hji : j = i
          · rw [hji]
            exact hnone k j'
          · exact h₁.finished j hj (not_or.2 ⟨hrunning, hji⟩) k j'
    | prim p => exact finishes_self (.inl trivial)
    | ref r => exact finishes_self (.inl trivial)
    | copy j => exact finishes_self (.inr ⟨j, rfl⟩)

end Finishing

/-- What is finalized after a producer. -/
theorem Untouched.finishing (h : Untouched heap root d) (hclosed : heap.Closed) :
    Finishing (fun _ => False) d where
  base i k j hread := by
    have hbelow := Heap.below_read (hclosed _ (h.drafted i)) k
    rw [← h.baseOf_eq, hread] at hbelow
    exact hbelow
  copies i k j hown := by
    obtain hv | hv := h.copy i k _ hown
    · exact hv.elim
    · exact (hclosed _ (h.drafted i) k _ hv).elim
  finished i hi := absurd ((h.unfinished i).symm.trans hi) Bool.false_ne_true

/-- `produce` is copy-on-write: however the producer changes its draft and the drafts below it, no
object that was there before is written to, and no draft is left in the answer, which is the base
itself, if its draft has not been modified, or the copy that belongs to it. -/
theorem produce_copies (heap : Heap) (base : ℕ) (producer : List Step) (v : Value) (d : Drafts)
    (hclosed : heap.Closed) (hbase : base < heap.next)
    (hfresh : ∀ r, heap.next ≤ r → ∀ k, (heap.cells r).own k = none)
    (h : produce heap base producer = some (v, d)) :
    (∀ r < heap.next, d.heap.cells r = heap.cells r) ∧
      ((d.states 0).modified = false ∧ v = .ref base ∨
        (d.states 0).modified = true ∧ v = .copy 0) ∧
      v.Finished d ∧ ∀ i, (d.states i).finalized = true →
        ∀ k w, (d.states i).copy.own k = some w → w.Finished d := by
  obtain ⟨⟨⟨⟩, d₁⟩, hrun, hfin⟩ := Option.bind_eq_some_iff.1 h
  have hinv := (Untouched.start hbase hfresh).run hclosed hrun
  obtain ⟨hsame, hv⟩ := finalize_draft _ _ _ _ _ hfin
  obtain ⟨hfinal, hfinished⟩ := Finishing.of_finalize _ (fun _ => False) _ d₁ v d hfin
    (fun j hj => nomatch hj) (hinv.finishing hclosed)
  refine ⟨fun r hr => ?_, ?_, hfinished, fun i hi k w hown => ?_⟩
  · rw [hsame.heap]
    exact hinv.base r hr
  · rw [hsame.modified]
    rw [hinv.root_draft.2] at hv
    exact hv
  · cases w with
    | prim p => trivial
    | ref r => trivial
    | draft j => exact hfinal.finished i hi id k j hown
    | copy j => exact hfinal.copies i k j hown

/-- An array with an array of two numbers in it. -/
def nestedHeap : Heap where
  cells
    | 0 => Cell.ofArray [.ref 1]
    | 1 => Cell.ofArray [.prim (.num 1), .prim (.num 2)]
    | _ => Cell.ofObject []
  next := 2

/-- The inner array grows, and its first number is replaced by an array. -/
def nestedProducer : List Step :=
  [{ path := [.idx 0], act := .call (.push [{ root := .prim (.num 3) }]) },
    { path := [.idx 0]
      act := .call (.splice 0 (some 1) [{ cells := [.ofArray []], root := .ref 0 }]) }]

theorem nestedHeap_closed : nestedHeap.Closed := by
  intro r hr
  have hlt : r < 2 := hr
  interval_cases r <;> exact Cell.below_ofArray (by simp [Value.Below, nestedHeap])

theorem produce_copies_nested : ∃ v d, produce nestedHeap 0 nestedProducer = some (v, d) ∧
    (∀ r < 2, d.heap.cells r = nestedHeap.cells r) ∧ v = .copy 0 ∧
      ∀ k w, (d.states 0).copy.own k = some w → w.Finished d := by
  have hanswer : (produce nestedHeap 0 nestedProducer).map Prod.fst = some (.copy 0) := by
    decide +kernel
  obtain ⟨⟨v, d⟩, hrun, rfl⟩ := Option.map_eq_some_iff.1 hanswer
  have hfresh : ∀ r, nestedHeap.next ≤ r → ∀ k, (nestedHeap.cells r).own k = none := by
    intro r hr k
    obtain ⟨n, rfl⟩ := Nat.exists_eq_add_of_le' (show 2 ≤ r from hr)
    rfl
  obtain ⟨hkept, -, hfinished, hcopies⟩ := produce_copies nestedHeap 0 nestedProducer (.copy 0) d
    nestedHeap_closed (show 0 < 2 by decide) hfresh hrun
  exact ⟨_, d, hrun, hkept, rfl, hcopies 0 hfinished⟩

end HanabiBot.Drafting
