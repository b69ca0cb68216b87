import HanabiBot.Drafting.Finalize

/-!
# Replaying the patches of a card

The patches of a card say what has become of it (`Records`): a field that has been modified
has the value of its last patch, and any other is as it was.  Applying them does just that to
another card.  So a card that agrees with the common player's at first, but for what is
private, agrees with it again once the patches have been applied (`replay_mirrors`).
-/

namespace HanabiBot.Drafting

/-! ## What patches say -/

/-- The value of the last patch of a property. -/
def lastOf (k : Key) : List Patch → Option Value
  | [] => none
  | p :: patches => (lastOf k patches).or (if p.path = [k] then some p.value else none)

theorem lastOf_append (k : Key) (ps qs : List Patch) :
    lastOf k (ps ++ qs) = (lastOf k qs).or (lastOf k ps) := by
  induction ps with
  | nil => simp [lastOf]
  | cons p ps ih => rw [List.cons_append, lastOf, ih, lastOf, Option.or_assoc]

/-- Patches that are left out do not matter to the other properties. -/
theorem lastOf_filter {k : Key} {keep : Patch → Bool}
    (hkeep : ∀ p : Patch, p.path = [k] → keep p = true) (ps : List Patch) :
    lastOf k (ps.filter keep) = lastOf k ps := by
  induction ps with
  | nil => rfl
  | cons p ps ih =>
    cases hp : keep p with
    | true => rw [List.filter_cons_of_pos hp, lastOf, ih, lastOf]
    | false =>
      have hne : p.path ≠ [k] := fun h => by simp [hkeep p h] at hp
      rw [List.filter_cons_of_neg (by simp [hp]), ih, lastOf, if_neg hne, Option.or_none]

/-- One patch for each of some properties. -/
theorem lastOf_map {keys : List Key} {mk : Key → Patch} (hpath : ∀ k, (mk k).path = [k])
    (k : Key) : lastOf k (keys.map mk) = if k ∈ keys then some (mk k).value else none := by
  induction keys with
  | nil => rfl
  | cons key keys ih =>
    rw [List.map_cons, lastOf, ih, hpath]
    by_cases hmem : k ∈ keys
    · simp [hmem]
    · by_cases hk : key = k
      · simp [hk, hmem]
      · simp [hk, hmem, Ne.symm hk]

/-- The patches say what has become of a card. -/
structure Records (card card' : Cell) (patches : List Patch) : Prop where
  path : ∀ p ∈ patches, ∃ k, p.path = [k]
  read : ∀ k, card'.read k = (lastOf k patches).getD (card.read k)

namespace Records

variable {card card' card'' : Cell} {ps qs : List Patch}

theorem refl (card : Cell) : Records card card [] := ⟨by simp, fun _ => rfl⟩

theorem append (h : Records card card' ps) (h' : Records card' card'' qs) :
    Records card card'' (ps ++ qs) where
  path p hp := (List.mem_append.1 hp).elim (h.path p) (h'.path p)
  read k := by
    rw [h'.read, h.read, lastOf_append]
    cases lastOf k qs <;> rfl

end Records

/-! ## A producer's patches -/

theorem Cell.read_of_object {c : Cell} (hobject : c.isArray = false) (k : Key) :
    c.read k = (c.own k).getD (.prim (inherited false k)) := by
  rw [Cell.read, if_neg (by simp [hobject]), hobject]

theorem Cell.read_map {f : Value → Value} (hprim : ∀ p, f (.prim p) = .prim p) {c : Cell}
    (hobject : c.isArray = false) (k : Key) : (c.map f).read k = f (c.read k) := by
  rw [Cell.read_of_object hobject, Cell.read_of_object (c := c.map f) hobject]
  show ((c.own k).map f).getD _ = _
  cases c.own k with
  | none => exact (hprim _).symm
  | some v => rfl

theorem Cell.read_put {c : Cell} (hobject : c.isArray = false) (k k' : Key) (v : Value) :
    (c.put k v).read k' = if k' = k then v else c.read k' := by
  rw [Cell.read_of_object (c := c.put k v) hobject, Cell.own_put, Cell.read_of_object hobject]
  split <;> rfl

theorem Value.settle_of_below {next n : ℕ} {v : Value} (h : v.Below n) : v.settle next = v := by
  cases v with
  | prim p => rfl
  | ref r => rfl
  | draft i => exact h.elim
  | copy i => exact h.elim

theorem IsCard.below_read {heap : Heap} {card : Cell} (hcard : IsCard heap card) (k : Key) :
    (card.read k).Below heap.next := by
  obtain ⟨p, hp⟩ | ⟨r, hr, hread⟩ := hcard.read_cases k
  · rw [hp]
    trivial
  · rw [hread]
    exact hr

/-- The root emits one patch for each modified property. -/
theorem generateObjectPatches_eq {heap : Heap} {card : Cell} (hcard : IsCard heap card)
    {d : Drafts} {s : StateProxy} (hbase : s.base = heap.next) (hbaseOf : d.baseOf s = card) :
    ∃ op : Key → PatchOp, d.generateObjectPatches s [] =
      s.modifiedProps.map fun key => { op := op key, path := [key], value := s.copy.read key } := by
  refine ⟨fun key => if card.hasKey key then .replace else .add, ?_⟩
  have hne : ∀ key, (card.read key).strictEq (.ref s.base) = false := by
    intro key
    obtain ⟨p, hp⟩ | ⟨r, hr, hread⟩ := hcard.read_cases key
    · rw [hp]
      rfl
    · rw [hread, hbase]
      simpa [Value.strictEq] using hr.ne
  rw [Drafts.generateObjectPatches, hbaseOf, ← List.filterMap_eq_map]
  refine List.filterMap_congr fun key _ => ?_
  simp [hne key]

/-- What a producer leaves of the objects that existed, and what its patches say. -/
theorem updateThoughts_records {r r' : Recorded} (hcard : IsCard r.heap r.card)
    {func : List CardStep} (h : r.updateThoughts func = some r') :
    r.heap.next ≤ r'.heap.next ∧ (∀ x < r.heap.next, r'.heap.cells x = r.heap.cells x) ∧
      IsCard r'.heap r'.card ∧
      ∃ new, r'.patches = r.patches ++ new ∧ Records r.card r'.card new := by
  obtain ⟨⟨_, _, _⟩, hproduce, h⟩ := Option.bind_eq_some_iff.1 h
  obtain ⟨⟨_, d⟩, hrun, hproduce⟩ := Option.bind_eq_some_iff.1 hproduce
  obtain ⟨⟨result, d'⟩, hfinalize, hproduce⟩ := Option.bind_eq_some_iff.1 hproduce
  obtain ⟨rfl, hrest⟩ := Prod.mk.inj (Option.some.inj hproduce)
  obtain ⟨rfl, rfl⟩ := Prod.mk.inj hrest
  obtain rfl := Option.some.inj h
  have hinv : RootInv r.heap r.card d :=
    (runAll_since hcard _ func _ _ _ ⟨rootInv_start hcard, .refl _⟩ hrun).1
  have hsame := finalize_same _ _ _ _ _ hfinalize
  have hnext : r.heap.next < d'.heap.next := hsame.heap ▸ hinv.next_lt
  have hframe : ∀ x < r.heap.next, d'.commit.cells x = r.heap.cells x := by
    intro x hx
    show (if x < d'.heap.next then d'.heap.cells x else _) = _
    rw [if_pos (hx.trans hnext), hsame.heap, hinv.frame x hx.le]
    exact Function.update_of_ne hx.ne _ _
  have hle : r.heap.next ≤ d'.commit.next := hnext.le.trans (Nat.le_add_right _ _)
  refine ⟨hle, hframe, ?_⟩
  have hprim : ∀ p, (Value.prim p).settle d'.heap.next = .prim p := fun _ => rfl
  cases hmodified : (d.states 0).modified with
  | false =>
    -- an unmodified draft stands for the card, and has no patches
    obtain ⟨-, ⟨-, rfl⟩ | ⟨hmodified', -⟩⟩ := finalize_draft _ _ _ _ _ hfinalize
    · have hnone : d'.rootPatches = [] := by
        rw [Drafts.rootPatches, hsame.modified, hmodified]
        rfl
      refine ⟨⟨hcard.isObject, fun k v hv => ?_⟩, [], ?_, .refl _⟩
      · have hbelow := hcard.below k v hv
        cases v with
        | prim p => trivial
        | ref x => exact Nat.lt_of_lt_of_le hbelow hle
        | draft i => exact hbelow
        | copy i => exact hbelow
      · show r.patches ++ d'.rootPatches.map _ = _
        rw [hnone, List.map_nil]
    · rw [hmodified] at hmodified'
      cases hmodified'
  | true =>
    obtain ⟨rfl, hdone, hobject⟩ := hinv.finalize_root hcard hmodified hfinalize
    refine ⟨⟨hobject, ?_⟩, _, rfl, ?_⟩
    · intro k v hv
      obtain ⟨w, hw, rfl⟩ := Option.map_eq_some_iff.1 hv
      have hfinal := (hdone k).final w hw
      cases w with
      | prim p => trivial
      | ref x =>
        refine Nat.lt_of_lt_of_le hfinal ?_
        rw [← hsame.heap]
        exact Nat.le_add_right _ _
      | draft i => exact hfinal.elim
      | copy i =>
        refine Nat.add_lt_add_left ?_ _
        rw [hsame.count]
        exact hfinal
    · have hbase : (d'.states 0).base = r.heap.next := (hsame.base 0).trans hinv.base
      have hbaseOf : d'.baseOf (d'.states 0) = r.card := by
        rw [Drafts.baseOf, hsame.heap, hsame.base, ← Drafts.baseOf, hinv.baseOf_root]
      obtain ⟨op, hpatches⟩ := generateObjectPatches_eq hcard hbase hbaseOf
      have hroot : d'.rootPatches = d'.generateObjectPatches (d'.states 0) [] := by
        rw [Drafts.rootPatches, hsame.modified, hmodified, Drafts.generatePatches, hsame.isArray,
          hinv.isArray]
        rfl
      rw [hroot, hpatches, List.map_map]
      refine ⟨?_, fun k => ?_⟩
      · rintro p hp
        obtain ⟨k, -, rfl⟩ := List.mem_map.1 hp
        exact ⟨k, rfl⟩
      · show ((d'.states 0).copy.map _).read k = _
        rw [Cell.read_map hprim hobject, lastOf_map fun _ => rfl]
        split
        · rfl
        next hk =>
          -- a property without a patch is as it was
          rw [hsame.modifiedProps] at hk
          rw [Cell.read_of_object hobject, (hdone k).kept hk, ← Cell.read_of_object hcard.isObject,
            Value.settle_of_below (hcard.below_read k)]
          rfl

/-- Recording a producer never fails by itself: it returns whenever the producer does. -/
theorem updateThoughts_isSome {r : Recorded} (hcard : IsCard r.heap r.card)
    {func : List CardStep} {d : Drafts}
    (hrun : CardStep.runAll func (Drafts.start (r.heap.place r.card) r.heap.next) = some ((), d)) :
    (r.updateThoughts func).isSome = true := by
  have hinv : RootInv r.heap r.card d :=
    (runAll_since hcard _ func _ _ _ ⟨rootInv_start hcard, .refl _⟩ hrun).1
  have hwrapped : Wrapped d := runAll_wrapped func _ _ _ (fun _ => rfl) hrun
  have hpending : (pending d).card ≤ d.count := by
    refine (Finset.card_filter_le _ _).trans ?_
    simp
  obtain ⟨v, d', hfinalize⟩ := finalize_returns d.count (.draft 0) d ⟨hwrapped, hinv.fresh, hpending⟩
  rw [Recorded.updateThoughts, produceWithPatches, hrun]
  simp [hfinalize]

/-! ## Applying patches -/

theorem applyPatch_object {h : Heap} {b : ℕ} (hobject : (h.cells b).isArray = false) {p : Patch}
    {k : Key} (hp : p.path = [k]) :
    applyPatch (.ref b) p h = some (.ref b, h.update b ((h.cells b).put k p.value)) := by
  rw [applyPatch, hp]
  show (((h.cells b).write k p.value).map _).bind _ = _
  rw [Cell.write, if_neg (by simp [hobject])]
  rfl

/-- Applying patches writes to one object what they say. -/
theorem applyPatches_records {ps : List Patch} (hpath : ∀ p ∈ ps, ∃ k, p.path = [k]) {h : Heap}
    {b : ℕ} (hobject : (h.cells b).isArray = false) :
    ∃ h', applyPatches (.ref b) ps h = some (.ref b, h') ∧ (h'.cells b).isArray = false ∧
      (∀ x ≠ b, h'.cells x = h.cells x) ∧ Records (h.cells b) (h'.cells b) ps := by
  induction ps generalizing h with
  | nil => exact ⟨h, rfl, hobject, fun _ _ => rfl, .refl _⟩
  | cons p ps ih =>
    obtain ⟨k, hp⟩ := hpath p List.mem_cons_self
    set h₁ := h.update b ((h.cells b).put k p.value) with hh₁
    have hcell : h₁.cells b = (h.cells b).put k p.value := Function.update_self ..
    obtain ⟨h', happly, hobject', hframe, hrecords⟩ :=
      ih (fun q hq => hpath q (List.mem_cons_of_mem p hq)) (h := h₁) (by rw [hcell]; exact hobject)
    refine ⟨h', ?_, hobject', fun x hx => ?_, ?_⟩
    · rw [applyPatches, bind_run, applyPatch_object hobject hp]
      exact happly
    · rw [hframe x hx]
      exact Function.update_of_ne hx _ _
    · have hfirst : Records (h.cells b) (h₁.cells b) [p] := by
        refine ⟨fun q hq => ⟨k, by rw [List.mem_singleton.1 hq, hp]⟩, fun k' => ?_⟩
        rw [hcell, Cell.read_put hobject, lastOf, hp]
        by_cases hk : k' = k
        · simp [hk, lastOf]
        · simp [hk, lastOf, Ne.symm hk]
      exact hfirst.append hrecords

/-! ## Agreement -/

namespace Heap

variable {h h' : Heap}

theorem agreeTo_refl (h : Heap) (n : ℕ) (v : Value) : h.agreeTo n v v := by
  induction n generalizing v with
  | zero => trivial
  | succ n ih =>
    cases v with
    | ref r => exact ⟨rfl, fun k => ih _⟩
    | prim p => rfl
    | draft i => rfl
    | copy i => rfl

theorem Agree.refl (h : Heap) (v : Value) : h.Agree v v := fun n => h.agreeTo_refl n v

/-- What an object reads is a primitive value or an object below the same bound. -/
theorem below_read {n : ℕ} {c : Cell} (hc : c.Below n) (k : Key) : (c.read k).Below n := by
  rw [Cell.read]
  split
  · trivial
  · cases hown : c.own k with
    | none => trivial
    | some v => exact hc k v hown

/-- Objects that are left alone hold the same data. -/
theorem agreeTo_of_frame (hclosed : h.Closed) (hframe : ∀ x < h.next, h'.cells x = h.cells x)
    (n : ℕ) {v w : Value} (hv : v.Below h.next) (hw : w.Below h.next) (hagree : h.agreeTo n v w) :
    h'.agreeTo n v w := by
  induction n generalizing v w with
  | zero => trivial
  | succ n ih =>
    cases v with
    | ref r =>
      cases w with
      | ref s =>
        obtain ⟨hisArray, hread⟩ := hagree
        refine ⟨by rw [hframe r hv, hframe s hw, hisArray], fun k => ?_⟩
        rw [hframe r hv, hframe s hw]
        exact ih (below_read (hclosed r hv) k) (below_read (hclosed s hw) k) (hread k)
      | prim p => exact hagree
      | draft i => exact hagree
      | copy i => exact hagree
    | prim p => exact hagree
    | draft i => exact hagree
    | copy i => exact hagree

end Heap

/-- What some producers leave of the objects that existed, and what all their patches say. -/
theorem record_records {r : Recorded} (hcard : IsCard r.heap r.card)
    {producers : List (List CardStep)} {r' : Recorded}
    (h : producers.foldlM Recorded.updateThoughts r = some r') :
    r.heap.next ≤ r'.heap.next ∧ (∀ x < r.heap.next, r'.heap.cells x = r.heap.cells x) ∧
      IsCard r'.heap r'.card ∧
      ∃ new, r'.patches = r.patches ++ new ∧ Records r.card r'.card new := by
  induction producers generalizing r with
  | nil =>
    obtain rfl := Option.some.inj h
    exact ⟨le_rfl, fun _ _ => rfl, hcard, [], (List.append_nil _).symm, .refl _⟩
  | cons func producers ih =>
    rw [List.foldlM_cons] at h
    obtain ⟨r₁, hfirst, hrest⟩ := Option.bind_eq_some_iff.1 h
    obtain ⟨hle, hframe, hcard₁, new, hnew, hrecords⟩ := updateThoughts_records hcard hfirst
    obtain ⟨hle', hframe', hcard', new', hnew', hrecords'⟩ := ih hcard₁ hrest
    refine ⟨hle.trans hle', fun x hx => ?_, hcard', new ++ new', ?_, hrecords.append hrecords'⟩
    · rw [hframe' x (hx.trans_le hle), hframe x hx]
    · rw [hnew', hnew, List.append_assoc]

theorem CardField.kept_of_not_private {f : CardField} (hf : f.isPrivate = false) (p : Patch)
    (hp : p.path = [f.key]) : (p.path.head? != some CardField.possible.key &&
      p.path.head? != some CardField.inferred.key) = true := by
  rw [hp]
  cases f <;> first | rfl | exact absurd hf (by decide)

/-- A card that agrees with the common player's, but for what is private, agrees with it again
once the patches of its producers have been applied. -/
theorem replay_mirrors (heap : Heap) (hclosed : heap.Closed) (card other : Cell)
    (hcard : IsCard heap card) (hother : IsCard heap other) (producers : List (List CardStep))
    (r : Recorded) (hrun : record heap card producers = some r)
    (hagree : ∀ f : CardField, f.isPrivate = false →
      heap.Agree (card.read f.key) (other.read f.key)) :
    ∃ heap', replay r.heap other r.patches = some heap' ∧ ∀ f : CardField, f.isPrivate = false →
      heap'.Agree (r.card.read f.key) ((heap'.cells r.heap.next).read f.key) := by
  obtain ⟨hle, hframe, hcard', new, hnew, hrecords⟩ := record_records hcard hrun
  rw [List.nil_append] at hnew
  have hcell : (r.heap.place other).cells r.heap.next = other := Function.update_self ..
  have hpath : ∀ p ∈ teamPatches r.patches, ∃ k, p.path = [k] := by
    intro p hp
    exact hrecords.path p (hnew ▸ List.mem_of_mem_filter hp)
  obtain ⟨heap', happly, -, hrest, happlied⟩ := applyPatches_records hpath
    (h := r.heap.place other) (b := r.heap.next) (by rw [hcell]; exact hother.isObject)
  refine ⟨heap', by rw [replay, happly]; rfl, fun f hf => ?_⟩
  have hlast : lastOf f.key (teamPatches r.patches) = lastOf f.key new := by
    rw [hnew, teamPatches, lastOf_filter fun p hp => CardField.kept_of_not_private hf p hp]
  rw [happlied.read, hrecords.read, hlast, hcell]
  cases lastOf f.key new with
  | some v => exact .refl heap' v
  | none =>
    intro n
    refine Heap.agreeTo_of_frame hclosed (fun x hx => ?_) n (hcard.below_read _)
      (hother.below_read _) (hagree f hf n)
    -- the objects that existed at first are all still there
    have hlt : x < r.heap.next := hx.trans_le hle
    rw [hrest x hlt.ne, ← hframe x hx]
    exact Function.update_of_ne hlt.ne _ _

/-! A card that is clued and finessed: its array of clues is pushed to, and the assigned fields
are taken back. -/

/-- The arrays of clues and of reasoning turns of two players, and a clue. -/
def cluedHeap : Heap where
  cells
    | 0 | 2 => Cell.ofArray [.ref 4]
    | 1 | 3 => Cell.ofArray [.prim (.num 1)]
    | _ => Cell.ofObject [(.name "giver", .prim (.num 0)), (.name "value", .prim (.num 3))]
  next := 5

def clued (identity clues reasoning possible : Value) : Cell :=
  Cell.ofObject [(CardField.suitIndex.key, identity), (CardField.rank.key, identity),
    (CardField.order.key, .prim (.num 7)), (CardField.clued.key, .prim (.bool true)),
    (CardField.clues.key, clues), (CardField.reasoningTurn.key, reasoning),
    (CardField.possible.key, possible), (CardField.inferred.key, possible),
    (CardField.status.key, .prim .undefined), (CardField.hidden.key, .prim (.bool false))]

/-- The card as the common player keeps it. -/
def commonClued : Cell := clued (.prim (.num (-1))) (.ref 0) (.ref 1) (.prim (.num 31))

/-- The same card as another player keeps it, who sees it. -/
def otherClued : Cell := clued (.prim (.num 2)) (.ref 2) (.ref 3) (.prim (.num 4))

def finesseClued : List (List CardStep) :=
  [[.push .clues [.new ⟨{ root := .prim (.num 5) }, by simp⟩] rfl, .updateStatus (.str "finessed"),
    .assign .hidden (.new ⟨{ root := .prim (.bool true) }, by simp⟩) (by decide)],
   [.revertStatus, .push .reasoningTurn [.new ⟨{ root := .prim (.num 4) }, by simp⟩] rfl,
    .assign .hidden (.new ⟨{ root := .prim .undefined }, by simp⟩) (by decide)]]

theorem Cell.below_ofObject {n : ℕ} {l : List (Key × Value)} (h : ∀ e ∈ l, e.2.Below n) :
    (Cell.ofObject l).Below n := by
  intro k v hv
  obtain ⟨l₁, l₂, rfl, -⟩ := List.lookup_eq_some_iff.1 hv
  exact h (k, v) (by simp)

theorem Cell.below_ofArray {n : ℕ} {l : List Value} (h : ∀ v ∈ l, v.Below n) :
    (Cell.ofArray l).Below n := by
  intro k v hv
  cases k with
  | idx i => exact h v (List.mem_of_getElem? hv)
  | length => cases hv
  | name s => cases hv

theorem cluedHeap_closed : cluedHeap.Closed := by
  intro r hr
  have hlt : r < 5 := hr
  interval_cases r <;> first | exact Cell.below_ofObject (by simp [Value.Below]) |
    exact Cell.below_ofArray (by simp [Value.Below, cluedHeap])

theorem isCard_clued {identity clues reasoning possible : Value}
    (h : ∀ v ∈ [identity, clues, reasoning, possible], v.Below 5) :
    IsCard cluedHeap (clued identity clues reasoning possible) where
  isObject := rfl
  below := by
    refine Cell.below_ofObject fun e he => ?_
    simp only [List.mem_cons, List.not_mem_nil, or_false] at he
    obtain rfl | rfl | rfl | rfl | rfl | rfl | rfl | rfl | rfl | rfl := he <;>
      first | trivial | exact h _ (by simp)

/-- Objects that are the same hold the same data. -/
theorem Heap.agree_of_cells_eq {h : Heap} {r s : ℕ} (heq : h.cells r = h.cells s) :
    h.Agree (.ref r) (.ref s) := by
  intro n
  cases n with
  | zero => trivial
  | succ n => exact ⟨by rw [heq], fun k => by rw [heq]; exact h.agreeTo_refl n _⟩

theorem commonClued_agree (f : CardField) (hf : f.isPrivate = false) :
    cluedHeap.Agree (commonClued.read f.key) (otherClued.read f.key) := by
  cases f
  case clues => exact Heap.agree_of_cells_eq rfl
  case reasoningTurn => exact Heap.agree_of_cells_eq rfl
  all_goals first | exact absurd hf (by decide) | exact .refl cluedHeap _

theorem replay_mirrors_clued : ∃ r heap', record cluedHeap commonClued finesseClued = some r ∧
    replay r.heap otherClued r.patches = some heap' ∧ ∀ f : CardField, f.isPrivate = false →
      heap'.Agree (r.card.read f.key) ((heap'.cells r.heap.next).read f.key) := by
  have hsome : (record cluedHeap commonClued finesseClued).isSome = true := by decide +kernel
  obtain ⟨r, hr⟩ := Option.isSome_iff_exists.1 hsome
  have hcard : IsCard cluedHeap commonClued := isCard_clued (by simp [Value.Below])
  have hother : IsCard cluedHeap otherClued := isCard_clued (by simp [Value.Below])
  obtain ⟨heap', hreplay, hagree⟩ := replay_mirrors cluedHeap cluedHeap_closed commonClued otherClued
    hcard hother finesseClued r hr commonClued_agree
  exact ⟨r, heap', hr, hreplay, hagree⟩

end HanabiBot.Drafting
