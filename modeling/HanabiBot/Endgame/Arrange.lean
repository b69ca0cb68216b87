import HanabiBot.Endgame.Contract

/-!
# The arrangements

`expand_arr` assigns to our unknown cards, one after the other, the identities that
are left.  `Feasible` says which assignments it arrives at, without the rounds of
the loop: each identity is assigned no more often than copies are missing, and
each card may have the identity assigned to it.

* `mem_expansions_iff` — the arrangements are the feasible assignments;
* `sum_normalize` — their probabilities sum to 1.
-/

namespace HanabiBot.Endgame

variable {κ : Type} {t : Table κ} {rem : RemainingSet}

/-! ## The loop without errors -/

/-- An arrangement with one more identity. -/
def Arrangement.extend (arr : Arrangement) (r : Remaining) : Arrangement where
  ids := arr.ids ++ [r.id]
  prob := (arr.prob.multiply (.ofInt r.missing)).divide (.ofInt (totalMissing arr.newRemaining))
  newRemaining := (removeRemaining arr.newRemaining r.id).getD []

/-- The results of `expand_arr`. -/
def extensions (t : Table κ) (arr : Arrangement) : List Arrangement :=
  (arr.newRemaining.filter fun r =>
    assignable t arr.ids (t.unknownOwn.getD arr.ids.length 0) r.id).map arr.extend

/-- The arrangements after `n` rounds. -/
def expansions (t : Table κ) (rem : RemainingSet) : ℕ → List Arrangement
  | 0 => [⟨[], 1, rem⟩]
  | n + 1 => (expansions t rem n).flatMap (extensions t)

/-- The arrangements with their probabilities divided by the sum. -/
def normalize (arrs : List Arrangement) : List Arrangement :=
  arrs.map fun arr => { arr with prob := arr.prob.divide (sumProb arrs) }

theorem expandArr_eq (t : Table κ) (arr : Arrangement) : expandArr t arr = pure (extensions t arr) := by
  rw [expandArr]
  refine Prog.mapM_eq_pure fun r hr => ?_
  obtain ⟨rem', hrem⟩ := removeRemaining_of_mem (List.mem_filter.1 hr).1
  rw [hrem, Arrangement.extend, hrem]
  rfl

theorem expandAll_eq (t : Table κ) (rem : RemainingSet) (n m : ℕ) :
    expandAll t n (expansions t rem m) = pure (expansions t rem (m + n)) := by
  induction n generalizing m with
  | zero => rfl
  | succ n ih =>
    rw [expandAll, Prog.mapM_eq_pure fun arr _ => expandArr_eq t arr, pure_bind,
      ← List.flatMap_def]
    have := ih (m + 1)
    rw [expansions] at this
    rw [this, Nat.add_right_comm, Nat.add_assoc]

/-- The arrangements are normalized, if all cards are accounted for. -/
theorem arrange_eq (t : Table κ) (rem : RemainingSet) :
    arrange t rem =
      if (expansions t rem t.unknownOwn.length).any fun arr =>
        (totalMissing arr.newRemaining : ℤ) != t.state.cardsLeft then throw .assertion
      else pure (normalize (expansions t rem t.unknownOwn.length)) := by
  have h := expandAll_eq t rem t.unknownOwn.length 0
  rw [expansions, Nat.zero_add] at h
  rw [arrange, h, pure_bind]
  rfl

/-! ## What an arrangement holds -/

/-- The number of missing copies of an identity. -/
def missingOf (rem : RemainingSet) (id : Identity) : ℕ :=
  totalMissing (rem.filter fun r => r.id = id)

theorem removeRemaining_missingOf {rem' : RemainingSet} {id : Identity}
    (h : removeRemaining rem id = some rem') (hpos : ∀ r ∈ rem, 0 < r.missing) (id' : Identity) :
    missingOf rem' id' + (if id = id' then 1 else 0) = missingOf rem id' := by
  induction rem generalizing rem' with
  | nil => cases h
  | cons r rem ih =>
    have hr := hpos r List.mem_cons_self
    rw [removeRemaining] at h
    split at h
    · rename_i hid
      cases h
      subst hid
      by_cases h' : r.id = id'
      · split
        · rename_i h1
          simp [missingOf, totalMissing, h', h1, Nat.add_comm]
        · simp only [missingOf, totalMissing, h', List.filter_cons, decide_true, if_true,
            List.map_cons, List.sum_cons]
          omega
      · split <;> simp [missingOf, totalMissing, h']
    · obtain ⟨rem'', hrem, rfl⟩ := Option.map_eq_some_iff.1 h
      have := ih hrem fun x hx => hpos x (List.mem_cons_of_mem r hx)
      by_cases h' : r.id = id'
      · simp only [missingOf, totalMissing, h', List.filter_cons, decide_true, if_true,
          List.map_cons, List.sum_cons] at this ⊢
        omega
      · simpa only [missingOf, totalMissing, h', List.filter_cons, decide_false,
          Bool.false_eq_true, if_false] using this

/-- What is known of an arrangement after `n` rounds. -/
structure Expanded (rem : RemainingSet) (n : ℕ) (arr : Arrangement) : Prop where
  length_eq : arr.ids.length = n
  missing_pos : ∀ r ∈ arr.newRemaining, 0 < r.missing
  total_eq : totalMissing arr.newRemaining + n = totalMissing rem
  missing_eq : ∀ id, missingOf arr.newRemaining id + arr.ids.count id = missingOf rem id
  prob_pos : arr.prob.Pos
  value_pos : 0 < arr.prob.value

theorem expanded_of_mem (hpos : ∀ r ∈ rem, 0 < r.missing) {n : ℕ} {arr : Arrangement}
    (h : arr ∈ expansions t rem n) : Expanded rem n arr := by
  induction n generalizing arr with
  | zero =>
    rw [List.mem_singleton.1 h]
    exact ⟨rfl, hpos, rfl, fun _ => rfl, Fraction.pos_one, by simp⟩
  | succ n ih =>
    obtain ⟨prev, hprev, hext⟩ := List.mem_flatMap.1 h
    obtain ⟨r, hr, rfl⟩ := List.mem_map.1 hext
    have hp := ih hprev
    have hmem := (List.mem_filter.1 hr).1
    obtain ⟨rem', hrem⟩ := removeRemaining_of_mem hmem
    obtain ⟨hpos', htotal⟩ := removeRemaining_counted hrem hp.missing_pos
    have hmissing : (0 : ℤ) < r.missing := by exact_mod_cast hp.missing_pos r hmem
    have hsum : (0 : ℤ) < totalMissing prev.newRemaining := by
      have := htotal
      omega
    have hnew : (prev.extend r).newRemaining = rem' := by rw [Arrangement.extend, hrem]; rfl
    have hmul := hp.prob_pos.multiply (Fraction.pos_ofInt r.missing)
    refine
      { length_eq := by simp [Arrangement.extend, hp.length_eq]
        missing_pos := hnew ▸ hpos'
        total_eq := by
          have := hp.total_eq
          rw [hnew]
          omega
        missing_eq := fun id => ?_
        prob_pos := hmul.divide hsum
        value_pos := ?_ }
    · have h1 := hp.missing_eq id
      have h2 := removeRemaining_missingOf hrem hp.missing_pos id
      rw [hnew]
      simp only [Arrangement.extend, List.count_append, List.count_singleton, beq_iff_eq]
      omega
    · have hmq : (0 : ℚ) < r.missing := by exact_mod_cast hmissing
      have hsq : (0 : ℚ) < totalMissing prev.newRemaining := by exact_mod_cast hsum
      have hvalue := hp.value_pos
      simp only [Arrangement.extend]
      rw [Fraction.value_divide hmul hsum, Fraction.value_multiply hp.prob_pos (Fraction.pos_ofInt _)]
      simp only [Fraction.value_ofInt, Int.cast_natCast]
      positivity

/-- If the missing copies are those of the deck and our unknown cards, all cards are accounted
for. -/
theorem arrange_of_total (hpos : ∀ r ∈ rem, 0 < r.missing)
    (htotal : (totalMissing rem : ℤ) = t.state.cardsLeft + t.unknownOwn.length) :
    arrange t rem = pure (normalize (expansions t rem t.unknownOwn.length)) := by
  rw [arrange_eq, if_neg]
  intro hany
  obtain ⟨arr, hmem, hbad⟩ := List.any_eq_true.1 hany
  have hsum := (expanded_of_mem hpos hmem).total_eq
  rw [bne_iff_ne] at hbad
  omega

/-! ## Feasible assignments -/

/-- The first cards may have the identities assigned to them, of which there are enough. -/
structure FeasibleUpTo (t : Table κ) (rem : RemainingSet) (n : ℕ) (ids : List Identity) : Prop where
  length_eq : ids.length = n
  enough : ∀ id, ids.count id ≤ missingOf rem id
  assignable : ∀ i (h : i < ids.length),
    assignable t (ids.take i) (t.unknownOwn.getD i 0) ids[i] = true

/-- Our unknown cards may have the identities assigned to them, of which there are enough. -/
def Feasible (t : Table κ) (rem : RemainingSet) (ids : List Identity) : Prop :=
  FeasibleUpTo t rem t.unknownOwn.length ids

theorem exists_mem_of_missingOf_pos {id : Identity} (h : 0 < missingOf rem id) :
    ∃ r ∈ rem, r.id = id := by
  by_contra hno
  have : rem.filter (fun r => r.id = id) = [] := by
    rw [List.filter_eq_nil_iff]
    intro r hr hid
    exact hno ⟨r, hr, by simpa using hid⟩
  rw [missingOf, this] at h
  cases h

/-- The arrangements are the feasible assignments. -/
theorem mem_expansions_iff (hpos : ∀ r ∈ rem, 0 < r.missing) {n : ℕ} {ids : List Identity} :
    (∃ arr ∈ expansions t rem n, arr.ids = ids) ↔ FeasibleUpTo t rem n ids := by
  induction n generalizing ids with
  | zero =>
    constructor
    · rintro ⟨arr, harr, rfl⟩
      rw [List.mem_singleton.1 harr]
      exact ⟨rfl, by simp, by simp⟩
    · rintro ⟨h, -, -⟩
      exact ⟨_, List.mem_singleton_self _, (List.length_eq_zero_iff.1 h).symm⟩
  | succ n ih =>
    constructor
    · rintro ⟨arr, harr, rfl⟩
      have hexp := expanded_of_mem hpos harr
      refine ⟨hexp.length_eq, fun id => by have := hexp.missing_eq id; omega, ?_⟩
      obtain ⟨prev, hprev, hext⟩ := List.mem_flatMap.1 harr
      obtain ⟨r, hr, rfl⟩ := List.mem_map.1 hext
      have hfeas := ih.1 ⟨prev, hprev, rfl⟩
      intro i hi
      simp only [Arrangement.extend, List.length_append, List.length_singleton] at hi ⊢
      by_cases hlt : i < prev.ids.length
      · rw [List.take_append_of_le_length hlt.le, List.getElem_append_left hlt]
        exact hfeas.assignable i hlt
      · obtain rfl : i = prev.ids.length := by omega
        rw [List.take_left' rfl, List.getElem_concat_length rfl]
        rw [hfeas.length_eq] at *
        exact (List.mem_filter.1 hr).2
    · intro h
      obtain ⟨init, id, rfl⟩ : ∃ init id, ids = init ++ [id] :=
        ⟨ids.dropLast, ids.getLast (by rintro rfl; have := h.length_eq; simp at this),
          (List.dropLast_append_getLast _).symm⟩
      have hlen : init.length = n := by simpa using h.length_eq
      have hinit : FeasibleUpTo t rem n init := by
        refine ⟨hlen, fun x => ?_, fun i hi => ?_⟩
        · have hx := h.enough x
          rw [List.count_append] at hx
          exact le_trans (Nat.le_add_right _ _) hx
        · have hassign := h.assignable i (by simp; omega)
          rwa [List.take_append_of_le_length hi.le, List.getElem_append_left hi] at hassign
      obtain ⟨prev, hprev, rfl⟩ := ih.2 hinit
      have hexp := expanded_of_mem hpos hprev
      have hcount := h.enough id
      rw [List.count_append, List.count_singleton_self] at hcount
      have h1 := hexp.missing_eq id
      obtain ⟨r, hr, rfl⟩ := @exists_mem_of_missingOf_pos prev.newRemaining id (by omega)
      refine ⟨prev.extend r, List.mem_flatMap.2 ⟨prev, hprev, List.mem_map.2 ⟨r, ?_, rfl⟩⟩, rfl⟩
      have hlast := h.assignable prev.ids.length (by simp)
      rw [List.take_left' rfl, List.getElem_concat_length rfl] at hlast
      exact List.mem_filter.2 ⟨hr, hlast⟩

/-! ## Probabilities -/

theorem sumProb_spec {arrs : List Arrangement} (h : ∀ arr ∈ arrs, arr.prob.Pos) :
    (sumProb arrs).Pos ∧ (sumProb arrs).value = (arrs.map fun arr => arr.prob.value).sum := by
  have hfold : ∀ (l : List Arrangement) (a : Fraction), a.Pos → (∀ arr ∈ l, arr.prob.Pos) →
      (l.foldl (fun a c => a.plus c.prob) a).Pos ∧
        (l.foldl (fun a c => a.plus c.prob) a).value =
          a.value + (l.map fun arr => arr.prob.value).sum := by
    intro l
    induction l with
    | nil => exact fun a ha _ => ⟨ha, by simp⟩
    | cons arr l ih =>
      intro a ha hl
      have harr := hl arr List.mem_cons_self
      obtain ⟨h1, h2⟩ := ih (a.plus arr.prob) (ha.plus harr)
        fun x hx => hl x (List.mem_cons_of_mem arr hx)
      refine ⟨h1, ?_⟩
      rw [List.foldl_cons, h2, Fraction.value_plus ha harr, List.map_cons, List.sum_cons, add_assoc]
  obtain ⟨h1, h2⟩ := hfold arrs 0 Fraction.pos_zero h
  exact ⟨h1, by rw [sumProb, h2, Fraction.value_zero, zero_add]⟩

/-- The probability of an arrangement is a positive fraction. -/
def Weighted (arr : Arrangement) : Prop := arr.prob.Pos ∧ 0 < arr.prob.value

theorem sum_value_pos {arrs : List Arrangement} (h : ∀ arr ∈ arrs, Weighted arr) (hne : arrs ≠ []) :
    0 < (arrs.map fun arr => arr.prob.value).sum := by
  refine List.sum_pos _ (fun q hq => ?_) (by simpa using hne)
  obtain ⟨arr, harr, rfl⟩ := List.mem_map.1 hq
  exact (h arr harr).2

/-- Dividing by the sum makes the probabilities sum to 1. -/
theorem sum_normalize {arrs : List Arrangement} (h : ∀ arr ∈ arrs, Weighted arr) (hne : arrs ≠ []) :
    (∀ arr ∈ normalize arrs, Weighted arr) ∧
      ((normalize arrs).map fun arr => arr.prob.value).sum = 1 := by
  obtain ⟨hpos, hval⟩ := sumProb_spec fun arr harr => (h arr harr).1
  have hsum := sum_value_pos h hne
  have hnum : 0 < (sumProb arrs).numerator := (Fraction.numerator_pos_iff hpos).2 (hval ▸ hsum)
  constructor
  · intro arr harr
    obtain ⟨arr', harr', rfl⟩ := List.mem_map.1 harr
    obtain ⟨h1, h2⟩ := h arr' harr'
    refine ⟨h1.divide hnum, ?_⟩
    dsimp only
    rw [Fraction.value_divide h1 hnum, hval]
    exact div_pos h2 hsum
  · have hmap : (normalize arrs).map (fun arr => arr.prob.value) =
        arrs.map fun arr => arr.prob.value * (arrs.map fun arr => arr.prob.value).sum⁻¹ := by
      rw [normalize, List.map_map]
      refine List.map_congr_left fun arr harr => ?_
      simp only [Function.comp_apply]
      rw [Fraction.value_divide (h arr harr).1 hnum, hval, div_eq_mul_inv]
    rw [hmap, List.sum_map_mul_right, mul_inv_cancel₀ hsum.ne']

end HanabiBot.Endgame
