import Mathlib

/-!
# Updating one entry of a family

Facts about families `f : α → β` read along a duplicate-free list, when one
entry is replaced: what happens to the concatenation of a family of lists, and
to the sum of a family of numbers.
-/

namespace Counting

variable {α β : Type*} [DecidableEq α]

theorem flatMap_update_of_notMem {l : List α} {a : α} (h : a ∉ l) (f : α → List β) (x : List β) :
    l.flatMap (Function.update f a x) = l.flatMap f := by
  refine List.flatMap_congr fun b hb => ?_
  have hba : b ≠ a := by rintro rfl; exact h hb
  rw [Function.update_of_ne hba]

/-- Reading a family of lists along `l`, the entry at `a` can be brought to the front. -/
theorem flatMap_perm {l : List α} {a : α} (h : a ∈ l) (f : α → List β) :
    (l.flatMap f).Perm (f a ++ (l.erase a).flatMap f) := by
  have := (List.perm_cons_erase h).flatMap_right f
  rwa [List.flatMap_cons] at this

/-- Replacing the entry at `a` replaces it in the concatenation. -/
theorem flatMap_update_perm {l : List α} {a : α} (h : a ∈ l) (hn : l.Nodup) (f : α → List β)
    (x : List β) :
    (l.flatMap (Function.update f a x)).Perm (x ++ (l.erase a).flatMap f) := by
  have h1 := flatMap_perm h (Function.update f a x)
  rwa [Function.update_self, flatMap_update_of_notMem (hn.not_mem_erase)] at h1

/-- Adding to one entry adds to the sum. -/
theorem sum_map_update {l : List α} {a : α} (h : a ∈ l) (hn : l.Nodup) (f : α → ℕ) (k : ℕ) :
    (l.map (Function.update f a (f a + k))).sum = (l.map f).sum + k := by
  have h1 := ((List.perm_cons_erase h).map (Function.update f a (f a + k))).sum_eq
  have h2 := ((List.perm_cons_erase h).map f).sum_eq
  have h3 : (l.erase a).map (Function.update f a (f a + k)) = (l.erase a).map f := by
    refine List.map_congr_left fun b hb => ?_
    have hba : b ≠ a := by rintro rfl; exact hn.not_mem_erase hb
    rw [Function.update_of_ne hba]
  rw [List.map_cons, List.sum_cons, Function.update_self, h3] at h1
  rw [List.map_cons, List.sum_cons] at h2
  omega

/-- The same for a sum over a finite set. -/
theorem sum_update {s : Finset α} {a : α} (h : a ∈ s) (f : α → ℕ) (x : ℕ) :
    (∑ b ∈ s, Function.update f a x b) + f a = (∑ b ∈ s, f b) + x := by
  rw [Finset.sum_update_of_mem h, ← Finset.sum_sdiff (Finset.singleton_subset_iff.2 h),
    Finset.sum_singleton]
  omega

/-- Going once around a circle of `n` places, from any start, meets each place once. -/
theorem map_add_mod_perm (n p : ℕ) :
    ((List.range n).map fun i => (p + i) % n).Perm (List.range n) := by
  rcases Nat.eq_zero_or_pos n with rfl | hn
  · simp
  refine (List.perm_ext_iff_of_nodup ?_ List.nodup_range).2 fun q => ?_
  · refine List.Nodup.map_on (fun i hi j hj hij => ?_) List.nodup_range
    rw [List.mem_range] at hi hj
    have hmod : i % n = j % n := Nat.ModEq.add_left_cancel' p hij
    rwa [Nat.mod_eq_of_lt hi, Nat.mod_eq_of_lt hj] at hmod
  · simp only [List.mem_map, List.mem_range]
    constructor
    · rintro ⟨i, -, rfl⟩
      exact Nat.mod_lt _ hn
    · intro hq
      -- the place is met after going on by its distance from the start
      refine ⟨(q + (n - p % n)) % n, Nat.mod_lt _ hn, ?_⟩
      have hp := Nat.mod_lt p hn
      have hround : p + (q + (n - p % n)) = q + n * (p / n + 1) := by
        have hdiv := Nat.mod_add_div p n
        have hmul : n * (p / n + 1) = n * (p / n) + n := by ring
        omega
      rw [Nat.add_mod_mod, hround, Nat.add_mul_mod_self_left, Nat.mod_eq_of_lt hq]

/-- Of the places met within one round, as many have a property as there are at most. -/
theorem countP_add_mod_le {n e : ℕ} (he : e ≤ n) (p : ℕ) (P : ℕ → Bool) :
    (List.range e).countP (fun i => P ((p + i) % n)) ≤ (List.range n).countP P := by
  rw [← (map_add_mod_perm n p).countP_eq, List.countP_map]
  exact (List.range_sublist.2 he).countP_le

/-- Going on from a place `p`: of the places still ahead, no more have a property
than there were, and one less if `p` had it. -/
theorem countP_add_mod_succ {n p e : ℕ} (hp : p < n) {P P' : ℕ → Bool}
    (h : ∀ q < n, P' q = true → P q = true) :
    (List.range e).countP (fun i => P' (((p + 1) % n + i) % n)) + (if P p = true then 1 else 0) ≤
      (List.range (e + 1)).countP fun i => P ((p + i) % n) := by
  have hfirst : (p + 0) % n = p := Nat.mod_eq_of_lt hp
  rw [List.range_succ_eq_map, List.countP_cons, List.countP_map, hfirst]
  refine Nat.add_le_add_right (List.countP_mono_left fun i _ hi => ?_) _
  have hplace : ((p + 1) % n + i) % n = (p + i.succ) % n := by
    rw [Nat.mod_add_mod, Nat.add_right_comm]; rfl
  rw [hplace] at hi
  exact h _ (Nat.mod_lt _ (by omega)) hi

/-- Counting by value: each element that has one counts once. -/
theorem sum_countP_some {γ : Type*} {values : List α} (hnodup : values.Nodup) {l : List γ}
    {f : γ → Option α} (h : ∀ c ∈ l, ∀ a, f c = some a → a ∈ values) :
    (values.map fun a => l.countP fun c => f c == some a).sum = l.countP fun c => (f c).isSome := by
  induction l with
  | nil => simp
  | cons c l ih =>
    have hone : (values.map fun a => if f c == some a then 1 else 0).sum =
        if (f c).isSome then 1 else 0 := by
      cases hc : f c with
      | none => simp
      | some b =>
        have hsum : ∀ values : List α,
            (values.map fun a => if some b == some a then 1 else 0).sum = values.count b := by
          intro values
          induction values with
          | nil => rfl
          | cons a values ih =>
            rw [List.map_cons, List.sum_cons, ih, List.count_cons, Nat.add_comm]
            by_cases hab : a = b
            · simp [hab]
            · simp [hab, Ne.symm hab]
        rw [hsum, List.count_eq_one_of_mem hnodup (h c List.mem_cons_self b hc)]
        rfl
    simp only [List.countP_cons, List.sum_map_add, hone,
      ih fun d hd => h d (List.mem_cons_of_mem c hd)]

/-- The elements with a label in a list are counted label by label. -/
theorem countP_mem_eq_sum {γ : Type*} {labels : List α} (hnodup : labels.Nodup) (l : List γ)
    (label : γ → α) :
    (l.countP fun c => label c ∈ labels) = (labels.map fun a => l.countP fun c => label c = a).sum := by
  induction labels with
  | nil => simp
  | cons a labels ih =>
    obtain ⟨ha, hlabels⟩ := List.nodup_cons.1 hnodup
    rw [List.map_cons, List.sum_cons, ← ih hlabels]
    clear ih
    induction l with
    | nil => rfl
    | cons c l ihl =>
      have hboth : ¬ (label c = a ∧ label c ∈ labels) := fun h => ha (h.1 ▸ h.2)
      simp only [List.mem_cons] at ihl
      simp only [List.countP_cons, List.mem_cons, ihl, decide_eq_true_eq]
      by_cases hc : label c = a
      · have hnot : label c ∉ labels := fun h => hboth ⟨hc, h⟩
        simp only [hc, true_or, if_true, hc ▸ hnot, if_false]
        omega
      · simp only [hc, false_or, if_false]
        omega

/-- Each label has a limited number of elements.  Elements that fill up what the labels of a list
allow are all the elements that have one of these labels. -/
theorem mem_of_filled {γ : Type*} [DecidableEq γ] {cards found : List γ} {label : γ → α}
    {labels : List α} {capacity : α → ℕ} (hlabels : labels.Nodup)
    (hfits : ∀ a ∈ labels, (cards.countP fun c => label c = a) ≤ capacity a)
    (hfound : found.Nodup) (hsub : ∀ c ∈ found, c ∈ cards ∧ label c ∈ labels)
    (hfull : (labels.map capacity).sum ≤ found.length) {c : γ} (hc : c ∈ cards)
    (hlabel : label c ∈ labels) : c ∈ found := by
  set having := cards.filter fun c => label c ∈ labels with hhaving
  have hlen : having.length ≤ found.length := by
    rw [hhaving, ← List.countP_eq_length_filter, countP_mem_eq_sum hlabels]
    exact (List.sum_le_sum hfits).trans hfull
  have hsubset : found ⊆ having := fun d hd => by
    obtain ⟨hcard, hlab⟩ := hsub d hd
    exact List.mem_filter.2 ⟨hcard, by simpa using hlab⟩
  have hperm := (hfound.subperm hsubset).perm_of_length_le hlen
  exact hperm.mem_iff.2 (List.mem_filter.2 ⟨hc, by simpa using hlabel⟩)

omit [DecidableEq α] in
/-- Truncated differences sum to the difference of the sums exactly if none is truncated. -/
theorem sum_tsub_eq_iff {l : List α} (c d : α → ℕ) :
    ((l.map fun a => c a - d a).sum : ℤ) = (l.map c).sum - (l.map d).sum ↔ ∀ a ∈ l, d a ≤ c a := by
  have hge : ∀ l : List α, (l.map c).sum ≤ (l.map fun a => c a - d a).sum + (l.map d).sum := by
    intro l
    induction l with
    | nil => simp
    | cons a l ih =>
      simp only [List.map_cons, List.sum_cons]
      omega
  induction l with
  | nil => simp
  | cons a l ih =>
    have hl := hge l
    simp only [List.map_cons, List.sum_cons, List.forall_mem_cons, ← ih, Nat.cast_add]
    constructor
    · intro heq
      constructor <;> omega
    · rintro ⟨hle, heq⟩
      omega

end Counting
