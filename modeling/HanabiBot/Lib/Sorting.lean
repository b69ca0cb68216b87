import Mathlib

/-!
# Stable sorting with a comparator

`List.mergeSort` with the comparator of a program.  A comparator need not say
anything sensible about a thing and itself, as a sort never compares the two
(`mergeSort_congr`), and it often only spells out an order of keys (`keyLE`).
As the sort is stable, sorting and filtering commute (`filter_mergeSort`): in the
sorted list of more things, the place of one of them moves by those of the others
that come before it (`idxOf_mergeSort`).
-/

namespace Sorting

variable {α κ : Type*}

open List

/-! ## The comparator -/

theorem merge_congr {r s : α → α → Bool} :
    ∀ {l l' : List α}, (∀ a ∈ l, ∀ b ∈ l', r a b = s a b) → l.merge l' r = l.merge l' s
  | [], _, _ => by simp
  | _ :: _, [], _ => by simp
  | a :: l, b :: l', h => by
    have hab : r a b = s a b := h a mem_cons_self b mem_cons_self
    rw [cons_merge_cons, cons_merge_cons, hab,
      merge_congr fun x hx => h x (mem_cons_of_mem a hx),
      merge_congr fun x hx y hy => h x hx y (mem_cons_of_mem b hy)]

/-- What a comparator says about a thing and itself does not matter. -/
theorem mergeSort_congr {r s : α → α → Bool} :
    ∀ {l : List α}, l.Nodup → (∀ a ∈ l, ∀ b ∈ l, a ≠ b → r a b = s a b) →
      l.mergeSort r = l.mergeSort s
  | [], _, _ => by simp
  | [x], _, _ => by simp
  | a :: b :: l, hl, h => by
    have htake : ∀ {n x}, x ∈ (a :: b :: l).take n → x ∈ a :: b :: l := mem_of_mem_take
    have hdrop : ∀ {n x}, x ∈ (a :: b :: l).drop n → x ∈ a :: b :: l := mem_of_mem_drop
    simp only [mergeSort, MergeSort.Internal.splitInTwo_fst, MergeSort.Internal.splitInTwo_snd]
    rw [mergeSort_congr (hl.sublist (take_sublist _ _)) fun x hx y hy => h x (htake hx) y (htake hy),
      mergeSort_congr (hl.sublist (drop_sublist _ _)) fun x hx y hy => h x (hdrop hx) y (hdrop hy)]
    -- a thing of the first half is no thing of the second
    refine merge_congr fun x hx y hy => ?_
    rw [mem_mergeSort] at hx hy
    refine h x (htake hx) y (hdrop hy) ?_
    rintro rfl
    exact disjoint_take_drop hl le_rfl hx hy
  termination_by l => l.length

section Key

variable [LinearOrder κ] (key : α → κ)

/-- The comparator of an order of keys. -/
def keyLE (a b : α) : Bool := decide (key a ≤ key b)

theorem keyLE_trans (a b c : α) (hab : keyLE key a b = true) (hbc : keyLE key b c = true) :
    keyLE key a c = true := by
  simp only [keyLE, decide_eq_true_eq] at *
  exact hab.trans hbc

theorem keyLE_total (a b : α) : (keyLE key a b || keyLE key b a) = true := by
  simp only [keyLE, Bool.or_eq_true, decide_eq_true_eq]
  exact le_total _ _

theorem pairwise_keyLE (l : List α) :
    (l.mergeSort (keyLE key)).Pairwise fun a b => key a ≤ key b :=
  (pairwise_mergeSort (keyLE_trans key) (keyLE_total key) l).imp of_decide_eq_true

/-- In whatever order the things are given, their keys are sorted to the same list. -/
theorem map_key_mergeSort {l l' : List α} (h : l ~ l') :
    (l.mergeSort (keyLE key)).map key = (l'.mergeSort (keyLE key)).map key := by
  have hsorted : ∀ l : List α, ((l.mergeSort (keyLE key)).map key).Pairwise (· ≤ ·) :=
    fun l => pairwise_map.2 (pairwise_keyLE key l)
  refine Perm.eq_of_pairwise (fun a b _ _ hab hba => le_antisymm hab hba) (hsorted l)
    (hsorted l') (Perm.map key ?_)
  exact (mergeSort_perm l _).trans (h.trans (mergeSort_perm l' _).symm)

end Key

/-! ## Sorting some of the things -/

section Filter

variable {le : α → α → Bool} (trans : ∀ a b c, le a b = true → le b c = true → le a c = true)
  (total : ∀ a b, (le a b || le b a) = true)
include trans total

/-- In a sorted list, a thing parts those it is not before from those it is. -/
theorem prefix_of_sorted {a : α} {l l₁ l₂ : List α} (hl : l.mergeSort le = l₁ ++ a :: l₂)
    (hpre : ∀ b ∈ l₁, (!le a b) = true) : (l₁ ++ l₂).filter (fun b => !le a b) = l₁ := by
  have hsorted := pairwise_mergeSort trans total l
  rw [hl, pairwise_append, pairwise_cons] at hsorted
  rw [filter_append, filter_eq_self.2 hpre, filter_eq_nil_iff.2, append_nil]
  intro b hb
  simp [hsorted.2.1.1 b hb]

/-- Sorting and filtering commute. -/
theorem filter_mergeSort (p : α → Bool) (l : List α) :
    (l.mergeSort le).filter p = (l.filter p).mergeSort le := by
  induction l with
  | nil => simp
  | cons a l ih =>
    obtain ⟨l₁, l₂, hcons, hl, hpre⟩ := mergeSort_cons trans total a l
    by_cases ha : p a = true
    · obtain ⟨m₁, m₂, hcons', hl', hpre'⟩ := mergeSort_cons trans total a (l.filter p)
      rw [filter_cons_of_pos ha, hcons, hcons', filter_append, filter_cons_of_pos ha]
      have hjoin : l₁.filter p ++ l₂.filter p = m₁ ++ m₂ := by
        rw [← filter_append, ← hl, ih, hl']
      -- both fronts are the things that `a` is not before
      have hfront : l₁.filter p = m₁ := by
        rw [← prefix_of_sorted trans total hcons' hpre', ← hjoin, ← filter_append, filter_filter]
        conv_lhs => rw [← prefix_of_sorted trans total hcons hpre, filter_filter]
        exact filter_congr fun b _ => Bool.and_comm _ _
      rw [hfront] at hjoin ⊢
      rw [append_cancel_left hjoin]
    · rw [filter_cons_of_neg ha, hcons, filter_append, filter_cons_of_neg ha, ← filter_append, ← hl,
        ih]

end Filter

/-! ## The place of a thing -/

section Place

variable [DecidableEq α]

theorem idxOf_filter {p : α → Bool} {a : α} (ha : p a = true) (l : List α) :
    (l.filter p).idxOf a = ((l.takeWhile (· != a)).filter p).length := by
  induction l with
  | nil => simp
  | cons x l ih =>
    by_cases hx : x = a
    · subst hx
      simp [ha]
    · rw [takeWhile_cons_of_pos (by simpa using hx)]
      by_cases hp : p x = true
      · rw [filter_cons_of_pos hp, filter_cons_of_pos hp, idxOf_cons_ne _ hx, ih, length_cons]
      · rw [filter_cons_of_neg hp, filter_cons_of_neg hp, ih]

theorem idxOf_eq_takeWhile (a : α) (l : List α) : l.idxOf a = (l.takeWhile (· != a)).length := by
  simpa using idxOf_filter (p := fun _ => true) rfl l

/-- The things before a thing of a list. -/
theorem mem_takeWhile_ne {a b : α} {l : List α} (hl : l.Nodup) (ha : a ∈ l) :
    b ∈ l.takeWhile (· != a) ↔ [b, a] <+ l := by
  induction l with
  | nil => simp at ha
  | cons x l ih =>
    rw [nodup_cons] at hl
    by_cases hx : x = a
    · subst hx
      rw [takeWhile_cons_of_neg (by simp)]
      refine iff_of_false not_mem_nil fun h => hl.1 ?_
      cases h with
      | cons _ h => exact h.subset (by simp)
      | cons_cons _ h => exact h.subset (by simp)
    · have hal : a ∈ l := (mem_cons.1 ha).resolve_left (Ne.symm hx)
      rw [takeWhile_cons_of_pos (by simpa using hx), mem_cons, ih hl.2 hal]
      constructor
      · rintro (rfl | h)
        · exact (singleton_sublist.2 hal).cons_cons _
        · exact h.cons _
      · intro h
        cases h with
        | cons _ h => exact .inr h
        | cons_cons _ h => exact .inl rfl

/-- Some of the things of a list, in its order, are those of the list that are among them. -/
theorem filter_contains_of_sublist {l l' : List α} (hl : l.Nodup) (h : l' <+ l) :
    l.filter (fun a => l'.contains a) = l' := by
  induction h with
  | slnil => rfl
  | @cons m l a h ih =>
    rw [nodup_cons] at hl
    have ha : a ∉ m := fun ham => hl.1 (h.subset ham)
    rw [filter_cons_of_neg (by simpa using ha), ih hl.2]
  | @cons_cons m l a h ih =>
    rw [nodup_cons] at hl
    rw [filter_cons_of_pos (by simp)]
    refine congrArg (a :: ·) (Eq.trans (filter_congr fun b hb => ?_) (ih hl.2))
    have hne : b ≠ a := by
      rintro rfl
      exact hl.1 hb
    simp [hne]

omit [DecidableEq α] in
/-- Of two things of a list, one is before the other. -/
theorem pair_sublist_or {a b : α} {l : List α} (ha : a ∈ l) (hb : b ∈ l) (hne : b ≠ a) :
    [b, a] <+ l ∨ [a, b] <+ l := by
  induction l with
  | nil => simp at ha
  | cons x l ih =>
    rcases mem_cons.1 ha with rfl | ha'
    · exact .inr ((singleton_sublist.2 ((mem_cons.1 hb).resolve_left hne)).cons_cons _)
    · rcases mem_cons.1 hb with rfl | hb'
      · exact .inl ((singleton_sublist.2 ha').cons_cons _)
      · exact (ih ha' hb').imp (·.cons _) (·.cons _)

theorem not_pair_sublist {a b : α} {l : List α} (hl : l.Nodup) (h : [b, a] <+ l) :
    ¬ [a, b] <+ l := by
  intro h'
  have ha : a ∈ l := h.subset (by simp)
  have hmem := (mem_takeWhile_ne hl (h'.subset (by simp))).2 h'
  have hmem' := (mem_takeWhile_ne hl ha).2 h
  have hlt : ∀ {x y : α}, y ∈ l → x ∈ l.takeWhile (· != y) → l.idxOf x < l.idxOf y := by
    intro x y hy hx
    rw [idxOf_eq_takeWhile y]
    have hpre := takeWhile_prefix (l := l) (· != y)
    rw [← hpre.idxOf_eq_of_mem hx]
    exact idxOf_lt_length_of_mem hx
  have := hlt ha hmem'
  have := hlt (h'.subset (by simp)) hmem
  omega

section Key

variable [LinearOrder κ] {key : α → κ}

/-- What a stable sort puts before a thing. -/
theorem pair_sublist_mergeSort_iff {a b : α} {l : List α} (hl : l.Nodup) (ha : a ∈ l)
    (hb : b ∈ l) :
    [b, a] <+ l.mergeSort (keyLE key) ↔ key b < key a ∨ key b = key a ∧ [b, a] <+ l := by
  have hl' : (l.mergeSort (keyLE key)).Nodup := nodup_mergeSort.2 hl
  have hsorted := pairwise_mergeSort (keyLE_trans key) (keyLE_total key) l
  have hkey : ∀ {x y}, [x, y] <+ l.mergeSort (keyLE key) → key x ≤ key y := fun h =>
    of_decide_eq_true (rel_of_pairwise_cons (hsorted.sublist h) (by simp))
  have hstable : ∀ {x y}, key x ≤ key y → [x, y] <+ l → [x, y] <+ l.mergeSort (keyLE key) :=
    fun h => pair_sublist_mergeSort (keyLE_trans key) (keyLE_total key) (decide_eq_true h)
  constructor
  · intro h
    rcases (hkey h).lt_or_eq with hlt | heq
    · exact .inl hlt
    · refine .inr ⟨heq, ?_⟩
      have hne : b ≠ a := by
        rintro rfl
        exact not_pair_sublist hl' h h
      refine (pair_sublist_or ha hb hne).resolve_right fun h' => ?_
      exact not_pair_sublist hl' h (hstable heq.ge h')
  · rintro (hlt | ⟨heq, h⟩)
    · have hne : b ≠ a := by
        rintro rfl
        exact lt_irrefl _ hlt
      refine (pair_sublist_or (mem_mergeSort.2 ha) (mem_mergeSort.2 hb) hne).resolve_right ?_
      exact fun h' => absurd (hkey h') hlt.not_ge
    · exact hstable heq.le h

/-- The place of a thing among more things: its place among some of them, moved by the others
that are put before it. -/
theorem idxOf_mergeSort {p : α → Bool} {a : α} {l : List α} (hl : l.Nodup) (ha : a ∈ l)
    (hp : p a = true) :
    (l.mergeSort (keyLE key)).idxOf a = ((l.filter p).mergeSort (keyLE key)).idxOf a +
      (l.filter fun b =>
        !p b && decide (key b < key a ∨ key b = key a ∧ [b, a] <+ l)).length := by
  have hl' : (l.mergeSort (keyLE key)).Nodup := nodup_mergeSort.2 hl
  set before := (l.mergeSort (keyLE key)).takeWhile (· != a)
  have hothers : (before.filter fun b => !p b).Perm (l.filter fun b =>
      !p b && decide (key b < key a ∨ key b = key a ∧ [b, a] <+ l)) := by
    refine (perm_ext_iff_of_nodup ((hl'.sublist (takeWhile_sublist _)).filter _)
      (hl.filter _)).2 fun b => ?_
    rw [mem_filter, mem_filter, mem_takeWhile_ne hl' (mem_mergeSort.2 ha),
      Bool.and_eq_true, decide_eq_true_eq]
    constructor
    · rintro ⟨h, hb⟩
      have hbl : b ∈ l := mem_mergeSort.1 (h.subset (by simp))
      exact ⟨hbl, hb, (pair_sublist_mergeSort_iff hl ha hbl).1 h⟩
    · rintro ⟨hbl, hb, h⟩
      exact ⟨(pair_sublist_mergeSort_iff hl ha hbl).2 h, hb⟩
  rw [← filter_mergeSort (keyLE_trans key) (keyLE_total key), idxOf_filter hp, ← hothers.length_eq,
    idxOf_eq_takeWhile]
  exact length_eq_length_filter_add p

end Key

end Place

end Sorting
