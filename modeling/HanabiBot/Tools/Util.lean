import Mathlib

/-!
# List utilities

The list functions of `src/tools/util.js` that the modelled code calls, with
what the proofs need to know about them.
-/

namespace HanabiBot.Utils

variable {α κ : Type*}

/-- `Utils.groupBy`: the groups in the order in which their keys first occur. -/
def groupBy [DecidableEq κ] (arr : List α) (func : α → κ) : List (κ × List α) :=
  (arr.map func).eraseDups.map fun key => (key, arr.filter fun a => func a = key)

/-- `Utils.findIndices`. -/
def findIndices (arr : List α) (testFunc : α → Bool) : List ℕ :=
  (List.range arr.length).filter fun i => arr[i]?.any testFunc

/-- `Utils.maxOn`; a value that is `NaN` is `none`. -/
def maxOn (arr : List α) (valueFunc : α → Option ℚ) (minValue : ℚ) : Option α :=
  (arr.foldl (fun (best : ℚ × Option α) a =>
    match valueFunc a with
    | some curr => if best.1 < curr then (curr, some a) else best
    | none => best) (minValue, none)).2

/-- What `maxOn` finds is worth more than the minimum. -/
theorem value_of_maxOn {arr : List α} {valueFunc : α → Option ℚ} {minValue : ℚ} {a : α}
    (h : maxOn arr valueFunc minValue = some a) :
    a ∈ arr ∧ ∃ curr, valueFunc a = some curr ∧ minValue < curr := by
  let step (best : ℚ × Option α) (a : α) : ℚ × Option α :=
    match valueFunc a with
    | some curr => if best.1 < curr then (curr, some a) else best
    | none => best
  have hrun : ∀ (l : List α) (best : ℚ × Option α), minValue ≤ best.1 →
      (l.foldl step best).2 = some a → best.2 = some a ∨
        (a ∈ l ∧ ∃ curr, valueFunc a = some curr ∧ minValue < curr) := by
    intro l
    induction l with
    | nil => exact fun best _ h => .inl h
    | cons x l ih =>
      intro best hbest h
      have hlater : ∀ best', minValue ≤ best'.1 → (l.foldl step best').2 = some a →
          best'.2 = some a ∨ (a ∈ x :: l ∧ ∃ curr, valueFunc a = some curr ∧ minValue < curr) :=
        fun best' hbest' h => (ih best' hbest' h).imp_right fun ⟨hmem, hval⟩ =>
          ⟨List.mem_cons_of_mem x hmem, hval⟩
      rw [List.foldl_cons] at h
      cases hx : valueFunc x with
      | none =>
        have hstep : step best x = best := by simp only [step, hx]
        exact hlater best hbest (hstep ▸ h)
      | some curr =>
        have hstep : step best x = if best.1 < curr then (curr, some x) else best := by
          simp only [step, hx]
        rw [hstep] at h
        split at h
        · rename_i hlt
          have hmin : minValue < curr := hbest.trans_lt hlt
          refine .inr ((hlater (curr, some x) hmin.le h).elim (fun heq => ?_) id)
          obtain rfl : x = a := Option.some.inj heq
          exact ⟨List.mem_cons_self, curr, hx, hmin⟩
        · exact hlater best hbest h
  exact (hrun arr (minValue, none) le_rfl h).resolve_left (by simp)

theorem nodup_eraseDups [DecidableEq κ] (l : List κ) : l.eraseDups.Nodup := by
  induction hn : l.length using Nat.strong_induction_on generalizing l with
  | _ n ih =>
    cases l with
    | nil => simp
    | cons a l =>
      rw [List.eraseDups_cons, List.nodup_cons, List.mem_eraseDups]
      refine ⟨by simp, ih _ ?_ _ rfl⟩
      have := List.length_filter_le (fun b => !b == a) l
      rw [List.length_cons] at hn
      omega

theorem nodup_keys_groupBy [DecidableEq κ] (arr : List α) (func : α → κ) :
    ((groupBy arr func).map Prod.fst).Nodup := by
  have hkeys : (groupBy arr func).map Prod.fst = (arr.map func).eraseDups := by
    simp [groupBy, Function.comp_def]
  rw [hkeys]
  exact nodup_eraseDups _

theorem mem_groupBy [DecidableEq κ] {arr : List α} {func : α → κ} {x : κ × List α} :
    x ∈ groupBy arr func ↔ (∃ a ∈ arr, func a = x.1) ∧ x.2 = arr.filter fun a => func a = x.1 := by
  obtain ⟨key, group⟩ := x
  simp only [groupBy, List.mem_map, List.mem_eraseDups, Prod.mk.injEq]
  constructor
  · rintro ⟨key', hmem, rfl, rfl⟩
    exact ⟨hmem, rfl⟩
  · rintro ⟨hmem, hgroup⟩
    exact ⟨key, hmem, rfl, hgroup.symm⟩

/-- Summing over the groups sums over the list. -/
theorem sum_groupBy {M : Type*} [AddCommGroup M] [DecidableEq κ] (arr : List α) (func : α → κ) (w : α → M) :
    ((groupBy arr func).map fun group => (group.2.map w).sum).sum = (arr.map w).sum := by
  have hkeys : ∀ keys : List κ, keys.Nodup → ∀ l : List α, (∀ a ∈ l, func a ∈ keys) →
      (keys.map fun key => ((l.filter fun a => func a = key).map w).sum).sum = (l.map w).sum := by
    intro keys hnodup l
    induction l with
    | nil => intro _; simp
    | cons a l ih =>
      intro hl
      have hsplit : ∀ key, (((a :: l).filter fun a => func a = key).map w).sum =
          (if key = func a then w a else 0) + ((l.filter fun a => func a = key).map w).sum := by
        intro key
        by_cases h : func a = key
        · rw [List.filter_cons_of_pos (by simpa using h), if_pos h.symm]
          simp
        · rw [List.filter_cons_of_neg (by simpa using h), if_neg (Ne.symm h), zero_add]
      have hone : (keys.map fun key => if key = func a then w a else 0).sum = w a := by
        rw [List.sum_map_ite_eq keys (fun _ => w a) (fun _ => 0) (func a),
          List.count_eq_one_of_mem hnodup (hl a List.mem_cons_self)]
        simp
      simp only [hsplit]
      rw [List.sum_map_add, hone, ih fun x hx => hl x (List.mem_cons_of_mem a hx), List.map_cons,
        List.sum_cons]
  have h := hkeys (arr.map func).eraseDups (nodup_eraseDups _) arr fun a ha => by
    rw [List.mem_eraseDups]
    exact List.mem_map_of_mem ha
  rw [groupBy, List.map_map]
  exact h

/-- Filtering by each of some keys, one after the other, gives the list back. -/
theorem flatMap_filter_perm [DecidableEq κ] (func : α → κ) {keys : List κ} (hnodup : keys.Nodup)
    (l : List α) (h : ∀ a ∈ l, func a ∈ keys) :
    (keys.flatMap fun key => l.filter fun a => func a = key).Perm l := by
  induction keys generalizing l with
  | nil =>
    have hnil : l = [] := List.eq_nil_iff_forall_not_mem.2 fun a ha => by simpa using h a ha
    rw [hnil, List.flatMap_nil]
  | cons key keys ih =>
    obtain ⟨hkey, hkeys⟩ := List.nodup_cons.1 hnodup
    have hrest : (keys.flatMap fun key' => l.filter fun a => func a = key') =
        keys.flatMap fun key' => (l.filter fun a => ¬ func a = key).filter fun a => func a = key' := by
      refine List.flatMap_congr fun key' hkey' => ?_
      rw [List.filter_filter]
      refine List.filter_congr fun a _ => ?_
      by_cases hfunc : func a = key'
      · have hne : func a ≠ key := by
          rintro rfl
          exact hkey (hfunc ▸ hkey')
        simp [hfunc, hfunc ▸ hne]
      · simp [hfunc]
    rw [List.flatMap_cons, hrest]
    refine ((ih hkeys _ fun a ha => ?_).append_left _).trans ?_
    · obtain ⟨hmem, hne⟩ := List.mem_filter.1 ha
      exact (List.mem_cons.1 (h a hmem)).resolve_left (by simpa using hne)
    · have hsplit := List.filter_append_perm (fun a => decide (func a = key)) l
      simpa using hsplit

/-- The groups have the elements of the list. -/
theorem flatMap_groupBy_perm [DecidableEq κ] (arr : List α) (func : α → κ) :
    ((groupBy arr func).flatMap Prod.snd).Perm arr := by
  rw [groupBy, List.flatMap_map]
  refine flatMap_filter_perm func (nodup_eraseDups _) arr fun a ha => ?_
  rw [List.mem_eraseDups]
  exact List.mem_map_of_mem ha

/-- Only the group of the key counts. -/
theorem sum_groupBy_key [DecidableEq κ] (arr : List α) (func : α → κ) (k : κ) {w : List α → ℕ}
    (hw : w [] = 0) :
    ((groupBy arr func).map fun group => if group.1 = k then w group.2 else 0).sum =
      w (arr.filter fun a => func a = k) := by
  have hkeys : ∀ keys : List κ, keys.Nodup →
      (keys.map fun key => if key = k then w (arr.filter fun a => func a = key) else 0).sum =
        if k ∈ keys then w (arr.filter fun a => func a = k) else 0 := by
    intro keys
    induction keys with
    | nil => simp
    | cons key keys ih =>
      intro hnodup
      obtain ⟨hkey, hrest⟩ := List.nodup_cons.1 hnodup
      rw [List.map_cons, List.sum_cons, ih hrest]
      by_cases h : key = k
      · subst h
        simp [hkey]
      · simp [h, Ne.symm h]
  rw [groupBy, List.map_map]
  refine (hkeys _ (nodup_eraseDups _)).trans ?_
  split
  · rfl
  · rename_i hmem
    rw [List.mem_eraseDups, List.mem_map] at hmem
    have hnil : (arr.filter fun a => func a = k) = [] := by
      rw [List.filter_eq_nil_iff]
      intro a ha hk
      exact hmem ⟨a, ha, by simpa using hk⟩
    rw [hnil, hw]

theorem nodup_findIndices (arr : List α) (testFunc : α → Bool) :
    (findIndices arr testFunc).Nodup := List.nodup_range.filter _

theorem mem_findIndices {arr : List α} {testFunc : α → Bool} {i : ℕ} :
    i ∈ findIndices arr testFunc ↔ ∃ h : i < arr.length, testFunc arr[i] = true := by
  rw [findIndices, List.mem_filter, List.mem_range]
  constructor
  · rintro ⟨h, hi⟩
    exact ⟨h, by simpa [h] using hi⟩
  · rintro ⟨h, hi⟩
    exact ⟨h, by simpa [h] using hi⟩

end HanabiBot.Utils
