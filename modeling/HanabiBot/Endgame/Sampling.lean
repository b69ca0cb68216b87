import HanabiBot.Endgame.Merge

/-!
# The mass of the sampled arrangements

The `monte_carlo` step groups the arrangements by the positions of trash, keeps at
most three of each group and gives them the probability of the group.  The group
without trash is the list itself: when its turn comes it holds what was pushed before,
and what is selected of it has all of that probability again (`mass_sample`).
-/

namespace HanabiBot.Endgame

variable {κ : Type} {conv : Convention κ} {st : State}

/-! ## Groups -/

/-- The probability of some arrangements. -/
def mass (arrs : List Arrangement) : ℚ := (arrs.map fun arr => arr.prob.value).sum

theorem mass_append (arrs arrs' : List Arrangement) : mass (arrs ++ arrs') = mass arrs + mass arrs' := by
  simp [mass]

theorem trashHash_eq_nil {arr : Arrangement} :
    trashHash st arr = [] ↔ ∀ id ∈ arr.ids, st.isBasicTrash id = false := by
  have hdigits : ∀ n, Nat.toDigits 10 n ≠ [] := fun n => by
    have := @Nat.length_toDigits_pos 10 n
    intro h
    simp [h] at this
  rw [trashHash, List.flatMap_eq_nil_iff]
  constructor
  · intro h id hid
    obtain ⟨i, hi, rfl⟩ := List.mem_iff_getElem.1 hid
    by_contra htrash
    exact hdigits i (h i (Utils.mem_findIndices.2 ⟨hi, by simpa using htrash⟩))
  · intro h i hi
    obtain ⟨hlt, htrash⟩ := Utils.mem_findIndices.1 hi
    rw [h _ (List.getElem_mem hlt)] at htrash
    cases htrash

/-- `Object.values` lists every group once. -/
theorem objectEntries_perm (groups : List (List Char × List Arrangement)) :
    (objectEntries groups).Perm groups := by
  have hindices : ∀ f : List Char × List Arrangement →
      Option (ℕ × List Char × List Arrangement),
      (∀ group, f group = (arrayIndex group.1).map fun n => (n, group)) →
      (groups.filterMap f).map Prod.snd =
        groups.filter fun group => (arrayIndex group.1).isSome := by
    intro f hf
    obtain rfl : f = fun group => (arrayIndex group.1).map fun n => (n, group) := funext hf
    induction groups with
    | nil => rfl
    | cons group groups ih =>
      cases h : arrayIndex group.1 <;> simp [h, ih]
  rw [objectEntries]
  refine (((List.perm_insertionSort _ _).map Prod.snd).append_right _).trans ?_
  rw [hindices _ fun _ => rfl]
  have := List.filter_append_perm (fun group : List Char × List Arrangement =>
    (arrayIndex group.1).isSome) groups
  simpa using this

/-- The arrangements that are selected from a group have its probability between them. -/
theorem mass_selected {arrs : List Arrangement} (h : ∀ arr ∈ arrs, Weighted arr) (hne : arrs ≠ []) :
    (∀ arr ∈ selected arrs, Weighted arr) ∧ mass (selected arrs) = mass arrs := by
  obtain ⟨hpos, hval⟩ := sumProb_spec fun arr harr => (h arr harr).1
  have hsum := sum_value_pos h hne
  have hlen : 0 < min arrs.length 3 := by
    have := List.length_pos_iff.2 hne
    omega
  have hamt : (0 : ℤ) < (min arrs.length 3 : ℕ) := by exact_mod_cast hlen
  have hamtq : (0 : ℚ) < (min arrs.length 3 : ℕ) := by exact_mod_cast hlen
  have hvalue : ((sumProb arrs).divide (.ofInt (min arrs.length 3 : ℕ))).value =
      mass arrs / (min arrs.length 3 : ℕ) := by
    rw [Fraction.value_divide hpos hamt, hval, mass, Fraction.value_ofInt, Int.cast_natCast]
  constructor
  · intro arr harr
    obtain ⟨arr', -, rfl⟩ := List.mem_map.1 harr
    exact ⟨hpos.divide hamt, by rw [hvalue]; exact div_pos hsum hamtq⟩
  · rw [mass, selected, List.map_map]
    have hconst : ((fun arr : Arrangement => arr.prob.value) ∘ fun arr : Arrangement =>
        { arr with prob := (sumProb arrs).divide (.ofInt (min arrs.length 3 : ℕ)) }) =
        fun _ => mass arrs / (min arrs.length 3 : ℕ) := by
      funext arr
      exact hvalue
    rw [hconst, List.map_const', List.sum_replicate, List.length_take, nsmul_eq_mul,
      Nat.min_eq_left (Nat.min_le_left _ _), mul_div_cancel₀ _ hamtq.ne']

/-- The group without trash. -/
theorem trashless_eq (arrs : List Arrangement) :
    (((Utils.groupBy arrs (trashHash st)).find? fun group => group.1 = []).map Prod.snd).getD [] =
      arrs.filter fun arr => trashHash st arr = [] := by
  cases hfind : (Utils.groupBy arrs (trashHash st)).find? fun group => group.1 = [] with
  | some group =>
    have hmem := List.mem_of_find?_eq_some hfind
    have hkey : group.1 = [] := by simpa using List.find?_some hfind
    obtain ⟨-, hgroup⟩ := Utils.mem_groupBy.1 hmem
    rw [Option.map_some, Option.getD_some, hgroup, hkey]
  | none =>
    symm
    rw [Option.map_none, Option.getD_none, List.filter_eq_nil_iff]
    intro arr harr hnil
    have hnone := List.find?_eq_none.1 hfind
      (trashHash st arr, arrs.filter fun a => trashHash st a = trashHash st arr)
      (Utils.mem_groupBy.2 ⟨⟨arr, harr, rfl⟩, rfl⟩)
    exact hnone (by simpa using hnil)

/-- The arrangements may be searched: their probabilities are positive, and there is one. -/
def Searchable (arrs : List Arrangement) : Prop := (∀ arr ∈ arrs, Weighted arr) ∧ arrs ≠ []

theorem Searchable.mass_pos {arrs : List Arrangement} (h : Searchable arrs) : 0 < mass arrs :=
  sum_value_pos h.1 h.2

/-- A round of the loop adds the probability of the group. -/
theorem pushSelected_spec {arrangements : List Arrangement}
    {group : List Char × List Arrangement} (h : ∀ arr ∈ arrangements, Weighted arr)
    (hgroup : Searchable (if group.1 = [] then arrangements else group.2)) :
    (∀ arr ∈ pushSelected arrangements group, Weighted arr) ∧
      mass (pushSelected arrangements group) =
        mass arrangements + mass (if group.1 = [] then arrangements else group.2) := by
  obtain ⟨hweighted, hmass⟩ := mass_selected hgroup.1 hgroup.2
  refine ⟨fun arr harr => ?_, ?_⟩
  · rcases List.mem_append.1 harr with harr | harr
    · exact h arr harr
    · exact hweighted arr harr
  · rw [pushSelected, mass_append, hmass]

/-- Without the aliased group, the loop adds up the probabilities of the groups. -/
theorem foldl_pushSelected {groups : List (List Char × List Arrangement)}
    (hgroups : ∀ group ∈ groups, group.1 ≠ [] ∧ Searchable group.2)
    {arrangements : List Arrangement} (h : ∀ arr ∈ arrangements, Weighted arr) :
    (∀ arr ∈ groups.foldl pushSelected arrangements, Weighted arr) ∧
      mass (groups.foldl pushSelected arrangements) =
        mass arrangements + (groups.map fun group => mass group.2).sum := by
  induction groups generalizing arrangements with
  | nil => exact ⟨h, by simp⟩
  | cons group groups ih =>
    obtain ⟨hkey, hgroup⟩ := hgroups group List.mem_cons_self
    obtain ⟨hweighted, hmass⟩ := @pushSelected_spec arrangements group h (by rwa [if_neg hkey])
    obtain ⟨hall, hsum⟩ := ih (fun x hx => hgroups x (List.mem_cons_of_mem _ hx)) hweighted
    refine ⟨hall, hsum.trans ?_⟩
    rw [hmass, if_neg hkey, List.map_cons, List.sum_cons, add_assoc]

/-- The groups of the arrangements. -/
def trashGroups (st : State) (arrs : List Arrangement) : List (List Char × List Arrangement) :=
  objectEntries (Utils.groupBy arrs (trashHash st))

theorem mem_trashGroups {arrs : List Arrangement} {group : List Char × List Arrangement} :
    group ∈ trashGroups st arrs ↔ (∃ arr ∈ arrs, trashHash st arr = group.1) ∧
      group.2 = arrs.filter fun arr => trashHash st arr = group.1 :=
  (objectEntries_perm _).mem_iff.trans Utils.mem_groupBy

theorem exists_trashGroup {arrs : List Arrangement} {arr : Arrangement} (h : arr ∈ arrs) :
    ∃ group ∈ trashGroups st arrs, group.1 = trashHash st arr :=
  ⟨(trashHash st arr, arrs.filter fun x => trashHash st x = trashHash st arr),
    mem_trashGroups.2 ⟨⟨arr, h, rfl⟩, rfl⟩, rfl⟩

theorem nodup_trashGroups (st : State) (arrs : List Arrangement) :
    ((trashGroups st arrs).map Prod.fst).Nodup :=
  ((objectEntries_perm _).map Prod.fst).nodup_iff.2 (Utils.nodup_keys_groupBy arrs (trashHash st))

theorem searchable_of_mem_trashGroups {arrs : List Arrangement} (h : ∀ arr ∈ arrs, Weighted arr)
    {group : List Char × List Arrangement} (hgroup : group ∈ trashGroups st arrs) :
    Searchable group.2 := by
  obtain ⟨⟨arr, harr, hkey⟩, heq⟩ := mem_trashGroups.1 hgroup
  rw [heq]
  refine ⟨fun x hx => h x (List.mem_filter.1 hx).1, List.ne_nil_of_mem (a := arr) ?_⟩
  exact List.mem_filter.2 ⟨harr, by simpa using hkey⟩

theorem sum_mass_trashGroups (arrs : List Arrangement) :
    ((trashGroups st arrs).map fun group => mass group.2).sum = mass arrs := by
  rw [trashGroups, ((objectEntries_perm _).map fun group => mass group.2).sum_eq]
  exact Utils.sum_groupBy arrs (trashHash st) fun arr => arr.prob.value

/-- The groups before and after the one without trash. -/
structure Around (st : State) (arrs : List Arrangement)
    (before after : List (List Char × List Arrangement)) : Prop where
  groups_eq : trashGroups st arrs =
    before ++ ([], arrs.filter fun arr => trashHash st arr = []) :: after
  key_ne : ∀ group ∈ before ++ after, group.1 ≠ []

/-- There is a group without trash, or no arrangement is without trash. -/
theorem exists_around (st : State) (arrs : List Arrangement) :
    (∀ group ∈ trashGroups st arrs, group.1 ≠ []) ∨ ∃ before after, Around st arrs before after := by
  by_cases hnone : ∀ group ∈ trashGroups st arrs, group.1 ≠ []
  · exact .inl hnone
  · push Not at hnone
    obtain ⟨⟨key, group⟩, hmem, hkey⟩ := hnone
    obtain rfl : key = [] := hkey
    have hgroup : group = arrs.filter fun arr => trashHash st arr = [] := (mem_trashGroups.1 hmem).2
    subst hgroup
    obtain ⟨before, after, hgroups⟩ := List.append_of_mem hmem
    refine .inr ⟨before, after, hgroups, fun x hx hnil => ?_⟩
    have hnodup := nodup_trashGroups st arrs
    rw [hgroups, List.map_append, List.map_cons, List.nodup_middle, List.nodup_cons] at hnodup
    refine hnodup.1 ?_
    have hkey := List.mem_map_of_mem (f := Prod.fst) hx
    rwa [hnil, List.map_append] at hkey

/-- The probability that counts again: that of the arrangements without trash, and of the groups
that are pushed before them. -/
def massAgain (arrs : List Arrangement) (before : List (List Char × List Arrangement)) : ℚ :=
  mass (arrs.filter fun arr => trashHash st arr = []) + (before.map fun group => mass group.2).sum

theorem sample_eq_foldl (arrs : List Arrangement) : sample st arrs =
    (trashGroups st arrs).foldl pushSelected (arrs.filter fun arr => trashHash st arr = []) := by
  rw [← trashless_eq]
  rfl

/-- **The mass after sampling**: where every arrangement has trash, it is kept. -/
theorem mass_sample_of_trash {arrs : List Arrangement} (h : ∀ arr ∈ arrs, Weighted arr)
    (hnone : ∀ group ∈ trashGroups st arrs, group.1 ≠ []) :
    (∀ arr ∈ sample st arrs, Weighted arr) ∧ mass (sample st arrs) = mass arrs := by
  have hnil : arrs.filter (fun arr => trashHash st arr = []) = [] := by
    rw [List.filter_eq_nil_iff]
    intro arr harr hempty
    obtain ⟨group, hg, hkey⟩ := @exists_trashGroup st _ _ harr
    exact hnone group hg (hkey.trans (by simpa using hempty))
  obtain ⟨hall, hsum⟩ := @foldl_pushSelected _
    (fun group hg => ⟨hnone group hg, searchable_of_mem_trashGroups h hg⟩) [] (by simp)
  rw [sample_eq_foldl, hnil]
  refine ⟨hall, hsum.trans ?_⟩
  rw [sum_mass_trashGroups]
  simp [mass]

/-- **The mass after sampling**: where some arrangements have no trash, they and what was pushed
before them count twice. -/
theorem mass_sample {arrs : List Arrangement} (h : ∀ arr ∈ arrs, Weighted arr)
    {before after : List (List Char × List Arrangement)} (ha : Around st arrs before after) :
    (∀ arr ∈ sample st arrs, Weighted arr) ∧
      mass (sample st arrs) = mass arrs + @massAgain st arrs before := by
  have hsearchable := fun group hg => @searchable_of_mem_trashGroups st arrs h group hg
  have hmem : ∀ group ∈ before ++ after, group ∈ trashGroups st arrs := by
    intro group hg
    rw [ha.groups_eq]
    simp only [List.mem_append, List.mem_cons] at hg ⊢
    tauto
  have hgroups := fun group hg => And.intro (ha.key_ne group hg) (hsearchable group (hmem group hg))
  have htrashless : Searchable (arrs.filter fun arr => trashHash st arr = []) :=
    hsearchable ([], _) (by rw [ha.groups_eq]; simp)
  obtain ⟨hbefore, hsumBefore⟩ := @foldl_pushSelected before
    (fun group hg => hgroups group (List.mem_append_left _ hg)) _ htrashless.1
  -- the group without trash is what has been pushed so far
  have hself : Searchable (before.foldl pushSelected
      (arrs.filter fun arr => trashHash st arr = [])) := by
    refine ⟨hbefore, fun hnil => ?_⟩
    have hzero := hsumBefore
    rw [hnil] at hzero
    have hpos := htrashless.mass_pos
    have hnonneg : 0 ≤ (before.map fun group => mass group.2).sum := by
      refine List.sum_nonneg fun q hq => ?_
      obtain ⟨group, hg, rfl⟩ := List.mem_map.1 hq
      exact (hgroups group (List.mem_append_left _ hg)).2.mass_pos.le
    have hempty : mass ([] : List Arrangement) = 0 := rfl
    linarith
  obtain ⟨hpushed, hsumPushed⟩ := @pushSelected_spec _
    (([], arrs.filter fun arr => trashHash st arr = []) : List Char × List Arrangement) hbefore
    (by rwa [if_pos rfl])
  obtain ⟨hafter, hsumAfter⟩ := @foldl_pushSelected after
    (fun group hg => hgroups group (List.mem_append_right _ hg)) _ hpushed
  have htotal := @sum_mass_trashGroups st arrs
  rw [ha.groups_eq, List.map_append, List.map_cons, List.sum_append, List.sum_cons] at htotal
  dsimp only at htotal
  rw [sample_eq_foldl, ha.groups_eq, List.foldl_append, List.foldl_cons]
  refine ⟨hafter, hsumAfter.trans ?_⟩
  rw [hsumPushed, if_pos rfl, hsumBefore, massAgain, ← htotal]
  ring

/-- What is sampled has positive probabilities. -/
theorem weighted_sample {arrs : List Arrangement} (h : ∀ arr ∈ arrs, Weighted arr) :
    ∀ arr ∈ sample st arrs, Weighted arr := by
  obtain hnone | ⟨before, after, ha⟩ := exists_around st arrs
  · exact (mass_sample_of_trash h hnone).1
  · exact (mass_sample h ha).1

/-- A selected arrangement is one of the group, but for its probability. -/
theorem exists_of_mem_selected {arrs : List Arrangement} {arr : Arrangement}
    (h : arr ∈ selected arrs) :
    ∃ prev ∈ arrs, arr.ids = prev.ids ∧ arr.newRemaining = prev.newRemaining := by
  obtain ⟨prev, hprev, rfl⟩ := List.mem_map.1 h
  exact ⟨prev, List.mem_of_mem_take hprev, rfl, rfl⟩

/-- A sampled arrangement is one of the arrangements, but for its probability. -/
theorem exists_of_mem_sample {arrs : List Arrangement} {arr : Arrangement}
    (h : arr ∈ sample st arrs) :
    ∃ prev ∈ arrs, arr.ids = prev.ids ∧ arr.newRemaining = prev.newRemaining := by
  have hloop : ∀ (groups : List (List Char × List Arrangement)) (pushed : List Arrangement),
      (∀ group ∈ groups, group ∈ trashGroups st arrs) →
      (∀ x ∈ pushed, ∃ prev ∈ arrs, x.ids = prev.ids ∧ x.newRemaining = prev.newRemaining) →
      ∀ x ∈ groups.foldl pushSelected pushed,
        ∃ prev ∈ arrs, x.ids = prev.ids ∧ x.newRemaining = prev.newRemaining := by
    intro groups
    induction groups with
    | nil => exact fun pushed _ hpushed => hpushed
    | cons group groups ih =>
      intro pushed hgroups hpushed
      refine ih _ (fun x hx => hgroups x (List.mem_cons_of_mem _ hx)) fun x hx => ?_
      rcases List.mem_append.1 hx with hx | hx
      · exact hpushed x hx
      · obtain ⟨mid, hmid, hids, hrem⟩ := exists_of_mem_selected hx
        split at hmid
        · obtain ⟨prev, hprev, h1, h2⟩ := hpushed mid hmid
          exact ⟨prev, hprev, hids.trans h1, hrem.trans h2⟩
        · rw [(mem_trashGroups.1 (hgroups group List.mem_cons_self)).2] at hmid
          exact ⟨mid, (List.mem_filter.1 hmid).1, hids, hrem⟩
  rw [sample_eq_foldl] at h
  exact hloop _ _ (fun _ => id) (fun x hx => ⟨x, (List.mem_filter.1 hx).1, rfl, rfl⟩) arr h

/-- Sampling preserves the mass exactly if every arrangement has trash. -/
theorem mass_sample_eq_iff {arrs : List Arrangement} (h : ∀ arr ∈ arrs, Weighted arr) :
    mass (sample st arrs) = mass arrs ↔ ∀ arr ∈ arrs, ∃ id ∈ arr.ids, st.isBasicTrash id = true := by
  have htrash : ∀ arr : Arrangement, trashHash st arr = [] ↔
      ¬ ∃ id ∈ arr.ids, st.isBasicTrash id = true := fun arr => by
    rw [trashHash_eq_nil]
    simp
  obtain hnone | ⟨before, after, ha⟩ := exists_around st arrs
  · refine iff_of_true (mass_sample_of_trash h hnone).2 fun arr harr => ?_
    by_contra hno
    obtain ⟨group, hg, hkey⟩ := @exists_trashGroup st _ _ harr
    exact hnone group hg (hkey.trans ((htrash arr).2 hno))
  · have hmem : ([], arrs.filter fun arr => trashHash st arr = []) ∈ trashGroups st arrs := by
      rw [ha.groups_eq]
      simp
    have hagain : 0 < @massAgain st arrs before := by
      have hpos := (searchable_of_mem_trashGroups h hmem).mass_pos
      refine add_pos_of_pos_of_nonneg hpos (List.sum_nonneg fun q hq => ?_)
      obtain ⟨group, hg, rfl⟩ := List.mem_map.1 hq
      have hall : group ∈ trashGroups st arrs := by
        rw [ha.groups_eq]
        exact List.mem_append_left _ hg
      exact (searchable_of_mem_trashGroups h hall).mass_pos.le
    refine iff_of_false (by rw [(mass_sample h ha).2]; linarith) fun hall => ?_
    obtain ⟨⟨arr, harr, hkey⟩, -⟩ := mem_trashGroups.1 hmem
    exact (htrash arr).1 hkey (hall arr harr)

end HanabiBot.Endgame
