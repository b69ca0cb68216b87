import Mathlib

/-!
# Deals from a stock of copies

A stock has some copies of every kind, and a copy is a kind with its number.  A
deal hands out distinct copies one after the other; all deals of the same length
are equally likely.

* `card_deals_append` — how many deals show given kinds, one more kind at a time;
* `sum_card_deals` — counting deals by what they show;
* `dealProb` — the probability of given kinds, given what is known of the deal.
-/

namespace Deals

variable {α : Type*} [DecidableEq α] {missing : α → ℕ} {shown : List α} {deal : List (α × ℕ)}

/-- A deal of copies: no copy twice, and each of them in the stock. -/
structure IsDeal (missing : α → ℕ) (deal : List (α × ℕ)) : Prop where
  nodup : deal.Nodup
  stocked : ∀ c ∈ deal, c.2 < missing c.1

/-- The deals that show these kinds, in order. -/
def deals (missing : α → ℕ) : List α → Finset (List (α × ℕ))
  | [] => {[]}
  | a :: shown =>
    (deals missing shown).biUnion fun deal =>
      ((Finset.range (missing a)).filter fun k => (a, k) ∉ deal).image fun k => (a, k) :: deal

theorem mem_deals : deal ∈ deals missing shown ↔ IsDeal missing deal ∧ deal.map Prod.fst = shown := by
  induction shown generalizing deal with
  | nil =>
    simp only [deals, Finset.mem_singleton, List.map_eq_nil_iff]
    constructor
    · rintro rfl
      exact ⟨⟨List.nodup_nil, by simp⟩, rfl⟩
    · exact And.right
  | cons a shown ih =>
    simp only [deals, Finset.mem_biUnion, Finset.mem_image, Finset.mem_filter, Finset.mem_range]
    constructor
    · rintro ⟨rest, hrest, k, ⟨hk, hfresh⟩, rfl⟩
      obtain ⟨hdeal, rfl⟩ := ih.1 hrest
      refine ⟨⟨List.nodup_cons.2 ⟨hfresh, hdeal.nodup⟩, ?_⟩, rfl⟩
      intro c hc
      obtain rfl | hc := List.mem_cons.1 hc
      · exact hk
      · exact hdeal.stocked c hc
    · rintro ⟨hdeal, hshown⟩
      cases deal with
      | nil => simp at hshown
      | cons c rest =>
        obtain ⟨kind, k⟩ := c
        rw [List.map_cons, List.cons.injEq] at hshown
        obtain ⟨rfl, rfl⟩ := hshown
        obtain ⟨hfresh, hnodup⟩ := List.nodup_cons.1 hdeal.nodup
        refine ⟨rest, ih.2 ⟨⟨hnodup, fun c hc => ?_⟩, rfl⟩, k, ⟨?_, hfresh⟩, rfl⟩
        · exact hdeal.stocked c (List.mem_cons_of_mem _ hc)
        · exact hdeal.stocked (kind, k) List.mem_cons_self

/-- The numbers of a kind that a deal leaves in the stock. -/
theorem card_left (h : IsDeal missing deal) (a : α) :
    ((Finset.range (missing a)).filter fun k => (a, k) ∉ deal).card =
      missing a - (deal.map Prod.fst).count a := by
  have htaken : ((Finset.range (missing a)).filter fun k => (a, k) ∈ deal).card =
      (deal.map Prod.fst).count a := by
    have himage : (Finset.range (missing a)).filter (fun k => (a, k) ∈ deal) =
        ((deal.filter fun c => c.1 = a).map Prod.snd).toFinset := by
      ext k
      simp only [Finset.mem_filter, Finset.mem_range, List.mem_toFinset, List.mem_map,
        List.mem_filter, decide_eq_true_eq, Prod.exists, exists_eq_right]
      constructor
      · rintro ⟨-, hk⟩
        simpa using hk
      · intro hk
        have hmem : (a, k) ∈ deal := by simpa using hk
        exact ⟨h.stocked _ hmem, hmem⟩
    have hnodup : ((deal.filter fun c => c.1 = a).map Prod.snd).Nodup := by
      refine (h.nodup.filter _).map_on fun c hc c' hc' heq => Prod.ext ?_ heq
      have h1 := (List.mem_filter.1 hc).2
      have h2 := (List.mem_filter.1 hc').2
      simp only [decide_eq_true_eq] at h1 h2
      rw [h1, h2]
    rw [himage, List.toFinset_card_of_nodup hnodup, List.length_map, List.count, List.countP_map,
      ← List.countP_eq_length_filter]
    refine List.countP_congr fun c _ => ?_
    simp
  have hsplit := Finset.card_filter_add_card_filter_not
    (s := Finset.range (missing a)) (p := fun k => (a, k) ∈ deal)
  rw [Finset.card_range, htaken] at hsplit
  omega

/-- One kind more in front. -/
theorem card_deals_cons (missing : α → ℕ) (a : α) (shown : List α) :
    (deals missing (a :: shown)).card = (deals missing shown).card * (missing a - shown.count a) := by
  rw [deals, Finset.card_biUnion]
  · have hcard : ∀ deal ∈ deals missing shown,
        (((Finset.range (missing a)).filter fun k => (a, k) ∉ deal).image
          fun k => (a, k) :: deal).card = missing a - shown.count a := by
      intro deal hdeal
      obtain ⟨hok, hshown⟩ := mem_deals.1 hdeal
      rw [Finset.card_image_of_injective, card_left hok, hshown]
      intro k k' heq
      simpa using heq
    rw [Finset.sum_congr rfl hcard, Finset.sum_const, smul_eq_mul]
  · intro deal _ deal' _ hne
    rw [Function.onFun, Finset.disjoint_left]
    intro x hx hx'
    obtain ⟨k, -, rfl⟩ := Finset.mem_image.1 hx
    obtain ⟨k', -, heq⟩ := Finset.mem_image.1 hx'
    exact hne (List.cons.inj heq).2.symm

/-- One kind more at the end. -/
theorem card_deals_append (missing : α → ℕ) (shown : List α) (a : α) :
    (deals missing (shown ++ [a])).card =
      (deals missing shown).card * (missing a - shown.count a) := by
  induction shown with
  | nil => rw [List.nil_append, card_deals_cons]
  | cons b shown ih =>
    rw [List.cons_append, card_deals_cons, ih, card_deals_cons, List.count_append]
    by_cases hba : b = a
    · subst hba
      rw [List.count_singleton_self, List.count_cons_self]
    · rw [List.count_cons_of_ne (Ne.symm hba), List.count_cons_of_ne hba, List.count_nil, Nat.add_zero]
      ring

/-- If there are enough copies of each kind, some deal shows the kinds. -/
theorem deals_nonempty (h : ∀ a, shown.count a ≤ missing a) : (deals missing shown).Nonempty := by
  induction shown with
  | nil => exact Finset.singleton_nonempty _
  | cons a shown ih =>
    rw [← Finset.card_pos, card_deals_cons]
    refine Nat.mul_pos (Finset.card_pos.2 (ih fun b => ?_)) ?_
    · exact (List.sublist_cons_self a shown).count_le b |>.trans (h b)
    · have := h a
      rw [List.count_cons_self] at this
      omega

/-- The deals with a property of what they show, counted by what they show. -/
theorem sum_card_deals {P : List α → Prop} {shows : List (List α)} (hnodup : shows.Nodup)
    (hshows : ∀ shown, shown ∈ shows ↔ P shown ∧ (deals missing shown).Nonempty) :
    {deal | IsDeal missing deal ∧ P (deal.map Prod.fst)}.ncard =
      (shows.map fun shown => (deals missing shown).card).sum := by
  have hset : {deal | IsDeal missing deal ∧ P (deal.map Prod.fst)} =
      ((shows.toFinset.biUnion (deals missing) : Finset (List (α × ℕ))) : Set (List (α × ℕ))) := by
    ext deal
    simp only [Set.mem_ofPred_eq, Finset.coe_biUnion, Set.mem_iUnion, Finset.mem_coe,
      List.mem_toFinset, mem_deals, exists_prop]
    constructor
    · rintro ⟨hdeal, hP⟩
      exact ⟨_, (hshows _).2 ⟨hP, deal, mem_deals.2 ⟨hdeal, rfl⟩⟩, hdeal, rfl⟩
    · rintro ⟨_, hmem, hdeal, rfl⟩
      exact ⟨hdeal, ((hshows _).1 hmem).1⟩
  rw [hset, Set.ncard_coe_finset, Finset.card_biUnion, List.sum_toFinset _ hnodup]
  intro shown _ shown' _ hne
  rw [Function.onFun, Finset.disjoint_left]
  intro deal hdeal hdeal'
  exact hne ((mem_deals.1 hdeal).2.symm.trans (mem_deals.1 hdeal').2)

/-- The probability that a deal shows these kinds, given that what it shows has the property `P`;
all deals are equally likely. -/
noncomputable def dealProb (missing : α → ℕ) (P : List α → Prop) (shown : List α) : ℚ :=
  (deals missing shown).card / {deal | IsDeal missing deal ∧ P (deal.map Prod.fst)}.ncard

end Deals
