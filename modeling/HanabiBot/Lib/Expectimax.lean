import Mathlib

/-!
# Games against chance

In a position of an `Arena` one makes a move, and chance leads to another position, until the
game is settled.  The weights of what chance does may add up to less than 1: the rest is lost.

* `Arena.value` — expectimax: the greatest expected payoff of a move, over some turns;
* `Strategy.worth` — the expected payoff of playing by a strategy;
* `isGreatest_value` — the value is the greatest worth of a strategy;
* `exists_line_of_pos` — a positive value comes with a line to a positive payoff.
-/

/-- A game of one player against chance. -/
structure Arena (α A : Type) where
  moves : α → List A
  /-- Where chance leads after a move, with weights. -/
  chances : α → A → List (ℚ × α)
  /-- The payoff of a position in which the game is settled. -/
  settled : α → Option ℚ

namespace Arena

variable {α A : Type}

/-- The greatest number, or 0. -/
def greatest (l : List ℚ) : ℚ := l.foldr max 0

theorem greatest_nonneg (l : List ℚ) : 0 ≤ greatest l := by
  induction l with
  | nil => exact le_rfl
  | cons q l ih => exact le_max_of_le_right ih

theorem le_greatest {l : List ℚ} {q : ℚ} (h : q ∈ l) : q ≤ greatest l := by
  induction l with
  | nil => cases h
  | cons r l ih =>
    rcases List.mem_cons.1 h with rfl | h
    · exact le_max_left _ _
    · exact le_max_of_le_right (ih h)

theorem greatest_mem (l : List ℚ) : greatest l = 0 ∨ greatest l ∈ l := by
  induction l with
  | nil => exact Or.inl rfl
  | cons q l ih =>
    rcases max_choice q (greatest l) with h | h
    · exact Or.inr (List.mem_cons.2 (Or.inl h))
    · have hcons : greatest (q :: l) = greatest l := h
      rw [hcons]
      exact ih.imp_right (List.mem_cons_of_mem q)

/-- A sum over the values that there are. -/
theorem sum_filterMap {β : Type} (f : α → Option β) (g : β → ℚ) (l : List α) :
    ((l.filterMap f).map g).sum = (l.map fun a => (f a).elim 0 g).sum := by
  induction l with
  | nil => rfl
  | cons a l ih =>
    rw [List.map_cons, List.sum_cons, ← ih]
    cases hf : f a with
    | none => rw [List.filterMap_cons_none hf, Option.elim_none, zero_add]
    | some b => rw [List.filterMap_cons_some hf, List.map_cons, List.sum_cons, Option.elim_some]

variable (G : Arena α A)

/-- What is expected of a move, if `f` is what a position is worth. -/
def expected (f : α → ℚ) (x : α) (a : A) : ℚ := ((G.chances x a).map fun c => c.1 * f c.2).sum

/-- Expectimax: the greatest payoff to be expected within some turns. -/
def value : ℕ → α → ℚ
  | 0, x => (G.settled x).getD 0
  | n + 1, x => (G.settled x).getD (greatest ((G.moves x).map (G.expected (value n) x)))

/-- A choice of a move for every position, with some turns left; `none` gives up. -/
structure Strategy where
  choose : ℕ → α → Option A
  mem : ∀ n x a, choose n x = some a → a ∈ G.moves x

/-- From the positions of `P` the weights are not negative and add up to at most 1, and the payoffs
are in between. -/
structure FairOn (P : α → Prop) : Prop where
  closed : ∀ x a, P x → G.settled x = none → a ∈ G.moves x → ∀ c ∈ G.chances x a, P c.2
  nonneg : ∀ x a, P x → G.settled x = none → a ∈ G.moves x → ∀ c ∈ G.chances x a, 0 ≤ c.1
  total : ∀ x a, P x → G.settled x = none → a ∈ G.moves x →
    ((G.chances x a).map Prod.fst).sum ≤ 1
  payoff : ∀ x q, P x → G.settled x = some q → 0 ≤ q ∧ q ≤ 1

variable {G} {P : α → Prop}

/-- What is expected from playing by the strategy for some turns. -/
def Strategy.worth (σ : G.Strategy) : ℕ → α → ℚ
  | 0, x => (G.settled x).getD 0
  | n + 1, x => (G.settled x).getD ((σ.choose n x).elim 0 (G.expected (σ.worth n) x))

theorem expected_mono {f f' : α → ℚ} {x : α} {a : A} (hw : ∀ c ∈ G.chances x a, 0 ≤ c.1)
    (h : ∀ c ∈ G.chances x a, f c.2 ≤ f' c.2) : G.expected f x a ≤ G.expected f' x a :=
  List.sum_le_sum fun c hc => mul_le_mul_of_nonneg_left (h c hc) (hw c hc)

/-- No strategy is worth more than the value. -/
theorem worth_le_value (hG : G.FairOn P) (σ : G.Strategy) (n : ℕ) {x : α} (hx : P x) :
    σ.worth n x ≤ G.value n x := by
  induction n generalizing x with
  | zero => exact le_rfl
  | succ n ih =>
    rw [Strategy.worth, value]
    cases hq : G.settled x with
    | some q => exact le_rfl
    | none =>
      cases hmove : σ.choose n x with
      | none => exact greatest_nonneg _
      | some a =>
        have ha := σ.mem n x a hmove
        calc G.expected (σ.worth n) x a
            ≤ G.expected (G.value n) x a := expected_mono (hG.nonneg x a hx hq ha) fun c hc =>
              ih (hG.closed x a hx hq ha c hc)
          _ ≤ greatest ((G.moves x).map (G.expected (G.value n) x)) :=
              le_greatest (List.mem_map_of_mem ha)

/-- A move that attains the value, if one does. -/
noncomputable def bestMove (G : Arena α A) (n : ℕ) (x : α) : Option A :=
  open Classical in
  if h : ∃ a ∈ G.moves x, G.expected (G.value n) x a =
      greatest ((G.moves x).map (G.expected (G.value n) x)) then some h.choose
  else none

/-- The strategy that always makes the best move. -/
noncomputable def greedy (G : Arena α A) : G.Strategy where
  choose := G.bestMove
  mem n x a h := by
    rw [bestMove] at h
    split at h
    · rename_i hbest
      cases h
      exact hbest.choose_spec.1
    · cases h

/-- The greedy strategy is worth the value. -/
theorem worth_greedy (n : ℕ) (x : α) : G.greedy.worth n x = G.value n x := by
  induction n generalizing x with
  | zero => rfl
  | succ n ih =>
    rw [Strategy.worth, value, funext ih]
    congr 1
    change (G.bestMove n x).elim 0 _ = _
    rw [bestMove]
    split
    · rename_i hbest
      exact hbest.choose_spec.2
    · rename_i hno
      rcases greatest_mem ((G.moves x).map (G.expected (G.value n) x)) with hzero | hmem
      · exact hzero.symm
      · obtain ⟨a, ha, heq⟩ := List.mem_map.1 hmem
        exact absurd ⟨a, ha, heq⟩ hno

/-- The value is the greatest worth of a strategy. -/
theorem isGreatest_value (hG : G.FairOn P) (n : ℕ) {x : α} (hx : P x) :
    IsGreatest (Set.range fun σ : G.Strategy => σ.worth n x) (G.value n x) := by
  refine ⟨⟨G.greedy, worth_greedy n x⟩, ?_⟩
  rintro _ ⟨σ, rfl⟩
  exact worth_le_value hG σ n hx

/-- A line of moves, and of what chance does with them, from one position to another. -/
inductive Line (G : Arena α A) : α → List A → α → Prop
  | nil (x : α) : Line G x [] x
  | cons {x y z : α} {a : A} {as : List A} {w : ℚ} : G.settled x = none → a ∈ G.moves x →
      (w, y) ∈ G.chances x a → 0 < w → Line G y as z → Line G x (a :: as) z

/-- A positive value comes with a line to a positive payoff. -/
theorem exists_line_of_pos (hG : G.FairOn P) {n : ℕ} {x : α} (hx : P x) (h : 0 < G.value n x) :
    ∃ as y q, as.length ≤ n ∧ G.Line x as y ∧ P y ∧ G.settled y = some q ∧ 0 < q := by
  induction n generalizing x with
  | zero =>
    rw [value] at h
    cases hq : G.settled x with
    | none =>
      rw [hq] at h
      exact absurd h (lt_irrefl _)
    | some q =>
      rw [hq] at h
      exact ⟨[], x, q, le_rfl, .nil x, hx, hq, h⟩
  | succ n ih =>
    rw [value] at h
    cases hq : G.settled x with
    | some q =>
      rw [hq] at h
      exact ⟨[], x, q, Nat.zero_le _, .nil x, hx, hq, h⟩
    | none =>
      rw [hq, Option.getD_none] at h
      rcases greatest_mem ((G.moves x).map (G.expected (G.value n) x)) with hzero | hmem
      · rw [hzero] at h
        exact absurd h (lt_irrefl _)
      · obtain ⟨a, ha, heq⟩ := List.mem_map.1 hmem
        rw [← heq] at h
        -- some summand is positive, and so are both of its factors
        obtain ⟨_, hterm, hpos⟩ : ∃ q ∈ (G.chances x a).map fun c => c.1 * G.value n c.2, 0 < q := by
          by_contra hno
          simp only [not_exists, not_and, not_lt] at hno
          exact absurd h (not_lt.2 ((List.sum_le_card_nsmul _ 0 hno).trans_eq (smul_zero _)))
        obtain ⟨⟨w, y⟩, hc, rfl⟩ := List.mem_map.1 hterm
        have hw := hG.nonneg x a hx hq ha (w, y) hc
        have hwpos : 0 < w := lt_of_le_of_ne hw fun hw0 => by
          rw [← hw0, zero_mul] at hpos
          exact lt_irrefl _ hpos
        obtain ⟨as, z, q, hlen, hline, hPz, hz, hq'⟩ := ih (hG.closed x a hx hq ha (w, y) hc)
          ((pos_iff_pos_of_mul_pos hpos).1 hwpos)
        exact ⟨a :: as, z, q, Nat.succ_le_succ hlen, .cons hq ha hc hwpos hline, hPz, hz, hq'⟩

end Arena
