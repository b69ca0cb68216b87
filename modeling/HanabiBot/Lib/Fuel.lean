import Mathlib

/-!
# Loops with fuel

A loop that is not structural takes a number as fuel and gives `none` when it runs
out.  `Returns f Q` says that this is only the loop's form: with enough fuel `f`
returns, always the same result, and the result satisfies `Q`.

* `Returns.pure`, `Returns.bind`, `Returns.step`, `Returns.mapM`,
  `Returns.foldlM` — one rule for each construct.
* `Stable` — a program that, once it returns, returns the same with more fuel.

A loop that can also fail for reasons of its own is an `Except`; `Succeeds f Q` says that with
enough fuel it does not fail at all.
-/

namespace Fuel

variable {α β σ : Type*}

/-- With enough fuel the program returns one result, which satisfies `Q`. -/
def Returns (f : ℕ → Option α) (Q : α → Prop) : Prop :=
  ∃ a, Q a ∧ ∃ n, ∀ fuel, n ≤ fuel → f fuel = some a

namespace Returns

variable {f g : ℕ → Option α} {P Q : α → Prop} {R : β → Prop}

theorem pure {a : α} (h : Q a) : Returns (fun _ => some a) Q :=
  ⟨a, h, 0, fun _ _ => rfl⟩

theorem mono (h : Returns f P) (hPQ : ∀ a, P a → Q a) : Returns f Q := by
  obtain ⟨a, ha, n, hn⟩ := h
  exact ⟨a, hPQ a ha, n, hn⟩

theorem congr (h : Returns f Q) (hfg : ∀ fuel, g fuel = f fuel) : Returns g Q := by
  have heq : g = f := funext hfg
  rwa [heq]

theorem bind {k : α → ℕ → Option β} (h : Returns f P) (hk : ∀ a, P a → Returns (k a) R) :
    Returns (fun fuel => (f fuel).bind fun a => k a fuel) R := by
  obtain ⟨a, ha, n, hn⟩ := h
  obtain ⟨b, hb, m, hm⟩ := hk a ha
  refine ⟨b, hb, max n m, fun fuel hfuel => ?_⟩
  show (f fuel).bind (fun a => k a fuel) = some b
  rw [hn fuel (le_trans (le_max_left n m) hfuel), Option.bind_some]
  exact hm fuel (le_trans (le_max_right n m) hfuel)

theorem map {k : α → β} (h : Returns f P) (hk : ∀ a, P a → R (k a)) :
    Returns (fun fuel => (f fuel).map k) R := by
  obtain ⟨a, ha, n, hn⟩ := h
  refine ⟨k a, hk a ha, n, fun fuel hfuel => ?_⟩
  show (f fuel).map k = some (k a)
  rw [hn fuel hfuel, Option.map_some]

/-- A program that goes on with one unit of fuel less. -/
theorem step (hstep : ∀ fuel, f (fuel + 1) = g fuel) (h : Returns g Q) : Returns f Q := by
  obtain ⟨a, ha, n, hn⟩ := h
  refine ⟨a, ha, n + 1, fun fuel hfuel => ?_⟩
  cases fuel with
  | zero => omega
  | succ fuel =>
    rw [hstep]
    exact hn fuel (by omega)

/-- One program after the other, on each entry of a list. -/
theorem mapM {γ : Type*} {k : γ → ℕ → Option α} {l : List γ}
    (h : ∀ x ∈ l, Returns (k x) P) :
    Returns (fun fuel => l.mapM fun x => k x fuel) fun as => ∀ a ∈ as, P a := by
  induction l with
  | nil => exact pure (by simp)
  | cons x l ih =>
    have hrest := ih fun y hy => h y (List.mem_cons_of_mem x hy)
    have hfirst := h x List.mem_cons_self
    refine (hfirst.bind (k := fun a fuel => (l.mapM fun x => k x fuel).bind fun as =>
      some (a :: as)) fun a ha => ?_).congr fun fuel => ?_
    · refine hrest.bind (k := fun as _ => some (a :: as)) fun as has => pure ?_
      intro b hb
      obtain rfl | hb := List.mem_cons.1 hb
      · exact ha
      · exact has b hb
    · rw [List.mapM_cons]
      rfl

/-- A loop over a list that keeps `P`. -/
theorem foldlM {γ : Type*} {k : α → γ → ℕ → Option α} {l : List γ}
    (hk : ∀ x ∈ l, ∀ a, P a → Returns (k a x) P) {a : α} (ha : P a) :
    Returns (fun fuel => l.foldlM (fun a x => k a x fuel) a) P := by
  induction l generalizing a with
  | nil => exact pure ha
  | cons x l ih =>
    have hrest : ∀ b, P b → Returns (fun fuel => l.foldlM (fun a x => k a x fuel) b) P :=
      fun b hb => ih (fun y hy => hk y (List.mem_cons_of_mem x hy)) hb
    refine ((hk x List.mem_cons_self a ha).bind hrest).congr fun fuel => ?_
    rw [List.foldlM_cons]
    rfl

end Returns

/-- More fuel does not change a result. -/
def Stable (f : ℕ → Option α) : Prop := ∀ fuel a, f fuel = some a → f (fuel + 1) = some a

namespace Stable

variable {f : ℕ → Option α} {n m : ℕ} {a b : α}

theorem of_le (h : Stable f) (hle : n ≤ m) (ha : f n = some a) : f m = some a := by
  induction hle with
  | refl => exact ha
  | step _ ih => exact h _ _ ih

/-- There is one result, however much fuel there is. -/
theorem unique (h : Stable f) (ha : f n = some a) (hb : f m = some b) : a = b := by
  obtain hle | hle := le_total n m
  · exact Option.some.inj ((h.of_le hle ha).symm.trans hb)
  · exact Option.some.inj (ha.symm.trans (h.of_le hle hb))

end Stable

section

variable {ε : Type*}

/-- With enough fuel the program succeeds, with one result, which satisfies `Q`. -/
def Succeeds (f : ℕ → Except ε α) (Q : α → Prop) : Prop :=
  ∃ a, Q a ∧ ∃ n, ∀ fuel, n ≤ fuel → f fuel = .ok a

namespace Succeeds

variable {f g : ℕ → Except ε α} {P Q : α → Prop} {R : β → Prop}

theorem pure {a : α} (h : Q a) : Succeeds (fun _ => (.ok a : Except ε α)) Q :=
  ⟨a, h, 0, fun _ _ => rfl⟩

theorem mono (h : Succeeds f P) (hPQ : ∀ a, P a → Q a) : Succeeds f Q := by
  obtain ⟨a, ha, n, hn⟩ := h
  exact ⟨a, hPQ a ha, n, hn⟩

/-- A program that takes no fuel. -/
theorem of_eq {m : Except ε α} {a : α} (hm : m = .ok a) (ha : Q a) : Succeeds (fun _ => m) Q :=
  ⟨a, ha, 0, fun _ _ => hm⟩

/-- What holds of every result holds of this one. -/
theorem and_all (h : Succeeds f P) (hQ : ∀ fuel a, f fuel = .ok a → Q a) :
    Succeeds f fun a => P a ∧ Q a := by
  obtain ⟨a, ha, n, hn⟩ := h
  exact ⟨a, ⟨ha, hQ n a (hn n le_rfl)⟩, n, hn⟩

theorem congr (h : Succeeds f Q) (hfg : ∀ fuel, g fuel = f fuel) : Succeeds g Q := by
  have heq : g = f := funext hfg
  rwa [heq]

theorem bind {k : α → ℕ → Except ε β} (h : Succeeds f P) (hk : ∀ a, P a → Succeeds (k a) R) :
    Succeeds (fun fuel => (f fuel).bind fun a => k a fuel) R := by
  obtain ⟨a, ha, n, hn⟩ := h
  obtain ⟨b, hb, m, hm⟩ := hk a ha
  refine ⟨b, hb, max n m, fun fuel hfuel => ?_⟩
  show (f fuel).bind (fun a => k a fuel) = .ok b
  rw [hn fuel (le_trans (le_max_left n m) hfuel)]
  exact hm fuel (le_trans (le_max_right n m) hfuel)

theorem map {k : α → β} (h : Succeeds f P) (hk : ∀ a, P a → R (k a)) :
    Succeeds (fun fuel => (f fuel).map k) R := by
  obtain ⟨a, ha, n, hn⟩ := h
  refine ⟨k a, hk a ha, n, fun fuel hfuel => ?_⟩
  show (f fuel).map k = .ok (k a)
  rw [hn fuel hfuel]
  rfl

/-- A program that goes on with one unit of fuel less. -/
theorem step (hstep : ∀ fuel, f (fuel + 1) = g fuel) (h : Succeeds g Q) : Succeeds f Q := by
  obtain ⟨a, ha, n, hn⟩ := h
  refine ⟨a, ha, n + 1, fun fuel hfuel => ?_⟩
  cases fuel with
  | zero => omega
  | succ fuel =>
    rw [hstep]
    exact hn fuel (by omega)

/-- A loop over a list that keeps `P`. -/
theorem foldlM {γ : Type*} {k : α → γ → ℕ → Except ε α} {l : List γ}
    (hk : ∀ x ∈ l, ∀ a, P a → Succeeds (k a x) P) {a : α} (ha : P a) :
    Succeeds (fun fuel => l.foldlM (fun a x => k a x fuel) a) P := by
  induction l generalizing a with
  | nil => exact pure ha
  | cons x l ih =>
    have hrest : ∀ b, P b → Succeeds (fun fuel => l.foldlM (fun a x => k a x fuel) b) P :=
      fun b hb => ih (fun y hy => hk y (List.mem_cons_of_mem x hy)) hb
    refine ((hk x List.mem_cons_self a ha).bind hrest).congr fun fuel => ?_
    rw [List.foldlM_cons]
    rfl

/-- One program after the other, on each entry of a list. -/
theorem mapM {γ : Type*} {k : γ → ℕ → Except ε α} {S : γ → α → Prop} {l : List γ}
    (h : ∀ x ∈ l, Succeeds (k x) (S x)) :
    Succeeds (fun fuel => l.mapM fun x => k x fuel) (List.Forall₂ S l) := by
  induction l with
  | nil => exact pure .nil
  | cons x l ih =>
    have hrest := ih fun y hy => h y (List.mem_cons_of_mem x hy)
    have hfirst := h x List.mem_cons_self
    refine (hfirst.bind (k := fun a fuel => (l.mapM fun x => k x fuel).bind fun as =>
      .ok (a :: as)) fun a ha => ?_).congr fun fuel => ?_
    · exact hrest.bind (k := fun as _ => .ok (a :: as)) fun as has => pure (.cons ha has)
    · rw [List.mapM_cons]
      rfl

/-- There is one result. -/
theorem unique {a : α} (h : Succeeds f P) (ha : Succeeds f (· = a)) : P a := by
  obtain ⟨b, hb, n, hn⟩ := h
  obtain ⟨c, rfl, m, hm⟩ := ha
  have heq := (hn (max n m) (le_max_left n m)).symm.trans (hm (max n m) (le_max_right n m))
  exact Except.ok.inj heq ▸ hb

theorem exists_eq (h : Succeeds f P) : ∃ a, P a ∧ Succeeds f (· = a) := by
  obtain ⟨a, ha, hn⟩ := h
  exact ⟨a, ha, a, rfl, hn⟩

end Succeeds

end

end Fuel
