import Mathlib

/-!
# Simulation of programs that may fail

A program over a state `σ` is a term of `StateT σ Option`.  A `World` relates the
states of two such programs; it also orders the states of the second one by how
much has been set up in them, so that what is once known about a result stays
true while the programs go on.

`Simulates W t₀ x y Q` says that wherever `x` succeeds, `y` succeeds from every
related state that has grown from `t₀`, ends in a related state, and `Q` holds of
the two results.

* `Simulates.pure`, `Simulates.bind` — the rules for the two monad operations;
* `Simulates.of_failure` — a program that fails is simulated by any other;
* `Simulates.conseq` — a weaker postcondition, from a later state on.
-/

/-- When two states are related, and how the second one may grow. -/
structure World (σ τ : Type) where
  rel : σ → τ → Prop
  le : τ → τ → Prop
  le_refl : ∀ t, le t t
  le_trans : ∀ {t₁ t₂ t₃}, le t₁ t₂ → le t₂ t₃ → le t₁ t₃

variable {σ τ α β γ δ : Type}

/-- Wherever the first program succeeds, the second one does too, with related
states and results. -/
def Simulates (W : World σ τ) (t₀ : τ) (x : StateT σ Option α) (y : StateT τ Option β)
    (Q : α → β → τ → Prop) : Prop :=
  ∀ s t, W.rel s t → W.le t₀ t → ∀ a s', x s = some (a, s') →
    ∃ b t', y t = some (b, t') ∧ W.rel s' t' ∧ W.le t t' ∧ Q a b t'

/-- Two programs, one after the other. -/
theorem bind_run (x : StateT σ Option α) (f : α → StateT σ Option γ) (s : σ) :
    (x >>= f) s = (x s).bind fun p => f p.1 p.2 := rfl

namespace Simulates

variable {W : World σ τ} {t₀ : τ}

theorem pure {a : α} {b : β} {Q : α → β → τ → Prop} (h : ∀ t, W.le t₀ t → Q a b t) :
    Simulates W t₀ (Pure.pure a) (Pure.pure b) Q := by
  intro s t hrel hle a' s' hx
  have hx' : some (a, s) = some (a', s') := hx
  obtain ⟨rfl, rfl⟩ : a = a' ∧ s = s' := by simpa using hx'
  exact ⟨b, t, rfl, hrel, W.le_refl t, h t hle⟩

theorem bind {x : StateT σ Option α} {y : StateT τ Option β} {f : α → StateT σ Option γ}
    {g : β → StateT τ Option δ} {Q : α → β → τ → Prop} {R : γ → δ → τ → Prop}
    (h : Simulates W t₀ x y Q)
    (hf : ∀ a b t, W.le t₀ t → Q a b t → Simulates W t (f a) (g b) R) :
    Simulates W t₀ (x >>= f) (y >>= g) R := by
  intro s t hrel hle c s'' hx
  rw [bind_run, Option.bind_eq_some_iff] at hx
  obtain ⟨⟨a, s'⟩, hxs, hfs⟩ := hx
  obtain ⟨b, t', hyt, hrel', hle', hQ⟩ := h s t hrel hle a s' hxs
  have hle₀ : W.le t₀ t' := W.le_trans hle hle'
  obtain ⟨d, t'', hgt, hrel'', hle'', hR⟩ :=
    hf a b t' hle₀ hQ s' t' hrel' (W.le_refl t') c s'' hfs
  refine ⟨d, t'', ?_, hrel'', W.le_trans hle' hle'', hR⟩
  rw [bind_run, hyt, Option.bind_some, hgt]

theorem of_failure {y : StateT τ Option β} {Q : α → β → τ → Prop} :
    Simulates W t₀ (failure : StateT σ Option α) y Q := by
  intro s t _ _ a s' hx
  exact nomatch hx

theorem conseq {x : StateT σ Option α} {y : StateT τ Option β} {Q R : α → β → τ → Prop} {t₁ : τ}
    (h : Simulates W t₀ x y Q) (hle : W.le t₀ t₁)
    (hQ : ∀ a b t, W.le t₁ t → Q a b t → R a b t) : Simulates W t₁ x y R := by
  intro s t hrel hle₁ a s' hx
  obtain ⟨b, t', hyt, hrel', hle', hQ'⟩ := h s t hrel (W.le_trans hle hle₁) a s' hx
  exact ⟨b, t', hyt, hrel', hle', hQ a b t' (W.le_trans hle₁ hle') hQ'⟩

end Simulates
