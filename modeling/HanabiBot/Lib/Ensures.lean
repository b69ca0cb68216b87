import HanabiBot.Lib.Simulation

/-!
# Partial correctness of programs with a state

`Ensures P x Q` says that a program of `StateT σ Option` that starts in a state of `P` and
does not fail ends with a result and a state of `Q`.

* `Ensures.pure`, `Ensures.bind`, `Ensures.of_failure` — one rule for each construct;
* `Ensures.conseq`, `Ensures.of_state` — other pre- and postconditions;
* `Ensures.mapM` — a loop that keeps an invariant.
-/

variable {σ α β : Type}

/-- Where the program does not fail, it takes the states of `P` to those of `Q`. -/
def Ensures (P : σ → Prop) (x : StateT σ Option α) (Q : α → σ → Prop) : Prop :=
  ∀ s a s', P s → x s = some (a, s') → Q a s'

namespace Ensures

variable {P P' : σ → Prop} {x : StateT σ Option α} {Q Q' : α → σ → Prop} {R : β → σ → Prop}

theorem pure {a : α} (h : ∀ s, P s → Q a s) : Ensures P (Pure.pure a) Q := by
  intro s a' s' hs hx
  have hx' : some (a, s) = some (a', s') := hx
  obtain ⟨rfl, rfl⟩ : a = a' ∧ s = s' := by simpa using hx'
  exact h s hs

theorem of_failure : Ensures P (failure : StateT σ Option α) Q := by
  intro s a s' _ hx
  exact nomatch hx

theorem bind {f : α → StateT σ Option β} (h : Ensures P x Q)
    (hf : ∀ a, Ensures (Q a) (f a) R) : Ensures P (x >>= f) R := by
  intro s b s'' hs hx
  rw [bind_run, Option.bind_eq_some_iff] at hx
  obtain ⟨⟨a, s'⟩, hxs, hfs⟩ := hx
  exact hf a s' b s'' (h s a s' hs hxs) hfs

theorem conseq (h : Ensures P x Q) (hP : ∀ s, P' s → P s) (hQ : ∀ a s, Q a s → Q' a s) :
    Ensures P' x Q' := by
  intro s a s' hs hx
  exact hQ a s' (h s a s' (hP s hs) hx)

/-- It is enough to look at one initial state at a time. -/
theorem of_state (h : ∀ s₀, P s₀ → Ensures (fun s => s = s₀) x Q) : Ensures P x Q := by
  intro s a s' hs hx
  exact h s hs s a s' rfl hx

/-- A program on each entry of a list, if all of them keep the precondition. -/
theorem mapM {γ : Type} {f : γ → StateT σ Option α} {l : List γ}
    (h : ∀ c ∈ l, Ensures P (f c) fun _ => P) : Ensures P (l.mapM f) fun _ => P := by
  induction l with
  | nil =>
    rw [List.mapM_nil]
    exact pure fun _ hs => hs
  | cons c l ih =>
    rw [List.mapM_cons]
    refine (h c List.mem_cons_self).bind fun a => ?_
    refine (ih fun c' hc' => h c' (List.mem_cons_of_mem c hc')).bind fun as => ?_
    exact pure fun _ hs => hs

end Ensures
