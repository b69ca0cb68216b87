import Mathlib

/-!
# Programs that may fail, one result at a time

`m.Yields Q` says that the result of `m`, if it has one, satisfies `Q`; nothing
is said of a failing program.

* `Yields.pure`, `Yields.error`, `Yields.bind`, `Yields.map` — one rule for each construct;
* `Yields.foldlM`, `Yields.mapM` — an invariant of a loop, and the results of one.
-/

namespace Except

variable {α β ε : Type}

/-- The result of the program, if there is one, satisfies `Q`. -/
def Yields (m : Except ε α) (Q : α → Prop) : Prop := ∀ a, m = .ok a → Q a

namespace Yields

variable {m : Except ε α} {P Q : α → Prop} {R : β → Prop}

theorem pure {a : α} (h : Q a) : Yields (.ok a : Except ε α) Q := by
  rintro _ ⟨⟩
  exact h

theorem error {e : ε} : Yields (.error e : Except ε α) Q := by
  rintro _ ⟨⟩

theorem mono (h : m.Yields P) (hPQ : ∀ a, P a → Q a) : m.Yields Q := by
  intro a ha
  exact hPQ a (h a ha)

theorem bind {f : α → Except ε β} (h : m.Yields Q) (hf : ∀ a, Q a → (f a).Yields R) :
    (m.bind f).Yields R := by
  intro b hb
  cases m with
  | error e => cases hb
  | ok a => exact hf a (h a rfl) b hb

theorem map {f : α → β} (h : m.Yields fun a => R (f a)) : (m.map f).Yields R := by
  intro b hb
  cases m with
  | error e => cases hb
  | ok a =>
    cases hb
    exact h a rfl

variable {f : β → α → Except ε β} {l : List α} {b : β}

/-- A loop keeps its invariant. -/
theorem foldlM {I : β → Prop} (hb : I b) (hstep : ∀ a ∈ l, ∀ b, I b → (f b a).Yields I) :
    (l.foldlM f b).Yields I := by
  induction l generalizing b with
  | nil => exact .pure hb
  | cons a l ih =>
    rw [List.foldlM_cons]
    refine bind (hstep a List.mem_cons_self b hb) fun b' hb' => ?_
    exact ih hb' fun a' ha' => hstep a' (List.mem_cons_of_mem a ha')

theorem mapM {g : α → Except ε β} {S : α → β → Prop} (h : ∀ a ∈ l, (g a).Yields (S a)) :
    (l.mapM g).Yields (List.Forall₂ S l) := by
  induction l with
  | nil => exact .pure .nil
  | cons a l ih =>
    rw [List.mapM_cons]
    refine bind (h a List.mem_cons_self) fun b hb => ?_
    refine bind (ih fun a' ha' => h a' (List.mem_cons_of_mem a ha')) fun bs hbs => ?_
    exact .pure (.cons hb hbs)

end Yields

end Except
