import Mathlib

/-!
# Programs with a state and errors

`Prog σ ε α` computes an `α` from a state `σ`, or fails with an `ε`; what it wrote
to the state before failing stays.  Three ways of reasoning about such programs,
each with one rule for every construct:

* `Triple P m Q E` — from every state in `P`, the program ends in `Q`, or fails in `E`;
* `Sat I E m Q` — the program keeps the invariant `I`, its results satisfy `Q` and its
  errors satisfy `E`; also for the loops `anyM` and `filterMapM`;
* `Agree R F m m'` — from related states, two programs end in related states with
  the same outcome, unless one of them fails with an error of `F`; also for the loops.
-/

/-- A computation with a state that can fail. -/
abbrev Prog (σ ε α : Type) := ExceptT ε (StateM σ) α

namespace Prog

variable {σ τ ε α β : Type}

/-- The outcome of a program from a state, and the state it leaves. -/
def exec (m : Prog σ ε α) (s : σ) : Except ε α × σ := StateT.run (ExceptT.run m) s

@[simp] theorem exec_pure (a : α) (s : σ) : exec (pure a : Prog σ ε α) s = (.ok a, s) := rfl

@[simp] theorem exec_throw (e : ε) (s : σ) : exec (throw e : Prog σ ε α) s = (.error e, s) := rfl

@[simp] theorem exec_get (s : σ) : exec (get : Prog σ ε σ) s = (.ok s, s) := rfl

@[simp] theorem exec_modify (f : σ → σ) (s : σ) :
    exec (modify f : Prog σ ε PUnit) s = (.ok ⟨⟩, f s) := rfl

theorem exec_bind (m : Prog σ ε α) (f : α → Prog σ ε β) (s : σ) :
    exec (m >>= f) s = match exec m s with
      | (.ok a, s') => exec (f a) s'
      | (.error e, s') => (.error e, s') := by
  change (match exec m s with | (r, s') => StateT.run (ExceptT.bindCont f r) s') = _
  rcases exec m s with ⟨r, s'⟩
  cases r <;> rfl

/-- A program that succeeds has one result. -/
theorem pure_inj (s : σ) {a b : α} (h : (pure a : Prog σ ε α) = pure b) : a = b := by
  have hexec := congrArg (fun m => (exec m s).1) h
  simpa using hexec

theorem throw_ne_pure (s : σ) (e : ε) (a : α) : (throw e : Prog σ ε α) ≠ pure a := by
  intro h
  have hexec := congrArg (fun m => (exec m s).1) h
  simp at hexec

/-- The value of an option, or an error. -/
def ofOption (e : ε) : Option α → Prog σ ε α
  | some a => pure a
  | none => throw e

@[simp] theorem ofOption_some (e : ε) (a : α) : (ofOption e (some a) : Prog σ ε α) = pure a := rfl

/-- A loop whose steps all succeed without touching the state. -/
theorem mapM_eq_pure {f : α → Prog σ ε β} {g : α → β} {l : List α} (h : ∀ a ∈ l, f a = pure (g a)) :
    l.mapM f = pure (l.map g) := by
  induction l with
  | nil => rfl
  | cons a l ih =>
    have hl := ih fun x hx => h x (List.mem_cons_of_mem a hx)
    simp [List.mapM_cons, h a List.mem_cons_self, hl]

/-! ## Triples -/

/-- From every state in `P` the program ends in `Q`, or fails in `E`. -/
def Triple (P : σ → Prop) (m : Prog σ ε α) (Q : α → σ → Prop) (E : ε → σ → Prop) : Prop :=
  ∀ s, P s → match exec m s with
    | (.ok a, s') => Q a s'
    | (.error e, s') => E e s'

section Triple

variable {P P' : σ → Prop} {m : Prog σ ε α} {Q Q' : α → σ → Prop} {E E' : ε → σ → Prop}

theorem Triple.conseq (h : Triple P m Q E) (hP : ∀ s, P' s → P s) (hQ : ∀ a s, Q a s → Q' a s)
    (hE : ∀ e s, E e s → E' e s) : Triple P' m Q' E' := by
  intro s hs
  have := h s (hP s hs)
  revert this
  rcases exec m s with ⟨r, s'⟩
  cases r with
  | error e => exact hE e s'
  | ok a => exact hQ a s'

/-- What the precondition says of the values alone may be assumed. -/
theorem Triple.assume {φ : Prop} (h : ∀ s, P s → φ) (hm : φ → Triple P m Q E) : Triple P m Q E :=
  fun s hs => hm (h s hs) s hs

theorem Triple.pure {a : α} (h : ∀ s, P s → Q a s) :
    Triple P (Pure.pure a : Prog σ ε α) Q E := h

theorem Triple.throw {e : ε} (h : ∀ s, P s → E e s) : Triple P (throw e : Prog σ ε α) Q E := h

theorem Triple.bind {f : α → Prog σ ε β} {R : β → σ → Prop} (h : Triple P m Q E)
    (hf : ∀ a, Triple (Q a) (f a) R E) : Triple P (m >>= f) R E := by
  intro s hs
  have h1 := h s hs
  rw [exec_bind]
  revert h1
  rcases exec m s with ⟨r, s'⟩
  cases r with
  | error e => exact id
  | ok a => exact fun h1 => hf a s' h1

/-- Two things that are known of a program. -/
theorem Triple.and {P₂ : σ → Prop} {Q₂ : α → σ → Prop} {E₂ : ε → σ → Prop} (h : Triple P m Q E)
    (h₂ : Triple P₂ m Q₂ E₂) : Triple (fun s => P s ∧ P₂ s) m (fun a s => Q a s ∧ Q₂ a s)
      fun e s => E e s ∧ E₂ e s := by
  intro s hs
  have h1 := h s hs.1
  have h2 := h₂ s hs.2
  revert h1 h2
  rcases exec m s with ⟨r, s'⟩
  cases r <;> exact And.intro

/-- The outcome of a run. -/
theorem Triple.exec_ok (h : Triple P m Q E) {s : σ} {a : α} (hs : P s)
    (hr : (exec m s).1 = .ok a) : Q a (exec m s).2 := by
  have := h s hs
  rcases he : exec m s with ⟨r, s'⟩
  rw [he] at this hr
  cases hr
  exact this

theorem Triple.exec_error (h : Triple P m Q E) {s : σ} {e : ε} (hs : P s)
    (hr : (exec m s).1 = .error e) : E e (exec m s).2 := by
  have := h s hs
  rcases he : exec m s with ⟨r, s'⟩
  rw [he] at this hr
  cases hr
  exact this

end Triple

/-! ## Invariants -/

/-- The program keeps `I`; its results satisfy `Q` and its errors `E`. -/
def Sat (I : σ → Prop) (E : ε → Prop) (m : Prog σ ε α) (Q : α → Prop) : Prop :=
  Triple I m (fun a s => Q a ∧ I s) (fun e s => E e ∧ I s)

section Sat

variable {I : σ → Prop} {E : ε → Prop} {m : Prog σ ε α} {Q Q' : α → Prop}

theorem Sat.mono (h : Sat I E m Q) (hQ : ∀ a, Q a → Q' a) : Sat I E m Q' :=
  h.conseq (fun _ => id) (fun a _ => And.imp_left (hQ a)) fun _ _ => id

theorem Sat.pure {a : α} (h : Q a) : Sat I E (Pure.pure a : Prog σ ε α) Q :=
  Triple.pure fun _ hs => ⟨h, hs⟩

theorem Sat.bind {f : α → Prog σ ε β} {P : β → Prop} (h : Sat I E m Q)
    (hf : ∀ a, Q a → Sat I E (f a) P) : Sat I E (m >>= f) P :=
  Triple.bind h fun a s hs => hf a hs.1 s hs.2

/-- A program that never fails, by what it does from every state. -/
theorem Sat.of_ok (h : ∀ s, I s → ∃ a s', exec m s = (.ok a, s') ∧ Q a ∧ I s') : Sat I E m Q := by
  intro s hs
  obtain ⟨a, s', hrun, hok⟩ := h s hs
  rw [hrun]
  exact hok

theorem Sat.throw {e : ε} (h : E e) : Sat I E (throw e : Prog σ ε α) Q :=
  Triple.throw fun _ hs => ⟨h, hs⟩

theorem Sat.get : Sat I E (MonadStateOf.get : Prog σ ε σ) I := fun _ hs => ⟨hs, hs⟩

theorem Sat.modify {f : σ → σ} (h : ∀ s, I s → I (f s)) :
    Sat I E (modify f : Prog σ ε PUnit) fun _ => True := fun s hs => ⟨trivial, h s hs⟩

theorem Sat.ofOption {e : ε} {o : Option α} (h : ∀ a, o = some a → Q a) (he : o = none → E e) :
    Sat I E (ofOption e o) Q := by
  cases o with
  | none => exact Sat.throw (he rfl)
  | some a => exact Sat.pure (h a rfl)

/-- A loop that stops at the first success: it succeeds at some element, or fails at all. -/
theorem Sat.anyM {p : α → Prog σ ε Bool} {P : α → Bool → Prop} {l : List α}
    (h : ∀ a ∈ l, Sat I E (p a) (P a)) :
    Sat I E (l.anyM p) fun b => if b = true then ∃ a ∈ l, P a true else ∀ a ∈ l, P a false := by
  induction l with
  | nil => exact Sat.pure (by simp)
  | cons a l ih =>
    rw [List.anyM_cons]
    refine (h a List.mem_cons_self).bind fun b hb => ?_
    cases b with
    | true => exact Sat.pure (by simpa using Or.inl hb)
    | false =>
      refine (ih fun a' ha' => h a' (List.mem_cons_of_mem _ ha')).mono fun b hb' => ?_
      cases b with
      | true => simpa using Or.inr (by simpa using hb')
      | false => simpa using ⟨hb, by simpa using hb'⟩

/-- A loop that collects results: the elements that gave one, in order, and their results. -/
theorem Sat.filterMapM {f : α → Prog σ ε (Option β)} {P : α → Option β → Prop} {l : List α}
    (h : ∀ a ∈ l, Sat I E (f a) (P a)) :
    Sat I E (l.filterMapM f) fun bs => ∃ ps : List (α × β), bs = ps.map Prod.snd ∧
      (ps.map Prod.fst).Sublist l ∧ (∀ x ∈ ps, P x.1 (some x.2)) ∧
      ∀ a ∈ l, P a none ∨ a ∈ ps.map Prod.fst := by
  induction l with
  | nil => exact Sat.pure ⟨[], by simp⟩
  | cons a l ih =>
    rw [List.filterMapM_cons]
    refine (h a List.mem_cons_self).bind fun b hb => ?_
    have hl := ih fun a' ha' => h a' (List.mem_cons_of_mem _ ha')
    cases b with
    | none =>
      refine hl.mono fun bs ⟨ps, hbs, hsub, hP, hall⟩ => ⟨ps, hbs, hsub.cons a, hP, ?_⟩
      intro a' ha'
      rcases List.mem_cons.1 ha' with rfl | ha'
      · exact Or.inl hb
      · exact hall a' ha'
    | some b =>
      refine hl.bind fun bs ⟨ps, hbs, hsub, hP, hall⟩ =>
        Sat.pure ⟨(a, b) :: ps, by rw [hbs]; rfl, hsub.cons_cons a, ?_, ?_⟩
      · intro x hx
        rcases List.mem_cons.1 hx with rfl | hx
        · exact hb
        · exact hP x hx
      · intro a' ha'
        rcases List.mem_cons.1 ha' with rfl | ha'
        · exact Or.inr List.mem_cons_self
        · exact (hall a' ha').imp_right (List.mem_cons_of_mem a)

/-- A loop over all elements: each result belongs to its element. -/
theorem Sat.mapM {f : α → Prog σ ε β} {P : α → β → Prop} {l : List α}
    (h : ∀ a ∈ l, Sat I E (f a) (P a)) :
    Sat I E (l.mapM f) fun bs => bs.length = l.length ∧ ∀ x ∈ l.zip bs, P x.1 x.2 := by
  induction l with
  | nil => exact Sat.pure (by simp)
  | cons a l ih =>
    rw [List.mapM_cons]
    refine (h a List.mem_cons_self).bind fun b hb => ?_
    refine (ih fun a' ha' => h a' (List.mem_cons_of_mem _ ha')).bind fun bs hbs => ?_
    refine Sat.pure ⟨by rw [List.length_cons, List.length_cons, hbs.1], fun x hx => ?_⟩
    rw [List.zip_cons_cons] at hx
    rcases List.mem_cons.1 hx with rfl | hx
    · exact hb
    · exact hbs.2 x hx

end Sat

/-! ## Agreement -/

/-- Two outcomes are the same, or one of them is an error of `F`. -/
def Agree (R : σ → τ → Prop) (F : ε → Prop) (m : Prog σ ε α) (m' : Prog τ ε α) : Prop :=
  ∀ s t, R s t →
    ((∃ e, F e ∧ (exec m s).1 = .error e) ∨ ∃ e, F e ∧ (exec m' t).1 = .error e) ∨
      (exec m s).1 = (exec m' t).1 ∧ R (exec m s).2 (exec m' t).2

section Agree

variable {R : σ → τ → Prop} {F : ε → Prop} {m : Prog σ ε α} {m' : Prog τ ε α}

theorem Agree.pure (a : α) : Agree R F (Pure.pure a : Prog σ ε α) (Pure.pure a : Prog τ ε α) :=
  fun _ _ h => .inr ⟨rfl, h⟩

theorem Agree.throw (e : ε) :
    Agree R F (throw e : Prog σ ε α) (MonadExcept.throw e : Prog τ ε α) :=
  fun _ _ h => .inr ⟨rfl, h⟩

/-- An error of `F` agrees with everything. -/
theorem Agree.throw_left {e : ε} (h : F e) : Agree R F (MonadExcept.throw e) m' :=
  fun _ _ _ => .inl (.inl ⟨e, h, rfl⟩)

theorem Agree.throw_right {e : ε} (h : F e) : Agree R F m (MonadExcept.throw e) :=
  fun _ _ _ => .inl (.inr ⟨e, h, rfl⟩)

/-- How to go on is to be compared for the results that the second program has. -/
theorem Agree.bind {f : α → Prog σ ε β} {f' : α → Prog τ ε β} (h : Agree R F m m')
    (hf : ∀ a, (∃ s t, R s t ∧ (exec m' t).1 = .ok a) → Agree R F (f a) (f' a)) :
    Agree R F (m >>= f) (m' >>= f') := by
  intro s t hst
  have h1 := h s t hst
  rw [exec_bind, exec_bind]
  rcases he : exec m s with ⟨r, s'⟩
  rcases he' : exec m' t with ⟨r', t'⟩
  rw [he, he'] at h1
  obtain (⟨e, hF, rfl⟩ | ⟨e, hF, rfl⟩) | ⟨rfl, hR⟩ := h1
  · exact .inl (.inl ⟨e, hF, rfl⟩)
  · exact .inl (.inr ⟨e, hF, rfl⟩)
  · cases r with
    | error e => exact .inr ⟨rfl, hR⟩
    | ok a => exact hf a ⟨s, t, hst, congrArg Prod.fst he'⟩ s' t' hR

theorem Agree.filterMapM {f : β → Prog σ ε (Option α)} {f' : β → Prog τ ε (Option α)}
    {l : List β} (h : ∀ b ∈ l, Agree R F (f b) (f' b)) :
    Agree R F (l.filterMapM f) (l.filterMapM f') := by
  induction l with
  | nil => exact Agree.pure []
  | cons b l ih =>
    rw [List.filterMapM_cons, List.filterMapM_cons]
    have hl := ih fun x hx => h x (List.mem_cons_of_mem b hx)
    refine (h b List.mem_cons_self).bind fun a _ => ?_
    cases a with
    | none => exact hl
    | some a => exact hl.bind fun as _ => Agree.pure (a :: as)

theorem Agree.anyM {f : β → Prog σ ε Bool} {f' : β → Prog τ ε Bool} {l : List β}
    (h : ∀ b ∈ l, Agree R F (f b) (f' b)) : Agree R F (l.anyM f) (l.anyM f') := by
  induction l with
  | nil => exact Agree.pure false
  | cons b l ih =>
    rw [List.anyM_cons, List.anyM_cons]
    refine (h b List.mem_cons_self).bind fun a _ => ?_
    cases a with
    | true => exact Agree.pure true
    | false => exact ih fun x hx => h x (List.mem_cons_of_mem b hx)

end Agree

end Prog
