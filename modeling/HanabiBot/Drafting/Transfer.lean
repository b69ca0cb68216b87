import HanabiBot.Drafting.Objects

/-!
# From steps to producers

If each step of one machine is simulated by the same step of another one, so is
every array method and every producer.

* `Transfer` — the steps are simulated, given a relation between the values that
  the two programs hold;
* `Transfer.run` — then a producer on the one machine is simulated by the same
  producer on the other.
-/

namespace HanabiBot.Drafting

variable {σ τ : Type}

/-- The steps of the first machine are simulated by those of the second one, on values
related by `held`. -/
structure Transfer (M₁ : Machine σ) (M₂ : Machine τ) (W : World σ τ)
    (held : Value → Value → τ → Prop) : Prop where
  mono : ∀ {v w t t'}, held v w t → W.le t t' → held v w t'
  prim : ∀ (p : Prim) (t : τ), held (.prim p) (.prim p) t
  eq_prim : ∀ {p w t}, held (.prim p) w t → w = .prim p
  get : ∀ {v w t} (k : Key), held v w t → Simulates W t (M₁.get v k) (M₂.get w k) held
  set : ∀ {v w v' w' t} (k : Key), held v w t → held v' w' t →
    Simulates W t (M₁.set v k v') (M₂.set w k w') fun _ _ _ => True
  delete : ∀ {v w t} (i : ℕ), held v w t →
    Simulates W t (M₁.delete v i) (M₂.delete w i) fun _ _ _ => True
  has : ∀ {v w t} (i : ℕ), held v w t →
    Simulates W t (M₁.has v i) (M₂.has w i) fun a b _ => a = b
  isArray : ∀ {v w t}, held v w t →
    Simulates W t (M₁.isArray v) (M₂.isArray w) fun a b _ => a = b
  alloc : ∀ (lit : Lit) (t : τ), Simulates W t (M₁.alloc lit) (M₂.alloc lit) held

namespace Transfer

variable {M₁ : Machine σ} {M₂ : Machine τ} {W : World σ τ} {held : Value → Value → τ → Prop}
  (h : Transfer M₁ M₂ W held)
include h

theorem length {o o' : Value} {t : τ} (ho : held o o' t) :
    Simulates W t (M₁.length o) (M₂.length o') fun a b _ => a = b := by
  unfold Machine.length
  apply (h.get .length ho).bind
  intro v v' t' _ hv
  split
  · obtain rfl := h.eq_prim hv
    exact .pure fun _ _ => rfl
  · exact .of_failure

theorem setLength {o o' : Value} {t : τ} (ho : held o o' t) (n : ℕ) :
    Simulates W t (M₁.setLength o n) (M₂.setLength o' n) fun _ _ _ => True :=
  h.set .length ho (h.prim _ t)

/-- The related items of two lists. -/
theorem mono_items {vs ws : List Value} {t t' : τ} (hitems : List.Forall₂ (held · · t) vs ws)
    (hle : W.le t t') : List.Forall₂ (held · · t') vs ws :=
  hitems.imp fun _ _ hv => h.mono hv hle

theorem setItems {o o' : Value} {vs ws : List Value} {t : τ} (ho : held o o' t)
    (hitems : List.Forall₂ (held · · t) vs ws) (i : ℕ) :
    Simulates W t (M₁.setItems o i vs) (M₂.setItems o' i ws) fun _ _ _ => True := by
  induction vs generalizing ws i t with
  | nil =>
    cases hitems
    exact .pure fun _ _ => trivial
  | cons v vs ih =>
    cases hitems with
    | cons hv hvs =>
      unfold Machine.setItems
      apply (h.set (.idx i) ho hv).bind
      intro _ _ t' hle _
      exact ih (h.mono ho hle) (h.mono_items hvs hle) (i + 1)

theorem move {o o' : Value} {t : τ} (ho : held o o' t) (source dest : ℕ) :
    Simulates W t (M₁.move o source dest) (M₂.move o' source dest) fun _ _ _ => True := by
  unfold Machine.move
  apply (h.has source ho).bind
  rintro present _ t' hle rfl
  cases present with
  | true =>
    apply (h.get (.idx source) (h.mono ho hle)).bind
    intro v v' t'' hle' hv
    exact h.set (.idx dest) (h.mono ho (W.le_trans hle hle')) hv
  | false => exact h.delete dest (h.mono ho hle)

theorem moveDown {o o' : Value} {t : τ} (ho : held o o' t) (source dest count : ℕ) :
    Simulates W t (M₁.moveDown o source dest count) (M₂.moveDown o' source dest count)
      fun _ _ _ => True := by
  induction count generalizing source dest t with
  | zero => exact .pure fun _ _ => trivial
  | succ count ih =>
    unfold Machine.moveDown
    apply (h.move ho source dest).bind
    intro _ _ t' hle _
    exact ih (h.mono ho hle) (source + 1) (dest + 1)

theorem moveUp {o o' : Value} {t : τ} (ho : held o o' t) (source dest count : ℕ) :
    Simulates W t (M₁.moveUp o source dest count) (M₂.moveUp o' source dest count)
      fun _ _ _ => True := by
  induction count generalizing t with
  | zero => exact .pure fun _ _ => trivial
  | succ count ih =>
    unfold Machine.moveUp
    apply (h.move ho (source + count) (dest + count)).bind
    intro _ _ t' hle _
    exact ih (h.mono ho hle)

theorem deleteDown {o o' : Value} {t : τ} (ho : held o o' t) (i count : ℕ) :
    Simulates W t (M₁.deleteDown o i count) (M₂.deleteDown o' i count) fun _ _ _ => True := by
  induction count generalizing t with
  | zero => exact .pure fun _ _ => trivial
  | succ count ih =>
    unfold Machine.deleteDown
    apply (h.delete (i + count) ho).bind
    intro _ _ t' hle _
    exact ih (h.mono ho hle)

theorem collect {o o' : Value} {t : τ} (ho : held o o' t) (i count : ℕ) :
    Simulates W t (M₁.collect o i count) (M₂.collect o' i count) fun _ _ _ => True := by
  induction count generalizing i t with
  | zero => exact .pure fun _ _ => trivial
  | succ count ih =>
    unfold Machine.collect
    apply (h.has i ho).bind
    rintro present _ t' hle rfl
    cases present with
    | true =>
      apply (h.get (.idx i) (h.mono ho hle)).bind
      intro _ _ t'' hle' _
      exact ih (h.mono ho (W.le_trans hle hle')) (i + 1)
    | false => exact ih (h.mono ho hle) (i + 1)

theorem push {o o' : Value} {vs ws : List Value} {t : τ} (ho : held o o' t)
    (hitems : List.Forall₂ (held · · t) vs ws) :
    Simulates W t (M₁.push o vs) (M₂.push o' ws) fun _ _ _ => True := by
  unfold Machine.push
  apply (h.length ho).bind
  rintro len _ t' hle rfl
  apply (h.setItems (h.mono ho hle) (h.mono_items hitems hle) len).bind
  intro _ _ t'' hle' _
  rw [hitems.length_eq]
  exact h.setLength (h.mono ho (W.le_trans hle hle')) _

theorem pop {o o' : Value} {t : τ} (ho : held o o' t) :
    Simulates W t (M₁.pop o) (M₂.pop o') fun _ _ _ => True := by
  unfold Machine.pop
  apply (h.length ho).bind
  rintro len _ t₁ hle₁ rfl
  have ho₁ := h.mono ho hle₁
  split
  · exact h.setLength ho₁ 0
  · apply (h.get _ ho₁).bind
    intro _ _ t₂ hle₂ _
    have ho₂ := h.mono ho₁ hle₂
    apply (h.delete _ ho₂).bind
    intro _ _ t₃ hle₃ _
    exact h.setLength (h.mono ho₂ hle₃) _

theorem shift {o o' : Value} {t : τ} (ho : held o o' t) :
    Simulates W t (M₁.shift o) (M₂.shift o') fun _ _ _ => True := by
  unfold Machine.shift
  apply (h.length ho).bind
  rintro len _ t₁ hle₁ rfl
  have ho₁ := h.mono ho hle₁
  split
  · exact h.setLength ho₁ 0
  · apply (h.get _ ho₁).bind
    intro _ _ t₂ hle₂ _
    have ho₂ := h.mono ho₁ hle₂
    apply (h.moveDown ho₂ 1 0 (len - 1)).bind
    intro _ _ t₃ hle₃ _
    have ho₃ := h.mono ho₂ hle₃
    apply (h.delete _ ho₃).bind
    intro _ _ t₄ hle₄ _
    exact h.setLength (h.mono ho₃ hle₄) _

theorem unshift {o o' : Value} {vs ws : List Value} {t : τ} (ho : held o o' t)
    (hitems : List.Forall₂ (held · · t) vs ws) :
    Simulates W t (M₁.unshift o vs) (M₂.unshift o' ws) fun _ _ _ => True := by
  unfold Machine.unshift
  apply (h.length ho).bind
  rintro len _ t₁ hle₁ rfl
  have ho₁ := h.mono ho hle₁
  have hnil : vs = [] ↔ ws = [] := by
    rw [← List.length_eq_zero_iff, hitems.length_eq, List.length_eq_zero_iff]
  by_cases hvs : vs = []
  · rw [if_pos hvs, if_pos (hnil.1 hvs)]
    exact h.setLength ho₁ len
  · rw [if_neg hvs, if_neg fun hws => hvs (hnil.2 hws), hitems.length_eq]
    apply (h.moveUp ho₁ 0 ws.length len).bind
    intro _ _ t₂ hle₂ _
    have ho₂ := h.mono ho₁ hle₂
    apply (h.setItems ho₂ (h.mono_items hitems (W.le_trans hle₁ hle₂)) 0).bind
    intro _ _ t₃ hle₃ _
    exact h.setLength (h.mono ho₂ hle₃) _

theorem splice {o o' : Value} {vs ws : List Value} {t : τ} (ho : held o o' t)
    (hitems : List.Forall₂ (held · · t) vs ws) (start : ℤ) (deleteCount : Option ℤ) :
    Simulates W t (M₁.splice o start deleteCount vs) (M₂.splice o' start deleteCount ws)
      fun _ _ _ => True := by
  unfold Machine.splice
  rw [hitems.length_eq]
  apply (h.length ho).bind
  rintro len _ t₁ hle₁ rfl
  have ho₁ := h.mono ho hle₁
  have hitems₁ := h.mono_items hitems hle₁
  extract_lets i count
  apply (h.collect ho₁ i count).bind
  intro _ _ t₂ hle₂ _
  have ho₂ := h.mono ho₁ hle₂
  have hitems₂ := h.mono_items hitems₁ hle₂
  have finish : ∀ {t₃}, W.le t₂ t₃ → Simulates W t₃
      (do M₁.setItems o i vs; M₁.setLength o (len - count + ws.length))
      (do M₂.setItems o' i ws; M₂.setLength o' (len - count + ws.length))
      fun _ _ _ => True := by
    intro t₃ hle₃
    have ho₃ := h.mono ho₂ hle₃
    apply (h.setItems ho₃ (h.mono_items hitems₂ hle₃) i).bind
    intro _ _ t₄ hle₄ _
    exact h.setLength (h.mono ho₃ hle₄) _
  split
  · apply (h.moveDown ho₂ _ _ _).bind
    intro _ _ t₃ hle₃ _
    apply (h.deleteDown (h.mono ho₂ hle₃) _ _).bind
    intro _ _ t₄ hle₄ _
    exact finish (W.le_trans hle₃ hle₄)
  · split
    · apply (h.moveUp ho₂ _ _ _).bind
      intro _ _ t₃ hle₃ _
      exact finish hle₃
    · exact finish (W.le_refl t₂)

/-! ## Producers -/

theorem allocAll (lits : List Lit) (t : τ) :
    Simulates W t (M₁.allocAll lits) (M₂.allocAll lits)
      fun vs ws t' => List.Forall₂ (held · · t') vs ws := by
  induction lits generalizing t with
  | nil => exact .pure fun _ _ => .nil
  | cons lit lits ih =>
    unfold Machine.allocAll
    apply (h.alloc lit t).bind
    intro v w t' _ hv
    apply (ih t').bind
    intro vs ws t'' hle' hvs
    exact .pure fun t₃ hle => .cons (h.mono hv (W.le_trans hle' hle)) (h.mono_items hvs hle)

theorem follow {v w : Value} {t : τ} (hv : held v w t) (path : List Key) :
    Simulates W t (M₁.follow v path) (M₂.follow w path) held := by
  induction path generalizing v w t with
  | nil => exact .pure fun t' hle => h.mono hv hle
  | cons k path ih =>
    unfold Machine.follow
    apply (h.get k hv).bind
    intro v' w' t' _ hv'
    exact ih hv'

theorem runMethod {o o' : Value} {t : τ} (ho : held o o' t) (method : Method) :
    Simulates W t (M₁.runMethod o method) (M₂.runMethod o' method) fun _ _ _ => True := by
  cases method with
  | push items =>
    apply (h.allocAll items t).bind
    intro vs ws t' hle hitems
    exact h.push (h.mono ho hle) hitems
  | pop => exact h.pop ho
  | shift => exact h.shift ho
  | unshift items =>
    apply (h.allocAll items t).bind
    intro vs ws t' hle hitems
    exact h.unshift (h.mono ho hle) hitems
  | splice start deleteCount items =>
    apply (h.allocAll items t).bind
    intro vs ws t' hle hitems
    exact h.splice (h.mono ho hle) hitems start deleteCount

theorem runAct {o o' : Value} {t : τ} (ho : held o o' t) (act : Act) :
    Simulates W t (M₁.runAct o act) (M₂.runAct o' act) fun _ _ _ => True := by
  cases act with
  | read k =>
    apply (h.get k ho).bind
    intro _ _ t' _ _
    exact .pure fun _ _ => trivial
  | assign k value =>
    apply (h.alloc value t).bind
    intro v w t' hle hv
    exact h.set k (h.mono ho hle) hv
  | call method =>
    apply (h.isArray ho).bind
    rintro isArray _ t' hle rfl
    cases isArray with
    | true => exact h.runMethod (h.mono ho hle) method
    | false => exact .of_failure

/-- A producer is simulated if its steps are. -/
theorem run {root root' : Value} {t : τ} (hroot : held root root' t) (producer : List Step) :
    Simulates W t (M₁.run root producer) (M₂.run root' producer) fun _ _ _ => True := by
  induction producer generalizing t with
  | nil => exact .pure fun _ _ => trivial
  | cons step steps ih =>
    unfold Machine.run
    apply (h.follow hroot step.path).bind
    intro o o' t' hle ho
    apply (h.runAct ho step.act).bind
    intro _ _ t'' hle' _
    exact ih (h.mono hroot (W.le_trans hle hle'))

end Transfer

end HanabiBot.Drafting
