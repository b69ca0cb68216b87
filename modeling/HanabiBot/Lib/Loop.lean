import HanabiBot.Lib.Fuel

/-!
# While loops

A loop is given by what one round does to the variables: go on with new ones, or stop.
`loop` runs it with fuel, and `Visited` says which variables the rounds start from.

* `returns_of_measure`, `returns_invariant` — a loop whose rounds make a measure smaller
  ends, and in what;
* `returns_of_trace` — so does one whose rounds are known;
* `Visited.invariant` — what every round keeps holds whenever a round starts.
-/

namespace Loop

variable {σ : Type*}

/-- What a round of a loop comes to. -/
inductive Outcome (σ : Type*)
  | next (s : σ)
  | stop (s : σ)
  deriving DecidableEq

/-- The loop, with as many rounds as there is fuel for. -/
def loop (round : σ → Outcome σ) : ℕ → σ → Option σ
  | 0, _ => none
  | fuel + 1, s =>
    match round s with
    | .next s' => loop round fuel s'
    | .stop s' => some s'

/-- The variables at the start of the rounds of a loop from `start` on. -/
inductive Visited (round : σ → Outcome σ) (start : σ) : σ → Prop
  | start : Visited round start start
  | next {s s' : σ} : Visited round start s → round s = .next s' → Visited round start s'

variable {round : σ → Outcome σ} {start : σ}

/-- A loop that first takes a round. -/
theorem Visited.head {s s' : σ} (h : round start = .next s') (hs : Visited round s' s) :
    Visited round start s := by
  induction hs with
  | start => exact .next .start h
  | next _ hround ih => exact .next ih hround

theorem Visited.eq_or_head {s : σ} (hs : Visited round start s) :
    s = start ∨ ∃ s', round start = .next s' ∧ Visited round s' s := by
  induction hs with
  | start => exact .inl rfl
  | next _ hround ih =>
    obtain rfl | ⟨s', hs', hv⟩ := ih
    · exact .inr ⟨_, hround, .start⟩
    · exact .inr ⟨s', hs', hv.next hround⟩

/-- Of two variables that a loop visits, one is visited from the other. -/
theorem Visited.total {s t : σ} (hs : Visited round start s) (ht : Visited round start t) :
    Visited round s t ∨ Visited round t s := by
  induction hs with
  | start => exact .inl ht
  | next _ hround ih =>
    obtain hst | hts := ih
    · obtain rfl | ⟨s', hs', hv⟩ := hst.eq_or_head
      · exact .inr (.next .start hround)
      · obtain rfl := Outcome.next.inj (hround.symm.trans hs')
        exact .inl hv
    · exact .inr (hts.next hround)

/-- What is visited after a round, if the loop stops elsewhere. -/
theorem Visited.after {s s' t result : σ} (hs : Visited round start s)
    (ht : Visited round start t) (hround : round s = .next s') (hstop : round t = .stop result) :
    Visited round s' t := by
  have hlater : ∀ {x y : σ}, round x = .next y → Visited round x t → Visited round y t := by
    intro x y hx hv
    obtain rfl | ⟨z, hz, hv⟩ := hv.eq_or_head
    · exact nomatch hx.symm.trans hstop
    · obtain rfl := Outcome.next.inj (hx.symm.trans hz)
      exact hv
  obtain hst | hts := hs.total ht
  · exact hlater hround hst
  · obtain rfl | ⟨z, hz, -⟩ := hts.eq_or_head
    · exact nomatch hround.symm.trans hstop
    · exact nomatch hz.symm.trans hstop

theorem Visited.invariant {Inv : σ → Prop} (hstart : Inv start)
    (hnext : ∀ s s', Visited round start s → Inv s → round s = .next s' → Inv s') {s : σ}
    (hs : Visited round start s) : Inv s := by
  induction hs with
  | start => exact hstart
  | next hs hround ih => exact hnext _ _ hs ih hround

/-- A loop whose rounds make a measure smaller stops, after a round from variables that it
visits. -/
theorem returns_of_measure {Inv : σ → Prop} (measure : σ → ℕ)
    (hnext : ∀ s s', Inv s → round s = .next s' → Inv s' ∧ measure s' < measure s)
    (hstart : Inv start) :
    Fuel.Returns (fun fuel => loop round fuel start) fun result =>
      ∃ s, Visited round start s ∧ round s = .stop result := by
  induction hm : measure start using Nat.strong_induction_on generalizing start with
  | _ m ih =>
    cases hround : round start with
    | stop result =>
      refine Fuel.Returns.step (g := fun _ => some result) (fun fuel => ?_)
        (.pure ⟨start, .start, hround⟩)
      simp only [loop, hround]
    | next s' =>
      obtain ⟨hinv, hlt⟩ := hnext start s' hstart hround
      refine Fuel.Returns.step (g := fun fuel => loop round fuel s') (fun fuel => ?_)
        ((ih _ (hm ▸ hlt) hinv rfl).mono ?_)
      · simp only [loop, hround]
      · rintro result ⟨s, hs, hstop⟩
        exact ⟨s, hs.head hround, hstop⟩

/-- A loop whose rounds are known up to the one that it stops at. -/
theorem returns_of_trace (trace : ℕ → σ) {n : ℕ} {result : σ}
    (hnext : ∀ k < n, round (trace k) = .next (trace (k + 1)))
    (hstop : round (trace n) = .stop result) :
    Fuel.Returns (fun fuel => loop round fuel (trace 0)) (· = result) := by
  induction n generalizing trace with
  | zero =>
    refine Fuel.Returns.step (g := fun _ => some result) (fun fuel => ?_) (.pure rfl)
    simp only [loop, hstop]
  | succ n ih =>
    have hrest := ih (fun k => trace (k + 1)) (fun k hk => hnext (k + 1) (by omega)) hstop
    refine Fuel.Returns.step (fun fuel => ?_) hrest
    simp only [loop, hnext 0 (Nat.succ_pos n)]

/-- What a loop keeps that makes a measure smaller holds when it stops. -/
theorem returns_invariant {Inv : σ → Prop} (measure : σ → ℕ)
    (hnext : ∀ s s', Inv s → round s = .next s' → Inv s' ∧ measure s' < measure s)
    (hstart : Inv start) :
    Fuel.Returns (fun fuel => loop round fuel start) fun result =>
      ∃ s, Inv s ∧ round s = .stop result := by
  refine (returns_of_measure measure hnext hstart).mono ?_
  rintro result ⟨s, hs, hstop⟩
  exact ⟨s, hs.invariant hstart fun s s' _ hinv hround => (hnext s s' hinv hround).1, hstop⟩

end Loop
