import HanabiBot.Endgame.Alike
import HanabiBot.Endgame.Outcome
import HanabiBot.Endgame.Winrate

/-!
# The caches are transparent

`simple_cache` and `simpler_cache` live across the calls of `solve_game`, and their keys leave
out much of a position.  A run with the caches is compared with one in which every
lookup finds them empty.

* `Territory` — positions among which a key tells what the searches read;
* `Faithful` — every stored result is what the search without caches finds;
* `agree_winnableSimpler`, `agree_search` — a search of the territory keeps `Faithful`, and
  finds what it would find without caches;
* `outcomes_eq` — so do all calls of `solve_game`, one after the other.
-/

namespace HanabiBot.Endgame

variable {κ : Type}

/-! ## The positions of a run -/

/-- An action that is offered with `rem` missing leads to a position that is searched. -/
inductive Leads (x : Position κ) (rem : RemainingSet) : Position κ → Prop
  | mk {offer : Offer} {d : Option Remaining} {x' : Position κ} : x.Offered rem offer →
      d ∈ x.draws offer.action → x.after offer.action d = .ok x' → x.Pursues offer d x' →
      Leads x rem x'

/-- What the perfect-information search is called with from a position, with `rem` missing. -/
inductive Asks (x : Position κ) (rem : RemainingSet) : State → RemainingSet → Prop
  | mk {action : PerformAction} {st : State} {rem' : RemainingSet} :
      action ∈ candidates x.conv x.game x.turn → Follows x.game.state action rem st rem' →
      Asks x rem st rem'

/-- Positions, and states for the perfect-information search, that are closed under what the
searches go on with, and in which a key tells all that they read. -/
structure Territory (κ : Type) where
  position : Position κ → Prop
  simple : State → ℕ → RemainingSet → Prop
  leads : ∀ {x x'}, position x → x.Explored → Leads x x.remaining x' → position x'
  asks : ∀ {x st rem}, position x → x.Explored → Asks x x.remaining st rem → simple st x.next rem
  follows : ∀ {st p rem action st' rem'}, simple st p rem → Open st p →
    action ∈ simplerActions st p → Follows st action rem st' rem' →
    simple st' (st.nextPlayerIndex p) rem'
  alike : ∀ {x y}, position x → position y → x.key = y.key → Alike x y
  board_eq : ∀ {st st' p rem}, simple st p rem → simple st' p rem → hashState st = hashState st' →
    st.board = st'.board

/-! ## What is stored -/

/-- Without caches, the program returns `a`, or runs out of fuel. -/
def Finds {α : Type} (m : SolverM α) (a : α) : Prop :=
  ∀ s, Uncached s → (Prog.exec m s).1 = .ok a ∨ (Prog.exec m s).1 = .error .outOfFuel

/-- Every result that is stored is the one that the search finds without caches. -/
structure Faithful (T : Territory κ) (s : SolverState) : Prop where
  clock : s.clock = none
  simple : ∀ x result, T.position x → s.simple x.key = some result → ∀ n, Finds (x.search n) result
  simpler : ∀ st p rem b, T.simple st p rem → s.simpler (simplerKey st p rem) = some b →
    ∀ n, Finds (winnableSimpler n st p rem) b

/-- One run has faithful caches, the other none. -/
def Cached (T : Territory κ) (s t : SolverState) : Prop := Faithful T s ∧ Uncached t

section

variable {T : Territory κ} {s t : SolverState} {st : State} {p n : ℕ} {rem : RemainingSet}
  {x : Position κ}

theorem clockless_cached : Clockless (Cached T) := fun _ _ h => ⟨h.1.clock, h.2⟩

/-- The key of `simpler_cache` shows the player and what is missing. -/
theorem simplerKey_inj {st' : State} {p' : ℕ} {rem' : RemainingSet}
    (h : simplerKey st p rem = simplerKey st' p' rem') :
    hashState st = hashState st' ∧ p = p' ∧ rem = rem' := by
  obtain ⟨hhash, htail⟩ := List.append_inj' h rfl
  simp only [List.cons.injEq, KeyToken.num.injEq, Nat.cast_inj, KeyToken.remaining.injEq,
    and_true] at htail
  exact ⟨hhash, htail.1, htail.2⟩

/-- What two programs that agree find. -/
theorem Finds.of_agree {α : Type} {m m' : SolverM α} {a : α}
    (h : Prog.Agree BothUncached (fun _ => False) m m') (hm : Finds m a) : Finds m' a := by
  intro s hs
  obtain (⟨e, he, -⟩ | ⟨e, he, -⟩) | ⟨heq, -⟩ := h s s ⟨hs, hs⟩
  · exact he.elim
  · exact he.elim
  · rw [← heq]
    exact hm s hs

/-- A result that is found is the outcome without caches, up to the fuel. -/
theorem Finds.agree {α : Type} {m : SolverM α} {a : α} (h : Finds m a)
    (hm : Prog.Agree BothUncached (fun _ => False) m m) (hst : Cached T s t) :
    ((∃ e, OutOfFuel e ∧ (.ok a : Except SolverError α) = .error e) ∨
      ∃ e, OutOfFuel e ∧ (Prog.exec m t).1 = .error e) ∨
      Except.ok a = (Prog.exec m t).1 ∧ Cached T s (Prog.exec m t).2 := by
  have hkeep : Uncached (Prog.exec m t).2 := by
    obtain (⟨e, he, -⟩ | ⟨e, he, -⟩) | ⟨-, hR⟩ := hm t t ⟨hst.2, hst.2⟩
    · exact he.elim
    · exact he.elim
    · exact hR.2
  obtain hok | hfuel := h t hst.2
  · exact .inr ⟨hok.symm, hst.1, hkeep⟩
  · exact .inl (.inr ⟨_, rfl, hfuel⟩)

/-- What a run with faithful caches returns is found without them. -/
theorem Finds.of_cached {α : Type} {m m' : SolverM α} {a : α}
    (h : Prog.Agree (Cached T) OutOfFuel m m') (hs : Faithful T s)
    (hm : (Prog.exec m s).1 = .ok a) : Finds m' a := by
  intro t ht
  obtain (⟨e, -, he⟩ | ⟨e, rfl, he⟩) | ⟨heq, -⟩ := h s t ⟨hs, ht⟩
  · rw [hm] at he
    cases he
  · exact .inr he
  · exact .inl (heq.symm.trans hm)

/-! ## The perfect-information search -/

/-- The search finds what its actions show. -/
theorem finds_winnableSimpler {b : Bool} (hopen : Open st p)
    (h : ∀ n, Finds (tryActions n st p rem) b) (n : ℕ) : Finds (winnableSimpler n st p rem) b := by
  cases n with
  | zero => exact fun s _ => .inr rfl
  | succ n =>
    intro s hs
    rw [exec_winnableSimpler_open hopen hs.2, foundSimpler_uncached hs, Option.elim_none,
      searchSimpler, Prog.exec_bind]
    have htry := h n s hs
    rcases hrun : Prog.exec (tryActions n st p rem) s with ⟨r, s'⟩
    rw [hrun] at htry
    obtain rfl | rfl := htry
    · exact .inl rfl
    · exact .inr rfl

theorem Faithful.storeSimpler (hs : Faithful T s) {b : Bool} (h : T.simple st p rem)
    (hb : ∀ n, Finds (winnableSimpler n st p rem) b) :
    Faithful T { s with simpler := Function.update s.simpler (simplerKey st p rem) (some b) } := by
  refine ⟨hs.clock, hs.simple, fun st' p' rem' b' h' hb' => ?_⟩
  dsimp only at hb'
  by_cases hkey : simplerKey st' p' rem' = simplerKey st p rem
  · rw [hkey, Function.update_self] at hb'
    cases hb'
    obtain ⟨hhash, rfl, rfl⟩ := simplerKey_inj hkey
    intro n
    rw [eq_of_board (f := fun st => winnableSimpler n st p' rem')
      (fun st => winnableSimpler_board n st p' rem') (T.board_eq h' h hhash)]
    exact hb n
  · rw [Function.update_of_ne hkey] at hb'
    exact hs.simpler st' p' rem' b' h' hb'

/-- The result of the actions is stored, and is what they show without caches. -/
theorem agree_searchSimpler (hopen : Open st p) (h : T.simple st p rem)
    (htry : ∀ n', Prog.Agree (Cached T) OutOfFuel (tryActions n st p rem) (tryActions n' st p rem))
    {n' : ℕ} : Prog.Agree (Cached T) OutOfFuel (searchSimpler n st p rem)
      (searchSimpler n' st p rem) := by
  intro s t hst
  have hagree := htry n' s t hst
  have hfinds : ∀ b, (Prog.exec (tryActions n st p rem) s).1 = .ok b →
      ∀ n, Finds (winnableSimpler n st p rem) b := fun b hb =>
    finds_winnableSimpler hopen fun n' => .of_cached (htry n') hst.1 hb
  rw [searchSimpler, searchSimpler, Prog.exec_bind, Prog.exec_bind]
  generalize Prog.exec (tryActions n st p rem) s = out at hagree hfinds ⊢
  generalize Prog.exec (tryActions n' st p rem) t = out' at hagree ⊢
  obtain ⟨r, s'⟩ := out
  obtain ⟨r', t'⟩ := out'
  dsimp only at hagree hfinds
  obtain (⟨e, he, rfl⟩ | ⟨e, he, rfl⟩) | ⟨rfl, hcached⟩ := hagree
  · exact .inl (.inl ⟨e, he, rfl⟩)
  · exact .inl (.inr ⟨e, he, rfl⟩)
  · cases r with
    | error e => exact .inr ⟨rfl, hcached⟩
    | ok b => exact .inr ⟨rfl, hcached.1.storeSimpler h (hfinds b rfl), hcached.2⟩

/-- The perfect-information search keeps `Faithful`, and finds what it finds without caches. -/
theorem agree_winnableSimpler (n n' : ℕ) (h : T.simple st p rem) :
    Prog.Agree (Cached T) OutOfFuel (winnableSimpler n st p rem) (winnableSimpler n' st p rem) := by
  induction n generalizing n' st p rem with
  | zero => exact .throw_left rfl
  | succ n ih =>
    by_cases hopen : Open st p
    · have htry : ∀ n', Prog.Agree (Cached T) OutOfFuel (tryActions n st p rem)
          (tryActions n' st p rem) := fun n' =>
        agree_tryActions fun action ha st' rem' hfollows => ih n' (T.follows h hopen ha hfollows)
      cases n' with
      | zero => exact .throw_right rfl
      | succ n' =>
        intro s t hst
        rw [exec_winnableSimpler_open hopen hst.1.clock]
        cases hfound : foundSimpler s (simplerKey st p rem) with
        | some b =>
          have hb : s.simpler (simplerKey st p rem) = some b := by
            rw [foundSimpler] at hfound
            split at hfound
            · exact hfound
            · cases hfound
          exact (hst.1.simpler st p rem b h hb _).agree (agree_winnableSimpler_uncached _ _ _ _) hst
        | none =>
          rw [exec_winnableSimpler_open hopen hst.2.2, foundSimpler_uncached hst.2]
          exact agree_searchSimpler hopen h htry s t hst
    · cases n' with
      | zero => exact .throw_right rfl
      | succ n' =>
        obtain ⟨r, hr⟩ := winnableSimpler_closed hopen rem
        intro s t hst
        rw [hr, hr]
        exact .inr ⟨rfl, hst⟩

/-! ## The search -/

theorem finds_remember {m : SolverM (List BestAction × Bool)} {r : List BestAction × Bool}
    (h : Finds m r) : Finds (m >>= x.remember) r.1 := by
  intro s hs
  have hm := h s hs
  rw [Prog.exec_bind]
  generalize Prog.exec m s = out at hm ⊢
  obtain ⟨r', s'⟩ := out
  dsimp only at hm
  obtain rfl | rfl := hm
  · refine .inl ?_
    dsimp only
    rw [Position.remember]
    split <;> rfl
  · exact .inr rfl

/-- The search finds what the position is worth. -/
theorem finds_search {r : List BestAction × Bool}
    (h : ∀ n, Finds (x.weigh (winnable x.conv n)) r) (n : ℕ) : Finds (x.search n) r.1 := by
  cases n with
  | zero => exact fun s _ => .inr rfl
  | succ n =>
    intro s hs
    rw [x.exec_search_succ, x.found_uncached hs]
    exact finds_remember (h n) s hs

theorem Faithful.storeSimple (hs : Faithful T s) {result : List BestAction} (h : T.position x)
    (hresult : ∀ n, Finds (x.search n) result) :
    Faithful T { s with simple := Function.update s.simple x.key (some result) } := by
  refine ⟨hs.clock, fun y result' hy hresult' => ?_, hs.simpler⟩
  dsimp only at hresult'
  by_cases hkey : y.key = x.key
  · rw [hkey, Function.update_self] at hresult'
    cases hresult'
    exact fun n => .of_agree (agree_search_alike n (T.alike h hy hkey.symm)) (hresult n)
  · rw [Function.update_of_ne hkey] at hresult'
    exact hs.simple y result' hy hresult'

/-- The worth of a position is stored, and is what the search finds without caches. -/
theorem agree_remember (h : T.position x)
    (hweigh : ∀ n', Prog.Agree (Cached T) OutOfFuel (x.weigh (winnable x.conv n))
      (x.weigh (winnable x.conv n'))) {n' : ℕ} :
    Prog.Agree (Cached T) OutOfFuel (x.weigh (winnable x.conv n) >>= x.remember)
      (x.weigh (winnable x.conv n') >>= x.remember) := by
  intro s t hst
  have hagree := hweigh n' s t hst
  have hfinds : ∀ r, (Prog.exec (x.weigh (winnable x.conv n)) s).1 = .ok r →
      ∀ n, Finds (x.search n) r.1 := fun r hr =>
    finds_search fun n' => .of_cached (hweigh n') hst.1 hr
  rw [Prog.exec_bind, Prog.exec_bind]
  generalize Prog.exec (x.weigh (winnable x.conv n)) s = out at hagree hfinds ⊢
  generalize Prog.exec (x.weigh (winnable x.conv n')) t = out' at hagree ⊢
  obtain ⟨r, s'⟩ := out
  obtain ⟨r', t'⟩ := out'
  dsimp only at hagree hfinds
  obtain (⟨e, he, rfl⟩ | ⟨e, he, rfl⟩) | ⟨rfl, hcached⟩ := hagree
  · exact .inl (.inl ⟨e, he, rfl⟩)
  · exact .inl (.inr ⟨e, he, rfl⟩)
  · cases r with
    | error e => exact .inr ⟨rfl, hcached⟩
    | ok r =>
      dsimp only
      rw [Position.remember]
      split
      · exact .inr ⟨rfl, hcached.1.storeSimple h (hfinds r rfl), hcached.2⟩
      · exact .inr ⟨rfl, hcached⟩

/-- What the perfect-information search is asked agrees. -/
theorem agree_winnableIfNow {action : PerformAction} {st : State} {p : ℕ} {rem : RemainingSet}
    (h : ∀ st' rem', Follows st action rem st' rem' → T.simple st' (st.nextPlayerIndex p) rem') :
    Prog.Agree (Cached T) OutOfFuel (winnableIfNow st p action rem)
      (winnableIfNow st p action rem) :=
  agree_winnableIf fun st' rem' hfollows => agree_winnableSimpler _ _ (h st' rem' hfollows)

/-- The search keeps `Faithful`, and finds what it finds without caches. -/
theorem agree_search (n n' : ℕ) (h : T.position x) :
    Prog.Agree (Cached T) OutOfFuel (x.search n) (x.search n') := by
  induction n generalizing n' x with
  | zero => exact .throw_left rfl
  | succ n ih =>
    have hweigh : ∀ n', Prog.Agree (Cached T) OutOfFuel (x.weigh (winnable x.conv n))
        (x.weigh (winnable x.conv n')) := by
      intro n'
      refine agree_weigh clockless_cached (.refl x) (fun hx => ?_) fun hx offer ho d hd => ?_
      · exact agree_offers clockless_cached fun action ha =>
          agree_winnableIfNow fun st' rem' hfollows => T.asks h hx (.mk ha hfollows)
      · refine (Alike.refl x).matched ho.mem_candidates hd fun x' y' hx' hy' _ hpursued => ?_
        obtain rfl : x' = y' := Except.ok.inj (hx'.symm.trans hy')
        have := ih n' (T.leads h hx (.mk ho hd hx' hpursued))
        rwa [Position.search, Position.search, Position.conv_after hx'] at this
    cases n' with
    | zero => exact .throw_right rfl
    | succ n' =>
      intro s t hst
      rw [x.exec_search_succ, x.exec_search_succ, x.found_uncached hst.2]
      cases hfound : x.found s with
      | some result =>
        have hresult : s.simple x.key = some result := by
          rw [Position.found] at hfound
          split at hfound
          · exact hfound
          · cases hfound
        have hagree := (hst.1.simple x result h hresult (n' + 1)).agree
          (agree_search_alike _ (.refl x)) hst
        rwa [x.exec_search_succ, x.found_uncached hst.2] at hagree
      | none => exact agree_remember h hweigh s t hst

/-! ## The calls of solve_game -/

/-- The territory holds a position from which actions are offered with `rem` missing. -/
structure Territory.Covers (T : Territory κ) (x : Position κ) (rem : RemainingSet) : Prop where
  leads : ∀ {x'}, Leads x rem x' → T.position x'
  asks : ∀ {st rem'}, Asks x rem st rem' → T.simple st x.next rem'

/-- The position of an arranged game. -/
def ArrangedGame.position (arr : ArrangedGame κ) (conv : Convention κ) (p : ℕ) : Position κ :=
  ⟨conv, arr.hypoGame, p, arr.remaining⟩

variable {conv : Convention κ} {g : Game κ}

theorem agree_bestOf {arr : ArrangedGame κ} (h : T.Covers (arr.position conv p) rem) :
    Prog.Agree (Cached T) OutOfFuel (bestOf conv rem p arr) (bestOf conv rem p arr) := by
  rw [bestOf]
  refine (agree_timedOut clockless_cached).bind fun late _ => ?_
  split
  · exact .throw _
  · refine .bind (m := (arr.position conv p).offers rem) ?_ fun offers hboth => ?_
    · exact agree_offers clockless_cached fun action ha =>
        agree_winnableIfNow fun st' rem' hfollows => h.asks (.mk ha hfollows)
    · obtain ⟨s, t, hst, hok⟩ := hboth
      rw [optimizeFrom, show genHypoGames arr.hypoGame offers arr.remaining =
        pure ((arr.position conv p).hypoGames offers) from genHypoGames_eq (arr.position conv p) _,
        pure_bind]
      refine agree_optimize (x := arr.position conv p) clockless_cached (.refl _)
        (List.Subset.refl _) (fun offer ho d hd => ?_) _ _
      have hoffered : (arr.position conv p).Offered rem offer := ⟨t, offers, hst.2, hok, ho⟩
      refine (Alike.refl (arr.position conv p)).matched hoffered.mem_candidates hd
        fun x' y' hx' hy' _ hpursued => ?_
      obtain rfl : x' = y' := Except.ok.inj (hx'.symm.trans hy')
      have hagree := agree_search (depthBound arr.hypoGame.state + 1)
        (depthBound arr.hypoGame.state + 1) (h.leads (.mk hoffered hd hx' hpursued))
      rwa [Position.search, Position.conv_after hx'] at hagree

theorem agree_searchAll {arrs : List (ArrangedGame κ)}
    (h : ∀ arr ∈ arrs, T.Covers (arr.position conv p) rem) (performs : Performs) :
    Prog.Agree (Cached T) OutOfFuel (searchAll conv rem p arrs performs)
      (searchAll conv rem p arrs performs) := by
  induction arrs generalizing performs with
  | nil => exact .pure _
  | cons arr arrs ih =>
    exact (agree_bestOf (h arr List.mem_cons_self)).bind fun best _ =>
      ih (fun arr harr => h arr (List.mem_cons_of_mem _ harr)) _

/-- A call of `solve_game`, without a timeout. -/
structure Call (κ : Type) where
  conv : Convention κ
  monteCarlo : Bool
  game : Game κ
  turn : ℕ

namespace Call

variable {c : Call κ} {δ : Type} [LinearOrder δ] (toDecimal : Fraction → δ)

def solve (c : Call κ) : SolverM BestAction :=
  solveGame toDecimal c.conv c.monteCarlo none c.game c.turn

/-- The position that is searched when every card is known. -/
def known (c : Call κ) : Position κ := ⟨c.conv, knownGame c.game, c.turn, remainingIds c.game⟩

/-- The positions that are searched otherwise, one for each arrangement. -/
inductive Root (c : Call κ) : Position κ → Prop
  | mk {arrs : List Arrangement} {arr : ArrangedGame κ} :
      arrange (table c.game) (remainingIds c.game) = pure arrs →
      arr ∈ searchedGames (table c.game) c.monteCarlo arrs → Root c (arr.position c.conv c.turn)

/-- The territory holds what the call searches. -/
structure Within (c : Call κ) (T : Territory κ) : Prop where
  known : AllKnown c.game → T.position c.known
  root : ¬ AllKnown c.game → ∀ x, Root c x → T.Covers x (remainingIds c.game)

/-- A call keeps `Faithful`, and returns what it returns without caches. -/
theorem agree_solve (h : c.Within T) :
    Prog.Agree (Cached T) OutOfFuel (c.solve toDecimal) (c.solve toDecimal) := by
  rw [solve, solveGame]
  dsimp only
  split
  · exact .throw _
  · split
    · exact .throw _
    · refine .bind (fun s t hst => .inr ⟨rfl, ?_⟩) fun _ _ => ?_
      · exact ⟨⟨rfl, hst.1.simple, hst.1.simpler⟩, hst.2.1, rfl⟩
      · split
        · rename_i hknown
          refine .bind (agree_search _ _ (h.known hknown)) fun result _ => ?_
          cases result with
          | nil => exact .throw _
          | cons best rest =>
            dsimp only
            split
            · exact .throw _
            · exact .pure _
        · rename_i hknown
          obtain hthrow | ⟨arrs, harr, -⟩ :=
            arrange_spec (table c.game) (missing_pos_remainingIds c.game)
          · rw [hthrow]
            exact .throw _
          · rw [harr, pure_bind]
            refine .bind (agree_searchAll (fun arr hmem => h.root hknown _ (.mk harr hmem)) _)
              fun performs _ => ?_
            refine (agree_timedOut clockless_cached).bind fun late _ => ?_
            split
            · exact .throw _
            · split
              · exact .throw _
              · exact .pure _

/-- A call by the rules, about a game in progress. -/
structure Fine (c : Call κ) : Prop where
  lawful : c.conv.Lawful
  fair : Fair c.conv
  sane : Sane c.game c.turn
  inProgress : c.game.state.endgameTurns ≠ 0
  turn_lt : c.turn < c.game.state.numPlayers
  known : AllKnown c.game → remainingIds c.game = []

/-- No result in the caches is empty, and the clock never runs out. -/
def Healthy (s : SolverState) : Prop := Sound True s ∧ s.clock = none

/-- A call by the rules never runs out of fuel. -/
theorem solve_fuel (h : c.Fine) :
    Prog.Triple Healthy (c.solve toDecimal) (fun _ => Sound True)
      fun e s => ¬ OutOfFuel e ∧ Sound True s := by
  have hunsolved : ∀ message, ¬ OutOfFuel (.unsolvedGame message) := fun _ he => by cases he
  have hexcused : ∀ e, Excused c.conv e → ¬ OutOfFuel e := by
    rintro e (⟨message, rfl⟩ | ⟨rfl, -⟩) he <;> cases he
  rw [solve, solveGame, if_neg (by simp [h.sane.dealt])]
  dsimp only
  split
  · exact Prog.Triple.throw fun s hs => ⟨hunsolved _, hs.1⟩
  · refine Prog.Triple.bind (Q := fun _ => Sound True) (fun s hs => ?_) fun _ => ?_
    · have hclock : { s with clock := none } = s := by rw [← hs.2]
      change Sound True { s with clock := none }
      rw [hclock]
      exact hs.1
    · split
      · rename_i hknown
        have hsane : Sane (knownGame c.game) c.turn :=
          h.sane.withDeck (fun _ => isSome_get_writeIds _) c.game.deckIds
        have hc : Counted (remainingIds c.game) c.game.state.cardsLeft :=
          ⟨missing_pos_remainingIds _, .inl (h.known hknown)⟩
        have hspec := @winnable_spec _ _ True h.lawful h.fair (depthBound (table c.game).state + 1)
          (knownGame c.game) c.turn _ hsane h.turn_lt hc (Nat.lt_succ_self _)
        refine Prog.Triple.bind (hspec.conseq (fun _ => id) (fun _ _ hs => hs.2)
          fun e s he => ⟨hexcused e (he.1 trivial), he.2⟩) fun result => ?_
        cases result with
        | nil => exact Prog.Triple.throw fun s hs => ⟨by simp [OutOfFuel], hs⟩
        | cons best rest =>
          dsimp only
          split
          · exact Prog.Triple.throw fun s hs => ⟨hunsolved _, hs⟩
          · exact Prog.Triple.pure fun s hs => hs
      · obtain hthrow | ⟨arrs, harr, harrs, -⟩ :=
          arrange_spec (table c.game) (missing_pos_remainingIds c.game)
        · rw [hthrow]
          exact Prog.Triple.throw fun s hs => ⟨by simp [OutOfFuel], hs⟩
        · rw [harr, pure_bind]
          have hok : ∀ arr ∈ searchedGames (table c.game) c.monteCarlo arrs,
              ArrangedOk c.game.state c.turn arr := by
            refine arrangedOk h.sane h.inProgress h.turn_lt ?_
            split
            · exact arranged_sample harrs
            · exact harrs
          refine Prog.Triple.bind ((@searchAll_spec _ _ _ True h.lawful h.fair _ _ _ hok).conseq
            (fun _ => id) (fun _ _ hs => hs.2) fun e s he => ⟨hexcused e (he.1 trivial), he.2⟩)
            fun performs => ?_
          refine Prog.Triple.bind (triple_timedOut.conseq (fun _ => id) (fun _ _ hs => hs.2)
            fun _ _ => id) fun late => ?_
          split
          · exact Prog.Triple.throw fun s hs => ⟨hunsolved _, hs⟩
          · split
            · exact Prog.Triple.throw fun s hs => ⟨hunsolved _, hs⟩
            · exact Prog.Triple.pure fun s hs => hs

end Call

/-! ## Runs -/

variable {δ : Type} [LinearOrder δ] (toDecimal : Fraction → δ) {calls : List (Call κ)}

/-- The outcomes of the calls, one after the other. -/
def outcomes : List (Call κ) → SolverState → List (Except SolverError BestAction)
  | [], _ => []
  | c :: calls, s =>
    let out := Prog.exec (c.solve toDecimal) s
    out.1 :: outcomes calls out.2

/-- The outcome of a call without caches. -/
def alone (c : Call κ) : Except SolverError BestAction :=
  (Prog.exec (c.solve toDecimal) { caching := false }).1

theorem uncached_alone : Uncached { caching := false } := ⟨rfl, rfl⟩

/-- With faithful caches, a call returns what it returns alone, and they stay faithful. -/
theorem Call.step {c : Call κ} (hfine : c.Fine) (hT : c.Within T) (hs : Faithful T s)
    (hsound : Sound True s) :
    (Prog.exec (c.solve toDecimal) s).1 = alone toDecimal c ∧
      Faithful T (Prog.exec (c.solve toDecimal) s).2 ∧
      Sound True (Prog.exec (c.solve toDecimal) s).2 := by
  have hnever : ∀ s, Call.Healthy s → ∀ e, OutOfFuel e →
      (Prog.exec (c.solve toDecimal) s).1 ≠ .error e := fun s hs e he herr =>
    ((c.solve_fuel toDecimal hfine).exec_error hs herr).1 he
  have hkeep : Sound True (Prog.exec (c.solve toDecimal) s).2 := by
    cases hout : (Prog.exec (c.solve toDecimal) s).1 with
    | ok best => exact (c.solve_fuel toDecimal hfine).exec_ok ⟨hsound, hs.clock⟩ hout
    | error e => exact ((c.solve_fuel toDecimal hfine).exec_error ⟨hsound, hs.clock⟩ hout).2
  obtain (⟨e, he, herr⟩ | ⟨e, he, herr⟩) | ⟨heq, hcached⟩ :=
    c.agree_solve toDecimal hT s { caching := false } ⟨hs, uncached_alone⟩
  · exact absurd herr (hnever s ⟨hsound, hs.clock⟩ e he)
  · exact absurd herr (hnever _ ⟨by simp [Sound], rfl⟩ e he)
  · exact ⟨heq, hcached.1, hkeep⟩

theorem outcomes_of_faithful (hfine : ∀ c ∈ calls, c.Fine) (hT : ∀ c ∈ calls, c.Within T)
    (hs : Faithful T s) (hsound : Sound True s) :
    outcomes toDecimal calls s = calls.map (alone toDecimal) := by
  induction calls generalizing s with
  | nil => rfl
  | cons c calls ih =>
    obtain ⟨heq, hfaithful, hsound'⟩ := Call.step toDecimal (hfine c List.mem_cons_self)
      (hT c List.mem_cons_self) hs hsound
    rw [outcomes, List.map_cons, heq]
    exact congrArg _ (ih (fun c hc => hfine c (List.mem_cons_of_mem _ hc))
      (fun c hc => hT c (List.mem_cons_of_mem _ hc)) hfaithful hsound')

/-- The positions that the calls search. -/
inductive Searched (calls : List (Call κ)) : Position κ → Prop
  | known {c : Call κ} : c ∈ calls → AllKnown c.game → Searched calls c.known
  | root {c : Call κ} {x x' : Position κ} : c ∈ calls → ¬ AllKnown c.game → c.Root x →
      Leads x (remainingIds c.game) x' → Searched calls x'
  | leads {x x' : Position κ} : Searched calls x → x.Explored → Leads x x.remaining x' →
      Searched calls x'

/-- The states that the calls put to the perfect-information search. -/
inductive Asked (calls : List (Call κ)) : State → ℕ → RemainingSet → Prop
  | root {c : Call κ} {x : Position κ} {st : State} {rem : RemainingSet} : c ∈ calls →
      ¬ AllKnown c.game → c.Root x → Asks x (remainingIds c.game) st rem → Asked calls st x.next rem
  | position {x : Position κ} {st : State} {rem : RemainingSet} : Searched calls x →
      x.Explored → Asks x x.remaining st rem → Asked calls st x.next rem
  | follows {st st' : State} {p : ℕ} {rem rem' : RemainingSet} {action : PerformAction} :
      Asked calls st p rem → Open st p → action ∈ simplerActions st p →
      Follows st action rem st' rem' → Asked calls st' (st.nextPlayerIndex p) rem'

/-- Among what the calls search, the keys of the caches tell positions apart that do not look
alike. -/
structure KeysTell (calls : List (Call κ)) : Prop where
  position : ∀ x y, Searched calls x → Searched calls y → x.key = y.key → Alike x y
  state : ∀ st st' p rem, Asked calls st p rem → Asked calls st' p rem →
    hashState st = hashState st' → st.board = st'.board

/-- The territory of the calls. -/
def KeysTell.territory (h : KeysTell calls) : Territory κ where
  position := Searched calls
  simple := Asked calls
  leads := .leads
  asks := .position
  follows := .follows
  alike := h.position _ _
  board_eq := h.state _ _ _ _

theorem KeysTell.within (h : KeysTell calls) {c : Call κ} (hc : c ∈ calls) :
    c.Within h.territory where
  known := .known hc
  root hknown _ hroot := ⟨.root hc hknown hroot, .root hc hknown hroot⟩

/-- Calls of `solve_game` that share the caches return what each returns without caches. -/
theorem outcomes_eq (hfine : ∀ c ∈ calls, c.Fine) (htell : KeysTell calls) :
    outcomes toDecimal calls {} = calls.map (alone toDecimal) :=
  outcomes_of_faithful (T := htell.territory) toDecimal hfine (fun _ hc => htell.within hc)
    ⟨rfl, by simp, by simp⟩ (by simp [Sound])

end

/-- The two cards are gone, no clue can be given, and Alice is to move on turn `t`. -/
def relayGame (t : ℕ) : Game Unit :=
  { twoLeft with
    state :=
      { twoLeft.state with
        discardStacks := fun id => if id = ⟨0, 1⟩ ∨ id = ⟨1, 4⟩ then 1 else 0
        cardsLeft := 0
        cardOrder := 19
        endgameTurns := 2
        clueTokens := 0
        turnCount := t } }

/-- Alice is to play the red 4, and Bob the red 5, which he does not take to be playable yet. -/
def relayCall (t : ℕ) : Call Unit := ⟨plain, true, relayGame t, 0⟩

/-- What Alice may try. -/
def relayActions : List PerformAction := candidates plain (relayGame 0) 0

/-- The positions that are searched on turn `t`. -/
def relayPositions (t : ℕ) : List (Position Unit) :=
  (relayCall t).known ::
    relayActions.filterMap fun action => ((relayCall t).known.after action none).toOption

/-- The states after Alice's move, and those after Bob's. -/
def relayStates (turn : ℕ) : List State :=
  let moved := relayActions.map fun action =>
    advanceState (relayCall 0).known.game.state action none
  if turn = 1 then moved
  else moved.flatMap fun st =>
    if Open st 1 then (simplerActions st 1).map fun action => advanceState st action none else []

/-- The two calls: on turn 0, and on turn 2 of another game. -/
def relayCalls : List (Call Unit) := [relayCall 0, relayCall 2]

theorem eq_relayCall {c : Call Unit} (h : c ∈ relayCalls) : ∃ t ∈ [0, 2], c = relayCall t := by
  simpa [relayCalls] using h

theorem allKnown_relay {t : ℕ} (ht : t ∈ [0, 2]) : AllKnown (relayGame t) := by
  revert t
  decide +kernel

theorem fine_relay {t : ℕ} (ht : t ∈ [0, 2]) : (relayCall t).Fine := by
  have hdealt : ∀ t ∈ [0, 2], (relayGame t).dealt = true ∧ remainingIds (relayGame t) = [] := by
    decide +kernel
  exact
    { lawful := plain_lawful
      fair := plain_fair
      sane :=
        ⟨(hdealt t ht).1, ⟨.inr ⟨rfl, (by decide : (0 : ℤ) ≤ 2)⟩, regular_alicesTurn.sane.state.fit,
            (by decide : (0 : ℤ) ≤ 8)⟩,
          ⟨(by decide : (2 : ℤ) ≤ 2),
            fun i hi _ => regular_alicesTurn.sane.stocked.two_le i hi (.inl rfl)⟩⟩
      inProgress := (by decide : (2 : ℤ) ≠ 0)
      turn_lt := (by decide : 0 < 2)
      known := fun _ => (hdealt t ht).2 }

theorem known_relay {t : ℕ} (ht : t ∈ [0, 2]) : (relayCall t).known.remaining = [] ∧
    candidates plain (relayCall t).known.game 0 = relayActions ∧
    (relayCall t).known.next = 1 := by
  revert t
  decide +kernel

theorem not_explored_relay {t : ℕ} (ht : t ∈ [0, 2]) {x : Position Unit}
    (hx : x ∈ relayPositions t) (hexplored : x.Explored) : x = (relayCall t).known := by
  have hshut : ∀ t ∈ [0, 2], (relayActions.filterMap fun action =>
      ((relayCall t).known.after action none).toOption).all (fun x =>
        (triviallyWinnable x.conv x.game x.turn).isSome || unwinnableState x.game.state x.turn) =
          true := by decide +kernel
  obtain rfl | hx := List.mem_cons.1 hx
  · rfl
  · have := List.all_eq_true.1 (hshut t ht) x hx
    simp [hexplored.untrivial, hexplored.winnable] at this

theorem searched_relay {x : Position Unit} (h : Searched relayCalls x) :
    ∃ t ∈ [0, 2], x ∈ relayPositions t := by
  induction h with
  | known hc =>
    obtain ⟨t, ht, rfl⟩ := eq_relayCall hc
    exact ⟨t, ht, List.mem_cons_self⟩
  | root hc hno =>
    obtain ⟨t, ht, rfl⟩ := eq_relayCall hc
    exact absurd (allKnown_relay ht) hno
  | leads _ hx hleads ih =>
    obtain ⟨t, ht, hmem⟩ := ih
    obtain rfl := not_explored_relay ht hmem hx
    obtain ⟨hrem, hcand, -⟩ := known_relay ht
    cases hleads with
    | mk ho hd hafter =>
      refine ⟨t, ht, List.mem_cons_of_mem _ (List.mem_filterMap.2 ⟨_, hcand ▸ ho.mem_candidates, ?_⟩)⟩
      rw [Position.draws, if_pos (.inr hrem), List.mem_singleton] at hd
      rw [← hd, hafter]
      rfl

theorem board_known_relay (t : ℕ) :
    (relayCall t).known.game.state.board = (relayCall 0).known.game.state.board := rfl

theorem open_board {st st' : State} {q : ℕ} (h : st.board = st'.board) (hopen : Open st q) :
    Open st' q :=
  (eq_of_board (f := (Open · q)) (fun _ => rfl) h).mp hopen

/-- What is asked lies on the board of a state of turn 0. -/
theorem asked_relay {st : State} {q : ℕ} {rem : RemainingSet} (h : Asked relayCalls st q rem) :
    (q = 0 ∨ q = 1) ∧ rem = [] ∧ ∃ st₀ ∈ relayStates q, st.board = st₀.board := by
  have hturn : ∀ st₀ ∈ relayStates 1, st₀.nextPlayerIndex 1 = 0 := by decide +kernel
  have hshut : ∀ st₀ ∈ relayStates 0, ¬ Open st₀ 0 := by decide +kernel
  induction h with
  | root hc hno =>
    obtain ⟨t, ht, rfl⟩ := eq_relayCall hc
    exact absurd (allKnown_relay ht) hno
  | @position x st rem hx hexplored hasks =>
    obtain ⟨t, ht, hmem⟩ := searched_relay hx
    obtain rfl := not_explored_relay ht hmem hexplored
    obtain ⟨hrem, hcand, hnext⟩ := known_relay ht
    refine ⟨.inr hnext, ?_⟩
    rw [hnext]
    cases hasks with
    | @mk action _ _ ha hfollows =>
    cases hfollows with
    | undrawn =>
      refine ⟨hrem, advanceState (relayCall 0).known.game.state action none, ?_, ?_⟩
      · rw [relayStates, if_pos rfl]
        exact List.mem_map_of_mem (hcand ▸ ha)
      · rw [← board_advanceState, board_known_relay t, board_advanceState]
    | drawn hr =>
      rw [hrem] at hr
      cases hr
  | @follows st st' q rem rem' action _ hopen ha hfollows ih =>
    obtain ⟨hq | hq, hrem, st₀, hmem, hst⟩ := ih
    · subst hq
      exact absurd (open_board hst hopen) (hshut st₀ hmem)
    · subst hq
      have hopen₀ := open_board hst hopen
      have hnext : st.nextPlayerIndex 1 = 0 :=
        (eq_of_board (f := (State.nextPlayerIndex · 1)) (fun _ => rfl) hst).trans (hturn st₀ hmem)
      have hactions : simplerActions st 1 = simplerActions st₀ 1 :=
        eq_of_board (f := (simplerActions · 1)) (fun _ => rfl) hst
      refine ⟨.inl hnext, ?_⟩
      rw [hnext]
      have hmem₀ : advanceState st₀ action none ∈ relayStates 0 := by
        rw [relayStates, if_neg (by decide)]
        refine List.mem_flatMap.2 ⟨st₀, ?_, ?_⟩
        · rwa [relayStates, if_pos rfl] at hmem
        · rw [if_pos hopen₀]
          exact List.mem_map_of_mem (hactions ▸ ha)
      have hboard : (advanceState st action none).board = (advanceState st₀ action none).board := by
        rw [← board_advanceState st, hst, board_advanceState]
      cases hfollows with
      | undrawn => exact ⟨hrem, _, hmem₀, hboard⟩
      | drawn hr =>
        rw [hrem] at hr
        cases hr

/-- The first game answers from the searches, the second from `simpler_cache` as well. -/
theorem outcomes_relay : outcomes Fraction.value relayCalls {} =
    relayCalls.map (alone Fraction.value) := by
  have hpositions : ((relayPositions 0 ++ relayPositions 2).map Position.key).Nodup := by
    decide +kernel
  have hstates : ((relayStates 0 ++ relayStates 1).map hashState).Nodup := by decide +kernel
  refine outcomes_eq Fraction.value (fun c hc => ?_) ⟨fun x y hx hy hkey => ?_,
    fun st st' q rem hst hst' hhash => ?_⟩
  · obtain ⟨t, ht, rfl⟩ := eq_relayCall hc
    exact fine_relay ht
  · have hmem : ∀ {x}, Searched relayCalls x → x ∈ relayPositions 0 ++ relayPositions 2 := by
      intro x hx
      obtain ⟨t, ht, hmem⟩ := searched_relay hx
      simp only [List.mem_cons, List.not_mem_nil, or_false] at ht
      obtain rfl | rfl := ht
      · exact List.mem_append_left _ hmem
      · exact List.mem_append_right _ hmem
    rw [List.inj_on_of_nodup_map hpositions (hmem hx) (hmem hy) hkey]
    exact .refl _
  · have hmem : ∀ {st q rem}, Asked relayCalls st q rem →
        ∃ st₀ ∈ relayStates 0 ++ relayStates 1, st.board = st₀.board := by
      intro st q rem h
      obtain ⟨rfl | rfl, -, st₀, hst₀, hboard⟩ := asked_relay h
      · exact ⟨st₀, List.mem_append_left _ hst₀, hboard⟩
      · exact ⟨st₀, List.mem_append_right _ hst₀, hboard⟩
    obtain ⟨st₀, hst₀, hboard⟩ := hmem hst
    obtain ⟨st₀', hst₀', hboard'⟩ := hmem hst'
    have hsame : hashState st₀ = hashState st₀' := by
      rw [← eq_of_board (f := hashState) (fun _ => rfl) hboard, hhash,
        eq_of_board (f := hashState) (fun _ => rfl) hboard']
    rw [hboard, hboard', List.inj_on_of_nodup_map hstates hst₀ hst₀' hsame]

end HanabiBot.Endgame
