import HanabiBot.HGroup.Numbering
import HanabiBot.HGroup.PositionalDiscard

/-!
# Card 0

`find_known_connecting` of
`src/conventions/h-group/clue-interpretation/connecting-cards.js` and
`find_all_discards` of `src/conventions/h-group/take-action.js` each test an order for
truth, where the order 0 counts as no card.

* `renumbered_iff` — they depend on the numbers of the cards exactly where such a test
  is made on a card that is card 0 in one of two games only, and the search does not come to
  this card again, as the giver's own;
* `zero_passedOver` — it does for the first card dealt.
-/

namespace HanabiBot.HGroup

/-- The positional discard of a card under its other number. -/
def PositionalDiscard.renumber (ρ : ℕ → ℕ) (action : PositionalDiscard) : PositionalDiscard :=
  { action with order := ρ action.order }

/-! ## Past a known card -/

section Zero

variable (game : ConnGame) (giver : ℕ) (identity : Identity) (ignoreOrders : List ℕ)
  (options : KnownOptions)

/-- The search, from some players of the first loop on. -/
def searchFrom (players : List ℕ) : Option KnownConnecting :=
  match players.findSome? (firstKnown game giver identity ignoreOrders) with
  | some conn => some (.connection conn)
  | none => laterConnecting game giver identity ignoreOrders options

/-- The search past the globally known card of a player. -/
def passedOver (playerIndex : ℕ) (players : List ℕ) : Option KnownConnecting :=
  match knownLinked game identity ignoreOrders playerIndex with
  | some conn => some (.connection conn)
  | none => searchFrom game giver identity ignoreOrders options players

/-- The first loop comes to a globally known card, before the players that are left. -/
def ReachesKnown (players : List ℕ) (playerIndex order : ℕ) (rest : List ℕ) : Prop :=
  ∃ before, players = before ++ playerIndex :: rest ∧
    (∀ q ∈ before, globallyKnown game giver identity ignoreOrders q = none ∧
      knownLinked game identity ignoreOrders q = none) ∧
    globallyKnown game giver identity ignoreOrders playerIndex = some order

/-- The search past a known card comes to it again: nothing linked, known or visibly playable is
found, and it is the giver's own card, which the giver knows about. -/
structure FoundAgain (playerIndex order : ℕ) (players : List ℕ) : Prop where
  unlinked : knownLinked game identity ignoreOrders playerIndex = none
  unknown : ∀ q ∈ players, firstKnown game giver identity ignoreOrders q = none
  unplayable : ∀ q ∈ visiblePlayOrder game giver options,
    visiblePlayable game giver identity ignoreOrders options q = none
  giver_eq : playerIndex = giver
  asymmetric : giverAsymmetric game giver identity ignoreOrders options = some order

end Zero

section Search

variable {game : ConnGame} {giver : ℕ} {identity : Identity} {ignoreOrders : List ℕ}
  {options : KnownOptions} {p : ℕ} {ps : List ℕ}

theorem searchFrom_known {o : ℕ} (ho : o ≠ 0)
    (hp : globallyKnown game giver identity ignoreOrders p = some o) :
    searchFrom game giver identity ignoreOrders options (p :: ps) =
      some (.connection (knownConnection identity p o)) := by
  obtain ⟨k, rfl⟩ := Nat.exists_eq_succ_of_ne_zero ho
  simp only [searchFrom, List.findSome?_cons, firstKnown, hp]

theorem searchFrom_passedOver (hp : ∀ o, globallyKnown game giver identity ignoreOrders p = some o →
    o = 0) :
    searchFrom game giver identity ignoreOrders options (p :: ps) =
      passedOver game giver identity ignoreOrders options p ps := by
  have hfirst : firstKnown game giver identity ignoreOrders p =
      knownLinked game identity ignoreOrders p := by
    unfold firstKnown
    split
    · rename_i k hk
      exact absurd (hp _ hk) (Nat.succ_ne_zero k)
    · rfl
  unfold searchFrom passedOver
  rw [List.findSome?_cons, hfirst]
  cases knownLinked game identity ignoreOrders p <;> rfl

theorem knownLinked_type {conn : Connection}
    (h : knownLinked game identity ignoreOrders p = some conn) : conn.type = .playable := by
  unfold knownLinked at h
  obtain ⟨o, -, h⟩ := Option.bind_eq_some_iff.1 h
  obtain ⟨link, -, h⟩ := Option.bind_eq_some_iff.1 h
  simp only [Option.ite_none_left_eq_some, Option.some.injEq] at h
  rw [← h.2]

/-- The second loop finds no known connection. -/
theorem visiblePlayable_type {conn : Connection}
    (h : visiblePlayable game giver identity ignoreOrders options p =
      some (some (.connection conn))) : conn.type = .playable := by
  simp only [visiblePlayable, Option.ite_none_left_eq_some] at h
  obtain ⟨-, h⟩ := h
  split at h
  · obtain ⟨o, -, ho⟩ := Option.map_eq_some_iff.1 (Option.some.inj h)
    cases ho
  · obtain ⟨o, -, ho⟩ := Option.map_eq_some_iff.1 h
    obtain rfl := KnownConnecting.connection.inj (Option.some.inj ho)
    rfl

/-- Past card 0, the search comes to a connection to it exactly as the giver's own card. -/
theorem passedOver_eq_known_iff :
    passedOver game giver identity ignoreOrders options p ps =
        some (.connection (knownConnection identity p 0)) ↔
      FoundAgain game giver identity ignoreOrders options p 0 ps := by
  have htype : (knownConnection identity p 0).type = .known := rfl
  constructor
  · intro h
    unfold passedOver at h
    cases hlinked : knownLinked game identity ignoreOrders p with
    | some conn =>
      rw [hlinked] at h
      obtain rfl := KnownConnecting.connection.inj (Option.some.inj h)
      rw [knownLinked_type hlinked] at htype
      cases htype
    | none =>
      rw [hlinked] at h
      simp only [searchFrom] at h
      cases hfirst : ps.findSome? (firstKnown game giver identity ignoreOrders) with
      | some conn =>
        rw [hfirst] at h
        obtain rfl := KnownConnecting.connection.inj (Option.some.inj h)
        obtain ⟨q, -, hq⟩ := List.exists_of_findSome?_eq_some hfirst
        unfold firstKnown at hq
        split at hq
        · cases (Connection.mk.inj (Option.some.inj hq)).2.2.1
        · rw [knownLinked_type hq] at htype
          cases htype
      | none =>
        rw [hfirst] at h
        simp only [laterConnecting] at h
        cases hvisible : (visiblePlayOrder game giver options).findSome?
            (visiblePlayable game giver identity ignoreOrders options) with
        | some result =>
          rw [hvisible] at h
          obtain rfl := h
          obtain ⟨q, -, hq⟩ := List.exists_of_findSome?_eq_some hvisible
          rw [visiblePlayable_type hq] at htype
          cases htype
        | none =>
          rw [hvisible] at h
          obtain ⟨o, ho, hconn⟩ := Option.map_eq_some_iff.1 h
          have hfields := Connection.mk.inj (KnownConnecting.connection.inj hconn)
          obtain rfl : o = 0 := hfields.2.2.1
          exact ⟨hlinked, List.findSome?_eq_none_iff.1 hfirst,
            List.findSome?_eq_none_iff.1 hvisible, hfields.2.1.symm, ho⟩
  · rintro ⟨hlinked, hfirst, hvisible, rfl, ho⟩
    simp only [passedOver, hlinked, searchFrom, List.findSome?_eq_none_iff.2 hfirst,
      laterConnecting, List.findSome?_eq_none_iff.2 hvisible, ho, Option.map_some]

/-- Players who have nothing for the first loop are gone over. -/
theorem reachesKnown_cons_iff (hp : globallyKnown game giver identity ignoreOrders p = none)
    (hlinked : knownLinked game identity ignoreOrders p = none) {q o : ℕ} {rest : List ℕ} :
    ReachesKnown game giver identity ignoreOrders (p :: ps) q o rest ↔
      ReachesKnown game giver identity ignoreOrders ps q o rest := by
  constructor
  · rintro ⟨before, heq, hbefore, hq⟩
    cases before with
    | nil =>
      obtain ⟨rfl, rfl⟩ := List.cons.inj heq
      exact nomatch hp.symm.trans hq
    | cons x before =>
      obtain ⟨rfl, rfl⟩ := List.cons.inj heq
      exact ⟨before, rfl, fun y hy => hbefore y (List.mem_cons_of_mem _ hy), hq⟩
  · rintro ⟨before, rfl, hbefore, hq⟩
    refine ⟨p :: before, rfl, fun y hy => ?_, hq⟩
    obtain rfl | hy := List.mem_cons.1 hy
    · exact ⟨hp, hlinked⟩
    · exact hbefore y hy

/-- A player who has a linked card, or a known one, is the last. -/
theorem reachesKnown_cons {q o : ℕ} {rest : List ℕ}
    (h : ReachesKnown game giver identity ignoreOrders (p :: ps) q o rest)
    (hp : globallyKnown game giver identity ignoreOrders p ≠ none ∨
      knownLinked game identity ignoreOrders p ≠ none) :
    q = p ∧ rest = ps ∧ globallyKnown game giver identity ignoreOrders p = some o := by
  obtain ⟨before, heq, hbefore, hq⟩ := h
  cases before with
  | nil =>
    obtain ⟨rfl, rfl⟩ := List.cons.inj heq
    exact ⟨rfl, rfl, hq⟩
  | cons x before =>
    obtain ⟨rfl, rfl⟩ := List.cons.inj heq
    obtain ⟨hnone, hlinked⟩ := hbefore p List.mem_cons_self
    exact hp.elim (absurd hnone) (absurd hlinked)

end Search

/-- The order of what is found is that of a card in someone's hand. -/
def KnownConnecting.orderIn (S : Set ℕ) : KnownConnecting → Prop
  | .connection conn => conn.order ∈ S
  | .terminate => True

/-- Under other numbers, only the connection to a known card is that to the known card. -/
theorem eq_known_of_renumber {ρ : ℕ → ℕ} {S : Set ℕ} (hρ : Set.InjOn ρ S) {found : KnownConnecting}
    (hfound : found.orderIn S) {identity : Identity} {p o : ℕ} (ho : o ∈ S)
    (h : found.renumber ρ = .connection (knownConnection identity p (ρ o))) :
    found = .connection (knownConnection identity p o) := by
  cases found with
  | terminate => nomatch h
  | connection conn =>
    have hconn := KnownConnecting.connection.inj h
    obtain ⟨type, reacting, order, identities, self, hidden, bluff, linked⟩ := conn
    simp only [Connection.renumber, knownConnection, Connection.mk.injEq,
      Option.map_eq_none_iff] at hconn ⊢
    obtain ⟨rfl, rfl, horder, rfl, rfl, rfl, rfl, rfl⟩ := hconn
    simpa using hρ hfound ho horder

namespace Renumbered

variable {ρ : ℕ → ℕ} {S : Set ℕ} {game game' : ConnGame} (h : Renumbered ρ S game game')
  {giver : ℕ} {identity : Identity} {ignoreOrders : List ℕ} {options : KnownOptions}
include h

theorem knownLinked_orderIn {p : ℕ} {conn : Connection}
    (hconn : HGroup.knownLinked game identity ignoreOrders p = some conn) : conn.order ∈ S := by
  unfold HGroup.knownLinked at hconn
  obtain ⟨o, hfind, hbind⟩ := Option.bind_eq_some_iff.1 hconn
  obtain ⟨link, -, hif⟩ := Option.bind_eq_some_iff.1 hbind
  simp only [Option.ite_none_left_eq_some, Option.some.injEq] at hif
  rw [← hif.2]
  exact h.inHand p o (List.mem_of_find?_eq_some hfind)

theorem laterConnecting_orderIn {found : KnownConnecting}
    (hfound : HGroup.laterConnecting game giver identity ignoreOrders options = some found) :
    found.orderIn S := by
  unfold HGroup.laterConnecting at hfound
  cases hvisible : (visiblePlayOrder game giver options).findSome?
      (HGroup.visiblePlayable game giver identity ignoreOrders options) with
  | none =>
    rw [hvisible] at hfound
    obtain ⟨o, ho, rfl⟩ := Option.map_eq_some_iff.1 hfound
    simp only [HGroup.giverAsymmetric, Option.ite_none_right_eq_some] at ho
    exact h.inHand giver o (List.mem_of_find?_eq_some ho.2)
  | some result =>
    rw [hvisible] at hfound
    simp only at hfound
    subst hfound
    obtain ⟨p, -, hp⟩ := List.exists_of_findSome?_eq_some hvisible
    simp only [HGroup.visiblePlayable, Option.ite_none_left_eq_some] at hp
    obtain ⟨-, hp⟩ := hp
    split at hp
    · obtain ⟨o, -, rfl⟩ := Option.map_eq_some_iff.1 (Option.some.inj hp)
      trivial
    · obtain ⟨o, ho, heq⟩ := Option.map_eq_some_iff.1 hp
      rw [← Option.some.inj heq]
      exact h.inHand p o (List.mem_of_mem_filter (List.mem_of_find?_eq_some ho))

theorem searchFrom_orderIn {players : List ℕ} {found : KnownConnecting}
    (hfound : searchFrom game giver identity ignoreOrders options players = some found) :
    found.orderIn S := by
  unfold searchFrom at hfound
  cases hfirst : players.findSome? (firstKnown game giver identity ignoreOrders) with
  | none =>
    rw [hfirst] at hfound
    exact h.laterConnecting_orderIn hfound
  | some conn =>
    rw [hfirst] at hfound
    obtain rfl := Option.some.inj hfound
    obtain ⟨p, -, hp⟩ := List.exists_of_findSome?_eq_some hfirst
    unfold firstKnown at hp
    split at hp
    · rename_i o ho
      obtain rfl := Option.some.inj hp
      exact h.inHand p _ (List.mem_of_find?_eq_some ho)
    · exact h.knownLinked_orderIn hp

theorem passedOver_orderIn {p : ℕ} {players : List ℕ} {found : KnownConnecting}
    (hfound : passedOver game giver identity ignoreOrders options p players = some found) :
    found.orderIn S := by
  unfold passedOver at hfound
  cases hlinked : HGroup.knownLinked game identity ignoreOrders p with
  | none =>
    rw [hlinked] at hfound
    exact h.searchFrom_orderIn hfound
  | some conn =>
    rw [hlinked] at hfound
    obtain rfl := Option.some.inj hfound
    exact h.knownLinked_orderIn hlinked

variable (hignore : ∀ o ∈ ignoreOrders, o ∈ S)
include hignore

/-- The search past a card depends on the numbers as little as the search after it. -/
theorem passedOver {p : ℕ} {players : List ℕ}
    (hrest : searchFrom game' giver identity (ignoreOrders.map ρ) options players =
      (searchFrom game giver identity ignoreOrders options players).map
        (KnownConnecting.renumber ρ)) :
    passedOver game' giver identity (ignoreOrders.map ρ) options p players =
      (passedOver game giver identity ignoreOrders options p players).map
        (KnownConnecting.renumber ρ) := by
  unfold HGroup.passedOver
  rw [h.knownLinked identity hignore]
  cases HGroup.knownLinked game identity ignoreOrders p with
  | none => exact hrest
  | some conn => rfl

/-- If the same card is card 0 in both games, or none is, the search is the same. -/
theorem searchFrom_of_zero (hzero : ∀ o ∈ S, o = 0 ↔ ρ o = 0) (players : List ℕ) :
    searchFrom game' giver identity (ignoreOrders.map ρ) options players =
      (searchFrom game giver identity ignoreOrders options players).map
        (KnownConnecting.renumber ρ) := by
  induction players with
  | nil => exact h.laterConnecting giver identity hignore options
  | cons p ps ih =>
    have hknown := h.globallyKnown giver identity hignore p
    cases hp : HGroup.globallyKnown game giver identity ignoreOrders p with
    | none =>
      rw [hp] at hknown
      rw [searchFrom_passedOver (fun o ho => nomatch hp.symm.trans ho),
        searchFrom_passedOver (fun o ho => nomatch hknown.symm.trans ho), h.passedOver hignore ih]
    | some o =>
      rw [hp] at hknown
      have hoS := h.inHand p o (List.mem_of_find?_eq_some hp)
      by_cases ho : o = 0
      · rw [searchFrom_passedOver fun x hx => Option.some.inj (hp.symm.trans hx) ▸ ho,
          searchFrom_passedOver fun x hx => Option.some.inj (hknown.symm.trans hx) ▸
            (hzero o hoS).1 ho, h.passedOver hignore ih]
      · rw [searchFrom_known ho hp, searchFrom_known (fun h0 => ho ((hzero o hoS).2 h0)) hknown]
        rfl

/-- The search depends on the numbers exactly where it comes to a known card that is card 0
in one of the games only, and does not come to this card again. -/
theorem searchFrom_iff (players : List ℕ) :
    searchFrom game' giver identity (ignoreOrders.map ρ) options players =
        (searchFrom game giver identity ignoreOrders options players).map
          (KnownConnecting.renumber ρ) ↔
      ∀ p o rest, ReachesKnown game giver identity ignoreOrders players p o rest →
        (o = 0 ↔ ρ o = 0) ∨
        (o = 0 ∧ HGroup.passedOver game giver identity ignoreOrders options p rest =
          some (.connection (knownConnection identity p o))) ∨
        (ρ o = 0 ∧ HGroup.passedOver game' giver identity (ignoreOrders.map ρ) options p rest =
          some (.connection (knownConnection identity p (ρ o)))) := by
  induction players with
  | nil =>
    refine iff_of_true (h.laterConnecting giver identity hignore options) ?_
    rintro p o rest ⟨before, heq, -⟩
    simp at heq
  | cons p ps ih =>
    have hknown := h.globallyKnown giver identity hignore p
    cases hp : HGroup.globallyKnown game giver identity ignoreOrders p with
    | none =>
      rw [hp] at hknown
      have hcode : searchFrom game giver identity ignoreOrders options (p :: ps) =
          HGroup.passedOver game giver identity ignoreOrders options p ps :=
        searchFrom_passedOver fun o ho => nomatch hp.symm.trans ho
      have hcode' : searchFrom game' giver identity (ignoreOrders.map ρ) options (p :: ps) =
          HGroup.passedOver game' giver identity (ignoreOrders.map ρ) options p ps :=
        searchFrom_passedOver fun o ho => nomatch hknown.symm.trans ho
      have hlinked' := h.knownLinked identity hignore p
      rw [hcode, hcode']
      unfold HGroup.passedOver
      cases hlinked : HGroup.knownLinked game identity ignoreOrders p with
      | none =>
        rw [hlinked] at hlinked'
        rw [hlinked']
        simp only [reachesKnown_cons_iff hp hlinked]
        exact ih
      | some conn =>
        rw [hlinked] at hlinked'
        rw [hlinked']
        refine iff_of_true rfl fun q o rest hreach => ?_
        obtain ⟨-, -, hq⟩ := reachesKnown_cons hreach (.inr (by simp [hlinked]))
        exact nomatch hp.symm.trans hq
    | some o =>
      rw [hp] at hknown
      have hoS := h.inHand p o (List.mem_of_find?_eq_some hp)
      -- only this card is reached
      have hreach : ∀ P : ℕ → ℕ → List ℕ → Prop,
          (∀ q o' rest, ReachesKnown game giver identity ignoreOrders (p :: ps) q o' rest →
            P q o' rest) ↔ P p o ps := by
        intro P
        constructor
        · exact fun hall => hall p o ps ⟨[], rfl, by simp, hp⟩
        · intro hP q o' rest hq
          obtain ⟨rfl, rfl, ho'⟩ := reachesKnown_cons hq (.inl (by simp [hp]))
          obtain rfl := Option.some.inj (hp.symm.trans ho')
          exact hP
      rw [hreach fun q o' rest => (o' = 0 ↔ ρ o' = 0) ∨
        (o' = 0 ∧ HGroup.passedOver game giver identity ignoreOrders options q rest =
          some (.connection (knownConnection identity q o'))) ∨
        (ρ o' = 0 ∧ HGroup.passedOver game' giver identity (ignoreOrders.map ρ) options q rest =
          some (.connection (knownConnection identity q (ρ o'))))]
      have hpassed : o = 0 → searchFrom game giver identity ignoreOrders options (p :: ps) =
          HGroup.passedOver game giver identity ignoreOrders options p ps := fun ho =>
        searchFrom_passedOver fun x hx => Option.some.inj (hp.symm.trans hx) ▸ ho
      have hpassed' : ρ o = 0 →
          searchFrom game' giver identity (ignoreOrders.map ρ) options (p :: ps) =
            HGroup.passedOver game' giver identity (ignoreOrders.map ρ) options p ps := fun ho =>
        searchFrom_passedOver fun x hx => Option.some.inj (hknown.symm.trans hx) ▸ ho
      by_cases ho : o = 0 <;> by_cases ho' : ρ o = 0
      · -- card 0 in both games: so is no other card in one of them
        refine iff_of_true (h.searchFrom_of_zero hignore (fun x hx => ?_) _)
          (.inl (iff_of_true ho ho'))
        have heq := h.injOn.eq_iff hx hoS
        rw [ho', ho] at heq
        exact heq.symm
      · rw [hpassed ho, searchFrom_known ho' hknown]
        constructor
        · intro heq
          obtain ⟨found, hfound, hren⟩ := Option.map_eq_some_iff.1 heq.symm
          rw [hfound, eq_known_of_renumber h.injOn (h.passedOver_orderIn hfound) hoS hren]
          exact .inr (.inl ⟨ho, rfl⟩)
        · rintro (hiff | ⟨-, heq⟩ | ⟨h0, -⟩)
          · exact absurd (hiff.1 ho) ho'
          · rw [heq]
            rfl
          · exact absurd h0 ho'
      · rw [hpassed' ho', searchFrom_known ho hp]
        constructor
        · exact fun heq => .inr (.inr ⟨ho', heq⟩)
        · rintro (hiff | ⟨h0, -⟩ | ⟨-, heq⟩)
          · exact absurd (hiff.2 ho') ho
          · exact absurd h0 ho
          · exact heq
      · rw [searchFrom_known ho hp, searchFrom_known ho' hknown]
        exact iff_of_true rfl (.inl (iff_of_false ho ho'))

end Renumbered

/-! ## Discards -/

/-- `discardable`. -/
def discardable (game : ConnGame) (playerIndex : ℕ) : Option ℕ :=
  let st := game.state
  let trashCards := (game.me.thinksTrash st playerIndex).filter fun o =>
    (game.common.thoughts.get o).any Card.saved
  trashCards.head?.or (game.common.chop (st.hands playerIndex))

/-- `find_all_discards`; order 0 counts as no card. -/
def findAllDiscards (later : ℕ → ℕ → Identity → Bool) (game : ConnGame) (playerIndex : ℕ) :
    List PositionalDiscard :=
  let card := discardable game playerIndex
  match findPositionalDiscard later game.toHypoGame playerIndex card with
  | some positional => [positional]
  | none =>
    match card with
    | some (order + 1) => [{ misplay := false, order := order + 1 }]
    | _ => []

namespace Renumbered

variable {ρ : ℕ → ℕ} {S : Set ℕ} {game game' : ConnGame} (h : Renumbered ρ S game game')
include h

theorem thinksTrash {player player' : ConnPlayer} (hp : RenumberedPlayer ρ S player player')
    (playerIndex : ℕ) : player'.thinksTrash game'.state playerIndex =
      (player.thinksTrash game.state playerIndex).map ρ := by
  unfold HGroupPlayer.thinksTrash
  dsimp only
  rw [h.hands]
  refine filter_map_eq fun o ho => ?_
  have hoS := h.inHand playerIndex o ho
  refine hp.any_thought hoS fun card => ?_
  have hlinks : (player'.links.any fun link => link.orders.contains (ρ o)) =
      player.links.any fun link => link.orders.contains o := by
    rw [hp.links]
    exact any_map_eq fun link hlink => contains_map h.injOn (hp.linked link hlink) hoS
  have helsewhere : ∀ identity, (game'.state.allOrders.any fun x =>
      (player'.thoughts.get x).any fun card => card.matchesId identity { infer := true } &&
        game'.state.deckMatches x identity && ((game'.state.marks x).clued ||
          (card.blindPlaying && !(player'.marks x).uncertain)) && x != ρ o &&
        !player'.links.any fun link => link.orders.contains (ρ o)) =
      game.state.allOrders.any fun x => (player.thoughts.get x).any fun card =>
        card.matchesId identity { infer := true } && game.state.deckMatches x identity &&
          ((game.state.marks x).clued || (card.blindPlaying && !(player.marks x).uncertain)) &&
          x != o && !player.links.any fun link => link.orders.contains o := by
    intro identity
    rw [h.allOrders]
    refine any_map_eq fun x hx => ?_
    have hxS := h.mem_allOrders hx
    have hne : (ρ x != ρ o) = (x != o) := congrArg (!·) (h.beq hxS hoS)
    refine hp.any_thought hxS fun other => ?_
    rw [h.deckMatches hxS, h.marks x hxS, hp.marks x hxS, hne, hlinks]
    rfl
  simp only [helsewhere, hp.marks o hoS, h.isBasicTrash]
  rfl

theorem chop {player player' : ConnPlayer} (hp : RenumberedPlayer ρ S player player')
    (playerIndex : ℕ) : player'.chop (game'.state.hands playerIndex) =
      (player.chop (game.state.hands playerIndex)).map ρ := by
  have hindex : player'.chopIndex (game'.state.hands playerIndex) =
      player.chopIndex (game.state.hands playerIndex) := by
    unfold HGroupPlayer.chopIndex
    rw [h.hands, List.length_map]
    refine congrArg (List.find? · _) (funext fun i => ?_)
    rw [List.getElem?_map]
    cases hi : (game.state.hands playerIndex)[i]? with
    | none => rfl
    | some o =>
      simp only [Option.map_some, Option.any_some]
      rw [hp.status (h.inHand playerIndex o (List.mem_of_getElem? hi))]
  unfold HGroupPlayer.chop
  rw [hindex]
  cases player.chopIndex (game.state.hands playerIndex) with
  | none => rfl
  | some i => rw [Option.bind_some, Option.bind_some, h.hands, List.getElem?_map]

theorem discardable (playerIndex : ℕ) :
    discardable game' playerIndex = (discardable game playerIndex).map ρ := by
  have htrash : ((game.me.thinksTrash game.state playerIndex).map ρ).filter (fun o =>
        (game'.common.thoughts.get o).any Card.saved) =
      ((game.me.thinksTrash game.state playerIndex).filter fun o =>
        (game.common.thoughts.get o).any Card.saved).map ρ :=
    filter_map_eq fun o ho =>
      h.common.any_thought (h.inHand playerIndex o (List.mem_of_mem_filter ho)) fun _ => rfl
  unfold HGroup.discardable
  dsimp only
  rw [h.thinksTrash h.me, h.chop h.common, htrash, List.head?_map]
  cases ((game.me.thinksTrash game.state playerIndex).filter fun o =>
    (game.common.thoughts.get o).any Card.saved).head? <;> rfl

theorem discardable_mem {playerIndex o : ℕ}
    (ho : HGroup.discardable game playerIndex = some o) : o ∈ S := by
  unfold HGroup.discardable at ho
  rw [Option.or_eq_some_iff] at ho
  obtain htrash | ⟨-, hchop⟩ := ho
  · exact h.inHand playerIndex o
      (List.mem_of_mem_filter (List.mem_of_mem_filter (List.mem_of_head? htrash)))
  · obtain ⟨i, -, hi⟩ := Option.bind_eq_some_iff.1 hchop
    exact h.inHand playerIndex o (List.mem_of_getElem? hi)

/-! The search for a positional discard. -/

section Positional

variable (later : ℕ → ℕ → Identity → Bool)

theorem discarderTrash (discarder : ℕ) : discarderTrash game'.toHypoGame discarder =
    (discarderTrash game.toHypoGame discarder).map ρ := by
  unfold HGroup.discarderTrash
  dsimp only [ConnGame.toHypoGame]
  rw [h.hands]
  refine filter_map_eq fun o ho => ?_
  have hoS := h.inHand discarder o ho
  rw [(h.players discarder).possible hoS]
  refine congrArg (List.all _) (funext fun p => ?_)
  rw [h.isBasicTrash, h.allOrders, any_map_eq fun x hx => ?_]
  have hxS := h.mem_allOrders hx
  have hne : (ρ o != ρ x) = (o != x) := congrArg (!·) (h.beq hoS hxS)
  rw [hne, (h.players discarder).any_thought hxS fun _ => rfl]
  rfl

theorem validTarget (discarder playerIndex : ℕ) {slot : Option ℕ}
    (hslot : ∀ o, slot = some o → o ∈ S) :
    validTarget later game'.toHypoGame discarder playerIndex (slot.map ρ) =
      validTarget later game.toHypoGame discarder playerIndex slot := by
  cases slot with
  | none => rfl
  | some o =>
    have hoS := hslot o rfl
    have hplayed : ∀ card : Identity, (game'.me.hypoPlays.any fun x =>
        (game'.state.hands playerIndex).contains x && (game'.state.identityOf x).any fun played =>
          played.suitIndex == card.suitIndex && decide (played.rank < card.rank)) =
        game.me.hypoPlays.any fun x => (game.state.hands playerIndex).contains x &&
          (game.state.identityOf x).any fun played =>
            played.suitIndex == card.suitIndex && decide (played.rank < card.rank) := by
      intro card
      rw [h.me.hypoPlays, h.hands]
      refine any_map_eq fun x hx => ?_
      have hxS := h.me.hypoPlayed x hx
      rw [contains_map h.injOn (h.inHand playerIndex) hxS, h.identityOf hxS]
    unfold HGroup.validTarget
    simp only [Option.map_some, Option.any_some]
    show (game'.state.identityOf (ρ o)).any _ = (game.state.identityOf o).any _
    rw [h.identityOf hoS]
    refine congrArg (Option.any · _) (funext fun card => ?_)
    show (!isTrashAs {} game'.state game'.me.toHGroupPlayer card (ρ o) &&
      game'.me.hypoStacks card.suitIndex + 1 == card.rank && !game'.me.hypoPlays.contains (ρ o) &&
      !(game'.me.hypoPlays.any fun x => (game'.state.hands playerIndex).contains x &&
        (game'.state.identityOf x).any fun played =>
          played.suitIndex == card.suitIndex && decide (played.rank < card.rank)) &&
      (game'.state.isPlayable card || later discarder playerIndex card)) = _
    rw [hplayed, isTrashAs, h.isBasicTrash, h.isSavedAs h.me hoS, h.me.hypoStacks,
      h.me.hypoPlays_contains h.injOn hoS, h.isPlayable]
    rfl

theorem hands_getElem? (p j : ℕ) :
    (game'.state.hands p)[j]? = ((game.state.hands p)[j]?).map ρ := by
  rw [h.hands, List.getElem?_map]

theorem inHand_getElem? (p j : ℕ) : ∀ o, (game.state.hands p)[j]? = some o → o ∈ S :=
  fun o ho => h.inHand p o (List.mem_of_getElem? ho)

theorem playerAfter (discarder i : ℕ) :
    playerAfter game'.state discarder i = playerAfter game.state discarder i := by
  rw [HGroup.playerAfter, HGroup.playerAfter, h.numPlayers]

theorem positions (discarder : ℕ) :
    positions game'.state discarder = positions game.state discarder := by
  unfold HGroup.positions
  rw [h.numPlayers]
  refine List.flatMap_congr fun i _ => ?_
  rw [h.playerAfter, h.hands, List.length_map]

theorem isTarget (discarder i j : ℕ) :
    isTarget later game'.toHypoGame discarder i j =
      isTarget later game.toHypoGame discarder i j := by
  have htrash : ((game'.state.hands discarder)[j]?.any
      (HGroup.discarderTrash game'.toHypoGame discarder).contains) =
      (game.state.hands discarder)[j]?.any
        (HGroup.discarderTrash game.toHypoGame discarder).contains := by
    rw [h.hands_getElem?, h.discarderTrash]
    cases hj : (game.state.hands discarder)[j]? with
    | none => rfl
    | some o =>
      exact contains_map h.injOn (fun x hx => h.inHand discarder x (List.mem_of_mem_filter hx))
        (h.inHand_getElem? discarder j o hj)
  unfold HGroup.isTarget
  show ((game'.state.hands discarder)[j]?.any _ && HGroup.validTarget later game'.toHypoGame
    discarder (HGroup.playerAfter game'.state discarder i)
    (game'.state.hands (HGroup.playerAfter game'.state discarder i))[j]?) = _
  rw [htrash, h.playerAfter, h.hands_getElem?, h.validTarget later discarder _
    (h.inHand_getElem? _ j)]
  rfl

theorem secondPlayer (discarder i : ℕ) :
    secondPlayer later game'.toHypoGame discarder i =
      secondPlayer later game.toHypoGame discarder i := by
  unfold HGroup.secondPlayer
  show (List.range' (i + 1) (game'.state.numPlayers - (i + 1))).find? (fun k =>
    HGroup.validTarget later game'.toHypoGame discarder (HGroup.playerAfter game'.state discarder k)
      (game'.state.hands (HGroup.playerAfter game'.state discarder k))[k]?) = _
  rw [h.numPlayers]
  refine congrArg (List.find? · _) (funext fun k => ?_)
  rw [h.playerAfter, h.hands_getElem?, h.validTarget later discarder _ (h.inHand_getElem? _ k)]
  rfl

theorem tryTarget (discarder i : ℕ) {expectedDiscard : Option ℕ}
    (hexpected : ∀ o, expectedDiscard = some o → o ∈ S) {order : ℕ} (horder : order ∈ S) :
    tryTarget later game'.toHypoGame discarder (expectedDiscard.map ρ) i (ρ order) =
      (tryTarget later game.toHypoGame discarder expectedDiscard i order).map
        (PositionalDiscard.renumber ρ) := by
  have hmisplay : (expectedDiscard.map ρ == some (ρ order)) = (expectedDiscard == some order) := by
    cases expectedDiscard with
    | none => rfl
    | some o => exact h.beq (hexpected o rfl) horder
  have hstrikes : game'.toHypoGame.state.strikes = game.toHypoGame.state.strikes :=
    h.read (fun st => st.strikes) fun _ => rfl
  unfold HGroup.tryTarget
  dsimp only
  rw [h.secondPlayer later, hstrikes, hmisplay]
  split
  · rfl
  · split <;> rfl

theorem findPositionalDiscard (discarder : ℕ) {expectedDiscard : Option ℕ}
    (hexpected : ∀ o, expectedDiscard = some o → o ∈ S) :
    findPositionalDiscard later game'.toHypoGame discarder (expectedDiscard.map ρ) =
      (findPositionalDiscard later game.toHypoGame discarder expectedDiscard).map
        (PositionalDiscard.renumber ρ) := by
  have hon : positionalOn game'.toHypoGame.state = positionalOn game.toHypoGame.state :=
    h.read positionalOn fun _ => rfl
  have hround : ∀ l : List (ℕ × ℕ), (l.findSome? fun ij =>
      if HGroup.isTarget later game'.toHypoGame discarder ij.1 ij.2 then
        (game'.toHypoGame.state.hands discarder)[ij.2]?.bind
          (HGroup.tryTarget later game'.toHypoGame discarder (expectedDiscard.map ρ) ij.1)
      else none) =
      (l.findSome? fun ij =>
        if HGroup.isTarget later game.toHypoGame discarder ij.1 ij.2 then
          (game.toHypoGame.state.hands discarder)[ij.2]?.bind
            (HGroup.tryTarget later game.toHypoGame discarder expectedDiscard ij.1)
        else none).map (PositionalDiscard.renumber ρ) := by
    intro l
    induction l with
    | nil => rfl
    | cons ij l ih =>
      obtain ⟨i, j⟩ := ij
      have hfirst : (if HGroup.isTarget later game'.toHypoGame discarder i j then
          (game'.toHypoGame.state.hands discarder)[j]?.bind
            (HGroup.tryTarget later game'.toHypoGame discarder (expectedDiscard.map ρ) i)
          else none) =
          (if HGroup.isTarget later game.toHypoGame discarder i j then
            (game.toHypoGame.state.hands discarder)[j]?.bind
              (HGroup.tryTarget later game.toHypoGame discarder expectedDiscard i)
            else none).map (PositionalDiscard.renumber ρ) := by
        rw [h.isTarget later]
        split
        · show (game'.state.hands discarder)[j]?.bind _ = _
          rw [h.hands_getElem?]
          show _ = ((game.state.hands discarder)[j]?.bind _).map _
          cases hj : (game.state.hands discarder)[j]? with
          | none => rfl
          | some o =>
            exact h.tryTarget later discarder i hexpected (h.inHand_getElem? discarder j o hj)
        · rfl
      rw [List.findSome?_cons, List.findSome?_cons]
      dsimp only
      rw [hfirst]
      split
      · rename_i hsome
        obtain ⟨action, haction, rfl⟩ := Option.map_eq_some_iff.1 hsome
        rw [haction]
        rfl
      · rename_i hnone
        rw [Option.map_eq_none_iff.1 hnone]
        exact ih
  unfold HGroup.findPositionalDiscard
  rw [hon]
  split
  · rw [← hround]
    exact congrArg (List.findSome? _) (h.positions discarder)
  · rfl

end Positional

/-- The discards depend on the numbers exactly where there is no positional discard and the card
that may be discarded is card 0 in one of the games only. -/
theorem findAllDiscards_iff (later : ℕ → ℕ → Identity → Bool) (playerIndex : ℕ) :
    findAllDiscards later game' playerIndex =
        (findAllDiscards later game playerIndex).map (PositionalDiscard.renumber ρ) ↔
      (HGroup.findPositionalDiscard later game.toHypoGame playerIndex
          (HGroup.discardable game playerIndex) = none →
        ∀ o, HGroup.discardable game playerIndex = some o → (o = 0 ↔ ρ o = 0)) := by
  have hpositional := h.findPositionalDiscard later playerIndex fun o
    (ho : HGroup.discardable game playerIndex = some o) => h.discardable_mem ho
  unfold findAllDiscards
  dsimp only
  rw [h.discardable, hpositional]
  cases HGroup.findPositionalDiscard later game.toHypoGame playerIndex
      (HGroup.discardable game playerIndex) with
  | some positional => exact iff_of_true rfl nofun
  | none =>
    simp only [Option.map_none, forall_const]
    cases HGroup.discardable game playerIndex with
    | none => exact iff_of_true rfl nofun
    | some o =>
      simp only [Option.map_some, Option.some.injEq, forall_eq']
      cases o with
      | zero =>
        cases hρ : ρ 0 with
        | zero => simp
        | succ k => simp
      | succ o =>
        cases hρ : ρ (o + 1) with
        | zero => simp
        | succ k => simp [PositionalDiscard.renumber, hρ]

end Renumbered

/-- The search comes to the first known card, and returns it unless it is card 0 and the search
past it does not come to it again. -/
theorem findKnownConnecting_iff {game : ConnGame} {giver : ℕ} {identity : Identity}
    {ignoreOrders : List ℕ} {options : KnownOptions} {p o : ℕ} {rest : List ℕ}
    (hreach : ReachesKnown game giver identity ignoreOrders (knownPlayOrder game giver options) p o
      rest) :
    findKnownConnecting game giver identity ignoreOrders options =
        some (.connection (knownConnection identity p o)) ↔
      o ≠ 0 ∨ FoundAgain game giver identity ignoreOrders options p o rest := by
  obtain ⟨before, horder, hbefore, hp⟩ := hreach
  have hskip : ∀ l : List ℕ, (∀ q ∈ l, globallyKnown game giver identity ignoreOrders q = none ∧
      knownLinked game identity ignoreOrders q = none) →
      searchFrom game giver identity ignoreOrders options (l ++ p :: rest) =
        searchFrom game giver identity ignoreOrders options (p :: rest) := by
    intro l hl
    induction l with
    | nil => rfl
    | cons q l ih =>
      obtain ⟨hq, hlinked⟩ := hl q List.mem_cons_self
      rw [List.cons_append, searchFrom_passedOver (fun x hx => nomatch hq.symm.trans hx),
        ← ih fun y hy => hl y (List.mem_cons_of_mem _ hy)]
      simp only [passedOver, hlinked]
  have hsearch : findKnownConnecting game giver identity ignoreOrders options =
      searchFrom game giver identity ignoreOrders options (p :: rest) := by
    rw [← hskip before hbefore, ← horder]
    rfl
  rw [hsearch]
  by_cases ho : o = 0
  · rw [searchFrom_passedOver fun x hx => Option.some.inj (hp.symm.trans hx) ▸ ho]
    subst ho
    rw [passedOver_eq_known_iff]
    simp
  · rw [searchFrom_known ho hp]
    simp [ho]

/-- Where the searches for a known connection and for a discard depend on the numbers of the
cards. -/
theorem renumbered_iff {ρ : ℕ → ℕ} {S : Set ℕ} {game game' : ConnGame}
    (h : Renumbered ρ S game game') (giver : ℕ) (identity : Identity) {ignoreOrders : List ℕ}
    (hignore : ∀ o ∈ ignoreOrders, o ∈ S) (options : KnownOptions)
    (later : ℕ → ℕ → Identity → Bool) (playerIndex : ℕ) :
    (findKnownConnecting game' giver identity (ignoreOrders.map ρ) options =
        (findKnownConnecting game giver identity ignoreOrders options).map
          (KnownConnecting.renumber ρ) ↔
      ∀ p o rest, ReachesKnown game giver identity ignoreOrders
          (knownPlayOrder game giver options) p o rest →
        (o = 0 ↔ ρ o = 0) ∨
        (o = 0 ∧ FoundAgain game giver identity ignoreOrders options p o rest) ∨
        (ρ o = 0 ∧ FoundAgain game' giver identity (ignoreOrders.map ρ) options p (ρ o) rest)) ∧
    (∀ p o rest, ReachesKnown game giver identity ignoreOrders
        (knownPlayOrder game giver options) p o rest →
      (findKnownConnecting game giver identity ignoreOrders options =
          some (.connection (knownConnection identity p o)) ↔
        o ≠ 0 ∨ FoundAgain game giver identity ignoreOrders options p o rest)) ∧
    (findAllDiscards later game' playerIndex =
        (findAllDiscards later game playerIndex).map (PositionalDiscard.renumber ρ) ↔
      (findPositionalDiscard later game.toHypoGame playerIndex (discardable game playerIndex) =
          none →
        ∀ o, discardable game playerIndex = some o → (o = 0 ↔ ρ o = 0))) := by
  refine ⟨?_, fun p o rest hreach => findKnownConnecting_iff hreach,
    h.findAllDiscards_iff later playerIndex⟩
  have hcode : findKnownConnecting game' giver identity (ignoreOrders.map ρ) options =
      searchFrom game' giver identity (ignoreOrders.map ρ) options
        (knownPlayOrder game giver options) := by
    rw [← h.knownPlayOrder giver options]
    rfl
  rw [hcode]
  refine (h.searchFrom_iff hignore (knownPlayOrder game giver options)).trans ?_
  refine forall₄_congr fun p o rest _ => or_congr_right (or_congr ?_ ?_)
  · refine and_congr_right fun ho => ?_
    subst ho
    exact passedOver_eq_known_iff
  · refine and_congr_right fun ho => ?_
    rw [ho]
    exact passedOver_eq_known_iff

/-! ## The first card dealt -/

/-- The cards dealt to three players. -/
def firstCards : List Identity :=
  [⟨0, 2⟩, ⟨1, 3⟩, ⟨2, 4⟩, ⟨3, 1⟩, ⟨4, 3⟩, ⟨1, 1⟩, ⟨2, 1⟩, ⟨3, 3⟩, ⟨4, 4⟩, ⟨0, 5⟩, ⟨1, 2⟩, ⟨2, 2⟩,
    ⟨3, 4⟩, ⟨4, 1⟩, ⟨0, 3⟩]

/-- The hands, if the cards are numbered from `k` on. -/
def handsFrom (k p : ℕ) : List ℕ :=
  if p < 3 then ((List.range 5).reverse.map (5 * p + ·)).map (k + ·) else []

/-- The `i`-th card, as the players `hidden` from it know it: the first may have been clued red
and 2. -/
def firstThought (clued : Bool) (hidden : Bool) (k i : ℕ) : Card :=
  let possible := if clued && i == 0 then (IdentitySet.full 5).intersect (IdentitySet.toMask ⟨0, 2⟩)
    else .full 5
  { id := if hidden then none else firstCards[i]?
    possible, inferred := possible, order := k + i
    clued := clued && i == 0
    status := if clued && i == 0 then some .clued else none }

/-- A player; each card is hidden from its holder, and all are from the common player. -/
def firstPlayer (clued : Bool) (playerIndex : Option ℕ) (k : ℕ) : ConnPlayer where
  playerIndex := playerIndex
  thoughts := ⟨k + 15, fun o => if k ≤ o ∧ o < k + 15 then
    some (firstThought clued (playerIndex.all fun p => (o - k) / 5 == p) k (o - k)) else none⟩
  allPossible := .full 5
  allInferred := .full 5
  hypoStacks := fun _ => 0

/-- The game of the first player, with the cards numbered from `k` on. -/
def firstGame (clued : Bool) (k : ℕ) : ConnGame where
  level := 1
  state := {
    variant := noVariant
    numPlayers := 3
    ourPlayerIndex := 0
    turnCount := 3
    clueTokens := 6
    hands := handsFrom k
    deck := ⟨k + 15, fun o => if k ≤ o ∧ o < k + 15 then
      some ⟨if o - k < 5 then none else firstCards[o - k]?⟩ else none⟩
    cardsLeft := 35
    cardOrder := k + 14
    marks := fun o => { clued := clued && o == k } }
  common := firstPlayer clued none k
  players := fun p => firstPlayer clued (some p) k

/-- The cards of the game. -/
def cardsFrom (k : ℕ) : Set ℕ := {o | k ≤ o ∧ o < k + 15}

theorem renumbered_firstPlayer (clued : Bool) (playerIndex : Option ℕ) (k : ℕ) :
    RenumberedPlayer (· + 1) (cardsFrom k) (firstPlayer clued playerIndex k)
      (firstPlayer clued playerIndex (k + 1)) where
  playerIndex := rfl
  thoughts := by
    rintro o ⟨hk, hlt⟩
    have hk' : k + 1 ≤ o + 1 ∧ o + 1 < k + 1 + 15 := by omega
    have hsub : o + 1 - (k + 1) = o - k := by omega
    simp only [firstPlayer, hk, hlt, hk', hsub, and_self, if_true, Option.map_some, renumberCard,
      firstThought]
    congr 2
    omega
  marks _ _ := rfl
  links := rfl
  linked := by simp [firstPlayer]
  hypoStacks := rfl
  hypoPlays := rfl
  hypoPlayed := by simp [firstPlayer]
  waitingConnections := rfl
  waiting := by simp [firstPlayer]

/-- Numbering the cards from `k + 1` on gives the same game. -/
theorem renumbered_firstGame (clued : Bool) (k : ℕ) :
    Renumbered (· + 1) (cardsFrom k) (firstGame clued k) (firstGame clued (k + 1)) where
  injOn := (add_left_injective 1).injOn
  level := rfl
  unnumbered := rfl
  hands p := by
    show handsFrom (k + 1) p = (handsFrom k p).map _
    unfold handsFrom
    split
    · rw [List.map_map, List.map_map, List.map_map]
      refine List.map_congr_left fun i _ => ?_
      simp only [Function.comp_apply]
      omega
    · rfl
  inHand p o ho := by
    change o ∈ handsFrom k p at ho
    unfold handsFrom at ho
    split at ho
    · simp only [List.map_map, List.mem_map, List.mem_reverse, List.mem_range,
        Function.comp_apply] at ho
      obtain ⟨i, hi, rfl⟩ := ho
      constructor <;> omega
    · cases ho
  deck := by
    rintro o ⟨hk, hlt⟩
    have hk' : k + 1 ≤ o + 1 ∧ o + 1 < k + 1 + 15 := by omega
    have hsub : o + 1 - (k + 1) = o - k := by omega
    simp only [firstGame, hk, hlt, hk', hsub, and_self, if_true]
  marks o _ := by simp [firstGame]
  common := renumbered_firstPlayer clued none k
  players p := renumbered_firstPlayer clued (some p) k

/-- The first card dealt, known to be the red 2, is no connection, and it may not be discarded;
numbered from 1 on, it is and it may. -/
theorem zero_passedOver :
    (findKnownConnecting (firstGame true 0) 1 ⟨0, 2⟩ [] {} = none ∧
      findKnownConnecting (firstGame true 1) 1 ⟨0, 2⟩ [] {} =
        some (.connection (knownConnection ⟨0, 2⟩ 0 1))) ∧
    findAllDiscards (fun _ _ _ => false) (firstGame false 0) 0 = [] ∧
      findAllDiscards (fun _ _ _ => false) (firstGame false 1) 0 =
        [{ misplay := false, order := 1 }] := by
  refine ⟨⟨?_, ?_⟩, ?_, ?_⟩ <;> decide +kernel

/-- Numbered from 1 or from 2 on, the first card is found. -/
theorem renumbered_iff_firstGame :
    findKnownConnecting (firstGame true 2) 1 ⟨0, 2⟩ [] {} =
        (findKnownConnecting (firstGame true 1) 1 ⟨0, 2⟩ [] {}).map
          (KnownConnecting.renumber (· + 1)) ∧
      findAllDiscards (fun _ _ _ => false) (firstGame true 2) 0 =
        (findAllDiscards (fun _ _ _ => false) (firstGame true 1) 0).map
          (PositionalDiscard.renumber (· + 1)) := by
  have h := renumbered_firstGame true 1
  have hignore : ∀ o ∈ ([] : List ℕ), o ∈ cardsFrom 1 := by simp
  obtain ⟨hknown, -, hdiscards⟩ := renumbered_iff h 1 ⟨0, 2⟩ hignore {} (fun _ _ _ => false) 0
  refine ⟨hknown.2 fun p o rest ⟨_, _, _, ho⟩ => .inl ?_, hdiscards.2 fun _ o ho => ?_⟩
  · have hpos := (h.inHand p o (List.mem_of_find?_eq_some ho)).1
    omega
  · have hpos := (h.discardable_mem ho).1
    omega

end HanabiBot.HGroup
