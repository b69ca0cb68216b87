import HanabiBot.Elim.Sound

/-!
# Links

A link is a set of cards in one hand that hold some identities between them.  `find_links` of
`src/basics/player-elim.js` finds the cards that are thought to be the same; a convention
promises an identity among some cards.  `refresh_links` gives up the links that are resolved.

* `Mind` — a player, with what changes when something is learned or promised;
* `findLinks`, `refreshLinks` — the two functions;
* `refreshLinks_ok` — as long as a promise is about one identity the links are refreshed, and
  nothing is learned;
* `refreshLinks_promises` — a promise that is true is kept, or fulfilled by the right card;
* `findLinks_classes` — the links that are found are disjoint classes of cards with the same
  inferences.
-/

namespace HanabiBot

/-- `Link`, with the card that a promise was made for. -/
structure PlayerLink extends Link where
  target : Option ℕ := none
  deriving DecidableEq

/-- `Player`, with all that the links depend on. -/
structure Mind where
  playerIndex : Option ℕ
  thoughts : SparseArray Card := .empty
  links : List PlayerLink := []
  allPossible : IdentitySet
  allInferred : IdentitySet

/-- The player, as far as the eliminations look at it. -/
def Mind.toPlayer (mind : Mind) : Player :=
  { playerIndex := mind.playerIndex
    thoughts := mind.thoughts
    links := mind.links.map PlayerLink.toLink
    allPossible := mind.allPossible
    allInferred := mind.allInferred }

/-- A promised link with several identities: `found promised link with orders <orders> but
multiple identities <identities>`. -/
structure PromiseError where
  orders : List ℕ
  identities : List Identity
  deriving DecidableEq, Repr

namespace Links

/-! ## A link that the focus resolves -/

/-- The card of a link that is focused, and the identity, if there is just one of each. -/
def focusOf (thoughts : SparseArray Card) (orders : List ℕ) (identities : List Identity) :
    Option (ℕ × Identity) :=
  match orders.filter fun o => (thoughts.get o).any (·.focused), identities with
  | [o], [id] => some (o, id)
  | _, _ => none

/-- The card with new inferences; the first time that none are left, it is reset. -/
def inferOrReset (card : Card) (newInferred : IdentitySet) : Card :=
  if newInferred.length == 0 && !card.reset then card.resetInferences
  else { card with inferred := newInferred }

/-- The focused card has the identity, and any other card of the link has not. -/
def resolveCard (focused : ℕ) (id : Identity) (thoughts : SparseArray Card) (order : ℕ) :
    SparseArray Card :=
  match thoughts.get order with
  | none => thoughts
  | some card =>
    thoughts.set order (inferOrReset card
      (if order = focused then card.inferred.intersect (IdentitySet.toMask id)
        else card.inferred.subtract (IdentitySet.toMask id)))

def resolveFocus (thoughts : SparseArray Card) (orders : List ℕ) (focus : ℕ × Identity) :
    SparseArray Card :=
  orders.foldl (resolveCard focus.1 focus.2) thoughts

/-! ## `find_links` -/

/-- The variables of `find_links`: the new thoughts and links, and the cards in links. -/
structure FindVars where
  thoughts : SparseArray Card
  links : List PlayerLink := []
  linkedOrders : List ℕ

/-- The cards of the hand with these inferences. -/
def sameInferences (thoughts : SparseArray Card) (hand : List ℕ) (identities : IdentitySet) :
    List ℕ :=
  hand.filter fun o => (thoughts.get o).any fun card => card.inferred.value == identities.value

/-- Whether a card is known, or inferred to be anything, too much or nothing of use. -/
def unlinkable (state : State) (card : Card) : Bool :=
  (card.identity {}).isSome || card.inferred.length == 0 || decide (3 < card.inferred.length) ||
    card.inferred.array.all state.isBasicTrash

/-- The body of the loop of `find_links`; `thoughts` are those from before the loop. -/
def findLink (thoughts : SparseArray Card) (state : State) (hand : List ℕ) (vars : FindVars)
    (order : ℕ) : FindVars :=
  match thoughts.get order with
  | none => vars
  | some card =>
    let orders := sameInferences thoughts hand card.inferred
    let identities := card.inferred.array
    if vars.linkedOrders.contains order || unlinkable state card || orders.length == 1 then vars
    else
      match focusOf thoughts orders identities with
      | some focus => { vars with thoughts := resolveFocus vars.thoughts orders focus }
      | none =>
        -- we have enough inferred cards to eliminate elsewhere
        if identities.length ≤ orders.length then
          { vars with
            links := vars.links ++ [{ orders, identities }]
            linkedOrders := vars.linkedOrders ++ orders }
        else vars

def findVars (mind : Mind) (state : State) (hand : List ℕ) : FindVars :=
  hand.foldl (findLink mind.thoughts state hand)
    { thoughts := mind.thoughts, linkedOrders := mind.links.flatMap fun link => link.orders }

/-- `find_links` in a hand. -/
def findLinksIn (state : State) (mind : Mind) (hand : List ℕ) : Mind :=
  { mind with
    thoughts := (findVars mind state hand).thoughts
    links := mind.links ++ (findVars mind state hand).links }

/-- `find_links`: in the player's own hand, or in all hands for the common player. -/
def findLinks (mind : Mind) (state : State) : Mind :=
  match mind.playerIndex with
  | some i => findLinksIn state mind (state.hands i)
  | none => ((List.range state.numPlayers).map state.hands).foldl (findLinksIn state) mind

/-! ## `refresh_links` -/

/-- The variables of `refresh_links`: the new thoughts and links. -/
structure RefreshVars where
  thoughts : SparseArray Card
  links : List PlayerLink := []

/-- The cards of a link that still have the identity as a possibility. -/
def viableOrders (thoughts : SparseArray Card) (link : PlayerLink) (id : Identity) : List ℕ :=
  link.orders.filter fun o => (thoughts.get o).any (·.possible.has id)

/-- A promised link; `thoughts` are those from before the loop. -/
def refreshPromise (thoughts : SparseArray Card) (vars : RefreshVars) (link : PlayerLink)
    (id : Identity) : RefreshVars :=
  -- at least one card matches, promise resolved
  if link.orders.any fun o => (thoughts.get o).any (·.matchesId id {}) then vars
  else if link.target.any fun t => !(thoughts.get t).any fun card =>
      card.possible.array.any (·.suitIndex == id.suitIndex) then vars
  else
    match viableOrders thoughts link id with
    | [] => vars
    | [o] =>
      match vars.thoughts.get o with
      | none => vars
      | some card =>
        { vars with
          thoughts := vars.thoughts.set o
            { card with inferred := card.inferred.intersect (IdentitySet.toMask id) } }
    | orders => { vars with links := vars.links ++ [{ link with orders }] }

/-- A link that was found. -/
def refreshFound (vars : RefreshVars) (link : PlayerLink) : RefreshVars :=
  -- the card is globally known or an identity is no longer possible
  if link.orders.any fun o => (vars.thoughts.get o).any fun card =>
      (card.identity {}).isSome || link.identities.any fun id => !card.possible.has id then vars
  else
    match focusOf vars.thoughts link.orders link.identities with
    | some focus => { vars with thoughts := resolveFocus vars.thoughts link.orders focus }
    | none =>
      if link.identities.any fun id => link.orders.any fun o =>
          (vars.thoughts.get o).any fun card => !card.inferred.has id then vars
      else { vars with links := vars.links ++ [link] }

/-- The body of the loop of `refresh_links`. -/
def refreshLink (thoughts : SparseArray Card) (vars : RefreshVars) (link : PlayerLink) :
    Except PromiseError RefreshVars :=
  if link.promised then
    match link.identities with
    | [id] => .ok (refreshPromise thoughts vars link id)
    | _ => .error ⟨link.orders, link.identities⟩
  else .ok (refreshFound vars link)

/-- `refresh_links`. -/
def refreshLinks (mind : Mind) (state : State) : Except PromiseError Mind :=
  (mind.links.foldlM (refreshLink mind.thoughts) { thoughts := mind.thoughts }).map fun vars =>
    findLinks { mind with thoughts := vars.thoughts, links := vars.links } state

/-! ## Nothing is learned -/

end Links

/-- What of a card is not inferred: its possibilities and its identity. -/
def Card.seen (card : Card) : IdentitySet × Option Identity × Option IdentitySet :=
  (card.possible, card.id, card.rewindIds)

/-- The same is known of all cards. -/
def SameSeen (thoughts thoughts' : SparseArray Card) : Prop :=
  ∀ o, (thoughts'.get o).map Card.seen = (thoughts.get o).map Card.seen

theorem Card.seen_resetInferences (card : Card) : card.resetInferences.seen = card.seen := by
  obtain ⟨hpossible, hid, hrewind⟩ := resetInferences_frame card
  rw [seen, seen, hpossible, hid, hrewind]

namespace SameSeen

variable {thoughts thoughts' thoughts'' : SparseArray Card}

theorem refl (thoughts : SparseArray Card) : SameSeen thoughts thoughts := fun _ => rfl

theorem trans (h : SameSeen thoughts thoughts') (h' : SameSeen thoughts' thoughts'') :
    SameSeen thoughts thoughts'' := fun o => (h' o).trans (h o)

theorem set {o : ℕ} {card card' : Card} (hcard : thoughts.get o = some card)
    (hseen : card'.seen = card.seen) : SameSeen thoughts (thoughts.set o card') := by
  intro o'
  by_cases heq : o' = o
  · subst heq
    rw [SparseArray.get_set_self, hcard, Option.map_some, Option.map_some, hseen]
  · rw [SparseArray.get_set_of_ne _ heq]

theorem get (h : SameSeen thoughts thoughts') {o : ℕ} {card : Card}
    (hcard : thoughts.get o = some card) :
    ∃ card', thoughts'.get o = some card' ∧ card'.seen = card.seen := by
  have hseen := h o
  rw [hcard, Option.map_some] at hseen
  exact Option.map_eq_some_iff.1 hseen

theorem get_eq_none (h : SameSeen thoughts thoughts') {o : ℕ} (hnone : thoughts.get o = none) :
    thoughts'.get o = none := by
  have hseen := h o
  rw [hnone] at hseen
  exact Option.map_eq_none_iff.1 hseen

end SameSeen

namespace Links

variable {thoughts : SparseArray Card} {state : State} {mind : Mind} {hand : List ℕ}

theorem seen_inferOrReset (card : Card) (newInferred : IdentitySet) :
    (inferOrReset card newInferred).seen = card.seen := by
  unfold inferOrReset
  split
  · exact card.seen_resetInferences
  · rfl

theorem resolveCard_same (focused : ℕ) (id : Identity) (thoughts : SparseArray Card) (o : ℕ) :
    SameSeen thoughts (resolveCard focused id thoughts o) := by
  unfold resolveCard
  split
  · exact .refl thoughts
  · rename_i card hcard
    exact .set hcard (seen_inferOrReset card _)

theorem resolveFocus_same (thoughts : SparseArray Card) (orders : List ℕ) (focus : ℕ × Identity) :
    SameSeen thoughts (resolveFocus thoughts orders focus) := by
  unfold resolveFocus
  induction orders generalizing thoughts with
  | nil => exact .refl thoughts
  | cons o orders ih => exact (resolveCard_same focus.1 focus.2 thoughts o).trans (ih _)

theorem findLink_same (thoughts : SparseArray Card) (state : State) (hand : List ℕ) (vars : FindVars)
    (o : ℕ) : SameSeen vars.thoughts (findLink thoughts state hand vars o).thoughts := by
  unfold findLink
  split
  · exact .refl _
  dsimp only
  split
  · exact .refl _
  split
  · exact resolveFocus_same _ _ _
  split <;> exact .refl _

theorem findLinksIn_same (state : State) (mind : Mind) (hand : List ℕ) :
    SameSeen mind.thoughts (findLinksIn state mind hand).thoughts := by
  have hloop : ∀ (l : List ℕ) (vars : FindVars), SameSeen vars.thoughts
      (l.foldl (findLink mind.thoughts state hand) vars).thoughts := by
    intro l
    induction l with
    | nil => exact fun vars => .refl _
    | cons o l ih => exact fun vars => (findLink_same _ _ _ vars o).trans (ih _)
  exact hloop hand _

/-- What `find_links` leaves alone. -/
structure Finds (mind mind' : Mind) : Prop where
  playerIndex : mind'.playerIndex = mind.playerIndex
  allPossible : mind'.allPossible = mind.allPossible
  same : SameSeen mind.thoughts mind'.thoughts
  keeps : mind.links ⊆ mind'.links
  promises : ∀ link ∈ mind'.links, link.promised = true → link ∈ mind.links

theorem findLink_promised {vars : FindVars} (h : ∀ link ∈ vars.links, link.promised = false) (o : ℕ) :
    ∀ link ∈ (findLink thoughts state hand vars o).links, link.promised = false := by
  unfold findLink
  split
  · exact h
  dsimp only
  split
  · exact h
  split
  · exact h
  split
  · intro link hlink
    obtain hlink | hlink := List.mem_append.1 hlink
    · exact h link hlink
    · rw [List.mem_singleton.1 hlink]
  · exact h

theorem findLinksIn_finds (state : State) (mind : Mind) (hand : List ℕ) :
    Finds mind (findLinksIn state mind hand) := by
  refine ⟨rfl, rfl, findLinksIn_same state mind hand, List.subset_append_left _ _,
    fun link hlink hpromised => ?_⟩
  have hloop : ∀ (l : List ℕ) (vars : FindVars), (∀ link ∈ vars.links, link.promised = false) →
      ∀ link ∈ (l.foldl (findLink mind.thoughts state hand) vars).links, link.promised = false := by
    intro l
    induction l with
    | nil => exact fun _ h => h
    | cons o l ih => exact fun vars h => ih _ (findLink_promised h o)
  obtain hlink | hlink := List.mem_append.1 hlink
  · exact hlink
  · have hfound := hloop hand _ (fun _ h => (List.not_mem_nil h).elim) link hlink
    rw [hpromised] at hfound
    cases hfound

theorem Finds.refl (mind : Mind) : Finds mind mind :=
  ⟨rfl, rfl, .refl _, List.Subset.refl _, fun _ hlink _ => hlink⟩

theorem Finds.trans {mind' mind'' : Mind} (h : Finds mind mind') (h' : Finds mind' mind'') :
    Finds mind mind'' :=
  ⟨h'.playerIndex.trans h.playerIndex, h'.allPossible.trans h.allPossible, h.same.trans h'.same,
    List.Subset.trans h.keeps h'.keeps, fun link hlink hpromised => h.promises link (h'.promises link hlink hpromised) hpromised⟩

theorem findLinks_finds (mind : Mind) (state : State) : Finds mind (findLinks mind state) := by
  have hall : ∀ (hands : List (List ℕ)) (mind : Mind),
      Finds mind (hands.foldl (findLinksIn state) mind) := by
    intro hands
    induction hands with
    | nil => exact fun mind => .refl mind
    | cons hand hands ih => exact fun mind => (findLinksIn_finds state mind hand).trans (ih _)
  unfold findLinks
  split
  · exact findLinksIn_finds state mind _
  · exact hall _ mind

/-! ## Promises -/

/-- A promise is about one identity. -/
def Sole (link : PlayerLink) : Prop := link.promised = true → ∃ id, link.identities = [id]

/-- What is left of a link: the same, without some cards that cannot be what is promised. -/
structure Narrows (thoughts : SparseArray Card) (link link' : PlayerLink) : Prop where
  promised : link'.promised = link.promised
  identities : link'.identities = link.identities
  target : link'.target = link.target
  orders : link'.orders ⊆ link.orders
  impossible : ∀ o ∈ link.orders, o ∉ link'.orders → ∀ id ∈ link.identities, ∀ card,
    thoughts.get o = some card → card.possible.has id = false

/-- Why a promise is given up. -/
inductive Ends (thoughts : SparseArray Card) (link : PlayerLink) (id : Identity) : Prop
  /-- A card is known to be it. -/
  | known (o : ℕ) (card : Card) (ho : o ∈ link.orders) (hcard : thoughts.get o = some card)
    (hmatches : card.matchesId id {} = true)
  /-- The card that it was made for cannot be of the suit. -/
  | target (t : ℕ) (ht : link.target = some t) (hsuit : ∀ card, thoughts.get t = some card →
      ∀ i ∈ card.possible.array, i.suitIndex ≠ id.suitIndex)
  /-- At most one card may be it. -/
  | few (hfew : (viableOrders thoughts link id).length ≤ 1)

/-- What the loop of `refresh_links` does to some links. -/
structure Refreshes (thoughts : SparseArray Card) (l : List PlayerLink) (vars vars' : RefreshVars) :
    Prop where
  same : SameSeen vars.thoughts vars'.thoughts
  keeps : vars.links ⊆ vars'.links
  comes : ∀ link' ∈ vars'.links, link' ∈ vars.links ∨ ∃ link ∈ l, Narrows thoughts link link'
  goes : ∀ link ∈ l, link.promised = true → ∀ id, link.identities = [id] →
    (∃ link' ∈ vars'.links, Narrows thoughts link link') ∨ Ends thoughts link id

theorem Narrows.refl (thoughts : SparseArray Card) (link : PlayerLink) :
    Narrows thoughts link link :=
  ⟨rfl, rfl, rfl, List.Subset.refl _, fun _ ho hnot => absurd ho hnot⟩

theorem narrows_viableOrders {link : PlayerLink} {id : Identity} (hid : link.identities = [id]) :
    Narrows thoughts link { link with orders := viableOrders thoughts link id } := by
  refine ⟨rfl, rfl, rfl, fun o ho => List.mem_of_mem_filter ho,
    fun o ho hnot id' hid' card hcard => ?_⟩
  rw [hid, List.mem_singleton] at hid'
  subst hid'
  rw [← Bool.not_eq_true]
  intro hhas
  exact hnot (List.mem_filter.2 ⟨ho, by rw [hcard]; exact hhas⟩)

/-- A promise that is given up. -/
theorem Ends.refreshes {vars vars' : RefreshVars} {link : PlayerLink} {id : Identity}
    (h : Ends thoughts link id) (hid : link.identities = [id])
    (hsame : SameSeen vars.thoughts vars'.thoughts) (hlinks : vars'.links = vars.links) :
    Refreshes thoughts [link] vars vars' := by
  refine ⟨hsame, hlinks ▸ List.Subset.refl _, fun link' hlink' => .inl (hlinks ▸ hlink'), ?_⟩
  intro link' hlink' _ id' hid'
  obtain rfl := List.mem_singleton.1 hlink'
  rw [hid, List.singleton_inj] at hid'
  exact .inr (hid' ▸ h)

/-- A link that stays, if with fewer cards. -/
theorem Narrows.refreshes {vars : RefreshVars} {link link' : PlayerLink}
    (h : Narrows thoughts link link') :
    Refreshes thoughts [link] vars { vars with links := vars.links ++ [link'] } := by
  refine ⟨.refl _, List.subset_append_left _ _, fun link'' hlink'' => ?_, ?_⟩
  · obtain hlink'' | hlink'' := List.mem_append.1 hlink''
    · exact .inl hlink''
    · rw [List.mem_singleton.1 hlink'']
      exact .inr ⟨link, List.mem_singleton_self link, h⟩
  · intro link'' hlink'' _ _ _
    obtain rfl := List.mem_singleton.1 hlink''
    exact .inl ⟨link', List.mem_append_right _ (List.mem_singleton_self link'), h⟩

theorem refreshPromise_refreshes (vars : RefreshVars) {link : PlayerLink} {id : Identity}
    (hid : link.identities = [id]) :
    Refreshes thoughts [link] vars (refreshPromise thoughts vars link id) := by
  unfold refreshPromise
  split
  · rename_i hknown
    obtain ⟨o, ho, hany⟩ := List.any_eq_true.1 hknown
    obtain ⟨card, hcard, hmatches⟩ := (Option.any_eq_true _ _).1 hany
    exact (Ends.known o card ho hcard hmatches).refreshes hid (.refl _) rfl
  split
  · rename_i htarget
    obtain ⟨t, ht, hnone⟩ := (Option.any_eq_true _ _).1 htarget
    refine (Ends.target t ht fun card hcard i hi hsuit => ?_).refreshes hid (.refl _) rfl
    rw [hcard, Option.any_some, Bool.not_eq_true', List.any_eq_false] at hnone
    exact hnone i hi (by rw [hsuit]; exact BEq.rfl)
  split
  · rename_i hviable
    exact (Ends.few (by simp [hviable])).refreshes hid (.refl _) rfl
  · rename_i o hviable
    have hfew : Ends thoughts link id := .few (by simp [hviable])
    split
    · exact hfew.refreshes hid (.refl _) rfl
    · rename_i card hcard
      exact hfew.refreshes hid (.set hcard rfl) rfl
  · exact (narrows_viableOrders hid).refreshes

theorem refreshFound_refreshes (vars : RefreshVars) {link : PlayerLink}
    (hlink : link.promised = false) : Refreshes thoughts [link] vars (refreshFound vars link) := by
  have hgoes : ∀ {P : PlayerLink → Identity → Prop}, ∀ link' ∈ [link], link'.promised = true →
      ∀ id, link'.identities = [id] → P link' id := by
    intro P link' hlink' hpromised
    rw [List.mem_singleton.1 hlink', hlink] at hpromised
    cases hpromised
  unfold refreshFound
  split
  · exact ⟨.refl _, List.Subset.refl _, fun _ h => .inl h, hgoes⟩
  split
  · exact ⟨resolveFocus_same _ _ _, List.Subset.refl _, fun _ h => .inl h, hgoes⟩
  split
  · exact ⟨.refl _, List.Subset.refl _, fun _ h => .inl h, hgoes⟩
  · exact (Narrows.refl thoughts link).refreshes

theorem Refreshes.trans {l : List PlayerLink} {link : PlayerLink} {vars vars' vars'' : RefreshVars}
    (h : Refreshes thoughts [link] vars vars') (h' : Refreshes thoughts l vars' vars'') :
    Refreshes thoughts (link :: l) vars vars'' := by
  refine ⟨h.same.trans h'.same, List.Subset.trans h.keeps h'.keeps, fun link'' hlink'' => ?_, ?_⟩
  · obtain hlink' | ⟨link₀, hlink₀, hnarrows⟩ := h'.comes link'' hlink''
    · obtain hlink | ⟨link₀, hlink₀, hnarrows⟩ := h.comes link'' hlink'
      · exact .inl hlink
      · exact .inr ⟨link₀, List.mem_cons.2 (.inl (List.mem_singleton.1 hlink₀)), hnarrows⟩
    · exact .inr ⟨link₀, List.mem_cons_of_mem link hlink₀, hnarrows⟩
  · intro link₀ hlink₀ hpromised id hid
    obtain rfl | hlink₀ := List.mem_cons.1 hlink₀
    · refine (h.goes link₀ (List.mem_singleton_self _) hpromised id hid).imp_left ?_
      rintro ⟨link', hlink', hnarrows⟩
      exact ⟨link', h'.keeps hlink', hnarrows⟩
    · exact h'.goes link₀ hlink₀ hpromised id hid

/-- The loop of `refresh_links`. -/
theorem foldlM_refreshLink {l : List PlayerLink} (hl : ∀ link ∈ l, Sole link)
    (vars : RefreshVars) : ∃ vars', l.foldlM (refreshLink thoughts) vars = .ok vars' ∧
      Refreshes thoughts l vars vars' := by
  induction l generalizing vars with
  | nil =>
    exact ⟨vars, rfl, .refl _, List.Subset.refl _, fun _ h => .inl h,
      fun _ h => (List.not_mem_nil h).elim⟩
  | cons link l ih =>
    have hstep : ∃ vars₁, refreshLink thoughts vars link = .ok vars₁ ∧
        Refreshes thoughts [link] vars vars₁ := by
      unfold refreshLink
      split
      · rename_i hpromised
        obtain ⟨id, hid⟩ := hl link List.mem_cons_self hpromised
        simp only [hid]
        exact ⟨_, rfl, refreshPromise_refreshes vars hid⟩
      · rename_i hpromised
        exact ⟨_, rfl, refreshFound_refreshes vars (Bool.eq_false_iff.2 hpromised)⟩
    obtain ⟨vars₁, heq, hfirst⟩ := hstep
    obtain ⟨vars', heq', hrest⟩ := ih (fun link' hlink' => hl link' (List.mem_cons_of_mem _ hlink'))
      vars₁
    refine ⟨vars', ?_, hfirst.trans hrest⟩
    rw [List.foldlM_cons, heq]
    exact heq'

/-- Two players who know the same, whatever they infer and promise. -/
structure SameKnowledge (mind mind' : Mind) : Prop where
  playerIndex : mind'.playerIndex = mind.playerIndex
  allPossible : mind'.allPossible = mind.allPossible
  same : SameSeen mind.thoughts mind'.thoughts

/-- The links after `refresh_links`, as far as the promises go. -/
theorem refreshLinks_refreshes (hsole : ∀ link ∈ mind.links, Sole link) :
    ∃ vars, Refreshes mind.thoughts mind.links { thoughts := mind.thoughts } vars ∧
      refreshLinks mind state =
        .ok (findLinks { mind with thoughts := vars.thoughts, links := vars.links } state) := by
  obtain ⟨vars, heq, hrefreshes⟩ := foldlM_refreshLink hsole { thoughts := mind.thoughts }
  refine ⟨vars, hrefreshes, ?_⟩
  unfold refreshLinks
  rw [heq]
  rfl

/-- As long as every promise is about one identity, the links are refreshed, the promises that are
left are too, and nothing is learned. -/
theorem refreshLinks_ok (state : State) (hsole : ∀ link ∈ mind.links, Sole link) :
    ∃ mind', refreshLinks mind state = .ok mind' ∧ SameKnowledge mind mind' ∧
      ∀ link ∈ mind'.links, Sole link := by
  obtain ⟨vars, hrefreshes, heq⟩ := @refreshLinks_refreshes state mind hsole
  have hfinds := findLinks_finds { mind with thoughts := vars.thoughts, links := vars.links } state
  refine ⟨_, heq, ⟨hfinds.playerIndex, hfinds.allPossible, hrefreshes.same.trans hfinds.same⟩,
    fun link' hlink' hpromised => ?_⟩
  obtain hlink | ⟨link, hlink, hnarrows⟩ :=
    hrefreshes.comes link' (hfinds.promises link' hlink' hpromised)
  · exact (List.not_mem_nil hlink).elim
  · obtain ⟨id, hid⟩ := hsole link hlink (hnarrows.promised ▸ hpromised)
    exact ⟨id, hnarrows.identities.trans hid⟩

/-- One of the cards of a link is what is promised. -/
def Kept (truth : ℕ → Identity) (link : PlayerLink) : Prop :=
  ∀ id ∈ link.identities, ∃ o ∈ link.orders, truth o = id

/-- A promise that came true, or that the card it was made for no longer needs. -/
inductive Fulfilled (truth : ℕ → Identity) (thoughts : SparseArray Card) (link : PlayerLink) : Prop
  /-- A card is known to be what was promised, and is it. -/
  | known (o : ℕ) (card : Card) (ho : o ∈ link.orders) (hcard : thoughts.get o = some card)
    (hmatches : card.matchesId (truth o) {} = true) (hid : link.identities = [truth o])
  | target (t : ℕ) (id : Identity) (ht : link.target = some t) (hid : link.identities = [id])
    (hsuit : ∀ card, thoughts.get t = some card →
      ∀ i ∈ card.possible.array, i.suitIndex ≠ id.suitIndex)
  /-- Just one card may be what was promised, and is it. -/
  | only (o : ℕ) (hid : link.identities = [truth o])
    (honly : viableOrders thoughts link (truth o) = [o])

section

variable {v : Variant} {truth : ℕ → Identity} {link link' : PlayerLink} {id : Identity}

theorem Narrows.kept (h : Narrows thoughts link link')
    (htrue : ∀ o card, thoughts.get o = some card → card.Truthful v (truth o))
    (hdrawn : ∀ o ∈ link.orders, (thoughts.get o).isSome) (hkept : Kept truth link) :
    Kept truth link' := by
  intro id hid
  rw [h.identities] at hid
  obtain ⟨o, ho, rfl⟩ := hkept id hid
  refine ⟨o, ?_, rfl⟩
  by_contra hnot
  obtain ⟨card, hcard⟩ := Option.isSome_iff_exists.1 (hdrawn o ho)
  have hpossible := (htrue o card hcard).possible
  have hfalse := h.impossible o ho hnot _ hid card hcard
  rw [(IdentitySet.mem_array.1 hpossible).2.2] at hfalse
  cases hfalse

theorem Ends.fulfilled (h : Ends thoughts link id) (hid : link.identities = [id])
    (htrue : ∀ o card, thoughts.get o = some card → card.Truthful v (truth o))
    (hdrawn : ∀ o ∈ link.orders, (thoughts.get o).isSome) (hkept : Kept truth link) :
    Fulfilled truth thoughts link := by
  cases h with
  | known o card ho hcard hmatches =>
    have hknown : card.identity {} = some id := by
      unfold Card.matchesId at hmatches
      split at hmatches
      · cases hmatches
      · rename_i id' hid'
        rw [hid', beq_iff_eq.1 hmatches]
    obtain rfl : id = truth o := (htrue o card hcard).identity hknown
    exact .known o card ho hcard hmatches hid
  | target t ht hsuit => exact .target t id ht hid hsuit
  | few hfew =>
    obtain ⟨o, ho, rfl⟩ := hkept id (hid ▸ List.mem_singleton_self id)
    obtain ⟨card, hcard⟩ := Option.isSome_iff_exists.1 (hdrawn o ho)
    have hhas := (IdentitySet.mem_array.1 (htrue o card hcard).possible).2.2
    have hmem : o ∈ viableOrders thoughts link (truth o) :=
      List.mem_filter.2 ⟨ho, by rw [hcard]; exact hhas⟩
    have hone := le_antisymm hfew (List.length_pos_of_mem hmem)
    obtain ⟨o', ho'⟩ := List.length_eq_one_iff.1 hone
    rw [ho', List.mem_singleton] at hmem
    exact .only o hid (hmem ▸ ho')

/-- On thoughts that are true: every promise that is left was made before, and is true if it was;
and a promise that is true is left over, or it is fulfilled by the card that it is about, or the
card it was made for cannot be of the suit. -/
theorem refreshLinks_promises (state : State) (hsole : ∀ link ∈ mind.links, Sole link)
    (htrue : ∀ o card, mind.thoughts.get o = some card → card.Truthful v (truth o))
    (hdrawn : ∀ link ∈ mind.links, ∀ o ∈ link.orders, (mind.thoughts.get o).isSome) :
    ∃ mind', refreshLinks mind state = .ok mind' ∧
      (∀ link' ∈ mind'.links, link'.promised = true → ∃ link ∈ mind.links,
        Narrows mind.thoughts link link' ∧ (Kept truth link → Kept truth link')) ∧
      ∀ link ∈ mind.links, link.promised = true → Kept truth link →
        (∃ link' ∈ mind'.links, Narrows mind.thoughts link link' ∧ Kept truth link') ∨
          Fulfilled truth mind.thoughts link := by
  obtain ⟨vars, hrefreshes, heq⟩ := @refreshLinks_refreshes state mind hsole
  have hfinds := findLinks_finds { mind with thoughts := vars.thoughts, links := vars.links } state
  refine ⟨_, heq, fun link' hlink' hpromised => ?_, fun link hlink hpromised hkept => ?_⟩
  · obtain hnone | ⟨link, hlink, hnarrows⟩ :=
      hrefreshes.comes link' (hfinds.promises link' hlink' hpromised)
    · exact (List.not_mem_nil hnone).elim
    · exact ⟨link, hlink, hnarrows, hnarrows.kept htrue (hdrawn link hlink)⟩
  · obtain ⟨id, hid⟩ := hsole link hlink hpromised
    obtain ⟨link', hlink', hnarrows⟩ | hends := hrefreshes.goes link hlink hpromised id hid
    · exact .inl ⟨link', hfinds.keeps hlink', hnarrows,
        hnarrows.kept htrue (hdrawn link hlink) hkept⟩
    · exact .inr (hends.fulfilled hid htrue (hdrawn link hlink) hkept)

/-- A player who thinks the same of two cards. -/
def twoCards (inferred : IdentitySet) (links : List PlayerLink) : Mind where
  playerIndex := none
  thoughts :=
    (SparseArray.empty.set 0 { id := none, possible := .full 5, inferred, order := 0 }).set 1
      { id := none, possible := .full 5, inferred, order := 1 }
  links := links
  allPossible := .full 5
  allInferred := .full 5

/-- One of two cards is promised to be the first 1, and it is. -/
theorem refreshLinks_promises_twoCards :
    ∃ mind', refreshLinks (twoCards (.full 5) [⟨⟨[0, 1], [⟨0, 1⟩], true⟩, none⟩])
        (.fresh noVariant 2 0 {}) = .ok mind' ∧
      ∀ link ∈ mind'.links, link.promised = true → Kept (fun o => ⟨o, 1⟩) link := by
  have hget : ∀ o card, (twoCards (.full 5) []).thoughts.get o = some card →
      o < 2 ∧ card.possible = .full 5 ∧ card.id = none ∧ card.rewindIds = none := by
    intro o card hcard
    simp only [twoCards, SparseArray.get_set] at hcard
    split at hcard
    · obtain rfl := Option.some.inj hcard
      exact ⟨by omega, rfl, rfl, rfl⟩
    · split at hcard
      · obtain rfl := Option.some.inj hcard
        exact ⟨by omega, rfl, rfl, rfl⟩
      · cases hcard
  obtain ⟨mind', heq, hkept, -⟩ := @refreshLinks_promises
    (twoCards (.full 5) [⟨⟨[0, 1], [⟨0, 1⟩], true⟩, none⟩]) noVariant (fun o => ⟨o, 1⟩)
    (.fresh noVariant 2 0 {})
    (fun link hlink _ => ⟨⟨0, 1⟩, by rw [List.mem_singleton.1 hlink]⟩)
    (fun o card hcard => by
      obtain ⟨ho, hpossible, hid, hrewind⟩ := hget o card hcard
      refine ⟨by rw [hpossible]; rfl, ?_, by simp [hid], by simp [hrewind]⟩
      have hsuit : o < 5 := by omega
      have hrank : IdentitySet.Ranked ⟨o, 1⟩ := ⟨le_rfl, Nat.le_of_ble_eq_true rfl⟩
      rw [hpossible]
      exact IdentitySet.mem_array.2 ⟨hsuit, hrank, IdentitySet.has_full hsuit hrank⟩)
    (fun link hlink o ho => by
      rw [List.mem_singleton.1 hlink] at ho
      simp only [List.mem_cons, List.not_mem_nil, or_false] at ho
      obtain rfl | rfl := ho <;> rfl)
  refine ⟨mind', heq, fun link' hlink' hpromised => ?_⟩
  obtain ⟨link, hlink, -, hstays⟩ := hkept link' hlink' hpromised
  refine hstays ?_
  rw [List.mem_singleton.1 hlink]
  exact fun id hid => ⟨0, List.mem_cons_self, (List.mem_singleton.1 hid).symm⟩

end

/-! ## The links that are found -/

/-- A link that was found in a hand: the cards with some inferences, few of them and no more than
there are cards. -/
structure IsClass (thoughts : SparseArray Card) (state : State) (hand : List ℕ)
    (link : PlayerLink) : Prop where
  promised : link.promised = false
  cards : ∃ o ∈ link.orders, ∃ card, thoughts.get o = some card ∧ unlinkable state card = false ∧
    link.identities = card.inferred.array ∧
    link.orders = sameInferences thoughts hand card.inferred
  several : link.orders.length ≠ 1
  enough : link.identities.length ≤ link.orders.length
  unfocused : focusOf thoughts link.orders link.identities = none

section

variable {n : ℕ} {vars : FindVars} {o : ℕ} {card card' : Card} {link : PlayerLink}

/-- The inferences of the cards of a hand are sets of the variant. -/
def OfSuits (n : ℕ) (thoughts : SparseArray Card) (hand : List ℕ) : Prop :=
  ∀ o ∈ hand, ∀ card, thoughts.get o = some card → card.inferred.numSuits = n

theorem mem_sameInferences {identities : IdentitySet} :
    o ∈ sameInferences thoughts hand identities ↔
      o ∈ hand ∧ ∃ card, thoughts.get o = some card ∧ card.inferred.value = identities.value := by
  rw [sameInferences, List.mem_filter, Option.any_eq_true]
  simp only [beq_iff_eq]

theorem OfSuits.inferred_eq (hn : OfSuits n thoughts hand) {o' : ℕ} (ho : o ∈ hand) (ho' : o' ∈ hand)
    (hcard : thoughts.get o = some card) (hcard' : thoughts.get o' = some card')
    (hvalue : card.inferred.value = card'.inferred.value) : card.inferred = card'.inferred := by
  have hsuits : card.inferred.numSuits = card'.inferred.numSuits :=
    (hn o ho card hcard).trans (hn o' ho' card' hcard').symm
  cases hs : card.inferred
  cases hs' : card'.inferred
  rw [hs, hs'] at hvalue hsuits
  rw [IdentitySet.mk.injEq]
  exact ⟨hsuits, hvalue⟩

/-- Whichever card of a class is looked at, it is the same class. -/
theorem IsClass.eq_of_mem (h : IsClass thoughts state hand link) (hn : OfSuits n thoughts hand)
    (ho : o ∈ link.orders) (hcard : thoughts.get o = some card) :
    link.identities = card.inferred.array ∧
      link.orders = sameInferences thoughts hand card.inferred := by
  obtain ⟨o', ho', card', hcard', -, hids, horders⟩ := h.cards
  rw [horders] at ho ho'
  obtain ⟨hhand, card₁, hcard₁, hvalue⟩ := mem_sameInferences.1 ho
  obtain rfl := Option.some.inj (hcard.symm.trans hcard₁)
  rw [hn.inferred_eq hhand (mem_sameInferences.1 ho').1 hcard hcard' hvalue]
  exact ⟨hids, horders⟩

/-- What holds at every point of the loop of `find_links`. -/
structure FindInv (thoughts : SparseArray Card) (state : State) (hand : List ℕ)
    (vars : FindVars) : Prop where
  classes : ∀ link ∈ vars.links, IsClass thoughts state hand link
  linked : ∀ link ∈ vars.links, link.orders ⊆ vars.linkedOrders
  disjoint : vars.links.Pairwise fun link link' => link.orders.Disjoint link'.orders
  /-- Only the cards of a class that the focus resolves change. -/
  unresolved : ∀ o ∈ hand, ∀ card, thoughts.get o = some card →
    focusOf thoughts (sameInferences thoughts hand card.inferred) card.inferred.array = none →
    vars.thoughts.get o = thoughts.get o
  outside : ∀ o, o ∉ hand → vars.thoughts.get o = thoughts.get o

theorem get_resolveCard_of_ne {focused : ℕ} {id : Identity} {o' : ℕ} (h : o' ≠ o) :
    (resolveCard focused id thoughts o).get o' = thoughts.get o' := by
  unfold resolveCard
  split
  · rfl
  · exact SparseArray.get_set_of_ne _ h _

theorem get_resolveFocus_of_notMem {orders : List ℕ} {focus : ℕ × Identity} {o : ℕ}
    (h : o ∉ orders) : (resolveFocus thoughts orders focus).get o = thoughts.get o := by
  unfold resolveFocus
  induction orders generalizing thoughts with
  | nil => rfl
  | cons o' orders ih =>
    rw [List.mem_cons, not_or] at h
    rw [List.foldl_cons, ih h.2, get_resolveCard_of_ne h.1]

theorem FindInv.findLink (h : FindInv thoughts state hand vars) (hn : OfSuits n thoughts hand)
    (ho : o ∈ hand) : FindInv thoughts state hand (findLink thoughts state hand vars o) := by
  unfold Links.findLink
  split
  · exact h
  rename_i card hcard
  dsimp only
  split
  · exact h
  rename_i hlinkable
  simp only [Bool.or_eq_true, not_or, Bool.not_eq_true, List.contains_eq_mem, beq_eq_false_iff_ne,
    decide_eq_false_iff_not] at hlinkable
  obtain ⟨⟨hnew, hunlinkable⟩, hseveral⟩ := hlinkable
  have hself : o ∈ sameInferences thoughts hand card.inferred :=
    mem_sameInferences.2 ⟨ho, card, hcard, rfl⟩
  split
  · -- the class is resolved; the cards of the links are of other classes
    rename_i focus hfocus
    refine ⟨h.classes, h.linked, h.disjoint, fun o' ho' card' hcard' hnone => ?_, fun o' ho' => ?_⟩
    · rw [← h.unresolved o' ho' card' hcard' hnone]
      refine get_resolveFocus_of_notMem fun hmem => ?_
      obtain ⟨-, card₁, hcard₁, hvalue⟩ := mem_sameInferences.1 hmem
      obtain rfl := Option.some.inj (hcard'.symm.trans hcard₁)
      rw [hn.inferred_eq ho' ho hcard' hcard hvalue, hfocus] at hnone
      cases hnone
    · rw [← h.outside o' ho']
      exact get_resolveFocus_of_notMem fun hmem => ho' (mem_sameInferences.1 hmem).1
  rename_i hfocus
  split
  · rename_i henough
    have hclass : IsClass thoughts state hand
        { orders := sameInferences thoughts hand card.inferred
          identities := card.inferred.array } :=
      ⟨rfl, ⟨o, hself, card, hcard, hunlinkable, rfl, rfl⟩, hseveral, henough, hfocus⟩
    refine ⟨fun link hlink => ?_, fun link hlink => ?_, ?_, h.unresolved, h.outside⟩
    · obtain hlink | hlink := List.mem_append.1 hlink
      · exact h.classes link hlink
      · rwa [List.mem_singleton.1 hlink]
    · obtain hlink | hlink := List.mem_append.1 hlink
      · exact List.subset_append_of_subset_left _ (h.linked link hlink)
      · rw [List.mem_singleton.1 hlink]
        exact List.subset_append_right _ _
    · refine List.pairwise_append.2 ⟨h.disjoint, List.pairwise_singleton _ _,
        fun link hlink link' hlink' => ?_⟩
      rw [List.mem_singleton.1 hlink']
      intro o' ho' hmem
      obtain ⟨hhand, card', hcard', hvalue⟩ := mem_sameInferences.1 hmem
      have heq := ((h.classes link hlink).eq_of_mem hn ho' hcard').2
      rw [hn.inferred_eq hhand ho hcard' hcard hvalue] at heq
      exact hnew (h.linked link hlink (heq ▸ hself))
  · exact h

theorem findVars_inv (mind : Mind) (state : State) {hand : List ℕ}
    (hn : OfSuits n mind.thoughts hand) :
    FindInv mind.thoughts state hand (findVars mind state hand) := by
  have hloop : ∀ (l : List ℕ) (vars : FindVars), l ⊆ hand →
      FindInv mind.thoughts state hand vars →
      FindInv mind.thoughts state hand (l.foldl (findLink mind.thoughts state hand) vars) := by
    intro l
    induction l with
    | nil => exact fun _ _ h => h
    | cons o l ih =>
      intro vars hl h
      exact ih _ (List.subset_of_cons_subset hl) (h.findLink hn (hl List.mem_cons_self))
  refine hloop hand _ (List.Subset.refl _) ⟨fun _ h => (List.not_mem_nil h).elim,
    fun _ h => (List.not_mem_nil h).elim, List.Pairwise.nil, fun _ _ _ _ _ => rfl, fun _ _ => rfl⟩

/-- The links that `find_links` adds for some hands. -/
structure FindsClasses (state : State) (hands : List (List ℕ)) (mind mind' : Mind)
    (found : List PlayerLink) : Prop where
  links : mind'.links = mind.links ++ found
  classes : ∀ link ∈ found, ∃ hand ∈ hands, IsClass mind.thoughts state hand link
  disjoint : found.Pairwise fun link link' => link.orders.Disjoint link'.orders
  /-- The cards of the links are left alone. -/
  unchanged : ∀ link ∈ found, ∀ o ∈ link.orders, mind'.thoughts.get o = mind.thoughts.get o
  outside : ∀ o, (∀ hand ∈ hands, o ∉ hand) → mind'.thoughts.get o = mind.thoughts.get o

theorem IsClass.orders_subset (h : IsClass thoughts state hand link) : link.orders ⊆ hand := by
  obtain ⟨_, _, _, _, _, _, horders⟩ := h.cards
  rw [horders]
  exact fun o ho => (mem_sameInferences.1 ho).1

theorem findLinksIn_classes (mind : Mind) (state : State) {hand : List ℕ}
    (hn : OfSuits n mind.thoughts hand) :
    FindsClasses state [hand] mind (findLinksIn state mind hand) (findVars mind state hand).links := by
  have hinv := findVars_inv mind state hn
  refine ⟨rfl, fun link hlink => ⟨hand, List.mem_singleton_self hand, hinv.classes link hlink⟩,
    hinv.disjoint, fun link hlink o ho => ?_, fun o ho => hinv.outside o (ho hand (by simp))⟩
  have hclass := hinv.classes link hlink
  have hhand := hclass.orders_subset ho
  obtain ⟨_, _, _, _, _, _, horders⟩ := hclass.cards
  obtain ⟨-, card, hcard, -⟩ := mem_sameInferences.1 (horders ▸ ho)
  obtain ⟨hids, hsame⟩ := hclass.eq_of_mem hn ho hcard
  exact hinv.unresolved o hhand card hcard (hids ▸ hsame ▸ hclass.unfocused)

/-- A class of a hand where the thoughts are the same. -/
theorem IsClass.congr {thoughts' : SparseArray Card} (h : IsClass thoughts' state hand link)
    (heq : ∀ o ∈ hand, thoughts'.get o = thoughts.get o) : IsClass thoughts state hand link := by
  have hsame : ∀ ids, sameInferences thoughts' hand ids = sameInferences thoughts hand ids :=
    fun ids => List.filter_congr fun o ho => by rw [heq o ho]
  have hsub := h.orders_subset
  obtain ⟨o, ho, card, hcard, hunlinkable, hids, horders⟩ := h.cards
  refine ⟨h.promised, ⟨o, ho, card, heq o (hsub ho) ▸ hcard, hunlinkable, hids, hsame _ ▸ horders⟩,
    h.several, h.enough, ?_⟩
  have hfilter : (link.orders.filter fun o => (thoughts.get o).any (·.focused)) =
      link.orders.filter fun o => (thoughts'.get o).any (·.focused) :=
    List.filter_congr fun o ho => by rw [heq o (hsub ho)]
  have hunfocused := h.unfocused
  unfold focusOf at hunfocused ⊢
  rwa [hfilter]

/-- The links of some hands, and those of another one. -/
theorem FindsClasses.cons {mind mind' mind'' : Mind} {hands : List (List ℕ)}
    {found found' : List PlayerLink} (h : FindsClasses state [hand] mind mind' found)
    (h' : FindsClasses state hands mind' mind'' found')
    (hdisjoint : ∀ hand' ∈ hands, hand.Disjoint hand') :
    FindsClasses state (hand :: hands) mind mind'' (found ++ found') := by
  have hbefore : ∀ hand' ∈ hands, ∀ o ∈ hand', mind'.thoughts.get o = mind.thoughts.get o := by
    intro hand' hhand' o ho
    refine h.outside o fun hand₁ hhand₁ ho₁ => ?_
    rw [List.mem_singleton.1 hhand₁] at ho₁
    exact hdisjoint hand' hhand' ho₁ ho
  have hafter : ∀ o ∈ hand, mind''.thoughts.get o = mind'.thoughts.get o := fun o ho =>
    h'.outside o fun hand' hhand' ho' => hdisjoint hand' hhand' ho ho'
  have hin : ∀ link ∈ found, link.orders ⊆ hand := by
    intro link hlink
    obtain ⟨hand₁, hhand₁, hclass⟩ := h.classes link hlink
    exact List.mem_singleton.1 hhand₁ ▸ hclass.orders_subset
  refine ⟨by rw [h'.links, h.links, List.append_assoc], fun link hlink => ?_, ?_,
    fun link hlink o ho => ?_, fun o ho => ?_⟩
  · obtain hlink | hlink := List.mem_append.1 hlink
    · obtain ⟨hand₁, hhand₁, hclass⟩ := h.classes link hlink
      exact ⟨hand₁, List.mem_cons.2 (.inl (List.mem_singleton.1 hhand₁)), hclass⟩
    · obtain ⟨hand', hhand', hclass⟩ := h'.classes link hlink
      exact ⟨hand', List.mem_cons_of_mem hand hhand', hclass.congr (hbefore hand' hhand')⟩
  · refine List.pairwise_append.2 ⟨h.disjoint, h'.disjoint, fun link hlink link' hlink' o ho ho' => ?_⟩
    obtain ⟨hand', hhand', hclass⟩ := h'.classes link' hlink'
    exact hdisjoint hand' hhand' (hin link hlink ho) (hclass.orders_subset ho')
  · obtain hlink | hlink := List.mem_append.1 hlink
    · exact (hafter o (hin link hlink ho)).trans (h.unchanged link hlink o ho)
    · obtain ⟨hand', hhand', hclass⟩ := h'.classes link hlink
      exact (h'.unchanged link hlink o ho).trans (hbefore hand' hhand' o (hclass.orders_subset ho))
  · rw [h'.outside o fun hand' hhand' => ho hand' (List.mem_cons_of_mem hand hhand'),
      h.outside o fun hand₁ hhand₁ => ho hand₁ (List.mem_cons.2 (.inl (List.mem_singleton.1 hhand₁)))]

theorem FindsClasses.mono {mind mind' : Mind} {hands hands' : List (List ℕ)}
    {found : List PlayerLink} (h : FindsClasses state hands mind mind' found)
    (hsub : hands ⊆ hands') : FindsClasses state hands' mind mind' found := by
  refine ⟨h.links, fun link hlink => ?_, h.disjoint, h.unchanged, fun o ho => ?_⟩
  · obtain ⟨hand, hhand, hclass⟩ := h.classes link hlink
    exact ⟨hand, hsub hhand, hclass⟩
  · exact h.outside o fun hand hhand => ho hand (hsub hhand)

theorem foldl_findLinksIn_classes {hands : List (List ℕ)} (mind : Mind) (state : State)
    (hhands : hands.Pairwise List.Disjoint) (hn : ∀ hand ∈ hands, OfSuits n mind.thoughts hand) :
    ∃ found, FindsClasses state hands mind (hands.foldl (findLinksIn state) mind) found := by
  induction hands generalizing mind with
  | nil =>
    exact ⟨[], (List.append_nil _).symm, fun _ h => (List.not_mem_nil h).elim, List.Pairwise.nil,
      fun _ h => (List.not_mem_nil h).elim, fun _ _ => rfl⟩
  | cons hand hands ih =>
    rw [List.pairwise_cons] at hhands
    have hfirst := findLinksIn_classes mind state (hn hand List.mem_cons_self)
    have hsuits : ∀ hand' ∈ hands, OfSuits n (findLinksIn state mind hand).thoughts hand' := by
      intro hand' hhand' o ho card hcard
      rw [hfirst.outside o fun hand₁ hhand₁ ho₁ => ?_] at hcard
      · exact hn hand' (List.mem_cons_of_mem hand hhand') o ho card hcard
      · rw [List.mem_singleton.1 hhand₁] at ho₁
        exact hhands.1 hand' hhand' ho₁ ho
    obtain ⟨found, hrest⟩ := ih (findLinksIn state mind hand) hhands.2 hsuits
    exact ⟨_, hfirst.cons hrest hhands.1⟩

/-- The links that `find_links` finds are disjoint: each of them is the class of the cards in a hand
with the same few inferences, and its cards are left alone. -/
theorem findLinks_classes (mind : Mind) (state : State) (hnodup : state.allOrders.Nodup)
    (hn : OfSuits n mind.thoughts state.allOrders)
    (hindex : ∀ i ∈ mind.playerIndex, i < state.numPlayers) :
    ∃ found, FindsClasses state ((List.range state.numPlayers).map state.hands) mind
      (findLinks mind state) found := by
  have hhand : ∀ hand ∈ (List.range state.numPlayers).map state.hands,
      OfSuits n mind.thoughts hand := by
    intro hand hhand o ho
    obtain ⟨i, hi, rfl⟩ := List.mem_map.1 hhand
    exact hn o (State.mem_allOrders.2 ⟨i, List.mem_range.1 hi, ho⟩)
  unfold findLinks
  split
  · rename_i i hi
    have hmem : state.hands i ∈ (List.range state.numPlayers).map state.hands :=
      List.mem_map_of_mem (List.mem_range.2 (hindex i hi))
    exact ⟨_, (findLinksIn_classes mind state (hhand _ hmem)).mono
      fun hand h => List.mem_singleton.1 h ▸ hmem⟩
  · rw [State.allOrders, List.flatMap_def, List.nodup_flatten] at hnodup
    exact foldl_findLinksIn_classes mind state hnodup.2 hhand

/-- Two cards in a hand that are both thought to be one of two 1s. -/
theorem findLinks_classes_twoCards :
    ∃ found, FindsClasses
      (Basics.onDraw (Basics.onDraw (.fresh noVariant 2 0 {}) none 0 0 none) none 1 0 none)
      [[1, 0], []] (twoCards ⟨5, 33⟩ [])
      (findLinks (twoCards ⟨5, 33⟩ [])
        (Basics.onDraw (Basics.onDraw (.fresh noVariant 2 0 {}) none 0 0 none) none 1 0 none)) found ∧
      found.map (fun link => link.orders) = [[1, 0]] := by
  have hn : OfSuits 5 (twoCards ⟨5, 33⟩ []).thoughts (Basics.onDraw
      (Basics.onDraw (.fresh noVariant 2 0 {}) none 0 0 none) none 1 0 none).allOrders := by
    intro o _ card hcard
    simp only [twoCards, SparseArray.get_set] at hcard
    split at hcard
    · obtain rfl := Option.some.inj hcard
      rfl
    · split at hcard
      · obtain rfl := Option.some.inj hcard
        rfl
      · cases hcard
  obtain ⟨found, hfound⟩ := findLinks_classes (twoCards ⟨5, 33⟩ [])
    (Basics.onDraw (Basics.onDraw (.fresh noVariant 2 0 {}) none 0 0 none) none 1 0 none)
    (by decide) hn (by decide)
  refine ⟨found, hfound, ?_⟩
  rw [← List.nil_append found, ← show (twoCards ⟨5, 33⟩ []).links = [] from rfl, ← hfound.links]
  decide

end

end Links

end HanabiBot
