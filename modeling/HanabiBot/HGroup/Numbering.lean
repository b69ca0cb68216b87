import HanabiBot.HGroup.Connections

/-!
# The numbering of the cards

Cards are told apart by the order they are drawn in.  `Renumbered` relates two games
that differ in these numbers only; what the parts of `find_known_connecting` find in
the one game is, under its other number, what they find in the other.
-/

namespace HanabiBot.HGroup

/-! ## Giving the cards other numbers -/

section Renumber

variable (ρ : ℕ → ℕ)

def renumberCard (card : Card) : Card := { card with order := ρ card.order }

def renumberLink (link : Link) : Link := { link with orders := link.orders.map ρ }

def Connection.renumber (conn : Connection) : Connection :=
  { conn with
    order := ρ conn.order
    linked := conn.linked.map fun orders => orders.map ρ }

def WaitingConnection.renumber (wc : WaitingConnection) : WaitingConnection :=
  { wc with
    connections := wc.connections.map (Connection.renumber ρ)
    focus := ρ wc.focus }

def KnownConnecting.renumber : KnownConnecting → KnownConnecting
  | .connection conn => .connection (conn.renumber ρ)
  | .terminate => .terminate

end Renumber

/-- What a state holds apart from cards. -/
def HState.unnumbered (st : HState) : HState :=
  { st with
    hands := fun _ => []
    deck := .empty
    actionList := .empty
    cardOrder := -1
    marks := fun _ => {} }

/-- The same player, with other numbers for the cards in `S`, which are all it has. -/
structure RenumberedPlayer (ρ : ℕ → ℕ) (S : Set ℕ) (player player' : ConnPlayer) : Prop where
  playerIndex : player'.playerIndex = player.playerIndex
  thoughts : ∀ o ∈ S, player'.thoughts.get (ρ o) = (player.thoughts.get o).map (renumberCard ρ)
  marks : ∀ o ∈ S, player'.marks (ρ o) = player.marks o
  links : player'.links = player.links.map (renumberLink ρ)
  linked : ∀ link ∈ player.links, ∀ o ∈ link.orders, o ∈ S
  hypoStacks : player'.hypoStacks = player.hypoStacks
  hypoPlays : player'.hypoPlays = player.hypoPlays.map ρ
  hypoPlayed : ∀ o ∈ player.hypoPlays, o ∈ S
  waitingConnections :
    player'.waitingConnections = player.waitingConnections.map (WaitingConnection.renumber ρ)
  waiting : ∀ wc ∈ player.waitingConnections, wc.focus ∈ S ∧ ∀ conn ∈ wc.connections, conn.order ∈ S

/-- The same game, with other numbers for the cards. -/
structure Renumbered (ρ : ℕ → ℕ) (S : Set ℕ) (game game' : ConnGame) : Prop where
  injOn : Set.InjOn ρ S
  level : game'.level = game.level
  unnumbered : game'.state.unnumbered = game.state.unnumbered
  hands : ∀ p, game'.state.hands p = (game.state.hands p).map ρ
  inHand : ∀ p, ∀ o ∈ game.state.hands p, o ∈ S
  deck : ∀ o ∈ S, game'.state.deck.get (ρ o) = game.state.deck.get o
  marks : ∀ o ∈ S, game'.state.marks (ρ o) = game.state.marks o
  common : RenumberedPlayer ρ S game.common game'.common
  players : ∀ p, RenumberedPlayer ρ S (game.players p) (game'.players p)

/-! ## What does not depend on the numbers -/

theorem matchesId_renumberCard (ρ : ℕ → ℕ) (card : Card) (identity : Identity)
    (options : MatchOptions) :
    (renumberCard ρ card).matchesId identity options = card.matchesId identity options := rfl

section Lists

variable {ρ : ℕ → ℕ} {S : Set ℕ}

theorem contains_map (hρ : Set.InjOn ρ S) {l : List ℕ} (hl : ∀ o ∈ l, o ∈ S) {o : ℕ} (ho : o ∈ S) :
    (l.map ρ).contains (ρ o) = l.contains o := by
  rw [Bool.eq_iff_iff, List.contains_iff_mem, List.contains_iff_mem, List.mem_map]
  constructor
  · rintro ⟨x, hx, heq⟩
    exact hρ (hl x hx) ho heq ▸ hx
  · exact fun h => ⟨o, h, rfl⟩

variable {α β : Type*} {f : α → β}

theorem find?_map_eq {l : List α} {p' : β → Bool} {p : α → Bool} (h : ∀ a ∈ l, p' (f a) = p a) :
    (l.map f).find? p' = (l.find? p).map f := by
  induction l with
  | nil => rfl
  | cons a l ih =>
    rw [List.map_cons, List.find?_cons, List.find?_cons, h a List.mem_cons_self]
    cases p a with
    | true => rfl
    | false => exact ih fun x hx => h x (List.mem_cons_of_mem a hx)

theorem filter_map_eq {l : List α} {p' : β → Bool} {p : α → Bool} (h : ∀ a ∈ l, p' (f a) = p a) :
    (l.map f).filter p' = (l.filter p).map f := by
  rw [List.filter_map]
  exact congrArg _ (List.filter_congr h)

theorem any_map_eq {l : List α} {p' : β → Bool} {p : α → Bool} (h : ∀ a ∈ l, p' (f a) = p a) :
    (l.map f).any p' = l.any p := by
  rw [List.any_map, Bool.eq_iff_iff, List.any_eq_true, List.any_eq_true]
  exact exists_congr fun a => and_congr_right fun ha => by rw [Function.comp_apply, h a ha]

theorem findIdx?_map_eq {l : List α} {p' : β → Bool} {p : α → Bool} (h : ∀ a ∈ l, p' (f a) = p a) :
    (l.map f).findIdx? p' = l.findIdx? p := by
  induction l with
  | nil => rfl
  | cons a l ih =>
    rw [List.map_cons, List.findIdx?_cons, List.findIdx?_cons, h a List.mem_cons_self,
      ih fun x hx => h x (List.mem_cons_of_mem a hx)]

end Lists

namespace RenumberedPlayer

variable {ρ : ℕ → ℕ} {S : Set ℕ} {player player' : ConnPlayer}
  (h : RenumberedPlayer ρ S player player')
include h

/-- A test of a thought that does not look at its number. -/
theorem any_thought {o : ℕ} (ho : o ∈ S) {p p' : Card → Bool}
    (hp : ∀ card, p' (renumberCard ρ card) = p card) :
    (player'.thoughts.get (ρ o)).any p' = (player.thoughts.get o).any p := by
  rw [h.thoughts o ho]
  cases player.thoughts.get o with
  | none => rfl
  | some card => exact hp card

theorem possible {o : ℕ} (ho : o ∈ S) : player'.possible (ρ o) = player.possible o := by
  simp only [HGroupPlayer.possible, h.thoughts o ho, Option.map_map]
  rfl

theorem status {o : ℕ} (ho : o ∈ S) : player'.status (ρ o) = player.status o := by
  simp only [HGroupPlayer.status, h.thoughts o ho]
  cases player.thoughts.get o <;> rfl

theorem orderMatches {o : ℕ} (ho : o ∈ S) (identity : Identity) :
    player'.orderMatches (ρ o) identity = player.orderMatches o identity :=
  h.any_thought ho fun _ => rfl

theorem hypoPlays_contains (hρ : Set.InjOn ρ S) {o : ℕ} (ho : o ∈ S) :
    player'.hypoPlays.contains (ρ o) = player.hypoPlays.contains o := by
  rw [h.hypoPlays]
  exact contains_map hρ h.hypoPlayed ho

end RenumberedPlayer

namespace Renumbered

variable {ρ : ℕ → ℕ} {S : Set ℕ} {game game' : ConnGame} (h : Renumbered ρ S game game')
include h

/-- What does not look at the cards does not change. -/
theorem read {β : Type*} (f : HState → β) (hf : ∀ st : HState, f st.unnumbered = f st) :
    f game'.state = f game.state := by
  rw [← hf game'.state, h.unnumbered, hf]

theorem numPlayers : game'.state.numPlayers = game.state.numPlayers :=
  h.read (fun st => st.numPlayers) fun _ => rfl

theorem ourPlayerIndex : game'.state.ourPlayerIndex = game.state.ourPlayerIndex :=
  h.read (fun st => st.ourPlayerIndex) fun _ => rfl

theorem isBasicTrash : game'.state.isBasicTrash = game.state.isBasicTrash :=
  h.read (fun st => st.isBasicTrash) fun _ => rfl

theorem isPlayable : game'.state.isPlayable = game.state.isPlayable :=
  h.read (fun st => st.isPlayable) fun _ => rfl

theorem cardCount : game'.state.cardCount = game.state.cardCount :=
  h.read (fun st => st.cardCount) fun _ => rfl

theorem baseCount : game'.state.baseCount = game.state.baseCount :=
  h.read (fun st => st.baseCount) fun _ => rfl

theorem me : RenumberedPlayer ρ S game.me game'.me := by
  rw [ConnGame.me, ConnGame.me, h.ourPlayerIndex]
  exact h.players _

theorem allOrders : game'.state.allOrders = game.state.allOrders.map ρ := by
  rw [State.allOrders, State.allOrders, h.numPlayers, List.map_flatMap]
  exact congrArg (List.flatMap · _) (funext h.hands)

theorem mem_allOrders {o : ℕ} (ho : o ∈ game.state.allOrders) : o ∈ S := by
  obtain ⟨p, -, hp⟩ := State.mem_allOrders.1 ho
  exact h.inHand p o hp

theorem identityOf {o : ℕ} (ho : o ∈ S) :
    game'.state.identityOf (ρ o) = game.state.identityOf o := by
  rw [State.identityOf, State.identityOf, h.deck o ho]

theorem deckMatches {o : ℕ} (ho : o ∈ S) (identity : Identity) :
    game'.state.deckMatches (ρ o) identity = game.state.deckMatches o identity := by
  rw [HState.deckMatches, HState.deckMatches, h.identityOf ho]

theorem isIdentity {o : ℕ} (ho : o ∈ S) (identity : Identity) :
    game'.state.isIdentity (ρ o) identity = game.state.isIdentity o identity := by
  rw [HState.isIdentity, HState.isIdentity, h.identityOf ho]

/-- Two cards are the same under other numbers. -/
theorem beq {o o' : ℕ} (ho : o ∈ S) (ho' : o' ∈ S) : (ρ o == ρ o') = (o == o') := by
  rw [Bool.eq_iff_iff, beq_iff_eq, beq_iff_eq]
  exact h.injOn.eq_iff ho ho'

section Player

variable {player player' : ConnPlayer} (hp : RenumberedPlayer ρ S player player')
include hp

theorem unknownIdentities (identity : Identity) :
    player'.unknownIdentities game'.state.toState identity =
      player.unknownIdentities game.state.toState identity := by
  have hfilter : (game'.state.allOrders.filter (player'.orderMatches · identity)).length =
      (game.state.allOrders.filter (player.orderMatches · identity)).length := by
    rw [h.allOrders, filter_map_eq (f := ρ) fun o ho =>
      hp.orderMatches (h.mem_allOrders ho) identity, List.length_map]
  rw [Player.unknownIdentities, Player.unknownIdentities, h.cardCount, h.baseCount, hfilter]

theorem linkedOrders : player'.linkedOrders game'.state.toState =
    (player.linkedOrders game.state.toState).map ρ := by
  rw [Player.linkedOrders, Player.linkedOrders, hp.links, List.filter_map, List.flatMap_map,
    List.map_flatMap]
  have hunresolved : ∀ link : Link,
      decide (((renumberLink ρ link).orders.length : ℤ) > ((renumberLink ρ link).identities.map
        (player'.unknownIdentities game'.state.toState)).sum) =
      decide ((link.orders.length : ℤ) > (link.identities.map
        (player.unknownIdentities game.state.toState)).sum) := by
    intro link
    rw [funext (h.unknownIdentities hp)]
    simp [renumberLink]
  exact congrArg (List.flatMap fun link => link.orders.map ρ)
    (List.filter_congr fun link _ => hunresolved link)

theorem linkedOrders_contains {o : ℕ} (ho : o ∈ S) :
    (player'.linkedOrders game'.state.toState).contains (ρ o) =
      (player.linkedOrders game.state.toState).contains o := by
  rw [h.linkedOrders hp]
  refine contains_map h.injOn (fun x hx => ?_) ho
  obtain ⟨link, hlink, hx⟩ := List.mem_flatMap.1 hx
  exact hp.linked link (List.mem_of_mem_filter hlink) x hx

theorem visibleFind_length (infer : Bool) (identity : Identity) :
    (visibleFind infer game'.state player'.toHGroupPlayer identity).length =
      (visibleFind infer game.state player.toHGroupPlayer identity).length := by
  have hfilter : ∀ index, ((game'.state.hands index).filter fun o =>
      (player'.thoughts.get o).any fun card => card.matchesId identity
        { infer := infer || player'.playerIndex == some game'.state.ourPlayerIndex
          symmetric := player'.playerIndex == some index }).length =
      ((game.state.hands index).filter fun o =>
        (player.thoughts.get o).any fun card => card.matchesId identity
          { infer := infer || player.playerIndex == some game.state.ourPlayerIndex
            symmetric := player.playerIndex == some index }).length := by
    intro index
    rw [h.hands, hp.playerIndex, h.ourPlayerIndex, filter_map_eq (f := ρ) fun o ho =>
      hp.any_thought (h.inHand index o ho) fun _ => rfl, List.length_map]
    rfl
  rw [visibleFind, visibleFind, List.length_flatMap, List.length_flatMap, h.numPlayers]
  exact congrArg List.sum (List.map_congr_left fun index _ => hfilter index)

theorem isSavedAs {o : ℕ} (ho : o ∈ S) (options : MatchOptions) (identity : Identity) :
    isSavedAs options game'.state player'.toHGroupPlayer identity (ρ o) =
      isSavedAs options game.state player.toHGroupPlayer identity o := by
  rw [HGroup.isSavedAs, HGroup.isSavedAs, h.allOrders]
  refine any_map_eq fun x hx => ?_
  have hxS := h.mem_allOrders hx
  refine hp.any_thought hxS fun card => ?_
  have hlinks : player'.links.any (fun link => link.identities.any fun i =>
      i == identity && link.orders.contains (ρ o)) = player.links.any fun link =>
        link.identities.any fun i => i == identity && link.orders.contains o := by
    rw [hp.links]
    refine any_map_eq fun link hlink => ?_
    show (link.identities.any fun i => i == identity && (link.orders.map ρ).contains (ρ o)) = _
    rw [contains_map h.injOn (hp.linked link hlink) ho]
  have hne : (ρ x != ρ o) = (x != o) := congrArg (!·) (h.beq hxS ho)
  rw [h.deckMatches hxS, hne, hlinks]
  rfl

end Player

section Search

variable (giver : ℕ) (identity : Identity) {ignoreOrders : List ℕ}
  (hignore : ∀ o ∈ ignoreOrders, o ∈ S)

omit h in
theorem conn_order_beq (hρ : Set.InjOn ρ S) {conn : Connection} (hconn : conn.order ∈ S) {o : ℕ}
    (ho : o ∈ S) : ((conn.renumber ρ).order == ρ o) = (conn.order == o) := by
  rw [Bool.eq_iff_iff, beq_iff_eq, beq_iff_eq]
  exact hρ.eq_iff hconn ho

theorem mayBeFake {o : ℕ} (ho : o ∈ S) {wc : WaitingConnection}
    (hwc : ∀ conn ∈ wc.connections, conn.order ∈ S) :
    mayBeFake game' (ρ o) (wc.renumber ρ) = mayBeFake game o wc := by
  have hpending : (wc.renumber ρ).connections.drop (wc.renumber ρ).connIndex =
      (wc.connections.drop wc.connIndex).map (Connection.renumber ρ) := List.map_drop.symm
  have hidx : ((wc.connections.drop wc.connIndex).map (Connection.renumber ρ)).findIdx?
      (fun conn => conn.order == ρ o) =
      (wc.connections.drop wc.connIndex).findIdx? fun conn => conn.order == o :=
    findIdx?_map_eq fun conn hconn =>
      conn_order_beq h.injOn (hwc conn (List.mem_of_mem_drop hconn)) ho
  simp only [HGroup.mayBeFake, hpending, hidx, h.ourPlayerIndex, ← List.map_take, List.any_map]
  rfl

theorem possiblyFake {o : ℕ} (ho : o ∈ S) :
    possiblyFake game' giver (ρ o) = possiblyFake game giver o := by
  unfold HGroup.possiblyFake
  rw [h.ourPlayerIndex, h.common.waitingConnections,
    any_map_eq fun wc hwc => h.mayBeFake ho (h.common.waiting wc hwc).2]

theorem inferencesAfter (playerIndex : ℕ) {o : ℕ} (ho : o ∈ S) (card : Card) :
    inferencesAfter game' giver identity playerIndex (ρ o) (renumberCard ρ card) =
      inferencesAfter game giver identity playerIndex o card := by
  have hfind : game'.common.waitingConnections.find? (fun conn => !conn.symmetric &&
        conn.focus == ρ o && conn.target != game.state.ourPlayerIndex) =
      (game.common.waitingConnections.find? fun conn => !conn.symmetric && conn.focus == o &&
        conn.target != game.state.ourPlayerIndex).map (WaitingConnection.renumber ρ) := by
    rw [h.common.waitingConnections]
    refine find?_map_eq fun wc hwc => ?_
    show (!wc.symmetric && ρ wc.focus == ρ o && _) = _
    rw [h.beq (h.common.waiting wc hwc).1 ho]
    rfl
  unfold HGroup.inferencesAfter
  rw [h.ourPlayerIndex, hfind]
  cases game.common.waitingConnections.find? fun conn => !conn.symmetric && conn.focus == o &&
    conn.target != game.state.ourPlayerIndex <;> rfl

include hignore

theorem isGloballyKnown (playerIndex : ℕ) {o : ℕ} (ho : o ∈ S) :
    isGloballyKnown game' giver identity (ignoreOrders.map ρ) playerIndex (ρ o) =
      isGloballyKnown game giver identity ignoreOrders playerIndex o := by
  unfold HGroup.isGloballyKnown
  refine h.common.any_thought ho fun card => ?_
  rw [contains_map h.injOn hignore ho, h.deckMatches ho, h.common.marks o ho,
    h.possiblyFake giver ho, h.linkedOrders_contains h.common ho, h.ourPlayerIndex,
    h.linkedOrders_contains h.me ho, h.inferencesAfter giver identity playerIndex ho]
  rfl

theorem globallyKnown (playerIndex : ℕ) :
    globallyKnown game' giver identity (ignoreOrders.map ρ) playerIndex =
      (globallyKnown game giver identity ignoreOrders playerIndex).map ρ := by
  unfold HGroup.globallyKnown
  rw [h.hands]
  exact find?_map_eq fun o ho =>
    h.isGloballyKnown giver identity hignore playerIndex (h.inHand playerIndex o ho)

omit hignore in
theorem knownLink {o : ℕ} (ho : o ∈ S) :
    knownLink game' identity (ρ o) = (knownLink game identity o).map (renumberLink ρ) := by
  unfold HGroup.knownLink
  rw [h.common.links]
  refine find?_map_eq fun link hlink => ?_
  show (link.promised && link.identities.contains identity && (link.orders.map ρ).contains (ρ o) &&
    decide (link.identities.length ≤ (link.orders.map ρ).length)) = _
  rw [contains_map h.injOn (h.common.linked link hlink) ho, List.length_map]

theorem knownLinked (playerIndex : ℕ) :
    knownLinked game' identity (ignoreOrders.map ρ) playerIndex =
      (knownLinked game identity ignoreOrders playerIndex).map (Connection.renumber ρ) := by
  have hfind : (game'.state.hands playerIndex).find? (fun order =>
        !(ignoreOrders.map ρ).contains order && game'.state.deckMatches order identity &&
          (HGroup.knownLink game' identity order).isSome) =
      ((game.state.hands playerIndex).find? fun order => !ignoreOrders.contains order &&
        game.state.deckMatches order identity &&
          (HGroup.knownLink game identity order).isSome).map ρ := by
    rw [h.hands]
    refine find?_map_eq fun o ho => ?_
    have hoS := h.inHand playerIndex o ho
    rw [contains_map h.injOn hignore hoS, h.deckMatches hoS, h.knownLink identity hoS,
      Option.isSome_map]
  unfold HGroup.knownLinked
  rw [hfind]
  cases hcard : (game.state.hands playerIndex).find? fun order => !ignoreOrders.contains order &&
      game.state.deckMatches order identity && (HGroup.knownLink game identity order).isSome with
  | none => rfl
  | some o =>
    have hoS := h.inHand playerIndex o (List.mem_of_find?_eq_some hcard)
    rw [Option.map_some, Option.bind_some, Option.bind_some, h.knownLink identity hoS]
    cases HGroup.knownLink game identity o with
    | none => rfl
    | some link =>
      rw [Option.map_some, Option.bind_some, Option.bind_some]
      have hconflict : (game'.common.links.any fun other => other.promised &&
          !other.identities.contains identity && other.orders.contains (ρ o)) =
          game.common.links.any fun other => other.promised &&
            !other.identities.contains identity && other.orders.contains o := by
        rw [h.common.links]
        refine any_map_eq fun other hother => ?_
        show (other.promised && !other.identities.contains identity &&
          (other.orders.map ρ).contains (ρ o)) = _
        rw [contains_map h.injOn (h.common.linked other hother) hoS]
      rw [hconflict]
      split <;> rfl

theorem unknownPlayables (playerIndex : ℕ) :
    unknownPlayables game' identity (ignoreOrders.map ρ) playerIndex =
      (unknownPlayables game identity ignoreOrders playerIndex).map ρ := by
  unfold HGroup.unknownPlayables
  dsimp only
  rw [h.hands]
  refine filter_map_eq fun o ho => ?_
  have hoS := h.inHand playerIndex o ho
  refine h.common.any_thought hoS fun card => ?_
  rw [contains_map h.injOn hignore hoS, h.isPlayable, h.common.hypoPlays_contains h.injOn hoS,
    h.common.marks o hoS]
  rfl

omit hignore in
theorem couldBeDuplicated :
    couldBeDuplicated game' giver identity = couldBeDuplicated game giver identity := by
  unfold HGroup.couldBeDuplicated
  rw [h.ourPlayerIndex, h.hands]
  refine congrArg _ (any_map_eq fun o ho => ?_)
  have hoS := h.inHand giver o ho
  rw [h.marks o hoS, (h.players giver).any_thought hoS fun _ => rfl]
  rfl

theorem visiblePlayable (options : KnownOptions) (playerIndex : ℕ) :
    visiblePlayable game' giver identity (ignoreOrders.map ρ) options playerIndex =
      (visiblePlayable game giver identity ignoreOrders options playerIndex).map
        fun result => result.map (KnownConnecting.renumber ρ) := by
  have hfound : ((HGroup.unknownPlayables game identity ignoreOrders playerIndex).map ρ).find?
      (fun o => game'.state.isIdentity o identity) =
      ((HGroup.unknownPlayables game identity ignoreOrders playerIndex).find?
        fun o => game.state.isIdentity o identity).map ρ :=
    find?_map_eq fun o ho => h.isIdentity (h.inHand playerIndex o (List.mem_of_mem_filter ho)) _
  unfold HGroup.visiblePlayable
  dsimp only
  rw [h.unknownPlayables identity hignore, hfound, List.length_map,
    h.couldBeDuplicated giver identity]
  split
  · rfl
  · split
    · cases (HGroup.unknownPlayables game identity ignoreOrders playerIndex).find?
        fun o => game.state.isIdentity o identity <;> rfl
    · cases (HGroup.unknownPlayables game identity ignoreOrders playerIndex).find?
        fun o => game.state.isIdentity o identity <;> rfl

omit hignore in
theorem missingIds {o : ℕ} (ho : o ∈ S) (card : Card) :
    missingIds game' giver (ρ o) (renumberCard ρ card) = missingIds game giver o card := by
  unfold HGroup.missingIds
  dsimp only
  refine List.flatMap_congr fun i _ => ?_
  rw [h.cardCount, h.baseCount, h.visibleFind_length (h.players giver), h.isIdentity ho]

theorem knownToGiver {o : ℕ} (ho : o ∈ S) :
    knownToGiver game' giver identity (ignoreOrders.map ρ) (ρ o) =
      knownToGiver game giver identity ignoreOrders o := by
  unfold HGroup.knownToGiver
  rw [contains_map h.injOn hignore ho, h.isIdentity ho]
  refine congrArg _ (h.common.any_thought ho fun card => ?_)
  rw [h.missingIds giver ho]
  have hour : ∀ missing, ((game'.state.hands game'.state.ourPlayerIndex).any fun x =>
      !(ignoreOrders.map ρ).contains x && (game'.me.possible x).has missing) =
      (game.state.hands game.state.ourPlayerIndex).any fun x =>
        !ignoreOrders.contains x && (game.me.possible x).has missing := by
    intro missing
    rw [h.ourPlayerIndex, h.hands]
    refine any_map_eq fun x hx => ?_
    have hxS := h.inHand _ x hx
    rw [contains_map h.injOn hignore hxS, h.me.possible hxS]
  match HGroup.missingIds game giver o card with
  | [] => rfl
  | [missing] => exact hour missing
  | _ :: _ :: _ => rfl

theorem giverAsymmetric (options : KnownOptions) :
    giverAsymmetric game' giver identity (ignoreOrders.map ρ) options =
      (giverAsymmetric game giver identity ignoreOrders options).map ρ := by
  unfold HGroup.giverAsymmetric
  rw [h.hands, find?_map_eq fun o ho =>
    h.knownToGiver giver identity hignore (h.inHand giver o ho)]
  split <;> rfl

omit hignore in
theorem knownPlayOrder (options : KnownOptions) :
    knownPlayOrder game' giver options = knownPlayOrder game giver options := by
  rw [HGroup.knownPlayOrder, HGroup.knownPlayOrder, h.numPlayers]

theorem laterConnecting (options : KnownOptions) :
    laterConnecting game' giver identity (ignoreOrders.map ρ) options =
      (laterConnecting game giver identity ignoreOrders options).map
        (KnownConnecting.renumber ρ) := by
  have horder : visiblePlayOrder game' giver options = visiblePlayOrder game giver options := by
    rw [visiblePlayOrder, visiblePlayOrder, h.numPlayers]
  have hsearch : ∀ l : List ℕ,
      l.findSome? (HGroup.visiblePlayable game' giver identity (ignoreOrders.map ρ) options) =
      (l.findSome? (HGroup.visiblePlayable game giver identity ignoreOrders options)).map
        fun result => result.map (KnownConnecting.renumber ρ) := by
    intro l
    induction l with
    | nil => rfl
    | cons p l ih =>
      rw [List.findSome?_cons, List.findSome?_cons, h.visiblePlayable giver identity hignore]
      cases HGroup.visiblePlayable game giver identity ignoreOrders options p with
      | none => exact ih
      | some result => rfl
  unfold HGroup.laterConnecting
  rw [horder, hsearch, h.giverAsymmetric giver identity hignore]
  cases (visiblePlayOrder game giver options).findSome?
      (HGroup.visiblePlayable game giver identity ignoreOrders options) with
  | some result => rfl
  | none => cases HGroup.giverAsymmetric game giver identity ignoreOrders options <;> rfl

end Search

end Renumbered

end HanabiBot.HGroup
