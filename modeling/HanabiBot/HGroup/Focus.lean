import HanabiBot.Basics.Card

/-!
# The focus of a clue

`determine_focus` of `src/conventions/h-group/hanabi-logic.js` and what it
calls: the chop, trash pushes (`interpret_tp`, `is_trash_clue`), the order of
unknown 1s (`order_1s`) and `stall_severity`.

Every player runs it in a `Game` of their own.  `SameCommon` relates two such
games of one position: they share the common player, the board and the clue
marks, and may differ in who looks at it, in the cards that are seen and in what
is kept about each single player.

* `determineFocus_agree` — outside the last rule for 5 stalls in pinkish
  variants, two players agree on the focus if and only if `isTrashClue` gives
  them the same answer whenever a trash push is tested for;
* `determineFocus_disagree` — they need not: the giver and a third player who may
  hold the last copy of an identity read one clue differently.
-/

namespace HanabiBot.HGroup

/-- `LEVEL.TRASH_MOVES`. -/
def TRASH_MOVES : ℕ := 14

/-- A clue of a card's history, with the turn it was given on. -/
structure GivenClue extends BaseClue where
  turn : ℕ
  deriving DecidableEq

/-- The clue marks of `state.deck[order]`. -/
structure CardMarks where
  clued : Bool := false
  clues : List GivenClue := []
  deriving DecidableEq

/-- `state.discard_state`. -/
inductive DiscardState
  | shout | scream | gen
  deriving DecidableEq

/-- `State`, with the fields that only conventions read on top. -/
structure HState extends State where
  earlyGame : Bool := true
  discardState : Option DiscardState := none
  dda : Option Identity := none
  marks : ℕ → CardMarks := fun _ => {}

/-- The fields of a thought that `Card` leaves out. -/
structure ThoughtMarks where
  finesseIndex : ℤ := -1
  chopWhenFirstClued : Bool := false
  uncertain : Bool := false
  maybeLayered : Bool := false
  deriving DecidableEq

/-- `HGroup_Player`. -/
structure HGroupPlayer extends Player where
  marks : ℕ → ThoughtMarks := fun _ => {}

/-- An H-Group game, as one player keeps it. -/
structure Game where
  level : ℕ
  state : HState
  common : HGroupPlayer
  players : ℕ → HGroupPlayer

namespace HState

/-- Whether a card's order was part of the starting hands. -/
def inStartingHand (st : HState) (order : ℕ) : Bool :=
  decide ((order : ℤ) < st.numPlayers * st.handSize)

def includesVariant (st : HState) (variantRegex : String → Bool) : Bool :=
  st.variant.suits.any variantRegex

/-- `state.deck[order].matches(identity, { assume: true })`. -/
def deckMatches (st : HState) (order : ℕ) (identity : Identity) : Bool :=
  match st.identityOf order with
  | none => true
  | some id => id == identity

end HState

namespace HGroupPlayer

/-! The accessors below are only asked about cards that have been dealt. -/

def status (player : HGroupPlayer) (o : ℕ) : Option CardStatus :=
  (player.thoughts.get o).bind fun card => card.status

def known (player : HGroupPlayer) (o : ℕ) : Bool :=
  (player.thoughts.get o).any fun card => card.known

def possible (player : HGroupPlayer) (o : ℕ) : IdentitySet :=
  ((player.thoughts.get o).map Card.possible).getD ⟨0, 0⟩

/-- The index of the chop card, if the hand has one. -/
def chopIndex (player : HGroupPlayer) (hand : List ℕ) : Option ℕ :=
  (List.range hand.length).reverse.find? fun i => hand[i]?.any fun o => player.status o == none

def chop (player : HGroupPlayer) (hand : List ℕ) : Option ℕ :=
  (player.chopIndex hand).bind (hand[·]?)

/-- `thinksTrash`: the trash in a hand, according to this player. -/
def thinksTrash (player : HGroupPlayer) (st : HState) (playerIndex : ℕ) : List ℕ :=
  let visibleElsewhere (identity : Identity) (order : ℕ) : Bool :=
    st.allOrders.any fun o => (player.thoughts.get o).any fun card =>
      card.matchesId identity { infer := true } && st.deckMatches o identity &&
        ((st.marks o).clued || (card.blindPlaying && !(player.marks o).uncertain)) && o != order &&
        !player.links.any fun link => link.orders.contains order
  (st.hands playerIndex).filter fun o => (player.thoughts.get o).any fun card =>
    card.trash ||
      -- every possibility is trash or duplicated somewhere
      (if (player.marks o).uncertain then card.possible else card.possibilities).array.all fun p =>
        st.isBasicTrash p || visibleElsewhere p o

/-- `older_queued_finesse`: an earlier queued finesse, if it exists. -/
def olderQueuedFinesse (player : HGroupPlayer) (st : HState) (playerIndex newFinesseOrder : ℕ) :
    Option ℕ :=
  let hand := st.hands playerIndex
  (hand.zipIdx.find? fun (o, index) =>
    -- can't be a layered finesse if every card to the right is clued
    !((st.marks o).clued || (hand.drop (index + 1)).all fun c1 => (st.marks c1).clued) &&
      ((player.thoughts.get o).any fun card =>
        card.blindPlaying || (card.status == some .gd && (player.marks o).maybeLayered)) &&
      decide ((player.marks o).finesseIndex < (player.marks newFinesseOrder).finesseIndex)
    ).map Prod.fst

/-- `thinksPlayables`: playables that are queued behind a finesse aren't playable. -/
def thinksPlayables (player : HGroupPlayer) (st : HState) (playerIndex : ℕ) : List ℕ :=
  (player.toPlayer.thinksPlayables st.toState playerIndex).filter fun o =>
    !((player.thoughts.get o).any Card.blindPlaying) ||
      (player.olderQueuedFinesse st playerIndex o).isNone

/-- `thinksLoaded`, with the default options. -/
def thinksLoaded (player : HGroupPlayer) (st : HState) (playerIndex : ℕ) : Bool :=
  !(player.thinksPlayables st playerIndex).isEmpty ||
    !(player.thinksTrash st playerIndex).isEmpty

/-- `thinksLocked`, with the default options. -/
def thinksLocked (player : HGroupPlayer) (st : HState) (playerIndex : ℕ) : Bool :=
  ((st.hands playerIndex).all fun o => (player.thoughts.get o).any Card.saved) &&
    !player.thinksLoaded st playerIndex

end HGroupPlayer

/-! ## Trash -/

/-- `isSaved` with `{ infer: true }`: the identity is already saved in someone's hand. -/
def isSaved (st : HState) (player : HGroupPlayer) (identity : Identity) (order : ℕ) : Bool :=
  st.allOrders.any fun o => (player.thoughts.get o).any fun card =>
    st.deckMatches o identity && card.matchesId identity { infer := true } && o != order &&
      !(player.links.any fun link => link.identities.any fun i =>
        i == identity && link.orders.contains order) &&
      (card.touched || card.status == some .cm)

/-- `isTrash` with `{ infer: true }`. -/
def isTrash (st : HState) (player : HGroupPlayer) (identity : Identity) (order : ℕ) : Bool :=
  st.isBasicTrash identity || isSaved st player identity order

/-- `is_trash_clue`: whether a clue focus is trash. -/
def isTrashClue (game : Game) (giver : ℕ) (clue : BaseClue) (target focusOrder : ℕ)
    (oldCommon : HGroupPlayer) : Bool :=
  let st := game.state
  let possible := (game.common.possible focusOrder).array.filter fun i =>
    (clue.type != .rank || i.rank == clue.value) && st.variant.cardTouched i clue
  match possible.filter fun i => !isTrash st oldCommon i focusOrder with
  | [] => true
  | id :: rest =>
    let playableCards : ℤ := ((id :: rest).map fun i => st.cardCount i - st.discardStacks i).sum
    if game.level < TRASH_MOVES ∨ 1 < playableCards then false
    else
      -- exactly one playable card: the target might be able to see it
      let our := st.ourPlayerIndex
      let couldBeInOurHand := giver != our && target != our &&
        (st.hands our).any fun o => ((game.players our).possible o).has id
      !((game.players target).possible focusOrder).has id || couldBeInOurHand

/-- The card a trash push would focus, with the chop card it is pushed from: the
new chop after the clue. -/
def trashPush (player : HGroupPlayer) (hand list : List ℕ) : Option (ℕ × ℕ) := do
  let chopIndex ← player.chopIndex hand
  let chop ← hand[chopIndex]?
  if !list.contains chop then none
  else
    let tpFocus ← (hand.take chopIndex).reverse.find? fun o =>
      player.status o == none && !list.contains o
    some (chop, tpFocus)

/-- `interpret_tp`: the order of the trash pushed card. -/
def interpretTp (game : Game) (hand : List ℕ) (player : HGroupPlayer) (list : List ℕ)
    (giver target : ℕ) (clue : BaseClue) : Option ℕ :=
  match trashPush player hand list with
  | none => none
  | some (chop, tpFocus) =>
    if isTrashClue game giver clue target chop player then some tpFocus else none

/-! ## Stalls and 1s -/

/-- `stall_severity`: none, early game, double discard avoidance or scream, locked hand,
8 clues. -/
def stallSeverity (st : HState) (player : HGroupPlayer) (giver : ℕ) : ℕ :=
  if st.clueTokens = 8 ∧ st.turnCount ≠ 1 then 4
  else if player.thinksLocked st giver then 3
  else
    let chop := player.chop (st.hands giver)
    if st.discardState = some .scream ∨ st.discardState = some .shout ∨
        (chop.any fun o => st.dda.any (player.possible o).has) then 2
    else if st.earlyGame then 1
    else 0

/-- `unknown_1`: every clue on the card so far was a 1. -/
def unknown1 (marks : CardMarks) (beforeClue : Bool) : Bool :=
  (beforeClue || !marks.clues.isEmpty) &&
    marks.clues.all fun clue => clue.type == .rank && clue.value == 1

/-- The comparator of `order_1s`. -/
def compare1s (st : HState) (player : HGroupPlayer) (order1 order2 : ℕ) : ℤ :=
  let start1 := st.inStartingHand order1
  let start2 := st.inStartingHand order2
  let blind (o : ℕ) : Bool := (player.thoughts.get o).any Card.blindPlaying
  let moved (o : ℕ) : Bool := (player.thoughts.get o).any fun card =>
    card.status == some .cm || card.lastStatus == some .cm
  let chopFocus (o : ℕ) : Bool := (player.marks o).chopWhenFirstClued
  let firstCluedTurn (o : ℕ) : ℤ :=
    (((st.marks o).clues.head?.map GivenClue.turn).getD st.turnCount : ℕ)
  if firstCluedTurn order1 ≠ firstCluedTurn order2 then
    firstCluedTurn order2 - firstCluedTurn order1
  else if blind order1 && blind order2 then
    (player.marks order1).finesseIndex - (player.marks order2).finesseIndex
  else if blind order1 then -1
  else if blind order2 then 1
  else if moved order1 && moved order2 then order2 - order1
  else if moved order1 then 1
  else if moved order2 then -1
  else if chopFocus order1 && chopFocus order2 then order2 - order1
  else if chopFocus order1 then -1
  else if chopFocus order2 then 1
  -- the first is a fresh 1 (the second isn't fresh, or fresh but older)
  else if !start1 && (start2 || decide (order2 < order1)) then -1
  -- the first isn't fresh (the second also isn't fresh and newer)
  else if start1 && start2 && decide (order1 < order2) then -1
  else 1

/-- `order_1s` with `{ no_filter: true }`. -/
def order1s (st : HState) (player : HGroupPlayer) (orders : List ℕ) : List ℕ :=
  orders.mergeSort fun a b => decide (compare1s st player a b ≤ 0)

/-! ## The focus -/

/-- `FOCUS_INTERP`. -/
inductive FocusInterp
  | normal | trashPush
  deriving DecidableEq

/-- `FocusResult`. -/
structure FocusResult where
  focus : ℕ
  chop : Bool
  positional : Bool
  focusInterp : FocusInterp := .normal
  deriving DecidableEq

def pinkChoiceTempo (st : HState) (hand list : List ℕ) (clue : BaseClue) : Bool :=
  clue.type == .rank && st.includesVariant variantRegexes.pinkish &&
    (list.all fun o => (st.marks o).clued) &&
    -- the leftmost card and the target must both be pink
    hand[clue.value - 1]?.any fun choice => list.contains choice &&
      (list.max?.toList ++ [choice]).all fun o => (st.marks o).clues.any fun cl =>
        (cl.type == .colour && st.variant.colourableSuits[cl.value]?.any variantRegexes.pinkish) ||
          (cl.type == .rank && cl.value != clue.value)

def brownTempo (st : HState) (list : List ℕ) (clue : BaseClue) : Bool :=
  clue.type == .colour && st.variant.colourableSuits[clue.value]?.any (testWords ["Brown"]) &&
    list.all fun o => (st.marks o).clued

/-- `list.toSorted((a, b) => b - a)`. -/
def sortedList (list : List ℕ) : List ℕ := list.mergeSort fun a b => decide (b ≤ a)

/-- The focus of a muddy tempo clue: the value of the clue counts along the cards
that could be muddy. -/
def muddyFocus (st : HState) (common : HGroupPlayer) (list : List ℕ) (clue : BaseClue) :
    Option ℕ :=
  let muddy := testWords ["Muddy", "Cocoa"]
  let couldBeMuddy (o : ℕ) : Bool :=
    (common.possible o).array.any fun i => st.variant.suits.findIdx? muddy == some i.suitIndex
  let sorted := sortedList list
  if clue.type == .colour && st.includesVariant muddy && (sorted.all fun o => (st.marks o).clued) &&
      sorted.head?.any couldBeMuddy then
    let possibleMuddyCards := sorted.filter couldBeMuddy
    let cardAmt := possibleMuddyCards.length
    let colorsAvailableAmt := st.variant.colourableSuits.length
    possibleMuddyCards[(clue.value + colorsAvailableAmt * cardAmt - colorsAvailableAmt) % cardAmt]?
  else none

/-- Whether the rule for 5 stalls applies to a clue. -/
def isFivePinkish (st : HState) (clue : BaseClue) : Bool :=
  clue.type == .rank && clue.value == 5 && st.includesVariant variantRegexes.pinkish

/-- The focus when no other rule decides. -/
def tempoFocus (st : HState) (common player : HGroupPlayer) (list : List ℕ) (clue : BaseClue) :
    Option ℕ :=
  let sorted := sortedList list
  let chopMoved := sorted.find? fun o => player.status o == some .cm
  if isFivePinkish st clue && decide (0 < stallSeverity st common st.ourPlayerIndex) then
    -- rightmost newly clued, leftmost chop moved, leftmost reclued
    (sorted.reverse.find? fun o => !player.known o && player.status o == none).or
      (chopMoved.or sorted.head?)
  else
    (sorted.find? fun o => !player.known o && !(st.marks o).clued).or (chopMoved.or sorted.head?)

/-- `determine_focus`: the focused card and whether it was on chop before the clue. -/
def determineFocus (game : Game) (hand : List ℕ) (player : HGroupPlayer) (list : List ℕ)
    (giver target : ℕ) (clue : BaseClue) : Option FocusResult :=
  let st := game.state
  match (player.chop hand).filter list.contains with
  | some chop =>
    match if TRASH_MOVES ≤ game.level then
        interpretTp game hand player list giver target clue else none with
    | some tp => some { focus := tp, chop := true, positional := false, focusInterp := .trashPush }
    | none => some { focus := chop, chop := true, positional := false }
  | none =>
    if pinkChoiceTempo st hand list clue then
      hand[clue.value - 1]?.map fun o => { focus := o, chop := false, positional := true }
    else if brownTempo st list clue then
      (hand.reverse.find? list.contains).map fun o =>
        { focus := o, chop := false, positional := true }
    else
      let ordered1s :=
        if clue.type = .rank ∧ clue.value = 1 then
          order1s st game.common (list.filter fun o => unknown1 (st.marks o) true)
        else []
      match ordered1s with
      | o :: _ => some { focus := o, chop := false, positional := false }
      | [] =>
        match muddyFocus st game.common list clue with
        | some o => some { focus := o, chop := false, positional := true }
        | none => (tempoFocus st game.common player list clue).map fun o =>
            { focus := o, chop := false, positional := false }

/-! ## What all players share -/

/-- A state without what only its observer knows: who looks, and the cards seen. -/
def HState.shared (st : HState) : HState :=
  { st with ourPlayerIndex := 0, deck := .empty, actionList := .empty }

/-- Two games of one position, each as kept by one of the players: the common
knowledge is the same. -/
structure SameCommon (game game' : Game) : Prop where
  level : game.level = game'.level
  common : game.common = game'.common
  shared : game.state.shared = game'.state.shared

/-- The clue reaches the rule for 5 stalls in pinkish variants. -/
def FiveStallReached (game : Game) (hand : List ℕ) (player : HGroupPlayer) (list : List ℕ)
    (clue : BaseClue) : Prop :=
  (player.chop hand).filter list.contains = none ∧
    pinkChoiceTempo game.state hand list clue = false ∧ isFivePinkish game.state clue = true

/-- The clue touches `chop` on chop, and some card would become the new chop. -/
def TrashPushTested (game : Game) (hand : List ℕ) (player : HGroupPlayer) (list : List ℕ)
    (chop : ℕ) : Prop :=
  TRASH_MOVES ≤ game.level ∧ (trashPush player hand list).map Prod.fst = some chop

/-- What a function reads is shared if it takes the same value without the rest. -/
theorem eq_of_shared {β : Type*} {st st' : HState} (h : st.shared = st'.shared) (f : HState → β)
    (hf : ∀ s : HState, f s.shared = f s) : f st = f st' := by
  rw [← hf st, h, hf st']

section Shared

variable {st st' : HState} (h : st.shared = st'.shared)
include h

theorem pinkChoiceTempo_shared (hand list : List ℕ) (clue : BaseClue) :
    pinkChoiceTempo st hand list clue = pinkChoiceTempo st' hand list clue :=
  eq_of_shared h (pinkChoiceTempo · hand list clue) fun _ => rfl

theorem brownTempo_shared (list : List ℕ) (clue : BaseClue) :
    brownTempo st list clue = brownTempo st' list clue :=
  eq_of_shared h (brownTempo · list clue) fun _ => rfl

theorem order1s_shared (common : HGroupPlayer) (list : List ℕ) :
    order1s st common (list.filter fun o => unknown1 (st.marks o) true) =
      order1s st' common (list.filter fun o => unknown1 (st'.marks o) true) :=
  eq_of_shared h
    (fun s => order1s s common (list.filter fun o => unknown1 (s.marks o) true)) fun _ => rfl

theorem muddyFocus_shared (common : HGroupPlayer) (list : List ℕ) (clue : BaseClue) :
    muddyFocus st common list clue = muddyFocus st' common list clue :=
  eq_of_shared h (muddyFocus · common list clue) fun _ => rfl

theorem isFivePinkish_shared (clue : BaseClue) : isFivePinkish st clue = isFivePinkish st' clue :=
  eq_of_shared h (isFivePinkish · clue) fun _ => rfl

theorem marks_shared : st.marks = st'.marks := eq_of_shared h HState.marks fun _ => rfl

/-- Without the rule for 5 stalls, the last rule only looks at the clue marks. -/
theorem tempoFocus_shared (common player : HGroupPlayer) (list : List ℕ) {clue : BaseClue}
    (hfive : isFivePinkish st clue = false) :
    tempoFocus st common player list clue = tempoFocus st' common player list clue := by
  have hfive' := isFivePinkish_shared h clue ▸ hfive
  simp only [tempoFocus, hfive, hfive', Bool.false_and, marks_shared h]

end Shared

/-- On chop, the focus is the trash pushed card if there is one. -/
theorem determineFocus_chop {game : Game} {hand list : List ℕ} {player : HGroupPlayer} {chop : ℕ}
    (h : (player.chop hand).filter list.contains = some chop) (giver target : ℕ) (clue : BaseClue) :
    determineFocus game hand player list giver target clue =
      some (match if TRASH_MOVES ≤ game.level then
          interpretTp game hand player list giver target clue else none with
        | some tp => { focus := tp, chop := true, positional := false, focusInterp := .trashPush }
        | none => { focus := chop, chop := true, positional := false }) := by
  simp only [determineFocus, h]
  split <;> rfl

/-- Off chop, only the rule for 5 stalls looks at what is not shared. -/
theorem determineFocus_off_chop {game game' : Game} (h : SameCommon game game') {hand list : List ℕ}
    {player : HGroupPlayer} (hchop : (player.chop hand).filter list.contains = none)
    {clue : BaseClue} (hfive : ¬ FiveStallReached game hand player list clue) (giver target : ℕ) :
    determineFocus game hand player list giver target clue =
      determineFocus game' hand player list giver target clue := by
  simp only [determineFocus, hchop, ← pinkChoiceTempo_shared h.shared,
    ← brownTempo_shared h.shared, ← muddyFocus_shared h.shared, ← h.common,
    ← order1s_shared h.shared]
  by_cases hpink : pinkChoiceTempo game.state hand list clue = true
  · simp only [hpink, if_true]
  · have hno : isFivePinkish game.state clue = false := by
      by_contra hyes
      exact hfive ⟨hchop, by simpa using hpink, by simpa using hyes⟩
    rw [tempoFocus_shared h.shared game.common player list hno]

/-- The chop a trash push is tested on is the touched chop. -/
theorem chop_of_trashPush {player : HGroupPlayer} {hand list : List ℕ} {chop tpFocus : ℕ}
    (h : trashPush player hand list = some (chop, tpFocus)) :
    (player.chop hand).filter list.contains = some chop := by
  simp only [trashPush, Option.bind_eq_bind, Option.bind_eq_some_iff] at h
  obtain ⟨i, hi, c, hc, h⟩ := h
  split at h
  · nomatch h
  · rename_i hmem
    obtain ⟨f, -, heq⟩ := Option.bind_eq_some_iff.1 h
    obtain ⟨rfl, rfl⟩ := Prod.mk.inj (Option.some.inj heq)
    simp only [HGroupPlayer.chop, hi, Option.bind_some, hc]
    simpa [Option.filter] using hmem

/-- On chop, two players agree if and only if they agree on the trash test, whenever it is made. -/
theorem determineFocus_on_chop {game game' : Game} (h : SameCommon game game') {hand list : List ℕ}
    {player : HGroupPlayer} {chop : ℕ} (hchop : (player.chop hand).filter list.contains = some chop)
    (giver target : ℕ) (clue : BaseClue) :
    determineFocus game hand player list giver target clue =
        determineFocus game' hand player list giver target clue ↔
      (TrashPushTested game hand player list chop →
        isTrashClue game giver clue target chop player =
          isTrashClue game' giver clue target chop player) := by
  rw [determineFocus_chop hchop, determineFocus_chop hchop, ← h.level, TrashPushTested]
  by_cases hl : TRASH_MOVES ≤ game.level
  · simp only [hl, if_true, true_and, interpretTp]
    cases htp : trashPush player hand list with
    | none => simp
    | some p =>
      obtain ⟨c, tpFocus⟩ := p
      obtain rfl : chop = c := Option.some.inj (hchop.symm.trans (chop_of_trashPush htp))
      simp only [Option.map_some, forall_const]
      cases isTrashClue game giver clue target chop player <;>
        cases isTrashClue game' giver clue target chop player <;> simp
  · simp [hl]

/-- A clue that touches some of the hand's cards has a focus. -/
theorem determineFocus_isSome (game : Game) {hand list : List ℕ} (hne : list ≠ [])
    (hsub : ∀ o ∈ list, o ∈ hand) (player : HGroupPlayer) (giver target : ℕ) (clue : BaseClue) :
    (determineFocus game hand player list giver target clue).isSome = true := by
  obtain ⟨o, ho⟩ := List.exists_mem_of_ne_nil list hne
  cases hchop : (player.chop hand).filter list.contains with
  | some chop => rw [determineFocus_chop hchop]; rfl
  | none =>
    have hlast : (hand.reverse.find? list.contains).isSome = true :=
      List.find?_isSome.2 ⟨o, List.mem_reverse.2 (hsub o ho), by simpa using ho⟩
    have hhead : (sortedList list).head?.isSome = true := by
      rw [List.isSome_head?]
      exact fun hnil => hne (List.nil_perm.1 (hnil ▸ List.mergeSort_perm list _))
    have htempo : (tempoFocus game.state game.common player list clue).isSome = true := by
      simp only [tempoFocus]
      split <;> simp [Option.isSome_or, hhead]
    simp only [determineFocus, hchop]
    split
    · rename_i hpink
      simp only [pinkChoiceTempo, Bool.and_eq_true] at hpink
      obtain ⟨c, hc, -⟩ := (Option.any_eq_true _ _).1 hpink.2
      simp [hc]
    · split
      · simpa using hlast
      · split
        · rfl
        · split
          · rfl
          · simpa using htempo

/-- Two players who share the common knowledge find the same focus if and only if
the trash test of a trash push, whenever it is made, answers them the same. -/
theorem determineFocus_agree {game game' : Game} (h : SameCommon game game') {hand list : List ℕ}
    (hne : list ≠ []) (hsub : ∀ o ∈ list, o ∈ hand) {player : HGroupPlayer} (giver target : ℕ)
    {clue : BaseClue} (hfive : ¬ FiveStallReached game hand player list clue) :
    (determineFocus game hand player list giver target clue).isSome = true ∧
      (determineFocus game hand player list giver target clue =
          determineFocus game' hand player list giver target clue ↔
        ∀ chop, TrashPushTested game hand player list chop →
          isTrashClue game giver clue target chop player =
            isTrashClue game' giver clue target chop player) := by
  refine ⟨determineFocus_isSome game hne hsub player giver target clue, ?_⟩
  cases hchop : (player.chop hand).filter list.contains with
  | none =>
    refine iff_of_true (determineFocus_off_chop h hchop hfive giver target) ?_
    rintro chop ⟨-, htp⟩
    obtain ⟨⟨c, tpFocus⟩, hsome, -⟩ := Option.map_eq_some_iff.1 htp
    exact nomatch hchop.symm.trans (chop_of_trashPush hsome)
  | some c =>
    rw [determineFocus_on_chop h hchop giver target clue]
    refine ⟨?_, fun hall => hall c⟩
    rintro hc chop ⟨hl, htp⟩
    obtain ⟨⟨c', tpFocus⟩, hsome, rfl⟩ := Option.map_eq_some_iff.1 htp
    obtain rfl : c = c' := Option.some.inj (hchop.symm.trans (chop_of_trashPush hsome))
    exact hc ⟨hl, htp⟩

/-! ## A clue that is read in two ways -/

/-- The cards dealt to three players in nine turns: each has given a clue, played a
1 and played or discarded another card. -/
def dealtCards : List Identity :=
  [⟨1, 1⟩, ⟨0, 1⟩, ⟨0, 2⟩, ⟨1, 2⟩, ⟨2, 2⟩, ⟨2, 1⟩, ⟨0, 1⟩, ⟨1, 1⟩, ⟨3, 2⟩, ⟨4, 2⟩, ⟨3, 1⟩, ⟨4, 1⟩,
    ⟨0, 3⟩, ⟨1, 3⟩, ⟨2, 3⟩, ⟨3, 3⟩, ⟨4, 3⟩, ⟨0, 4⟩, ⟨1, 4⟩, ⟨2, 4⟩, ⟨3, 4⟩]

def handsOf (p : ℕ) : List ℕ :=
  [[18, 15, 4, 3, 2], [19, 16, 9, 8, 7], [20, 17, 14, 13, 12]].getD p []

/-- A card's identity, unless one of the players who hold their own cards hidden has it. -/
def seenCard (hidden : List ℕ) (o : ℕ) : Option Identity :=
  if hidden.any fun p => (handsOf p).contains o then none else dealtCards[o]?

/-- What the clues said: 1s to the first and the third player, green to the second. -/
def cluedPossible (o : ℕ) : IdentitySet :=
  (IdentitySet.full 5).subtract <| IdentitySet.identitiesToMask <|
    noVariant.allIdentities.filter fun id =>
      if o ∈ [2, 3, 4, 12, 13, 14] then id.rank = 1 else o ∈ [7, 8, 9] ∧ id.suitIndex = 2

/-- A player of the position, to whom the cards of some players are hidden. -/
def lastRedPlayer (playerIndex : Option ℕ) (hidden : List ℕ) : HGroupPlayer where
  playerIndex := playerIndex
  thoughts := ⟨21, fun o => if o < 21 then
    some { id := seenCard hidden o, possible := cluedPossible o, inferred := cluedPossible o,
           order := o } else none⟩
  allPossible := .full 5
  allInferred := .full 5

/-- All 1s are played but the red one, of which one copy is left; the game is the
one the player `our` keeps. -/
def lastRedGame (our : ℕ) : Game where
  level := TRASH_MOVES
  state := {
    variant := noVariant
    numPlayers := 3
    ourPlayerIndex := our
    turnCount := 10
    clueTokens := 7
    hands := handsOf
    deck := ⟨21, fun o => if o < 21 then some ⟨seenCard [our] o⟩ else none⟩
    playStacks := fun s => if s = 0 then 0 else 1
    discardStacks := fun id => if id = ⟨0, 1⟩ then 2 else 0
    cardsLeft := 29
    cardOrder := 20
    earlyGame := false }
  common := lastRedPlayer none [0, 1, 2]
  players := fun p => lastRedPlayer (some p) [p, our]

theorem sameCommon_lastRedGame (our our' : ℕ) :
    SameCommon (lastRedGame our) (lastRedGame our') := ⟨rfl, rfl, rfl⟩

/-- The first player clues 1s to the second, whose chop could be the last red 1.
The giver focuses the chop; the third player, who may hold it, a trash push. -/
theorem determineFocus_disagree :
    SameCommon (lastRedGame 0) (lastRedGame 2) ∧
      ((handsOf 1).filter fun o => dealtCards[o]?.any (noVariant.cardTouched · ⟨.rank, 1⟩)) = [7] ∧
      determineFocus (lastRedGame 0) (handsOf 1) (lastRedGame 0).common [7] 0 1 ⟨.rank, 1⟩ =
        some { focus := 7, chop := true, positional := false } ∧
      determineFocus (lastRedGame 2) (handsOf 1) (lastRedGame 2).common [7] 0 1 ⟨.rank, 1⟩ =
        some { focus := 8, chop := true, positional := false, focusInterp := .trashPush } :=
  ⟨sameCommon_lastRedGame 0 2, by decide +kernel, by decide +kernel, by decide +kernel⟩

/-- The giver and the target of the same clue agree. -/
theorem determineFocus_agree_target :
    determineFocus (lastRedGame 0) (handsOf 1) (lastRedGame 0).common [7] 0 1 ⟨.rank, 1⟩ =
      determineFocus (lastRedGame 1) (handsOf 1) (lastRedGame 0).common [7] 0 1 ⟨.rank, 1⟩ := by
  refine (determineFocus_agree (sameCommon_lastRedGame 0 1) (by decide) (by decide) 0 1 ?_).2.2 ?_
  · rintro ⟨-, -, hfive⟩
    exact absurd hfive (by decide)
  · rintro chop ⟨-, htp⟩
    have hchop : chop = 7 := by
      have hpush : (trashPush (lastRedGame 0).common (handsOf 1) [7]).map Prod.fst = some 7 := by
        decide +kernel
      exact Option.some.inj (htp.symm.trans hpush)
    subst hchop
    decide +kernel

end HanabiBot.HGroup
