import HanabiBot.Basics.Card
import HanabiBot.Lib.Loop

/-!
# Referring

`refer` of `src/basics/Player.js` goes round a hand from one of its cards, past those that were
touched before, to the card that a referential clue is about.  Nothing bounds its loop but the
cards themselves: it ends if some card of the hand is a referent, i.e. untouched or newly clued.

The callers start from a card that is newly clued in `state.deck`, while the loop reads
`common.thoughts`.  A `MarkStep` is what happens to these marks: a draw, a clue, the clean-up
after it, and whatever else is thought of a card.

* `refer_returns` — the loop ends, with the first referent on the way round;
* `MarkedGame.run_agree` — the two records have the same marks in every run.
-/

namespace HanabiBot

/-! ## The walk -/

/-- The direction in which `refer` goes. -/
inductive Direction
  | left
  | right
  deriving DecidableEq

def Direction.offset : Direction → ℤ
  | .right => 1
  | .left => -1

/-- `Card`, with the mark of a clue that has just been given. -/
structure MarkedCard extends Card where
  newlyClued : Bool := false

/-- Untouched or newly clued: what a clue can refer to. -/
def MarkedCard.isReferent (card : MarkedCard) : Bool := !card.touched || card.newlyClued

/-- `hand.indexOf(order)`. -/
def indexOf (hand : List ℕ) (order : ℕ) : ℤ := if order ∈ hand then hand.idxOf order else -1

section

variable (thoughts : ℕ → MarkedCard) (direction : Direction) (hand : List ℕ)

/-- `(index + offset + hand.length) % hand.length`. -/
def nextIndex (index : ℤ) : ℤ := (index + direction.offset + hand.length).tmod hand.length

/-- A round of the loop, at `target_index`. -/
def referRound (index : ℤ) : Loop.Outcome ℤ :=
  if hand[index.toNat]?.any fun o => (thoughts o).touched && !(thoughts o).newlyClued then
    .next (nextIndex direction hand index)
  else .stop index

/-- `refer`. -/
def refer (order fuel : ℕ) : Option (Option ℕ) :=
  (Loop.loop (referRound thoughts direction hand) fuel
    (nextIndex direction hand (indexOf hand order))).map fun index => hand[index.toNat]?

end

/-- The cards of a hand as they are met on the way round from one of them, which comes last. -/
def walk (hand : List ℕ) (order : ℕ) : Direction → List ℕ
  | .right => hand.rotate (hand.idxOf order + 1)
  | .left => (hand.rotate (hand.idxOf order)).reverse

section

variable {thoughts : ℕ → MarkedCard} {direction : Direction} {hand : List ℕ} {order : ℕ}

theorem mem_walk {o : ℕ} : o ∈ walk hand order direction ↔ o ∈ hand := by
  cases direction <;> simp [walk]

@[simp] theorem length_walk : (walk hand order direction).length = hand.length := by
  cases direction <;> simp [walk]

/-- The index of the card that is met after some others. -/
def walkIndex (direction : Direction) (hand : List ℕ) (order : ℕ) (k : ℕ) : ℤ :=
  (hand.idxOf order + direction.offset * (k + 1)) % hand.length

theorem walkIndex_nonneg (hpos : 0 < hand.length) (k : ℕ) :
    0 ≤ walkIndex direction hand order k :=
  Int.emod_nonneg _ (by omega)

theorem nextIndex_eq (hpos : 0 < hand.length) {index : ℤ} (hindex : 0 ≤ index) :
    nextIndex direction hand index = (index + direction.offset) % hand.length := by
  have hnonneg : 0 ≤ index + direction.offset + hand.length := by
    cases direction <;> simp only [Direction.offset] <;> omega
  rw [nextIndex, Int.tmod_eq_emod_of_nonneg hnonneg, Int.add_emod_right]

theorem nextIndex_start (horder : order ∈ hand) :
    nextIndex direction hand (indexOf hand order) = walkIndex direction hand order 0 := by
  have hpos : 0 < hand.length := List.length_pos_of_mem horder
  rw [indexOf, if_pos horder, nextIndex_eq hpos (by omega), walkIndex]
  simp

theorem nextIndex_walkIndex (hpos : 0 < hand.length) (k : ℕ) :
    nextIndex direction hand (walkIndex direction hand order k) =
      walkIndex direction hand order (k + 1) := by
  rw [nextIndex_eq hpos (walkIndex_nonneg hpos k), walkIndex, walkIndex, Int.emod_add_emod]
  congr 1
  push_cast
  ring

/-- What is met on the way round. -/
theorem getElem_walkIndex {k : ℕ} (hk : k < hand.length) :
    hand[(walkIndex direction hand order k).toNat]? = (walk hand order direction)[k]? := by
  cases direction with
  | right =>
    have hindex : (walkIndex .right hand order k).toNat =
        (k + (hand.idxOf order + 1)) % hand.length := by
      have hcast : walkIndex .right hand order k =
          ((k + (hand.idxOf order + 1) : ℕ) : ℤ) % (hand.length : ℤ) := by
        rw [walkIndex, Direction.offset]
        congr 1
        push_cast
        ring
      rw [hcast, ← Int.natCast_emod, Int.toNat_natCast]
    rw [walk, List.getElem?_rotate hk, hindex]
  | left =>
    have hindex : (walkIndex .left hand order k).toNat =
        (hand.length - 1 - k + hand.idxOf order) % hand.length := by
      have hcast : walkIndex .left hand order k =
          ((hand.length - 1 - k + hand.idxOf order : ℕ) : ℤ) % (hand.length : ℤ) := by
        rw [walkIndex, Direction.offset, ← Int.add_emod_right]
        congr 1
        omega
      rw [hcast, ← Int.natCast_emod, Int.toNat_natCast]
    have hlen : hand.length - 1 - k < hand.length := by omega
    rw [walk, List.getElem?_reverse (by simpa using hk), List.length_rotate,
      List.getElem?_rotate hlen, hindex]

theorem referRound_eq {index : ℤ} {o : ℕ} (ho : hand[index.toNat]? = some o) :
    referRound thoughts direction hand index =
      if (thoughts o).isReferent then .stop index else .next (nextIndex direction hand index) := by
  simp only [referRound, ho, Option.any_some, MarkedCard.isReferent]
  by_cases htouched : (thoughts o).touched = true <;>
    by_cases hnew : (thoughts o).newlyClued = true <;> simp [htouched, hnew]

/-- With a referent in the hand, the loop ends with the first one on the way round. -/
theorem refer_returns (horder : order ∈ hand)
    (hreferent : ∃ o ∈ hand, (thoughts o).isReferent = true) :
    Fuel.Returns (refer thoughts direction hand order) fun target =>
      ∃ o, target = some o ∧
        (walk hand order direction).find? (fun o => (thoughts o).isReferent) = some o := by
  have hpos : 0 < hand.length := List.length_pos_of_mem horder
  have hfind : ((walk hand order direction).find? fun o => (thoughts o).isReferent).isSome := by
    obtain ⟨o, ho, hlegal⟩ := hreferent
    exact List.find?_isSome.2 ⟨o, mem_walk.2 ho, hlegal⟩
  obtain ⟨o, ho⟩ := Option.isSome_iff_exists.1 hfind
  obtain ⟨hlegal, n, hn, hget, hbefore⟩ := List.find?_eq_some_iff_getElem.1 ho
  have hn' : n < hand.length := by simpa using hn
  -- the loop is at the card that comes next on the way round
  have hcard : ∀ k (hk : k < (walk hand order direction).length),
      hand[(walkIndex direction hand order k).toNat]? = some (walk hand order direction)[k] := by
    intro k hk
    rw [getElem_walkIndex (by simpa using hk), List.getElem?_eq_getElem hk]
  have hnext : ∀ k < n, referRound thoughts direction hand (walkIndex direction hand order k) =
      .next (walkIndex direction hand order (k + 1)) := by
    intro k hk
    rw [referRound_eq (hcard k (hk.trans hn)), if_neg (by simpa using hbefore k hk),
      nextIndex_walkIndex hpos]
  have hstop : referRound thoughts direction hand (walkIndex direction hand order n) =
      .stop (walkIndex direction hand order n) := by
    rw [referRound_eq (hcard n hn), hget, if_pos hlegal]
  have hloop := Loop.returns_of_trace (walkIndex direction hand order) hnext hstop
  rw [← nextIndex_start horder] at hloop
  refine hloop.map fun index hindex => ⟨o, ?_, ho⟩
  rw [hindex, hcard n hn, hget]

end

/-! ## The marks of a clue -/

/-- The marks that a clue leaves on an `ActualCard`. -/
structure ClueMarks where
  clued : Bool := false
  newlyClued : Bool := false
  deriving DecidableEq

/-- `update_card`, on the marks. -/
def ClueMarks.updateCard (marks : ClueMarks) : ClueMarks :=
  if !marks.clued then { clued := true, newlyClued := true } else marks

namespace MarkedCard

def marks (card : MarkedCard) : ClueMarks where
  clued := card.clued
  newlyClued := card.newlyClued

/-- `updateStatus(CARD_STATUS.CLUED)` and `update_card`. -/
def onClue (card : MarkedCard) : MarkedCard :=
  if !card.clued then
    { card with
      toCard := { card.updateStatus .clued with clued := true }
      newlyClued := true }
  else card

@[simp] theorem marks_onClue (card : MarkedCard) : card.onClue.marks = card.marks.updateCard := by
  cases h : card.clued <;> simp [onClue, marks, ClueMarks.updateCard, h]

end MarkedCard

/-- The two records of a game that have the marks. -/
structure MarkedGame where
  /-- `state.deck`. -/
  deck : ℕ → ClueMarks
  /-- `common.thoughts`. -/
  thoughts : ℕ → MarkedCard

/-- What happens to the marks in a game. -/
inductive MarkStep
  /-- `onDraw`, with what is thought of the new card. -/
  | draw (order : ℕ) (card : Card) (hclued : card.clued = false)
  /-- `onClue`: the cards touched are of the hand that is clued. -/
  | clue (hand list : List ℕ) (hsub : list ⊆ hand)
  /-- The clean-up after a clue, or before one that is simulated. -/
  | clean (orders : List ℕ)
  /-- Whatever else is thought of a card. -/
  | think (order : ℕ) (f : Card → Card) (hclued : ∀ card, (f card).clued = card.clued)

namespace MarkedGame

/-- Changes some entries of a record. -/
def updateAll {α : Type} (orders : List ℕ) (f : α → α) (record : ℕ → α) : ℕ → α := fun o =>
  if o ∈ orders then f (record o) else record o

def step (game : MarkedGame) : MarkStep → MarkedGame
  | .draw order card _ =>
    { deck := Function.update game.deck order {}
      thoughts := Function.update game.thoughts order { toCard := card } }
  | .clue hand list _ =>
    { deck := updateAll list ClueMarks.updateCard game.deck
      -- the loop is over the cards in hand
      thoughts := updateAll (hand.filter list.contains) MarkedCard.onClue game.thoughts }
  | .clean orders =>
    { deck := updateAll orders (fun marks => { marks with newlyClued := false }) game.deck
      thoughts := updateAll orders (fun card => { card with newlyClued := false }) game.thoughts }
  | .think order f _ =>
    { game with
      thoughts := Function.update game.thoughts order
        { game.thoughts order with toCard := f (game.thoughts order).toCard } }

/-- A game after some steps. -/
def run (game : MarkedGame) (steps : List MarkStep) : MarkedGame := steps.foldl step game

/-- The two records have the same marks. -/
def Agree (game : MarkedGame) : Prop := ∀ o, (game.thoughts o).marks = game.deck o

theorem Agree.updateAll {game : MarkedGame} (h : game.Agree) {orders orders' : List ℕ}
    (horders : ∀ o, o ∈ orders' ↔ o ∈ orders) {f : ClueMarks → ClueMarks}
    {g : MarkedCard → MarkedCard} (hfg : ∀ card, (g card).marks = f card.marks) :
    Agree { deck := MarkedGame.updateAll orders f game.deck
            thoughts := MarkedGame.updateAll orders' g game.thoughts } := by
  intro o
  show (MarkedGame.updateAll orders' g game.thoughts o).marks = MarkedGame.updateAll orders f game.deck o
  by_cases ho : o ∈ orders
  · rw [MarkedGame.updateAll, MarkedGame.updateAll, if_pos ho, if_pos ((horders o).2 ho), hfg, h o]
  · rw [MarkedGame.updateAll, MarkedGame.updateAll, if_neg ho, if_neg (mt (horders o).1 ho), h o]

theorem Agree.step {game : MarkedGame} (h : game.Agree) (s : MarkStep) : (game.step s).Agree := by
  cases s with
  | draw order card hclued =>
    intro o
    by_cases ho : o = order
    · subst ho
      simp [MarkedGame.step, MarkedCard.marks, hclued]
    · simpa [MarkedGame.step, ho] using h o
  | clue hand list hsub =>
    refine h.updateAll (fun o => ?_) MarkedCard.marks_onClue
    simpa using @hsub o
  | clean orders => exact h.updateAll (fun o => Iff.rfl) fun card => rfl
  | think order f hclued =>
    intro o
    by_cases ho : o = order
    · subst ho
      simpa [MarkedGame.step, MarkedCard.marks, hclued] using h o
    · simpa [MarkedGame.step, ho] using h o

theorem run_agree {game : MarkedGame} (h : game.Agree) (steps : List MarkStep) :
    (game.run steps).Agree := by
  induction steps generalizing game with
  | nil => exact h
  | cons s steps ih => exact ih (h.step s)

/-- A card that is newly clued in the deck can be referred to. -/
theorem isReferent_of_newlyClued {game : MarkedGame} (h : game.Agree) {o : ℕ}
    (ho : (game.deck o).newlyClued = true) : (game.thoughts o).isReferent = true := by
  rw [← h o] at ho
  simp [MarkedCard.isReferent, show (game.thoughts o).newlyClued = true from ho]

end MarkedGame

/-- Referring from a card of a hand ends, with the first referent on the way round, if the hand
has one; and it has one if the card is newly clued in the deck, in any run of the game. -/
theorem refer_firstReferent (thoughts : ℕ → MarkedCard) (direction : Direction) (hand : List ℕ)
    (order : ℕ) (horder : order ∈ hand)
    (hreferent : (∃ o ∈ hand, (thoughts o).isReferent = true) ∨
      ∃ (game : MarkedGame) (steps : List MarkStep), game.Agree ∧
        thoughts = (game.run steps).thoughts ∧ ((game.run steps).deck order).newlyClued = true) :
    Fuel.Returns (refer thoughts direction hand order) fun target =>
      ∃ o, target = some o ∧
        (walk hand order direction).find? (fun o => (thoughts o).isReferent) = some o := by
  obtain h | ⟨game, steps, hagree, rfl, hnew⟩ := hreferent
  · exact refer_returns horder h
  · exact refer_returns horder
      ⟨order, horder, MarkedGame.isReferent_of_newlyClued (MarkedGame.run_agree hagree steps) hnew⟩

/-- Unknown cards, before anything is clued. -/
def unclued : MarkedGame where
  deck _ := {}
  thoughts order := { id := none, order, possible := .full 5, inferred := .full 5 }

/-- Cards 4 and 3 are clued; later cards 4 and 2 are. -/
def twoClues : List MarkStep :=
  [.clue [4, 3, 2, 1] [4, 3] (by decide), .clean [4, 3], .clue [4, 3, 2, 1] [4, 2] (by decide)]

theorem refer_firstReferent_wraps :
    Fuel.Returns (refer (unclued.run twoClues).thoughts .left [4, 3, 2, 1] 2) (· = some 1) := by
  have hnew : ((unclued.run twoClues).deck 2).newlyClued = true := by decide
  have hfirst : (walk [4, 3, 2, 1] 2 .left).find?
      (fun o => ((unclued.run twoClues).thoughts o).isReferent) = some 1 := by decide
  refine (refer_firstReferent (unclued.run twoClues).thoughts .left [4, 3, 2, 1] 2 (by decide)
    (.inr ⟨unclued, twoClues, fun _ => rfl, rfl, hnew⟩)).mono ?_
  rintro target ⟨o, rfl, ho⟩
  exact ho.symm.trans hfirst

end HanabiBot
