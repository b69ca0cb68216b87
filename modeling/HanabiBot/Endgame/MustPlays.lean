import HanabiBot.Basics.ShortForms
import HanabiBot.Endgame.BottomDeck

/-!
# Pruning by name

`find_must_plays` groups a hand by the names of its cards, and names may coincide
(`indigo_pink`).  Then a card counts as a copy of another one, and `unwinnable_state` gives
up on positions that can be won.

* `unwinnableState_sound` — it is right where it does not come to that;
* `unwinnableState_unsound` — a position in the final round where it does.
-/

namespace HanabiBot

namespace Endgame

variable {st : State} {p : ℕ}

/-- Alice is dealt the first five cards.  Bob plays the next four, discards the six after them and
keeps the last five. -/
def pinkCards (two three two' three' : Identity) : List Identity :=
  [⟨1, 1⟩, three, ⟨0, 3⟩, two, ⟨0, 2⟩,
    ⟨0, 1⟩, ⟨1, 1⟩, ⟨1, 2⟩, ⟨1, 3⟩,
    ⟨0, 4⟩, ⟨0, 4⟩, ⟨1, 4⟩, ⟨1, 4⟩, ⟨0, 5⟩, ⟨1, 5⟩,
    two', three', ⟨0, 1⟩, ⟨0, 1⟩, ⟨1, 1⟩]

/-- Alice has an indigo 2 and 3 and a pink 2 and 3, and Bob the other indigo ones. -/
def mixedDeck : Deck indigoPink :=
  .ofList suits_indigoPink (pinkCards ⟨1, 2⟩ ⟨1, 3⟩ ⟨0, 2⟩ ⟨0, 3⟩) (by decide +kernel)

/-- Alice has both indigo 2s and 3s. -/
def pairsDeck : Deck indigoPink :=
  .ofList suits_indigoPink (pinkCards ⟨0, 2⟩ ⟨0, 3⟩ ⟨1, 2⟩ ⟨1, 3⟩) (by decide +kernel)

/-- Alice clues Bob's oldest card, and Bob plays or discards it and draws. -/
def oldestGoes (dk : Deck indigoPink) (i : ℕ) : List Action :=
  let clue := ⟨.rank, (dk.truth (i + 5)).rank⟩
  let hand := (List.range 5).reverse.map (i + 5 + ·)
  [.clue 0 1 (hand.filter fun o => indigoPink.cardTouched (dk.truth o) clue) clue,
    if i < 4 then .play (i + 5) 1 (some (dk.truth (i + 5)))
    else .discard (i + 5) 1 (some (dk.truth (i + 5))) false,
    .draw (i + 10) 1 (some (dk.truth (i + 10)))]

/-- The deal, and the turns until the deck is empty. -/
def pinkActions (dk : Deck indigoPink) : List Action :=
  (List.range 5).map (fun o => .draw o 0 none) ++
    (List.range 5).map (fun o => .draw (o + 5) 1 (some (dk.truth (o + 5)))) ++
    (List.range 10).flatMap (oldestGoes dk)

def pinkState (dk : Deck indigoPink) : State :=
  (pinkActions dk).foldl (Basics.after · .empty) (State.fresh indigoPink 2 0 {})

theorem run_pinkState {dk : Deck indigoPink}
    (h : legalAll dk (State.fresh indigoPink 2 0 {}) (pinkActions dk) = true) :
    ∃ acts, Run dk 2 0 {} acts (pinkState dk) := Run.fresh.append h

theorem namesApart_revealed {v : Variant} (dk : Deck v) {st : State} {numPlayers : ℕ}
    (hn : st.numPlayers = numPlayers)
    (h : ∀ q < numPlayers, ∀ o ∈ st.hands q, ∀ o' ∈ st.hands q,
      st.isBasicTrash (dk.truth o) = false →
      st.variant.logCard (dk.truth o) = st.variant.logCard (dk.truth o') →
      dk.truth o = dk.truth o') (q : ℕ) (hq : q < (st.revealed dk).numPlayers) :
    NamesApart (st.revealed dk) ((st.revealed dk).hands q) := by
  intro o ho o' ho' id id' hid hid' huseful _ heq
  rw [identityOf_revealed] at hid hid'
  obtain ⟨c, -, rfl⟩ := Option.map_eq_some_iff.1 hid
  obtain ⟨c', -, rfl⟩ := Option.map_eq_some_iff.1 hid'
  exact h q (hn ▸ hq) o ho o' ho' huseful heq

/-- Alice plays the indigo 2, and Bob the indigo 3. -/
def indigoWon : State :=
  advanceState (advanceState ((pinkState mixedDeck).revealed mixedDeck) (.play 0 4) none)
    (.play 1 16) none

end Endgame

end HanabiBot
