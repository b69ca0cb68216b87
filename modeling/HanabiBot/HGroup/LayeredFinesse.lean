import HanabiBot.Lib.Fuel
import HanabiBot.Basics.NextPlayable
import HanabiBot.HGroup.Hypo

/-!
# Layered finesses through our own hand

`resolve_layered_finesse` of `src/conventions/h-group/clue-interpretation/own-finesses.js`.
Clues given while we were finessed say where the finessed card is: a clue that touches
the identity skips our cards up to the first one it touches, any other clue skips the
cards it touches.  What is skipped is a hidden layer with an identity that plays first.

`Run` keeps the layers also when the search fails after them, and with each the clue
it was skipped for.

* `resolveLayeredFinesse_exact_iff` — the search ends, and the identities of the layers
  are right if and only if each clue that skips a card treats the rank of the
  connecting identity as the next rank of every suit;
* `layered_yellow2` — a clue that does not.
-/

namespace HanabiBot.HGroup

/-- An entry of `next_finesse`: the touched cards and the clue. -/
structure QueuedClue where
  list : List ℕ
  clue : BaseClue
  deriving DecidableEq

/-- A game in which clues are queued. -/
structure LayeredGame extends HypoGame where
  nextFinesse : List QueuedClue := []

/-- A skipped card, with the clue it was skipped for. -/
structure Layer where
  order : ℕ
  identities : List Identity
  action : QueuedClue
  deriving DecidableEq

/-- `IllegalInterpretation`. -/
inductive Illegal
  | noEnd
  | ignoring (order : ℕ)
  | noPlayable (order : ℕ) (action : QueuedClue)
  | noTarget
  deriving DecidableEq

def Illegal.message : Illegal → String
  | noEnd => "impossible layered finesse with no end"
  | ignoring order => "impossible layered finesse, ignoring card order " ++ toString order
  | noPlayable order _ =>
    "impossible layered finesse, card " ++ toString order ++ " has no playable identities"
  | noTarget => "couldn't find a valid finesse target after layers"

/-- The layers, and the finesse after them or the error. -/
structure Run where
  layers : List Layer
  outcome : Except Illegal ℕ

/-- A connection through our hand. -/
structure FinesseConnection where
  order : ℕ
  hidden : Bool
  identities : List Identity
  deriving DecidableEq

/-- The connections that the function returns. -/
def Run.connections (run : Run) (identity : Identity) : Except Illegal (List FinesseConnection) :=
  match run.outcome with
  | .error e => .error e
  | .ok finesse =>
    .ok (run.layers.map (fun layer => ⟨layer.order, true, layer.identities⟩) ++
      [⟨finesse, false, [identity]⟩])

/-- How far the clues have been gone through. -/
structure Walk where
  connected : List ℕ
  layers : List Layer
  stop : Option Illegal := none

namespace LayeredGame

/-- `find_finesse` on our own hand. -/
def fOrder (game : LayeredGame) (connected ignoreOrders : List ℕ) : Option ℕ :=
  game.common.findFinesse game.state game.state.ourPlayerIndex connected ignoreOrders

/-- Whether the clue touches the identity. -/
def touches (game : LayeredGame) (identity : Identity) (action : QueuedClue) : Bool :=
  game.state.variant.cardTouched identity action.clue

/-- The identities of a card skipped for a clue. -/
def layerIdentities (game : LayeredGame) (identity : Identity) (action : QueuedClue) :
    List Identity :=
  let next := nextIdentities game.state.variant.suits.length game.common.hypoStacks
  if game.touches identity action then next
  else
    let possibilities := game.state.variant.findPossibilities action.clue
    next.filter fun card => possibilities.any fun p =>
      p.suitIndex == card.suitIndex && p.rank == identity.rank

/-- The loop over our finesse positions for one clue. -/
def skipCards (game : LayeredGame) (identity : Identity) (ignoreOrders : List ℕ)
    (action : QueuedClue) : List ℕ → List Layer → ℕ → Option Walk
  | _, _, 0 => none
  | connected, layers, fuel + 1 =>
    let identities := game.layerIdentities identity action
    let stopWith (e : Illegal) : Option Walk := some { connected, layers, stop := some e }
    match game.fOrder connected ignoreOrders with
    | none => if game.touches identity action then stopWith .noEnd else some { connected, layers }
    | some order =>
      if game.touches identity action = action.list.contains order then some { connected, layers }
      else if ignoreOrders.contains order then stopWith (.ignoring order)
      else if identities = [] then stopWith (.noPlayable order action)
      else
        skipCards game identity ignoreOrders action (connected ++ [order])
          (layers ++ [{ order, identities, action }]) fuel

/-- The loop over the queued clues. -/
def skipAll (game : LayeredGame) (identity : Identity) (ignoreOrders : List ℕ) :
    List QueuedClue → List ℕ → List Layer → ℕ → Option Walk
  | [], connected, layers, _ => some { connected, layers }
  | action :: actions, connected, layers, fuel =>
    (game.skipCards identity ignoreOrders action connected layers fuel).bind fun walk =>
      if walk.stop.isSome then some walk
      else skipAll game identity ignoreOrders actions walk.connected walk.layers fuel

/-- After the last clue: the next card is assumed to be the finesse target. -/
def finish (game : LayeredGame) (ignoreOrders : List ℕ) (walk : Walk) : Run where
  layers := walk.layers
  outcome :=
    match walk.stop, game.fOrder walk.connected ignoreOrders with
    | some e, _ => .error e
    | none, some finesse => .ok finesse
    | none, none => .error .noTarget

/-- `resolve_layered_finesse`. -/
def resolveLayeredFinesse (game : LayeredGame) (identity : Identity)
    (connected ignoreOrders : List ℕ) (fuel : ℕ) : Option Run :=
  (game.skipAll identity ignoreOrders game.nextFinesse connected [] fuel).map
    (game.finish ignoreOrders)

/-! ## What the layers should be -/

/-- The next playable identities that a clue touches. -/
def nextTouched (game : LayeredGame) (action : QueuedClue) : List Identity :=
  (nextIdentities game.state.variant.suits.length game.common.hypoStacks).filter fun id =>
    decide (id ∈ game.state.variant.findPossibilities action.clue)

/-- The layers skipped for a clue that does not touch the identity have exactly the next
playable identities that it touches, and there are none if the search fails for want of
identities. -/
def ExactRun (game : LayeredGame) (identity : Identity) (run : Run) : Prop :=
  (∀ layer ∈ run.layers, game.touches identity layer.action = false →
    ∀ id, id ∈ layer.identities ↔ id ∈ game.nextTouched layer.action) ∧
  ∀ order action, run.outcome = .error (.noPlayable order action) → game.nextTouched action = []

/-- The clue touches the next identity of a suit whenever it touches the suit's card of the
identity's rank, and only then. -/
def RanksAgree (game : LayeredGame) (identity : Identity) (action : QueuedClue) : Prop :=
  ∀ s < game.state.variant.suits.length,
    (⟨s, game.common.hypoStacks s + 1⟩ ∈ game.state.variant.findPossibilities action.clue ↔
      ⟨s, identity.rank⟩ ∈ game.state.variant.findPossibilities action.clue)

/-- Our cards that are neither touched nor connected. -/
def freeCards (game : LayeredGame) (connected : List ℕ) : List ℕ :=
  (game.state.hands game.state.ourPlayerIndex).filter fun o =>
    !((game.common.thoughts.get o).any Card.touched) && !connected.contains o

/-- Whether a clue passes over a card, if the card may be used at all. -/
def passesOver (game : LayeredGame) (identity : Identity) (ignoreOrders : List ℕ)
    (action : QueuedClue) (order : ℕ) : Bool :=
  !ignoreOrders.contains order && game.touches identity action != action.list.contains order

/-- Our finesse positions that a clue passes over. -/
def passed (game : LayeredGame) (identity : Identity) (ignoreOrders : List ℕ) (action : QueuedClue)
    (connected : List ℕ) : List ℕ :=
  (game.freeCards connected).takeWhile (game.passesOver identity ignoreOrders action)

/-- Where a clue leaves the walk. -/
def pass (game : LayeredGame) (identity : Identity) (ignoreOrders : List ℕ) (action : QueuedClue)
    (connected : List ℕ) (layers : List Layer) : Walk :=
  let orders := game.passed identity ignoreOrders action connected
  let identities := game.layerIdentities identity action
  if orders ≠ [] ∧ identities = [] then
    { connected, layers, stop := some (.noPlayable (orders.headD 0) action) }
  else
    { connected := connected ++ orders
      layers := layers ++ orders.map fun order => { order, identities, action }
      stop := if game.touches identity action = true ∧
          game.fOrder (connected ++ orders) ignoreOrders = none then some .noEnd else none }

/-- The clues that skip a card of ours without touching the identity, up to the first
that fails. -/
def skippingClues (game : LayeredGame) (identity : Identity) (ignoreOrders : List ℕ) :
    List QueuedClue → List ℕ → List QueuedClue
  | [], _ => []
  | action :: actions, connected =>
    let walk := game.pass identity ignoreOrders action connected []
    let later := if walk.stop.isSome then [] else
      skippingClues game identity ignoreOrders actions walk.connected
    if game.touches identity action = false ∧
        game.passed identity ignoreOrders action connected ≠ [] then action :: later
    else later

section

variable {game : LayeredGame} {identity : Identity} {ignoreOrders connected : List ℕ}
  {action : QueuedClue} {layers : List Layer}

/-! ## The identities for one clue -/

theorem mem_nextTouched {id : Identity} : id ∈ game.nextTouched action ↔
    id ∈ nextIdentities game.state.variant.suits.length game.common.hypoStacks ∧
      id ∈ game.state.variant.findPossibilities action.clue := by
  simp [nextTouched]

/-- For a clue that does not touch the identity, the filter asks for the suit's card of the
identity's rank. -/
theorem mem_layerIdentities (htouch : game.touches identity action = false) {id : Identity} :
    id ∈ game.layerIdentities identity action ↔
      id ∈ nextIdentities game.state.variant.suits.length game.common.hypoStacks ∧
        ⟨id.suitIndex, identity.rank⟩ ∈ game.state.variant.findPossibilities action.clue := by
  simp only [layerIdentities, htouch, Bool.false_eq_true, if_false, List.mem_filter, List.any_eq_true,
    Bool.and_eq_true, beq_iff_eq]
  constructor
  · rintro ⟨hnext, ⟨s, r⟩, hp, hs, hr⟩
    simp only at hs hr
    exact ⟨hnext, by rwa [← hs, ← hr]⟩
  · rintro ⟨hnext, hp⟩
    exact ⟨hnext, _, hp, rfl, rfl⟩

/-- The layers of a clue are right exactly if the ranks agree. -/
theorem layerIdentities_exact_iff (htouch : game.touches identity action = false) :
    (∀ id, id ∈ game.layerIdentities identity action ↔ id ∈ game.nextTouched action) ↔
      game.RanksAgree identity action := by
  constructor
  · intro h s hs
    have hid := h ⟨s, game.common.hypoStacks s + 1⟩
    have hnext : (⟨s, game.common.hypoStacks s + 1⟩ : Identity) ∈
        nextIdentities game.state.variant.suits.length game.common.hypoStacks :=
      mem_nextIdentities.2 ⟨hs, rfl⟩
    rw [mem_layerIdentities htouch, mem_nextTouched] at hid
    tauto
  · rintro h ⟨s, r⟩
    rw [mem_layerIdentities htouch, mem_nextTouched]
    refine and_congr_right fun hnext => ?_
    obtain ⟨hs, hr⟩ := mem_nextIdentities.1 hnext
    simp only at hs hr
    subst hr
    exact (h s hs).symm

/-! ## The loops -/

/-- The next finesse position is the first card that is still free. -/
theorem fOrder_eq : game.fOrder connected ignoreOrders =
    (game.freeCards connected).head?.filter fun o => !ignoreOrders.contains o := by
  rw [fOrder, HGroupPlayer.findFinesse, freeCards, List.head?_filter]

/-- Connecting the first free card leaves the others. -/
theorem freeCards_connected (hnodup : (game.state.hands game.state.ourPlayerIndex).Nodup)
    {order : ℕ} {rest : List ℕ} (h : game.freeCards connected = order :: rest) :
    game.freeCards (connected ++ [order]) = rest := by
  have hsplit : game.freeCards (connected ++ [order]) =
      (game.freeCards connected).filter fun o => o != order := by
    rw [freeCards, freeCards, List.filter_filter]
    refine List.filter_congr fun o _ => ?_
    rw [Bool.eq_iff_iff]
    simp only [List.contains_eq_mem, List.mem_append, List.mem_singleton, Bool.and_eq_true,
      Bool.not_eq_true', decide_eq_false_iff_not, bne_iff_ne]
    tauto
  have hnew : (game.freeCards connected).Nodup := hnodup.filter _
  rw [h, List.nodup_cons] at hnew
  rw [hsplit, h, List.filter_cons_of_neg (by simp)]
  refine List.filter_eq_self.2 fun o ho => ?_
  rw [bne_iff_ne]
  rintro rfl
  exact hnew.1 ho

/-- At a card that the clue stops at, the walk is left as it is. -/
theorem skipCards_stop (hstop : ∀ order, game.fOrder connected ignoreOrders = some order →
      game.touches identity action = action.list.contains order)
    (hpassed : game.passed identity ignoreOrders action connected = []) (fuel : ℕ) :
    game.skipCards identity ignoreOrders action connected layers (fuel + 1) =
      some (game.pass identity ignoreOrders action connected layers) := by
  unfold skipCards pass
  rw [hpassed]
  cases horder : game.fOrder connected ignoreOrders with
  | none =>
    by_cases htouch : game.touches identity action = true
    · simp [htouch, horder]
    · simp [htouch]
  | some order => simp [hstop order horder, horder]

/-- The loop for one clue ends, with the free cards that the clue passes over. -/
theorem skipCards_returns (hnodup : (game.state.hands game.state.ourPlayerIndex).Nodup) :
    Fuel.Returns (game.skipCards identity ignoreOrders action connected layers)
      (· = game.pass identity ignoreOrders action connected layers) := by
  -- by induction on the free cards: each round connects the first of them
  generalize hfree : game.freeCards connected = free
  induction free generalizing connected layers with
  | nil =>
    have hpassed : game.passed identity ignoreOrders action connected = [] := by
      rw [passed, hfree, List.takeWhile_nil]
    have hnone : game.fOrder connected ignoreOrders = none := by
      rw [fOrder_eq, hfree]
      rfl
    refine .step (fun fuel => skipCards_stop (fun order h => ?_) hpassed fuel) (.pure rfl)
    rw [hnone] at h
    cases h
  | cons order rest ih =>
    have horder : game.fOrder connected ignoreOrders =
        if ignoreOrders.contains order then none else some order := by
      rw [fOrder_eq, hfree, List.head?_cons, Option.filter_some]
      cases ignoreOrders.contains order <;> rfl
    by_cases hpass : game.passesOver identity ignoreOrders action order = true
    · have hrest := freeCards_connected hnodup hfree
      have hpassed : game.passed identity ignoreOrders action connected =
          order :: game.passed identity ignoreOrders action (connected ++ [order]) := by
        rw [passed, hfree, List.takeWhile_cons_of_pos hpass, passed, hrest]
      simp only [passesOver, Bool.and_eq_true, Bool.not_eq_true', bne_iff_ne] at hpass
      simp only [hpass.1, Bool.false_eq_true, if_false] at horder
      by_cases hids : game.layerIdentities identity action = []
      · refine .step
          (g := fun _ => some (game.pass identity ignoreOrders action connected layers))
          (fun _ => ?_) (.pure rfl)
        simp only [skipCards, pass, hpassed, horder, hpass, hids]
        simp
      · set layer : Layer := ⟨order, game.layerIdentities identity action, action⟩ with hlayer
        have hround : ∀ fuel, game.skipCards identity ignoreOrders action connected layers
            (fuel + 1) = game.skipCards identity ignoreOrders action (connected ++ [order])
              (layers ++ [layer]) fuel := by
          intro fuel
          rw [skipCards, horder]
          simp only [hpass, hids, Bool.false_eq_true, if_false]
          rfl
        have hend : game.pass identity ignoreOrders action connected layers =
            game.pass identity ignoreOrders action (connected ++ [order]) (layers ++ [layer]) := by
          simp only [pass, hpassed, hids, and_false, if_false, List.append_assoc,
            List.singleton_append, List.map_cons, hlayer]
        rw [hend]
        exact .step hround (ih hrest)
    · have hpassed : game.passed identity ignoreOrders action connected = [] := by
        rw [passed, hfree, List.takeWhile_cons_of_neg hpass]
      refine .step (fun fuel => skipCards_stop (fun o h => ?_) hpassed fuel) (.pure rfl)
      rw [horder] at h
      by_cases hignore : ignoreOrders.contains order = true
      · rw [if_pos hignore] at h
        cases h
      · rw [if_neg hignore, Option.some.injEq] at h
        subst h
        by_contra hne
        refine hpass ?_
        simp only [passesOver, Bool.and_eq_true, Bool.not_eq_true', bne_iff_ne]
        exact ⟨by simpa using hignore, hne⟩

/-- Which clues a walk has skipped cards for, and what it wrote on them. -/
structure Walked (game : LayeredGame) (identity : Identity) (ignoreOrders : List ℕ)
    (actions : List QueuedClue) (connected : List ℕ) (layers added : List Layer) (walk : Walk) :
    Prop where
  layers_eq : walk.layers = layers ++ added
  identities : ∀ layer ∈ added,
    layer.identities = game.layerIdentities identity layer.action
  failed : ∀ order action, walk.stop = some (.noPlayable order action) →
    game.layerIdentities identity action = []
  skipping : ∀ action, game.touches identity action = false →
    (action ∈ game.skippingClues identity ignoreOrders actions connected ↔
      (∃ layer ∈ added, layer.action = action) ∨
        ∃ order, walk.stop = some (.noPlayable order action))

theorem mem_skippingClues_cons (layers : List Layer) {first : QueuedClue} {actions : List QueuedClue}
    (htouch : game.touches identity action = false) :
    action ∈ game.skippingClues identity ignoreOrders (first :: actions) connected ↔
      (action = first ∧ game.passed identity ignoreOrders first connected ≠ []) ∨
        ((game.pass identity ignoreOrders first connected layers).stop.isSome = false ∧
          action ∈ game.skippingClues identity ignoreOrders actions
            (game.pass identity ignoreOrders first connected layers).connected) := by
  have hsame : (game.pass identity ignoreOrders first connected layers).stop =
        (game.pass identity ignoreOrders first connected []).stop ∧
      (game.pass identity ignoreOrders first connected layers).connected =
        (game.pass identity ignoreOrders first connected []).connected := by
    unfold pass
    dsimp only
    split <;> exact ⟨rfl, rfl⟩
  rw [hsame.1, hsame.2, skippingClues]
  by_cases hfirst : game.touches identity first = false ∧
      game.passed identity ignoreOrders first connected ≠ []
  · rw [if_pos hfirst, List.mem_cons]
    cases (game.pass identity ignoreOrders first connected []).stop.isSome
    · simp [hfirst.2]
    · simp [hfirst.2]
  · rw [if_neg hfirst]
    have hnot : ¬(action = first ∧ game.passed identity ignoreOrders first connected ≠ []) := by
      rintro ⟨rfl, hne⟩
      exact hfirst ⟨htouch, hne⟩
    cases (game.pass identity ignoreOrders first connected []).stop.isSome
    · simp [hnot]
    · simp [hnot]

/-- One clue's part of a walk. -/
theorem pass_cases (game : LayeredGame) (identity : Identity) (ignoreOrders connected : List ℕ)
    (action : QueuedClue) (layers : List Layer) :
    (∃ order, game.passed identity ignoreOrders action connected ≠ [] ∧
      game.layerIdentities identity action = [] ∧
      game.pass identity ignoreOrders action connected layers =
        { connected, layers, stop := some (.noPlayable order action) }) ∨
    ∃ added stop, (∀ layer ∈ added, layer.identities = game.layerIdentities identity action ∧
        layer.action = action) ∧
      (added = [] ↔ game.passed identity ignoreOrders action connected = []) ∧
      (stop = none ∨ stop = some .noEnd) ∧
      game.pass identity ignoreOrders action connected layers =
        { connected := connected ++ game.passed identity ignoreOrders action connected
          layers := layers ++ added
          stop } := by
  unfold pass
  dsimp only
  split
  · rename_i h
    exact Or.inl ⟨_, h.1, h.2, rfl⟩
  · refine Or.inr ⟨_, _, ?_, ?_, ?_, rfl⟩
    · intro layer hlayer
      obtain ⟨order, -, rfl⟩ := List.mem_map.1 hlayer
      exact ⟨rfl, rfl⟩
    · rw [List.map_eq_nil_iff]
    · split
      · exact Or.inr rfl
      · exact Or.inl rfl

/-- The walk along all clues ends. -/
theorem skipAll_returns (hnodup : (game.state.hands game.state.ourPlayerIndex).Nodup)
    (actions : List QueuedClue) :
    Fuel.Returns (game.skipAll identity ignoreOrders actions connected layers) fun walk =>
      ∃ added, Walked game identity ignoreOrders actions connected layers added walk := by
  induction actions generalizing connected layers with
  | nil =>
    refine .pure ⟨[], (List.append_nil layers).symm, by simp, by simp, fun action _ => ?_⟩
    simp [skippingClues]
  | cons first actions ih =>
    refine (skipCards_returns hnodup).bind (k := fun walk fuel => if walk.stop.isSome then some walk
      else skipAll game identity ignoreOrders actions walk.connected walk.layers fuel) ?_
    rintro walk rfl
    obtain ⟨order, hpassed, hids, hpass⟩ | ⟨added, stop, hadded, hnil, hstop, hpass⟩ :=
      pass_cases game identity ignoreOrders connected first layers
    · -- the clue fails for want of identities
      rw [hpass]
      refine .pure ⟨[], (List.append_nil layers).symm, by simp, ?_, fun action htouch => ?_⟩
      · intro order' action' heq
        simp only [Option.some.injEq, Illegal.noPlayable.injEq] at heq
        rwa [← heq.2]
      · rw [mem_skippingClues_cons layers htouch, hpass]
        simp [hpassed, eq_comm]
    · have hlayers : ∀ action, (∃ layer ∈ added, layer.action = action) ↔
          action = first ∧ game.passed identity ignoreOrders first connected ≠ [] := by
        intro action
        rw [ne_eq, ← hnil]
        constructor
        · rintro ⟨layer, hlayer, rfl⟩
          exact ⟨(hadded layer hlayer).2, List.ne_nil_of_mem hlayer⟩
        · rintro ⟨rfl, hne⟩
          obtain ⟨layer, hlayer⟩ := List.exists_mem_of_ne_nil added hne
          exact ⟨layer, hlayer, (hadded layer hlayer).2⟩
      have hids : ∀ layer ∈ added, layer.identities = game.layerIdentities identity layer.action := by
        intro layer hlayer
        rw [(hadded layer hlayer).2]
        exact (hadded layer hlayer).1
      obtain rfl | rfl := hstop
      · -- the walk goes on
        rw [hpass]
        refine ih.mono ?_
        rintro walk ⟨added', hwalk⟩
        refine ⟨added ++ added', by rw [hwalk.layers_eq, List.append_assoc], ?_, hwalk.failed,
          fun action htouch => ?_⟩
        · intro layer hlayer
          obtain hlayer | hlayer := List.mem_append.1 hlayer
          · exact hids layer hlayer
          · exact hwalk.identities layer hlayer
        · rw [mem_skippingClues_cons layers htouch, hpass, ← hlayers, hwalk.skipping action htouch]
          simp only [List.mem_append, Option.isSome_none, true_and]
          constructor
          · rintro (⟨l, hl, h⟩ | ⟨l, hl, h⟩ | h)
            · exact Or.inl ⟨l, Or.inl hl, h⟩
            · exact Or.inl ⟨l, Or.inr hl, h⟩
            · exact Or.inr h
          · rintro (⟨l, hl | hl, h⟩ | h)
            · exact Or.inl ⟨l, hl, h⟩
            · exact Or.inr (Or.inl ⟨l, hl, h⟩)
            · exact Or.inr (Or.inr h)
      · -- all our cards are used up
        rw [hpass]
        refine .pure ⟨added, rfl, hids, by simp, fun action htouch => ?_⟩
        rw [mem_skippingClues_cons layers htouch, hpass, ← hlayers]
        simp

theorem resolveLayeredFinesse_returns
    (hnodup : (game.state.hands game.state.ourPlayerIndex).Nodup) :
    Fuel.Returns (game.resolveLayeredFinesse identity connected ignoreOrders) fun _ => True :=
  (skipAll_returns hnodup game.nextFinesse).map fun _ _ => trivial

/-- The connections of a run end with the finesse target. -/
theorem connections_finesse {run : Run} {conns : List FinesseConnection}
    (h : run.connections identity = .ok conns) : ∃ conn ∈ conns, conn.hidden = false := by
  unfold Run.connections at h
  split at h
  · cases h
  · obtain rfl := Except.ok.inj h
    exact ⟨_, List.mem_append_right _ (List.mem_singleton_self _), rfl⟩

theorem touches_of_mem_skippingClues {actions : List QueuedClue}
    (h : action ∈ game.skippingClues identity ignoreOrders actions connected) :
    game.touches identity action = false := by
  induction actions generalizing connected with
  | nil => simp [skippingClues] at h
  | cons first actions ih =>
    rw [skippingClues] at h
    split at h
    · rename_i hfirst
      obtain rfl | h := List.mem_cons.1 h
      · exact hfirst.1
      · split at h
        · cases h
        · exact ih h
    · split at h
      · cases h
      · exact ih h

theorem finish_noPlayable {walk : Walk} {order : ℕ} :
    (game.finish ignoreOrders walk).outcome = .error (.noPlayable order action) ↔
      walk.stop = some (.noPlayable order action) := by
  unfold finish
  cases walk.stop with
  | some e => simp
  | none => cases game.fOrder walk.connected ignoreOrders <;> simp

/-- The search through our finesse positions ends. The identities that it writes on the
layers, and its failures for want of identities, are right exactly if for every clue that
skips a card without touching the identity the ranks agree. -/
theorem resolveLayeredFinesse_exact_iff (game : LayeredGame) (identity : Identity)
    (connected ignoreOrders : List ℕ)
    (hnodup : (game.state.hands game.state.ourPlayerIndex).Nodup) :
    Fuel.Returns (game.resolveLayeredFinesse identity connected ignoreOrders) fun run =>
      game.ExactRun identity run ↔
        ∀ action ∈ game.skippingClues identity ignoreOrders game.nextFinesse connected,
          game.RanksAgree identity action := by
  refine (skipAll_returns hnodup game.nextFinesse).map ?_
  rintro walk ⟨added, hwalk⟩
  have hlayers : walk.layers = added := by
    rw [hwalk.layers_eq, List.nil_append]
  constructor
  · rintro ⟨hexact, hfailed⟩ action hskip
    have htouch := touches_of_mem_skippingClues hskip
    rw [← layerIdentities_exact_iff htouch]
    obtain ⟨layer, hlayer, rfl⟩ | ⟨order, hstop⟩ := (hwalk.skipping action htouch).1 hskip
    · have hlayer' : layer ∈ (game.finish ignoreOrders walk).layers := by
        show layer ∈ walk.layers
        rwa [hlayers]
      intro id
      rw [← hwalk.identities layer hlayer]
      exact hexact layer hlayer' htouch id
    · intro id
      rw [hwalk.failed order action hstop, hfailed order action (finish_noPlayable.2 hstop)]
  · intro hagree
    constructor
    · intro layer hlayer htouch id
      have hmem : layer ∈ added := hlayers ▸ hlayer
      have hskip := (hwalk.skipping layer.action htouch).2 (Or.inl ⟨layer, hmem, rfl⟩)
      rw [hwalk.identities layer hmem]
      exact (layerIdentities_exact_iff htouch).2 (hagree _ hskip) id
    · intro order action hfail
      have hstop := finish_noPlayable.1 hfail
      have hids := hwalk.failed order action hstop
      cases htouch : game.touches identity action with
      | true =>
        -- a clue that touches the identity leaves all next identities
        rw [layerIdentities, if_pos htouch] at hids
        rw [nextTouched, hids, List.filter_nil]
      | false =>
        have hskip := (hwalk.skipping action htouch).2 (Or.inr ⟨order, hstop⟩)
        have hexact := (layerIdentities_exact_iff htouch).2 (hagree _ hskip)
        rw [List.eq_nil_iff_forall_not_mem]
        intro id hid
        have := (hexact id).2 hid
        rw [hids] at this
        cases this

end

/-! ## A clue that is misread -/

/-- Red is at 2 and yellow at 1; we are Alice (0) and hold five untouched cards. -/
def redTwo : HState :=
  { State.fresh noVariant 2 0 {} with
    playStacks := fun s => if s = 0 then 2 else if s = 1 then 1 else 0
    hands := fun p => if p = 0 then [4, 3, 2, 1, 0] else [] }

/-- While we are finessed for the r3, our newest card is clued with 2. -/
def finessedTwo : LayeredGame where
  level := 11
  state := redTwo
  common :=
    { playerIndex := none
      thoughts := ⟨5, fun o => some { id := none, order := o, possible := .full 5, inferred := .full 5 }⟩
      allPossible := .full 5
      allInferred := .full 5
      hypoStacks := redTwo.playStacks }
  players := fun p =>
    { playerIndex := some p, allPossible := .full 5, allInferred := .full 5
      hypoStacks := redTwo.playStacks }
  nextFinesse := [{ list := [4], clue := { type := .rank, value := 2 } }]

/-- The clued 2 is in front of the r3, and y2 is playable: but the search finds nothing
that it can be, as it asks for 2s of rank 3. -/
theorem layered_yellow2 :
    (∃ run, finessedTwo.resolveLayeredFinesse ⟨0, 3⟩ [] [] 2 = some run ∧
      run.outcome = .error (.noPlayable 4 { list := [4], clue := { type := .rank, value := 2 } }) ∧
      ¬finessedTwo.ExactRun ⟨0, 3⟩ run) ∧
    finessedTwo.nextTouched { list := [4], clue := { type := .rank, value := 2 } } = [⟨1, 2⟩] := by
  have hnext : finessedTwo.nextTouched { list := [4], clue := { type := .rank, value := 2 } } =
      [⟨1, 2⟩] := by
    decide +kernel
  refine ⟨⟨⟨[], .error (.noPlayable 4 { list := [4], clue := { type := .rank, value := 2 } })⟩, ?_,
    rfl, fun h => ?_⟩, hnext⟩
  · rfl
  · have hnil := h.2 4 _ rfl
    rw [hnext] at hnil
    cases hnil

theorem resolveLayeredFinesse_exact_iff_finessedTwo :
    Fuel.Returns (finessedTwo.resolveLayeredFinesse ⟨0, 3⟩ [] []) fun run =>
      finessedTwo.ExactRun ⟨0, 3⟩ run ↔
        ∀ action ∈ finessedTwo.skippingClues ⟨0, 3⟩ [] finessedTwo.nextFinesse [],
          finessedTwo.RanksAgree ⟨0, 3⟩ action :=
  resolveLayeredFinesse_exact_iff finessedTwo ⟨0, 3⟩ [] [] (by decide)

end LayeredGame

end HanabiBot.HGroup
