import Mathlib

/-!
# The hand-off to the solver

A game goes to the endgame worker as `Utils.toJSON(game)`, which the worker gets as a
structured clone and revives with `HGroup.fromJSON`.  A `JSValue` is a value with the
class of every object in it; what a value holds, whatever the classes of its objects
are, is its `data`.

* `lookup_handOff_state` — every field of the state arrives as a plain value, but for
  the deck;
* `handOff_lossy` — so `base_ids` and `all_ids` are no longer sets of identities.
-/

namespace HanabiBot

/-- The prototype of an object. -/
inductive JSClass
  | plain
  | basicCard
  | actualCard
  | card
  | identitySet
  | player
  | state
  | game
  deriving DecidableEq, Repr

/-- A value; `empty` is an empty slot of an array, and `func` any function. -/
inductive JSValue
  | undefined
  | null
  | empty
  | func
  | bool (b : Bool)
  | num (n : ℤ)
  | str (s : String)
  | arr (elems : List JSValue)
  | obj (cls : JSClass) (props : List (String × JSValue))
  | map (entries : List (JSValue × JSValue))
  | set (elems : List JSValue)

namespace JSValue

/-- `typeof x === 'function'`. -/
def isFunction : JSValue → Bool
  | .func => true
  | _ => false

/-- The prototype, if the value is an object. -/
def cls? : JSValue → Option JSClass
  | .obj cls _ => some cls
  | _ => none

/-- `x !== undefined`. -/
def isDefined : JSValue → Bool
  | .undefined => false
  | _ => true

/-! ## The way there -/

mutual

/-- `Utils.toJSON`. -/
def toJSON : JSValue → JSValue
  | .arr elems => .arr (toJSONList elems)
  | .obj _ props => .obj .plain (toJSONProps props)
  | v => v
termination_by structural v => v

def toJSONList : List JSValue → List JSValue
  | [] => []
  | v :: elems => toJSON v :: toJSONList elems
termination_by structural elems => elems

def toJSONProps : List (String × JSValue) → List (String × JSValue)
  | [] => []
  | (name, v) :: props =>
    if v.isFunction then toJSONProps props else (name, toJSON v) :: toJSONProps props
termination_by structural props => props

end

mutual

/-- The structured clone that a worker gets: objects lose their prototypes, and a function
is an error. -/
def structuredClone : JSValue → Option JSValue
  | .func => none
  | .arr elems => (structuredCloneList elems).map .arr
  | .obj _ props => (structuredCloneProps props).map (.obj .plain)
  | .map entries => (structuredCloneEntries entries).map .map
  | .set elems => (structuredCloneList elems).map .set
  | v => some v
termination_by structural v => v

def structuredCloneList : List JSValue → Option (List JSValue)
  | [] => some []
  | v :: elems => do some ((← structuredClone v) :: (← structuredCloneList elems))
termination_by structural elems => elems

def structuredCloneProps : List (String × JSValue) → Option (List (String × JSValue))
  | [] => some []
  | (name, v) :: props => do some ((name, ← structuredClone v) :: (← structuredCloneProps props))
termination_by structural props => props

def structuredCloneEntries : List (JSValue × JSValue) → Option (List (JSValue × JSValue))
  | [] => some []
  | (key, v) :: entries => do
    some ((← structuredClone key, ← structuredClone v) :: (← structuredCloneEntries entries))
termination_by structural entries => entries

end

mutual

/-- `Utils.objClone`, which throws on deep objects. The clone of an instance of a class of the
bot is the same value, and a `Map` or a `Set` has no enumerable properties. -/
def objClone (depth : ℕ) : JSValue → Option JSValue
  | .arr elems => if 15 < depth then none else (objCloneList elems).map .arr
  | .obj cls props =>
    if 15 < depth then none
    else if cls = .plain ∨ cls = .state ∨ cls = .game then
      (objCloneProps (depth + 1) props).map (.obj .plain)
    else some (.obj cls props)
  | .map _ | .set _ => if 15 < depth then none else some (.obj .plain [])
  | v => if 15 < depth then none else some v
termination_by structural v => v

def objCloneList : List JSValue → Option (List JSValue)
  | [] => some []
  | v :: elems => do some ((← objClone 0 v) :: (← objCloneList elems))
termination_by structural elems => elems

def objCloneProps (depth : ℕ) : List (String × JSValue) → Option (List (String × JSValue))
  | [] => some []
  | (name, v) :: props => do
    some ((name, ← objClone depth v) :: (← objCloneProps depth props))
termination_by structural props => props

end

/-! ## Reading -/

/-- `x[name]`, an error on `undefined` and `null`. -/
def get : JSValue → String → Option JSValue
  | .undefined, _ | .null, _ => none
  | .obj _ props, name => some ((props.lookup name).getD .undefined)
  | _, _ => some .undefined

/-- A parameter with a default value. -/
def orDefault (default : JSValue) (v : JSValue) : JSValue := if v.isDefined then v else default

/-- `x.slice()`. -/
def slice : JSValue → Option JSValue
  | .arr elems => some (.arr elems)
  | .str s => some (.str s)
  | _ => none

/-- `f(elem, index)` for the elements of an array, but for its empty slots. -/
def mapElems (f : JSValue → ℕ → Option JSValue) : List JSValue → ℕ → Option (List JSValue)
  | [], _ => some []
  | .empty :: elems, i => do some (.empty :: (← mapElems f elems (i + 1)))
  | v :: elems, i => do some ((← f v i) :: (← mapElems f elems (i + 1)))

/-- `x.map(f)`. -/
def mapArr (f : JSValue → ℕ → Option JSValue) : JSValue → Option JSValue
  | .arr elems => (mapElems f elems 0).map .arr
  | _ => none

/-- `new Set(x)` of a `Set` or of nothing. -/
def newSet : JSValue → Option JSValue
  | .set elems => some (.set elems)
  | .undefined | .null => some (.set [])
  | _ => none

/-- `new Map(x)` of a `Map` or of nothing. -/
def newMap : JSValue → Option JSValue
  | .map entries => some (.map entries)
  | .undefined | .null => some (.map [])
  | _ => none

/-- `Object.keys`, with the values that are not `undefined`. -/
def definedProps : JSValue → Option (List (String × JSValue))
  | .undefined | .null => none
  | .obj _ props => some (props.filter fun p => p.2.isDefined)
  | _ => some []

/-- The properties, each with the value that the function gives. -/
def mapProps (f : String → JSValue → Option JSValue) :
    List (String × JSValue) → Option (List (String × JSValue))
  | [] => some []
  | (name, v) :: props => do some ((name, ← f name v) :: (← mapProps f props))

end JSValue

open JSValue

/-! ## The way back -/

namespace IdentitySet

/-- The constructor; no value is given for the set of all identities. -/
def newJS (numSuits value : JSValue) : JSValue :=
  .obj .identitySet [("maxStackRank", .num 5), ("numSuits", numSuits),
    ("value", match value, numSuits with
      | .undefined, .num n | .null, .num n => .num (2 ^ (n * 5).toNat - 1)
      | value, _ => value)]

/-- `IdentitySet.fromJSON`. -/
def fromJSON (json : JSValue) : Option JSValue := do
  some (newJS (← json.get "numSuits") (← json.get "value"))

end IdentitySet

/-- The constructor of `ActualCard`. -/
def ActualCard.newJS (suitIndex rank order drawnIndex clued newlyClued clues : JSValue) : JSValue :=
  .obj .actualCard [("suitIndex", suitIndex), ("rank", rank),
    ("order", order.orDefault (.num (-1))), ("drawn_index", drawnIndex.orDefault (.num (-1))),
    ("clued", clued.orDefault (.bool false)), ("newly_clued", newlyClued.orDefault (.bool false)),
    ("clues", clues.orDefault (.arr []))]

/-- `ActualCard.fromJSON`. -/
def ActualCard.fromJSON (json : JSValue) : Option JSValue := do
  some (newJS (← json.get "suitIndex") (← json.get "rank") (← json.get "order")
    (← json.get "drawn_index") (← json.get "clued") (← json.get "newly_clued")
    (← (← json.get "clues").slice))

/-- The fields of a `Card` that are revived. -/
def cardIdentityFields : List String :=
  ["inferred", "possible", "finesse_ids", "rewind_ids", "old_inferred", "old_possible", "info_lock"]

/-- `Card.fromJSON`. -/
def Card.fromJSON (json : JSValue) : Option JSValue := do
  let props ← mapProps (fun key v =>
    if key ∈ cardIdentityFields then IdentitySet.fromJSON v else some v) (← json.definedProps)
  some (.obj .card props)

/-- `State.fromJSON`. -/
def State.fromJSON (json : JSValue) : Option JSValue := do
  let props ← mapProps (fun key v =>
    if key = "deck" then v.mapArr fun card _ => ActualCard.fromJSON card else some v)
    (← json.definedProps)
  some (.obj .state props)

/-- The constructor of `HGroup_Player`. -/
def HGroupPlayer.newJS (playerIndex allPossible allInferred hypoStacks hypoPlays hypoMap thoughts links
    playLinks unknownPlays waitingConnections elims patches : JSValue) : JSValue :=
  .obj .player [("card_elim", .func), ("refresh_links", .func), ("find_links", .func),
    ("good_touch_elim", .func), ("restore_elim", .func), ("hypo_stacks", hypoStacks),
    ("play_links", playLinks.orDefault (.arr [])), ("hypo_plays", hypoPlays.orDefault (.set [])),
    ("patches", patches.orDefault (.map [])), ("elims", elims.orDefault (.map [])),
    ("playerIndex", playerIndex), ("thoughts", thoughts.orDefault (.arr [])),
    ("links", links.orDefault (.arr [])), ("hypo_map", hypoMap.orDefault (.arr [])),
    ("all_possible", allPossible), ("all_inferred", allInferred),
    ("unknown_plays", unknownPlays.orDefault (.set [])),
    ("waiting_connections", waitingConnections.orDefault (.arr []))]

/-- `HGroup_Player.fromJSON`; `map` passes the index of a link on as its depth. -/
def HGroupPlayer.fromJSON (json : JSValue) : Option JSValue := do
  some (newJS (← json.get "playerIndex")
    (← IdentitySet.fromJSON (← json.get "all_possible"))
    (← IdentitySet.fromJSON (← json.get "all_inferred"))
    (← (← json.get "hypo_stacks").slice)
    (← (← json.get "hypo_plays").newSet)
    (← (← json.get "hypo_map").objClone 0)
    (← (← json.get "thoughts").mapArr fun card _ => Card.fromJSON card)
    (← (← json.get "links").mapArr fun link index => link.objClone index)
    (← (← json.get "play_links").mapArr fun link index => link.objClone index)
    (← (← json.get "unknown_plays").newSet)
    (← (← json.get "waiting_connections").objClone 0)
    (← (← json.get "elims").newMap)
    .undefined)

namespace HGroup

/-- The properties of an `HGroup` that `fromJSON` clones, in the order of the class fields. -/
def clonedProps : List String :=
  ["convention_name", "good_touch", "in_progress", "catchup", "deck_ids", "last_actions",
    "handHistory", "notes", "rewinds", "rewindDepth", "copyDepth", "next_ignore", "next_finesse",
    "base", "queued_cmds"]

/-- `HGroup.fromJSON`. What the constructor writes is written again, but for the state. -/
def fromJSON (json : JSValue) : Option JSValue := do
  let state ← State.fromJSON (← json.get "state")
  let cloned ← clonedProps.mapM fun name => do some (name, ← (← json.get name).objClone 0)
  let players ← (← json.get "players").mapArr fun player _ => HGroupPlayer.fromJSON player
  let common ← HGroupPlayer.fromJSON (← json.get "common")
  let level ← json.get "level"
  let moveHistory ← (← json.get "moveHistory").slice
  let finesses ← (← json.get "finesses_while_finessed").mapArr fun cards _ =>
    cards.mapArr fun card _ => ActualCard.fromJSON card
  let stalled5 ← json.get "stalled_5"
  some (.obj .game ([("state", state), ("players", players), ("common", common)] ++ cloned ++
    [("level", level), ("moveHistory", moveHistory), ("finesses_while_finessed", finesses),
      ("stalled_5", stalled5)]))

end HGroup

/-- The game that the worker gets. -/
def handOff (game : JSValue) : Option JSValue := game.toJSON.structuredClone.bind HGroup.fromJSON

/-! ## What a value holds -/

namespace JSValue

mutual

/-- The data of a value: the class of an object is forgotten, but for `IdentitySet`, and so are
methods and properties that are `undefined`. -/
def data : JSValue → JSValue
  | .arr elems => .arr (dataList elems)
  | .obj cls props =>
    .obj (if cls = .identitySet then .identitySet else .plain) (dataProps props)
  | .map entries => .map (dataEntries entries)
  | .set elems => .set (dataList elems)
  | v => v
termination_by structural v => v

def dataList : List JSValue → List JSValue
  | [] => []
  | v :: elems => data v :: dataList elems
termination_by structural elems => elems

def dataProps : List (String × JSValue) → List (String × JSValue)
  | [] => []
  | (name, v) :: props =>
    if v.isFunction || !v.isDefined then dataProps props else (name, data v) :: dataProps props
termination_by structural props => props

def dataEntries : List (JSValue × JSValue) → List (JSValue × JSValue)
  | [] => []
  | (key, v) :: entries => (data key, data v) :: dataEntries entries
termination_by structural entries => entries

end

end JSValue

/-- The fields that the hand-off is to keep. -/
def keptFields : List String := ["state", "players", "common"]

/-- The game arrives, with the same data in its state and its players. -/
def Lossless (game : JSValue) : Prop :=
  ∃ new, handOff game = some new ∧
    ∀ field ∈ keptFields, (new.get field).map data = (game.get field).map data

/-! ## What arrives -/

section

variable {name : String} {v : JSValue} {props props' : List (String × JSValue)}

theorem lookup_toJSONProps (h : props.lookup name = some v) (hv : v.isFunction = false) :
    (toJSONProps props).lookup name = some v.toJSON := by
  induction props with
  | nil => cases h
  | cons p props ih =>
    obtain ⟨key, value⟩ := p
    rw [List.lookup_cons] at h
    rw [toJSONProps]
    split at h
    · rename_i hkey
      cases h
      rw [hv, if_neg Bool.false_ne_true, List.lookup_cons, hkey]
    · rename_i hkey
      split
      · exact ih h
      · rw [List.lookup_cons, hkey]
        exact ih h

theorem lookup_structuredCloneProps (h : structuredCloneProps props = some props') :
    props'.lookup name = (props.lookup name).bind structuredClone := by
  induction props generalizing props' with
  | nil =>
    cases h
    rfl
  | cons p props ih =>
    obtain ⟨key, value⟩ := p
    rw [structuredCloneProps] at h
    obtain ⟨clone, hclone, h⟩ := Option.bind_eq_some_iff.1 h
    obtain ⟨rest, hrest, h⟩ := Option.bind_eq_some_iff.1 h
    cases h
    rw [List.lookup_cons, List.lookup_cons]
    split
    · exact hclone.symm
    · exact ih hrest

theorem lookup_mapProps {f : String → JSValue → Option JSValue} (h : mapProps f props = some props') :
    props'.lookup name = (props.lookup name).bind (f name) := by
  induction props generalizing props' with
  | nil =>
    cases h
    rfl
  | cons p props ih =>
    obtain ⟨key, value⟩ := p
    rw [mapProps] at h
    obtain ⟨new, hnew, h⟩ := Option.bind_eq_some_iff.1 h
    obtain ⟨rest, hrest, h⟩ := Option.bind_eq_some_iff.1 h
    cases h
    rw [List.lookup_cons, List.lookup_cons]
    split
    · rename_i hkey
      rw [eq_of_beq hkey]
      exact hnew.symm
    · exact ih hrest

theorem lookup_filter_isDefined (h : props.lookup name = some v) (hv : v.isDefined = true) :
    (props.filter fun p => p.2.isDefined).lookup name = some v := by
  induction props with
  | nil => cases h
  | cons p props ih =>
    obtain ⟨key, value⟩ := p
    rw [List.lookup_cons] at h
    rw [List.filter_cons]
    split at h
    · rename_i hkey
      cases h
      rw [if_pos hv, List.lookup_cons, hkey]
    · rename_i hkey
      split
      · rw [List.lookup_cons, hkey]
        exact ih h
      · exact ih h

theorem lookup_dataProps (h : props.lookup name = some v) (hf : v.isFunction = false)
    (hd : v.isDefined = true) : (dataProps props).lookup name = some v.data := by
  induction props with
  | nil => cases h
  | cons p props ih =>
    obtain ⟨key, value⟩ := p
    rw [List.lookup_cons] at h
    rw [dataProps]
    split at h
    · rename_i hkey
      cases h
      rw [hf, hd, if_neg (by simp), List.lookup_cons, hkey]
    · rename_i hkey
      split
      · exact ih h
      · rw [List.lookup_cons, hkey]
        exact ih h

theorem lookup_of_get {game : JSValue} (h : game.get name = some v) (hv : v.isDefined = true) :
    ∃ cls props, game = .obj cls props ∧ props.lookup name = some v := by
  cases game with
  | obj cls props =>
    refine ⟨cls, props, rfl, ?_⟩
    have heq := Option.some.inj h
    cases hlookup : props.lookup name with
    | none =>
      rw [hlookup] at heq
      cases heq
      cases hv
    | some value =>
      rw [hlookup] at heq
      exact congrArg some heq
  | undefined | null => cases h
  | empty | func | bool | num | str | arr | map | set =>
    cases h
    cases hv

/-- What `HGroup.fromJSON` revives. -/
theorem HGroup.fromJSON_spec {json new : JSValue} (h : HGroup.fromJSON json = some new) :
    (∃ state, (json.get "state").bind State.fromJSON = some state ∧ new.get "state" = some state) ∧
      (∃ players, (json.get "players").bind
          (mapArr fun player _ => HGroupPlayer.fromJSON player) = some players ∧
        new.get "players" = some players) ∧
      ∃ common, (json.get "common").bind HGroupPlayer.fromJSON = some common ∧
        new.get "common" = some common := by
  rw [HGroup.fromJSON] at h
  obtain ⟨jsonState, hjsonState, h⟩ := Option.bind_eq_some_iff.1 h
  obtain ⟨state, hstate, h⟩ := Option.bind_eq_some_iff.1 h
  obtain ⟨cloned, -, h⟩ := Option.bind_eq_some_iff.1 h
  obtain ⟨jsonPlayers, hjsonPlayers, h⟩ := Option.bind_eq_some_iff.1 h
  obtain ⟨players, hplayers, h⟩ := Option.bind_eq_some_iff.1 h
  obtain ⟨jsonCommon, hjsonCommon, h⟩ := Option.bind_eq_some_iff.1 h
  obtain ⟨common, hcommon, h⟩ := Option.bind_eq_some_iff.1 h
  obtain ⟨level, -, h⟩ := Option.bind_eq_some_iff.1 h
  obtain ⟨jsonMoves, -, h⟩ := Option.bind_eq_some_iff.1 h
  obtain ⟨moves, -, h⟩ := Option.bind_eq_some_iff.1 h
  obtain ⟨jsonFinesses, -, h⟩ := Option.bind_eq_some_iff.1 h
  obtain ⟨finesses, -, h⟩ := Option.bind_eq_some_iff.1 h
  obtain ⟨stalled, -, h⟩ := Option.bind_eq_some_iff.1 h
  cases h
  rw [hjsonState, hjsonPlayers, hjsonCommon, Option.bind_some, Option.bind_some, Option.bind_some]
  refine ⟨⟨state, hstate, ?_⟩, ⟨players, hplayers, ?_⟩, common, hcommon, ?_⟩ <;>
    simp [JSValue.get, List.lookup_cons]

/-- Every field of the state but the deck arrives as the structured clone of its JSON. -/
theorem lookup_handOff_state {game new : JSValue} (hstate : game.get "state" = some (.obj .state props))
    (h : handOff game = some new) :
    ∃ fields, new.get "state" = some (.obj .state fields) ∧
      ∀ name v, name ≠ "deck" → props.lookup name = some v → v.isFunction = false →
        ∀ clone, v.toJSON.structuredClone = some clone → clone.isDefined = true →
          fields.lookup name = some clone := by
  obtain ⟨cls, gameProps, rfl, hlookup⟩ := lookup_of_get hstate rfl
  rw [handOff, JSValue.toJSON, structuredClone] at h
  obtain ⟨json, hjson, h⟩ := Option.bind_eq_some_iff.1 h
  obtain ⟨jsonProps, hprops, rfl⟩ := Option.map_eq_some_iff.1 hjson
  obtain ⟨⟨state, hrevived, hnew⟩, -⟩ := HGroup.fromJSON_spec h
  -- the state on the way
  have hclone := @lookup_structuredCloneProps "state" _ _ hprops
  rw [lookup_toJSONProps hlookup rfl, JSValue.toJSON, Option.bind_some, structuredClone] at hclone
  rw [JSValue.get, hclone, Option.bind_some] at hrevived
  cases hsent : structuredCloneProps (toJSONProps props) with
  | none =>
    rw [hsent] at hrevived
    cases hrevived
  | some sent =>
    rw [hsent, Option.map_some, Option.getD_some, State.fromJSON] at hrevived
    obtain ⟨defined, hdefinedProps, hrevived⟩ := Option.bind_eq_some_iff.1 hrevived
    obtain ⟨fields, hfields, hrevivedState⟩ := Option.bind_eq_some_iff.1 hrevived
    cases hdefinedProps
    cases hrevivedState
    refine ⟨fields, hnew, fun name v hname hv hf clone hwire hdefined => ?_⟩
    have hjson := @lookup_structuredCloneProps name _ _ hsent
    rw [lookup_toJSONProps hv hf, Option.bind_some, hwire] at hjson
    rw [lookup_mapProps hfields, lookup_filter_isDefined hjson hdefined, Option.bind_some,
      if_neg hname]

end

/-- An `IdentitySet`. -/
def IsIdentitySet (v : JSValue) : Prop :=
  ∃ numSuits value : ℤ, v = IdentitySet.newJS (.num numSuits) (.num value)

/-- A game has a state with the sets of identities that the constructor of `State` writes. -/
def HasState (game : JSValue) : Prop :=
  ∃ props, game.get "state" = some (.obj .state props) ∧
    ∀ field ∈ ["base_ids", "all_ids"], ∃ ids, props.lookup field = some ids ∧ IsIdentitySet ids

/-- **The hand-off always loses data**: the worker gets a state whose sets of identities are none. -/
theorem handOff_lossy {game : JSValue} (hgame : HasState game) : ¬ Lossless game := by
  obtain ⟨props, hstate, hids⟩ := hgame
  rintro ⟨new, hnew, hsame⟩
  obtain ⟨ids, hids, numSuits, value, rfl⟩ := hids "base_ids" (by decide)
  obtain ⟨fields, hnewState, hfields⟩ := lookup_handOff_state hstate hnew
  have harrived := hfields "base_ids" _ (by decide) hids rfl _ rfl rfl
  have hdata := hsame "state" (by decide)
  rw [hstate, hnewState, Option.map_some, Option.map_some, Option.some.injEq, data, data,
    JSValue.obj.injEq] at hdata
  have hlookup := congrArg (List.lookup "base_ids") hdata.2
  rw [lookup_dataProps harrived rfl rfl, lookup_dataProps hids rfl rfl, Option.some.injEq] at hlookup
  have hcls : some JSClass.plain = some JSClass.identitySet := congrArg cls? hlookup
  cases hcls

/-- The state of a new game of two players without a variant. -/
def freshState : JSValue :=
  .obj .state [("turn_count", .num 0), ("clue_tokens", .num 8), ("strikes", .num 0),
    ("early_game", .bool true), ("discard_state", .undefined), ("dda", .undefined),
    ("hands", .arr [.arr [], .arr []]), ("deck", .arr []), ("actionList", .arr []),
    ("play_stacks", .arr (List.replicate 5 (.num 0))),
    ("discard_stacks", .arr (List.replicate 5 (.arr (List.replicate 5 (.num 0))))),
    ("max_ranks", .arr (List.replicate 5 (.num 5))),
    ("_cardCount", .arr (List.replicate 5 (.arr [.num 3, .num 2, .num 2, .num 2, .num 1]))),
    ("cardsLeft", .num 50), ("base_ids", IdentitySet.newJS (.num 5) (.num 0)),
    ("all_ids", IdentitySet.newJS (.num 5) (.num 33554431)), ("currentPlayerIndex", .num 0),
    ("cardOrder", .num (-1)), ("endgameTurns", .num (-1)),
    ("playerNames", .arr [.str "Alice", .str "Bob"]), ("numPlayers", .num 2),
    ("ourPlayerIndex", .num 0),
    ("variant", .obj .plain [("name", .str "No Variant"), ("suits", .arr [.str "Red", .str "Yellow",
      .str "Green", .str "Blue", .str "Purple"])]),
    ("options", .obj .plain [])]

/-- A player of a new game. -/
def freshPlayer (playerIndex : ℤ) : JSValue :=
  let all := IdentitySet.newJS (.num 5) (.num 33554431)
  HGroupPlayer.newJS (.num playerIndex) all all (.arr (List.replicate 5 (.num 0))) .undefined
    .undefined .undefined .undefined .undefined .undefined .undefined .undefined .undefined

/-- A new game of two players. -/
def freshHGroup : JSValue :=
  .obj .game [("convention_name", .str "HGroup"), ("good_touch", .bool true),
    ("in_progress", .bool true), ("catchup", .bool false), ("state", freshState),
    ("deck_ids", .arr (List.replicate 50 .empty)),
    ("players", .arr [freshPlayer 0, freshPlayer 1]), ("common", freshPlayer (-1)),
    ("last_actions", .arr []), ("handHistory", .arr []), ("notes", .arr []), ("rewinds", .num 0),
    ("rewindDepth", .num 0), ("copyDepth", .num 0), ("next_ignore", .arr []),
    ("next_finesse", .arr []),
    ("base", .obj .plain [("state", freshState), ("players", .arr [freshPlayer 0, freshPlayer 1]),
      ("common", freshPlayer (-1))]),
    ("queued_cmds", .arr []), ("level", .num 1), ("moveHistory", .arr []),
    ("finesses_while_finessed", .arr [.arr [], .arr []]), ("stalled_5", .bool false)]

theorem hasState_freshHGroup : HasState freshHGroup := by
  refine ⟨_, rfl, fun field hfield => ?_⟩
  rcases List.mem_cons.1 hfield with rfl | hfield
  · exact ⟨_, rfl, 5, 0, rfl⟩
  · rw [List.mem_singleton.1 hfield]
    exact ⟨_, rfl, 5, 33554431, rfl⟩

/-- A new game cannot be handed over without a loss. -/
theorem handOff_lossy_freshHGroup : ¬ Lossless freshHGroup := handOff_lossy hasState_freshHGroup

/-- A new game arrives, and `base_ids` is a plain object afterwards. -/
theorem base_ids_handOff_freshHGroup :
    ((freshHGroup.get "state").bind (·.get "base_ids")).bind cls? = some .identitySet ∧
      (handOff freshHGroup).isSome = true ∧
      (((handOff freshHGroup).bind (·.get "state")).bind (·.get "base_ids")).bind cls? =
        some .plain := by
  decide +kernel

end HanabiBot
