import HanabiBot.Drafting.Patches
import HanabiBot.Lib.Ensures

/-!
# Cards and their patches

The common player keeps a card for each order and changes it through `updateThoughts` and
`withThoughts` of `src/basics/Player.js`, which add the patches of every producer to those
recorded before (`record`).  `team_elimP` of `src/basics/helper.js` then applies them, but for
those on `possible` and `inferred`, to the cards that the other players keep (`replay`).

A producer is a list of steps (`CardStep`): assignments to fields, `updateStatus` and
`revertStatus`, and pushes on the two fields that hold arrays.
-/

namespace HanabiBot.Drafting

/-! ## Cards -/

/-- The fields of `Card`. -/
inductive CardField
  | suitIndex | rank | order | drawnIndex | clued | newlyClued | clues | possible | inferred
  | finesseIds | rewindIds | oldInferred | oldPossible | infoLock | status | lastStatus | focused
  | reset | chopWhenFirstClued | superposition | hidden | permissionToDiscard | certainFinessed
  | assumePlayable | maybeLayered | trash | uncertain | known | firstTouch | finesseIndex
  | reasoningTurn | rewinded
  deriving DecidableEq

namespace CardField

def name : CardField → String
  | suitIndex => "suitIndex"
  | rank => "rank"
  | order => "order"
  | drawnIndex => "drawn_index"
  | clued => "clued"
  | newlyClued => "newly_clued"
  | clues => "clues"
  | possible => "possible"
  | inferred => "inferred"
  | finesseIds => "finesse_ids"
  | rewindIds => "rewind_ids"
  | oldInferred => "old_inferred"
  | oldPossible => "old_possible"
  | infoLock => "info_lock"
  | status => "status"
  | lastStatus => "last_status"
  | focused => "focused"
  | reset => "reset"
  | chopWhenFirstClued => "chop_when_first_clued"
  | superposition => "superposition"
  | hidden => "hidden"
  | permissionToDiscard => "permission_to_discard"
  | certainFinessed => "certain_finessed"
  | assumePlayable => "assume_playable"
  | maybeLayered => "maybe_layered"
  | trash => "trash"
  | uncertain => "uncertain"
  | known => "known"
  | firstTouch => "firstTouch"
  | finesseIndex => "finesse_index"
  | reasoningTurn => "reasoning_turn"
  | rewinded => "rewinded"

def key (f : CardField) : Key := .name f.name

/-- The fields that hold arrays. -/
def isArray : CardField → Bool
  | clues | reasoningTurn => true
  | _ => false

/-- The fields that a player keeps to themselves. -/
def isPrivate : CardField → Bool
  | possible | inferred | suitIndex | rank => true
  | _ => false

end CardField

/-- Plain data whose root is part of it. -/
structure NewData extends Lit where
  root_mem : ∀ r, root = .ref r → r < cells.length

/-- What can be assigned to a field: new data, an object that exists, or another field. -/
inductive Source
  | new (data : NewData)
  | existing (r : ℕ)
  | field (f : CardField)

namespace Source

def isNew : Source → Bool
  | .new _ => true
  | _ => false

def run : Source → StateT Drafts Option Value
  | .new data => drafts.alloc data.toLit
  | .existing r => fun d => if r < d.heap.next then some (.ref r, d) else none
  | .field f => drafts.get (.draft 0) f.key

end Source

/-- A step of a producer on a card. An array of the card is only replaced by a new one, and only
arrays are pushed to. -/
inductive CardStep
  | read (path : List Key)
  | assign (f : CardField) (value : Source) (hnew : f.isArray = true → value.isNew = true)
  | updateStatus (status : Prim)
  | revertStatus
  | push (f : CardField) (items : List Source) (harray : f.isArray = true)

/-- Whether a value counts as true. -/
def Value.truthy : Value → Bool
  | .prim .undefined | .prim (.bool false) | .prim .negZero | .prim .nan => false
  | .prim (.num n) => n != 0
  | .prim (.str s) => s != ""
  | _ => true

namespace CardStep

/-- `draft[f]`. -/
def getField (f : CardField) : StateT Drafts Option Value := drafts.get (.draft 0) f.key

/-- `draft[f] = v`. -/
def setField (f : CardField) (v : Value) : StateT Drafts Option Unit := drafts.set (.draft 0) f.key v

/-- `updateStatus`. -/
def runUpdateStatus (status : Prim) : StateT Drafts Option Unit := do
  let old ← getField .status
  setField .lastStatus old
  setField .status (.prim status)

/-- `revertStatus`. -/
def runRevertStatus : StateT Drafts Option Unit := do
  let clued ← getField .clued
  if clued.truthy then setField .status (.prim (.str "clued"))
  else
    let last ← getField .lastStatus
    setField .status last
  setField .lastStatus (.prim .undefined)

/-- `draft[f].push(...items)`. -/
def runPush (f : CardField) (items : List Source) : StateT Drafts Option Unit := do
  let o ← getField f
  -- anything but an array has no such method
  if ← drafts.isArray o then
    let values ← items.mapM Source.run
    drafts.push o values
  else failure

def run : CardStep → StateT Drafts Option Unit
  | .read path => do
    let _ ← drafts.follow (.draft 0) path
    pure ()
  | .assign f value _ => do
    let v ← value.run
    setField f v
  | .updateStatus status => runUpdateStatus status
  | .revertStatus => runRevertStatus
  | .push f items _ => runPush f items

/-- A producer. -/
def runAll : List CardStep → StateT Drafts Option Unit
  | [] => pure ()
  | step :: steps => do
    step.run
    runAll steps

end CardStep

/-! ## Recording -/

/-- What a value is once `produce` has returned: a copy is an object like any other, and a draft
that is left over is revoked. -/
def Value.settle (next : ℕ) : Value → Value
  | .copy i => .ref (next + i)
  | .draft _ => .prim .undefined
  | v => v

namespace Heap

/-- The objects with a further one. -/
def place (h : Heap) (c : Cell) : Heap where
  cells := Function.update h.cells h.next c
  next := h.next + 1

end Heap

namespace Drafts

/-- The objects once `produce` has returned. -/
def commit (d : Drafts) : Heap where
  cells x :=
    if x < d.heap.next then d.heap.cells x
    else (d.states (x - d.heap.next)).copy.map (Value.settle d.heap.next)
  next := d.heap.next + d.count

end Drafts

/-- A card of the common player, the objects that exist and the patches recorded for it. -/
structure Recorded where
  heap : Heap
  card : Cell
  patches : List Patch := []

namespace Recorded

/-- `updateThoughts`, and `withThoughts`, on the common player. -/
def updateThoughts (r : Recorded) (func : List CardStep) : Option Recorded := do
  let (result, patches, d) ← produceWithPatches (r.heap.place r.card) r.heap.next
    fun _ => CardStep.runAll func
  pure
    { heap := d.commit
      card := match result with
        | .copy i => (d.states i).copy.map (Value.settle d.heap.next)
        | _ => r.card
      patches := r.patches ++
        patches.map fun p => { p with value := p.value.settle d.heap.next } }

end Recorded

/-- A card after some producers, with the patches of all of them. -/
def record (heap : Heap) (card : Cell) (producers : List (List CardStep)) : Option Recorded :=
  producers.foldlM Recorded.updateThoughts { heap, card }

/-- The patches that are applied to the cards of the players. -/
def teamPatches (patches : List Patch) : List Patch :=
  patches.filter fun p => p.path.head? != some CardField.possible.key &&
    p.path.head? != some CardField.inferred.key

/-- The objects after the patches have been applied to a card, which is put at `next`. -/
def replay (heap : Heap) (other : Cell) (patches : List Patch) : Option Heap :=
  (applyPatches (.ref heap.next) (teamPatches patches) (heap.place other)).map Prod.snd

/-! ## Agreement -/

namespace Heap

variable (h : Heap)

/-- Two values hold the same data, as far as a given depth. -/
def agreeTo : ℕ → Value → Value → Prop
  | 0, _, _ => True
  | n + 1, .ref r, .ref s =>
    (h.cells r).isArray = (h.cells s).isArray ∧
      ∀ k, agreeTo n ((h.cells r).read k) ((h.cells s).read k)
  | _, v, w => v = w

/-- Two values hold the same data. -/
def Agree (v w : Value) : Prop := ∀ n, h.agreeTo n v w

end Heap

/-- A primitive value, or an object below a bound. -/
def Value.Below (next : ℕ) : Value → Prop
  | .prim _ => True
  | .ref r => r < next
  | _ => False

/-- An object that refers to those below a bound only. -/
def Cell.Below (next : ℕ) (c : Cell) : Prop := ∀ k v, c.own k = some v → v.Below next

/-- The objects that exist refer to each other only. -/
def Heap.Closed (h : Heap) : Prop := ∀ r < h.next, (h.cells r).Below h.next

/-- An object that can be a card among some others. -/
structure IsCard (h : Heap) (c : Cell) : Prop where
  isObject : c.isArray = false
  below : c.Below h.next

end HanabiBot.Drafting
