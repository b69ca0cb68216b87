import HanabiBot.Drafting.Objects

/-!
# Careful producers

Drafts have three gaps, and a producer on plain objects falls into none of them
when it runs on the machine `careful`.  It carries out the steps of `plain` and
fails where the same step would go wrong on a draft:

* a deletion of index `0` (`pop`, `shift` or `splice` of an array down to
  nothing, or with a hole at its front), or of an entry that is not cut off by
  the `length` the method writes at its end (a hole in the middle);
* a write of `undefined` to a property that is absent, or of `-0` over `0`, in an
  object that has not been changed yet: it looks like no change;
* a read of a name that `Object.prototype` has, where the object has a member of
  its own by that name and has not been changed yet.

All three concern the objects of the base only, those below `bound`; an object
counts as changed once something in it or below it is.  No step of a producer puts an object of
the base into new data, and no method leaves a deletion without a write of the length, so to
fail there excludes nothing.
-/

namespace HanabiBot.Drafting

/-- The objects of a producer, with a record of what it has read and changed. -/
structure Tracked where
  heap : Heap
  /-- The objects of the base are those below. -/
  bound : ℕ
  /-- For the objects of the base that have been read, the way from there up to the root. -/
  above : ℕ → Option (List ℕ)
  changed : ℕ → Bool
  /-- The entries deleted since the last write of the array's length. -/
  pending : List (ℕ × ℕ)

namespace Tracked

/-- The record of a producer that has only the root. -/
def start (heap : Heap) (root : ℕ) : Tracked where
  heap := heap
  bound := heap.next
  above := fun r => if r = root then some [root] else none
  changed := fun _ => false
  pending := []

def isPending (t : Tracked) (r : ℕ) : Key → Bool
  | .idx i => t.pending.contains (r, i)
  | _ => false

/-- Whether a value is an object of the base. -/
def isBase (t : Tracked) : Value → Bool
  | .ref r => decide (r < t.bound)
  | _ => false

/-- What an unchanged draft takes for the old value of a property. -/
def current (c : Cell) (k : Key) : Value :=
  if inherited false k ≠ .undefined then .prim (inherited false k) else c.read k

/-- Whether a read of an object of the base goes right on its draft. -/
def readsRight (t : Tracked) (r : ℕ) (k : Key) : Bool :=
  !t.isPending r k && (t.changed r || (t.heap.cells r).read k == current (t.heap.cells r) k)

/-- Records a read: the way up from an object of the base. -/
def reach (t : Tracked) (r : ℕ) : Value → Tracked
  | .ref c =>
    if c < t.bound ∧ t.above c = none then
      { t with above := Function.update t.above c (some (c :: (t.above r).getD [])) }
    else t
  | _ => t

/-- Whether a write is a write of an array's length. -/
def isLength (c : Cell) (k : Key) : Bool := c.isArray && k == .length

/-- Whether a write to an object of the base, which makes it `c`, goes right on its draft. -/
def writesRight (t : Tracked) (r : ℕ) (k : Key) (v : Value) (c : Cell) : Bool :=
  let old := t.heap.cells r
  !t.isPending r k &&
    (!isLength old k || t.pending.all fun p => p.1 != r || decide (c.len ≤ p.2)) &&
    (t.changed r || !(current old k).strictEq v || isLength old k || old.own k == some v)

/-- Records a write to an object of the base, which makes it `c`. -/
def wrote (t : Tracked) (r : ℕ) (k : Key) (v : Value) (c : Cell) : Tracked :=
  let old := t.heap.cells r
  { t with
    heap := t.heap.update r c
    changed :=
      if t.changed r || !(current old k).strictEq v then
        fun x => t.changed x || ((t.above r).getD []).contains x
      else t.changed
    pending := if isLength old k then t.pending.filter (·.1 ≠ r) else t.pending }

end Tracked

open Tracked in
/-- The steps of `plain`, as far as they go right on drafts. -/
def careful : Machine Tracked where
  get v k t :=
    match v with
    | .prim p => (p.get k).map fun q => (.prim q, t)
    | .ref r =>
      let w := (t.heap.cells r).read k
      if r < t.bound then
        if t.readsRight r k then some (w, t.reach r w) else none
      else some (w, t)
    | _ => none
  set v k w t :=
    match v with
    | .ref r => do
      let c ← (t.heap.cells r).write k w
      if r < t.bound then
        if t.writesRight r k w c then some ((), t.wrote r k w c) else none
      else if t.isBase w then none
      else some ((), { t with heap := t.heap.update r c })
    | _ => none
  delete v i t :=
    match v with
    | .ref r =>
      let c := t.heap.cells r
      let heap := t.heap.update r (c.erase (.idx i))
      if r < t.bound then
        if c.isArray ∧ i ≠ 0 then
          some ((), { t with
            heap
            pending := if (c.own (.idx i)).isSome then (r, i) :: t.pending else t.pending })
        else none
      else some ((), { t with heap })
    | _ => none
  has v i t :=
    match v with
    | .ref r =>
      if r < t.bound ∧ t.isPending r (.idx i) then none
      else some (((t.heap.cells r).own (.idx i)).isSome, t)
    | _ => none
  isArray v t :=
    match v with
    | .ref r => some ((t.heap.cells r).isArray, t)
    | _ => some (false, t)
  alloc lit t := some (Heap.shift t.heap.next lit.root, { t with heap := t.heap.alloc lit })

/-- A producer that stays clear of the gaps, with the objects it leaves. -/
def carefulRun (heap : Heap) (base : ℕ) (producer : List Step) : Option Heap :=
  (careful.run (.ref base) producer (Tracked.start heap base)).bind fun p =>
    if p.2.pending.isEmpty then some p.2.heap else none

/-- The producer on the objects themselves. -/
def plainRun (heap : Heap) (base : ℕ) (producer : List Step) : Option Heap :=
  (plain.run (.ref base) producer heap).map Prod.snd

end HanabiBot.Drafting
