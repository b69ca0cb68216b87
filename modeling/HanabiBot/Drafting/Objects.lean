import HanabiBot.Lib.Simulation

/-!
# Objects, arrays and producers

The part of JavaScript that a producer of `src/StateProxy.js` uses: plain
objects and arrays in a heap, and the primitive steps on them (`get`, `set`,
`delete`, `has`).  A `Machine` is a way to carry these steps out.  The array
methods are the same sequence of steps on every machine, since the language
defines them that way: on a draft, each step goes to a trap.

* `plain` — the steps on the objects themselves;
* `Machine.push` … `Machine.splice` — the array methods;
* `Machine.run` — a producer: reads, assignments and array methods, each at the
  end of a path from the root.
-/

namespace HanabiBot.Drafting

/-! ## Values -/

/-- Primitive values, and the functions that objects inherit. -/
inductive Prim
  | undefined
  | bool (b : Bool)
  | num (n : ℤ)
  | negZero
  | nan
  | str (s : String)
  | builtin (array : Bool) (name : String)
  deriving DecidableEq, Repr

/-- `===` on primitive values. -/
def Prim.strictEq : Prim → Prim → Bool
  | .nan, _ => false
  | .negZero, .num n | .num n, .negZero => n == 0
  | a, b => a == b

/-- A property name. Array indices and `length` are apart from the other names. -/
inductive Key
  | idx (i : ℕ)
  | length
  | name (s : String)
  deriving DecidableEq, Repr

/-- What a program holds: a primitive value, or a reference to an object of the heap,
to a draft, or to the copy that belongs to a draft. -/
inductive Value
  | prim (p : Prim)
  | ref (r : ℕ)
  | draft (i : ℕ)
  | copy (i : ℕ)
  deriving DecidableEq, Repr

/-- `===`: references are compared by identity. -/
def Value.strictEq : Value → Value → Bool
  | .prim p, .prim q => p.strictEq q
  | v, w => v == w

/-- The members of `Object.prototype`, but for the accessors whose names begin with `__`. -/
def objectPrototype : List String :=
  ["constructor", "hasOwnProperty", "isPrototypeOf", "propertyIsEnumerable", "toLocaleString",
    "toString", "valueOf"]

/-- The members of `Array.prototype`. -/
def arrayPrototype : List String :=
  ["at", "concat", "constructor", "copyWithin", "entries", "every", "fill", "filter", "find",
    "findIndex", "findLast", "findLastIndex", "flat", "flatMap", "forEach", "includes", "indexOf",
    "join", "keys", "lastIndexOf", "map", "pop", "push", "reduce", "reduceRight", "reverse",
    "shift", "slice", "some", "sort", "splice", "toLocaleString", "toReversed", "toSorted",
    "toSpliced", "toString", "unshift", "values", "with"]

/-- What an object or array without an own property reads for it. -/
def inherited (isArray : Bool) : Key → Prim
  | .name s =>
    if isArray && arrayPrototype.contains s then .builtin true s
    else if objectPrototype.contains s then .builtin false s
    else .undefined
  | _ => .undefined

/-- A property of a primitive value; `undefined` has none. What strings, numbers and
functions inherit is left out. -/
def Prim.get (p : Prim) (k : Key) : Option Prim :=
  match p, k with
  | .undefined, _ => none
  | .str s, .length => some (.num s.length)
  | .str s, .idx i => some ((s.toList[i]?.map fun c => .str (String.singleton c)).getD .undefined)
  | _, _ => some .undefined

/-! ## Objects and arrays -/

/-- An object or array: its own properties, of which `keys` lists all. -/
structure Cell where
  isArray : Bool
  /-- The length, of an array. -/
  len : ℕ
  own : Key → Option Value
  keys : List Key
  mem_keys : ∀ k, own k ≠ none → k ∈ keys

namespace Cell

/-- The array literal of some values. -/
def ofArray (l : List Value) : Cell where
  isArray := true
  len := l.length
  own := fun
    | .idx i => l[i]?
    | _ => none
  keys := (List.range l.length).map Key.idx
  mem_keys := by
    intro k hk
    cases k with
    | idx i =>
      have hi : i < l.length := by
        by_contra hge
        exact hk (List.getElem?_eq_none (by omega))
      simpa using hi
    | length => exact absurd rfl hk
    | name s => exact absurd rfl hk

/-- The object literal with some properties. -/
def ofObject (l : List (Key × Value)) : Cell where
  isArray := false
  len := 0
  own k := l.lookup k
  keys := l.map Prod.fst
  mem_keys := by
    intro k hk
    induction l with
    | nil => exact absurd rfl hk
    | cons e l ih =>
      by_cases he : k = e.1
      · simp [he]
      · rw [List.map_cons, List.mem_cons]
        refine Or.inr (ih ?_)
        simpa [List.lookup_cons, he] using hk

/-- `o[k]`. -/
def read (c : Cell) (k : Key) : Value :=
  if c.isArray = true ∧ k = .length then .prim (.num c.len)
  else (c.own k).getD (.prim (inherited c.isArray k))

/-- The length of an array after its entry `k` has been written. -/
def lenWith (c : Cell) : Key → ℕ
  | .idx i => if c.isArray then max c.len (i + 1) else c.len
  | _ => c.len

/-- Writes an own property. -/
def put (c : Cell) (k : Key) (v : Value) : Cell where
  isArray := c.isArray
  len := c.lenWith k
  own := Function.update c.own k (some v)
  keys := if k ∈ c.keys then c.keys else c.keys ++ [k]
  mem_keys := by
    intro j hj
    by_cases hjk : j = k
    · subst hjk
      split
      · assumption
      · simp
    · rw [Function.update_of_ne hjk] at hj
      have := c.mem_keys j hj
      split
      · exact this
      · exact List.mem_append_left _ this

/-- Deletes an own property. -/
def erase (c : Cell) (k : Key) : Cell where
  isArray := c.isArray
  len := c.len
  own := Function.update c.own k none
  keys := c.keys.filter (· ≠ k)
  mem_keys := by
    intro j hj
    by_cases hjk : j = k
    · subst hjk
      exact absurd (Function.update_self j none c.own) hj
    · rw [Function.update_of_ne hjk] at hj
      simpa using ⟨c.mem_keys j hj, hjk⟩

/-- Whether an entry survives when the length of its array is set. -/
def below (n : ℕ) : Key → Bool
  | .idx i => decide (i < n)
  | _ => true

/-- Sets the length of an array. -/
def truncate (c : Cell) (n : ℕ) : Cell where
  isArray := c.isArray
  len := n
  own k := if below n k then c.own k else none
  keys := c.keys.filter (below n)
  mem_keys := by
    intro k hk
    split at hk
    · rename_i hb
      exact List.mem_filter.2 ⟨c.mem_keys k hk, hb⟩
    · exact absurd rfl hk

/-- The lengths an array can be given. -/
def toLength : Value → Option ℕ
  | .prim (.num n) => if 0 ≤ n then some n.toNat else none
  | .prim .negZero => some 0
  | _ => none

/-- `o[k] = v`; an invalid array length throws. -/
def write (c : Cell) (k : Key) (v : Value) : Option Cell :=
  if c.isArray = true ∧ k = .length then (toLength v).map c.truncate else some (c.put k v)

/-- Each property's value replaced by a function of it. -/
def map (f : Value → Value) (c : Cell) : Cell where
  isArray := c.isArray
  len := c.len
  own k := (c.own k).map f
  keys := c.keys
  mem_keys := by
    intro k hk
    refine c.mem_keys k fun hnone => hk ?_
    simp [hnone]

@[simp] theorem isArray_put (c : Cell) (k : Key) (v : Value) : (c.put k v).isArray = c.isArray := rfl
@[simp] theorem len_put (c : Cell) (k : Key) (v : Value) : (c.put k v).len = c.lenWith k := rfl
theorem own_put (c : Cell) (k j : Key) (v : Value) :
    (c.put k v).own j = if j = k then some v else c.own j := by
  simp [put, Function.update_apply]
@[simp] theorem isArray_erase (c : Cell) (k : Key) : (c.erase k).isArray = c.isArray := rfl
@[simp] theorem len_erase (c : Cell) (k : Key) : (c.erase k).len = c.len := rfl
theorem own_erase (c : Cell) (k j : Key) :
    (c.erase k).own j = if j = k then none else c.own j := by
  simp [erase, Function.update_apply]
@[simp] theorem isArray_truncate (c : Cell) (n : ℕ) : (c.truncate n).isArray = c.isArray := rfl
@[simp] theorem len_truncate (c : Cell) (n : ℕ) : (c.truncate n).len = n := rfl
theorem own_truncate (c : Cell) (n : ℕ) (k : Key) :
    (c.truncate n).own k = if below n k then c.own k else none := rfl

end Cell

/-- The objects that exist, by their references. -/
structure Heap where
  cells : ℕ → Cell
  next : ℕ

/-- Plain data: some objects and arrays that refer to each other by their positions. -/
structure Lit where
  cells : List Cell := []
  root : Value

namespace Heap

/-- The heap with one object changed. -/
def update (h : Heap) (r : ℕ) (c : Cell) : Heap := { h with cells := Function.update h.cells r c }

/-- A reference within plain data, once the data is put at `next`. -/
def shift (next : ℕ) : Value → Value
  | .prim p => .prim p
  | .ref r => .ref (next + r)
  | _ => .prim .undefined

/-- Creates the objects of some plain data. -/
def alloc (h : Heap) (lit : Lit) : Heap where
  cells r :=
    if r < h.next then h.cells r
    else ((lit.cells[r - h.next]?).map (Cell.map (shift h.next))).getD (h.cells r)
  next := h.next + lit.cells.length

end Heap

/-! ## Machines -/

/-- The steps that objects and arrays allow. -/
structure Machine (σ : Type) where
  get : Value → Key → StateT σ Option Value
  set : Value → Key → Value → StateT σ Option Unit
  delete : Value → ℕ → StateT σ Option Unit
  has : Value → ℕ → StateT σ Option Bool
  isArray : Value → StateT σ Option Bool
  alloc : Lit → StateT σ Option Value

/-- The steps on the objects themselves. -/
def plain : Machine Heap where
  get v k h :=
    match v with
    | .prim p => (p.get k).map fun q => (.prim q, h)
    | .ref r => some ((h.cells r).read k, h)
    | _ => none
  set v k w h :=
    match v with
    | .ref r => ((h.cells r).write k w).map fun c => ((), h.update r c)
    | _ => none
  delete v i h :=
    match v with
    | .ref r => some ((), h.update r ((h.cells r).erase (.idx i)))
    | _ => none
  has v i h :=
    match v with
    | .ref r => some (((h.cells r).own (.idx i)).isSome, h)
    | _ => none
  isArray v h :=
    match v with
    | .ref r => some ((h.cells r).isArray, h)
    | _ => some (false, h)
  alloc lit h := some (Heap.shift h.next lit.root, h.alloc lit)

namespace Machine

variable {σ : Type} (M : Machine σ)

/-! ## Array methods -/

/-- The length of an array. -/
def length (o : Value) : StateT σ Option ℕ := do
  match ← M.get o .length with
  | .prim (.num n) => pure n.toNat
  | _ => failure

def setLength (o : Value) (n : ℕ) : StateT σ Option Unit := M.set o .length (.prim (.num n))

/-- Writes some items from an index on. -/
def setItems (o : Value) : ℕ → List Value → StateT σ Option Unit
  | _, [] => pure ()
  | i, v :: items => do
    M.set o (.idx i) v
    setItems o (i + 1) items

/-- Moves one entry; a hole moves by deleting. -/
def move (o : Value) (source dest : ℕ) : StateT σ Option Unit := do
  if ← M.has o source then
    let v ← M.get o (.idx source)
    M.set o (.idx dest) v
  else M.delete o dest

/-- Moves `count` entries towards the front, the first one first. -/
def moveDown (o : Value) : ℕ → ℕ → ℕ → StateT σ Option Unit
  | _, _, 0 => pure ()
  | source, dest, count + 1 => do
    M.move o source dest
    moveDown o (source + 1) (dest + 1) count

/-- Moves `count` entries towards the back, the last one first. -/
def moveUp (o : Value) (source dest : ℕ) : ℕ → StateT σ Option Unit
  | 0 => pure ()
  | count + 1 => do
    M.move o (source + count) (dest + count)
    moveUp o source dest count

/-- Deletes `count` entries from an index on, the last one first. -/
def deleteDown (o : Value) (i : ℕ) : ℕ → StateT σ Option Unit
  | 0 => pure ()
  | count + 1 => do
    M.delete o (i + count)
    deleteDown o i count

/-- Reads `count` entries from an index on, as far as they are present. -/
def collect (o : Value) : ℕ → ℕ → StateT σ Option Unit
  | _, 0 => pure ()
  | i, count + 1 => do
    if ← M.has o i then
      let _ ← M.get o (.idx i)
      collect o (i + 1) count
    else collect o (i + 1) count

def push (o : Value) (items : List Value) : StateT σ Option Unit := do
  let len ← M.length o
  M.setItems o len items
  M.setLength o (len + items.length)

def pop (o : Value) : StateT σ Option Unit := do
  let len ← M.length o
  if len = 0 then M.setLength o 0
  else
    let _ ← M.get o (.idx (len - 1))
    M.delete o (len - 1)
    M.setLength o (len - 1)

def shift (o : Value) : StateT σ Option Unit := do
  let len ← M.length o
  if len = 0 then M.setLength o 0
  else
    let _ ← M.get o (.idx 0)
    M.moveDown o 1 0 (len - 1)
    M.delete o (len - 1)
    M.setLength o (len - 1)

def unshift (o : Value) (items : List Value) : StateT σ Option Unit := do
  let len ← M.length o
  if items = [] then M.setLength o len
  else
    M.moveUp o 0 items.length len
    M.setItems o 0 items
    M.setLength o (len + items.length)

/-- The relative index of `splice` and its like. -/
def clampIndex (len : ℕ) (i : ℤ) : ℕ := if i < 0 then (len + i).toNat else min i.toNat len

/-- `splice`; a `deleteCount` that is left out reaches to the end. The deleted entries are
read for the array that is returned. -/
def splice (o : Value) (start : ℤ) (deleteCount : Option ℤ) (items : List Value) :
    StateT σ Option Unit := do
  let len ← M.length o
  let i := clampIndex len start
  let count := match deleteCount with
    | some n => min n.toNat (len - i)
    | none => len - i
  M.collect o i count
  if items.length < count then
    M.moveDown o (i + count) (i + items.length) (len - count - i)
    M.deleteDown o (len - count + items.length) (count - items.length)
  else if count < items.length then
    M.moveUp o (i + count) (i + items.length) (len - count - i)
  M.setItems o i items
  M.setLength o (len - count + items.length)

end Machine

/-! ## Producers -/

/-- A call of an array method with plain data. -/
inductive Method
  | push (items : List Lit)
  | pop
  | shift
  | unshift (items : List Lit)
  | splice (start : ℤ) (deleteCount : Option ℤ) (items : List Lit)

/-- What is done at the end of a path. -/
inductive Act
  | read (k : Key)
  | assign (k : Key) (value : Lit)
  | call (method : Method)

/-- A step of a producer: an act at a path from the root. -/
structure Step where
  path : List Key
  act : Act

namespace Machine

variable {σ : Type} (M : Machine σ)

def allocAll : List Lit → StateT σ Option (List Value)
  | [] => pure []
  | lit :: lits => do
    let v ← M.alloc lit
    let vs ← allocAll lits
    pure (v :: vs)

/-- The value at the end of a path. -/
def follow : Value → List Key → StateT σ Option Value
  | v, [] => pure v
  | v, k :: path => do
    let w ← M.get v k
    follow w path

def runMethod (o : Value) : Method → StateT σ Option Unit
  | .push items => do
    let values ← M.allocAll items
    M.push o values
  | .pop => M.pop o
  | .shift => M.shift o
  | .unshift items => do
    let values ← M.allocAll items
    M.unshift o values
  | .splice start deleteCount items => do
    let values ← M.allocAll items
    M.splice o start deleteCount values

def runAct (o : Value) : Act → StateT σ Option Unit
  | .read k => do
    let _ ← M.get o k
    pure ()
  | .assign k value => do
    let v ← M.alloc value
    M.set o k v
  | .call method => do
    -- anything but an array has no such method
    if ← M.isArray o then M.runMethod o method else failure

/-- A producer applied to a root. -/
def run (root : Value) : List Step → StateT σ Option Unit
  | [] => pure ()
  | step :: steps => do
    let o ← M.follow root step.path
    M.runAct o step.act
    run root steps

end Machine

end HanabiBot.Drafting
