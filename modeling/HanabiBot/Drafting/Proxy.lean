import HanabiBot.Drafting.Objects

/-!
# Drafts

`src/StateProxy.js`: `produce` hands a draft of its base to the producer.  A
draft is a proxy whose traps work on a `StateProxy`; nested drafts are made when
they are first read.  An unmodified draft reads its base and keeps its nested
drafts in `proxies`; the first change copies the base, puts the nested drafts in
and marks all parents as changed.

The proxy of an array has a wrapper `[state]` as its target, and the traps take
the state out of it.  No trap handles a deletion, so a deletion reaches the
target: on a wrapper, deleting index `0` removes the state (`wrapped` is then
`false`), after which every trap throws, and deleting another index does nothing.

* `drafts` — the machine a producer runs on;
* `finalize` — replaces drafts by what they stand for;
* `produce` — runs a producer on a draft and finalizes it.
-/

namespace HanabiBot.Drafting

/-- `StateProxy`, with the target of its proxy. -/
structure StateProxy where
  /-- The object that is drafted. -/
  base : ℕ
  /-- Whether the proxy has the traps for arrays. -/
  isArray : Bool
  parent : Option (ℕ × Key) := none
  modified : Bool := false
  finalized : Bool := false
  /-- Only there once the draft is modified. -/
  copy : Cell := Cell.ofObject []
  modifiedProps : List Key := []
  /-- The nested drafts of an unmodified draft. -/
  proxies : List (Key × ℕ) := []
  /-- Whether the wrapper of an array still holds the state. -/
  wrapped : Bool := true

/-- The objects and the drafts of a call of `produce`. -/
structure Drafts where
  heap : Heap
  states : ℕ → StateProxy
  count : ℕ

namespace StateProxy

/-- `new StateProxy(base, parent)`. -/
def fresh (heap : Heap) (base : ℕ) (parent : Option (ℕ × Key)) : StateProxy where
  base := base
  isArray := (heap.cells base).isArray
  parent := parent

/-- The copy of the base with the nested drafts put in:
`Object.assign(Utils.shallowCopy(base), proxies)`. -/
def overlay (s : StateProxy) (base : Cell) : Cell where
  isArray := base.isArray
  len := base.len
  own k := ((s.proxies.lookup k).map Value.draft).or (base.own k)
  keys := base.keys ++ (s.proxies.map Prod.fst).filter (· ∉ base.keys)
  mem_keys := by
    intro k hk
    by_cases hbase : k ∈ base.keys
    · exact List.mem_append_left _ hbase
    · refine List.mem_append_right _ (List.mem_filter.2 ⟨?_, by simpa using hbase⟩)
      have hnone : base.own k = none := by
        by_contra hne
        exact hbase (base.mem_keys k hne)
      have hlookup : s.proxies.lookup k ≠ none := by
        intro h
        simp [h, hnone] at hk
      clear hk
      generalize s.proxies = l at hlookup
      induction l with
      | nil => exact absurd rfl hlookup
      | cons e l ih =>
        by_cases he : k = e.1
        · simp [he]
        · rw [List.map_cons, List.mem_cons]
          exact Or.inr (ih (by simpa [List.lookup_cons, he] using hlookup))

end StateProxy

namespace Drafts

/-- The drafts with one state changed. -/
def update (d : Drafts) (i : ℕ) (s : StateProxy) : Drafts :=
  { d with states := Function.update d.states i s }

/-- `createProxy`: the new draft has the next number. -/
def create (d : Drafts) (s : StateProxy) : Drafts :=
  { d with states := Function.update d.states d.count s, count := d.count + 1 }

/-- `state.base`. -/
def baseOf (d : Drafts) (s : StateProxy) : Cell := d.heap.cells s.base

/-- `state.source`. -/
def source (d : Drafts) (s : StateProxy) : Cell := if s.modified then s.copy else d.baseOf s

/-- `modified_props.add(prop)`. -/
def addProp (props : List Key) (k : Key) : List Key := if k ∈ props then props else props ++ [k]

/-- `markChanged`; the fuel bounds the number of parents. -/
def markChanged : ℕ → ℕ → Drafts → Drafts
  | 0, _, d => d
  | fuel + 1, i, d =>
    let s := d.states i
    if s.modified then d
    else
      let d := d.update i { s with modified := true, copy := s.overlay (d.baseOf s) }
      match s.parent with
      | none => d
      | some (p, key) =>
        let d := markChanged fuel p d
        let parent := d.states p
        d.update p { parent with modifiedProps := addProp parent.modifiedProps key }

/-- The `get` trap. -/
def getTrap (i : ℕ) (k : Key) (d : Drafts) : Option (Value × Drafts) :=
  let s := d.states i
  if !s.wrapped then none
  else if s.modified then
    let value := s.copy.read k
    match value with
    | .ref r =>
      -- already modified
      if value ≠ (d.baseOf s).read k then some (value, d)
      else
        let d' := d.create (.fresh d.heap r (some (i, k)))
        some (.draft d.count, d'.update i { s with copy := s.copy.put k (.draft d.count) })
    | _ => some (value, d)
  else
    match s.proxies.lookup k with
    | some j => some (.draft j, d)
    | none =>
      -- `state.proxies` is a plain object: it inherits the members of `Object.prototype`
      if inherited false k ≠ .undefined then some (.prim (inherited false k), d)
      else
        match (d.baseOf s).read k with
        | .ref r =>
          let d' := d.create (.fresh d.heap r (some (i, k)))
          some (.draft d.count, d'.update i { s with proxies := (k, d.count) :: s.proxies })
        | value => some (value, d)

/-- `state.proxies[prop] ?? state.base[prop]`. -/
def current (d : Drafts) (s : StateProxy) (k : Key) : Value :=
  match s.proxies.lookup k with
  | some j => .draft j
  | none =>
    if inherited false k ≠ .undefined then .prim (inherited false k) else (d.baseOf s).read k

/-- The `set` trap. -/
def setTrap (i : ℕ) (k : Key) (v : Value) (d : Drafts) : Option (Unit × Drafts) :=
  let s := d.states i
  if !s.wrapped then none
  else if !s.modified && (d.current s k).strictEq v then some ((), d)
  else
    let d := markChanged d.count i d
    let s := d.states i
    (s.copy.write k v).map fun copy =>
      ((), d.update i { s with modifiedProps := addProp s.modifiedProps k, copy })

/-- The `has` trap, on an index. -/
def hasTrap (i j : ℕ) (d : Drafts) : Option (Bool × Drafts) :=
  let s := d.states i
  if !s.wrapped then none else some (((d.source s).own (.idx j)).isSome, d)

/-- A deletion of an index reaches the target. -/
def deleteTarget (i j : ℕ) (d : Drafts) : Drafts :=
  let s := d.states i
  if s.isArray && j == 0 then d.update i { s with wrapped := false } else d

end Drafts

/-- The steps of a producer on a draft, and on the plain data it has assigned. -/
def drafts : Machine Drafts where
  get v k d :=
    match v with
    | .prim p => (p.get k).map fun q => (.prim q, d)
    | .ref r => some ((d.heap.cells r).read k, d)
    | .draft i => d.getTrap i k
    | .copy _ => none
  set v k w d :=
    match v with
    | .ref r => ((d.heap.cells r).write k w).map fun c => ((), { d with heap := d.heap.update r c })
    | .draft i => d.setTrap i k w
    | _ => none
  delete v j d :=
    match v with
    | .ref r =>
      some ((), { d with heap := d.heap.update r ((d.heap.cells r).erase (.idx j)) })
    | .draft i => some ((), d.deleteTarget i j)
    | _ => none
  has v j d :=
    match v with
    | .ref r => some (((d.heap.cells r).own (.idx j)).isSome, d)
    | .draft i => d.hasTrap i j
    | _ => none
  isArray v d :=
    match v with
    | .ref r => some ((d.heap.cells r).isArray, d)
    | .draft i => some ((d.states i).isArray, d)
    | _ => some (false, d)
  alloc lit d := some (Heap.shift d.heap.next lit.root, { d with heap := d.heap.alloc lit })

/-! ## Finalizing -/

/-- `copy[key] = value` on the copy of a draft. -/
def Drafts.putCopy (d : Drafts) (i : ℕ) (k : Key) (v : Value) : Drafts :=
  d.update i { d.states i with copy := (d.states i).copy.put k v }

/-- The loop of `finalizeObject` over the entries of a copy. -/
def finalizeEntries (fin : Value → Drafts → Option (Value × Drafts)) (i : ℕ) :
    List (Key × Value) → Drafts → Option Drafts
  | [], d => some d
  | (k, value) :: entries, d =>
    let s := d.states i
    if value.strictEq ((d.baseOf s).read k) then finalizeEntries fin i entries d
    else do
      let (v, d) ← fin (s.copy.read k) d
      finalizeEntries fin i entries (d.putCopy i k v)

/-- `finalize`; the fuel bounds the depth of the drafts. A draft that is modified stands for
its copy, any other for its base. -/
def finalize : ℕ → Value → Drafts → Option (Value × Drafts)
  | fuel, .draft i, d =>
    let s := d.states i
    if !s.wrapped then none
    else if !s.modified then some (.ref s.base, d)
    else if s.finalized then some (.copy i, d)
    else
      match fuel with
      | 0 => none
      | fuel + 1 => do
        let d := d.update i { s with finalized := true }
        let entries := s.copy.keys.filterMap fun k => (s.copy.own k).map fun v => (k, v)
        let d ← finalizeEntries (finalize fuel) i entries d
        pure (.copy i, d)
  | _, v, d => some (v, d)

/-- The drafts at the start of `produce`: one of the base. -/
def Drafts.start (heap : Heap) (base : ℕ) : Drafts where
  heap := heap
  states _ := .fresh heap base none
  count := 1

/-- `produce`, on a base that is an object of the heap. -/
def produce (heap : Heap) (base : ℕ) (producer : List Step) : Option (Value × Drafts) := do
  let ((), d) ← drafts.run (.draft 0) producer (Drafts.start heap base)
  finalize d.count (.draft 0) d

end HanabiBot.Drafting
