import HanabiBot.Drafting.Proxy

/-!
# Patches

`produce` of `src/StateProxy.js` with a listener for patches, and `applyPatches`.

Only the root of a draft emits patches.  A nested draft would, were
`modified_props.has(key) === undefined` ever true; but `has` returns a truth value.  So a
patch names one property of the root, and its value is what the property is when the
producer has finished.
-/

namespace HanabiBot.Drafting

/-- The `op` of a patch. -/
inductive PatchOp
  | add
  | replace
  deriving DecidableEq

/-- `Patch`. -/
structure Patch where
  op : PatchOp
  path : List Key
  value : Value
  deriving DecidableEq

/-- `key in baseValue`. -/
def Cell.hasKey (c : Cell) (k : Key) : Bool :=
  (c.own k).isSome || (c.isArray && k == .length) || inherited c.isArray k != .undefined

namespace Drafts

variable (d : Drafts)

/-- `generateArrayPatches`. -/
def generateArrayPatches (s : StateProxy) (basepath : List Key) : List Patch :=
  let baseLen := (d.baseOf s).len
  -- `modified_props` holds strings, so that it has no index below both lengths
  if baseLen < s.copy.len then
    (List.range' baseLen (s.copy.len - baseLen)).map fun i =>
      { op := .add, path := basepath ++ [.idx i], value := s.copy.read (.idx i) }
  else if s.copy.len < baseLen then
    [{ op := .replace, path := basepath ++ [.length], value := .prim (.num s.copy.len) }]
  else []

/-- `generateObjectPatches`. -/
def generateObjectPatches (s : StateProxy) (basepath : List Key) : List Patch :=
  let baseValue := d.baseOf s
  s.modifiedProps.filterMap fun key =>
    let op := if baseValue.hasKey key then .replace else .add
    -- the old value of the property is compared with the base itself
    if (baseValue.read key).strictEq (.ref s.base) && op == .replace then none
    else some { op, path := basepath ++ [key], value := s.copy.read key }

/-- `generatePatches`. -/
def generatePatches (s : StateProxy) (basepath : List Key) : List Patch :=
  if s.isArray then d.generateArrayPatches s basepath else d.generateObjectPatches s basepath

/-- The patches of `finalize(rootClone, [], patches)`. -/
def rootPatches : List Patch :=
  if (d.states 0).modified then d.generatePatches (d.states 0) [] else []

end Drafts

/-- `produce` with a listener: the result, the patches and the drafts at the end. -/
def produceWithPatches (heap : Heap) (base : ℕ) (producer : Value → StateT Drafts Option Unit) :
    Option (Value × List Patch × Drafts) := do
  let ((), d) ← producer (.draft 0) (Drafts.start heap base)
  let (result, d) ← finalize d.count (.draft 0) d
  pure (result, d.rootPatches, d)

/-- One round of `applyPatches`: the property at the end of the path is assigned. -/
def applyPatch (draft : Value) (patch : Patch) : StateT Heap Option Value :=
  match patch.path.getLast? with
  | none =>
    match patch.op with
    | .replace => pure patch.value
    -- `path.at(-1)` is `undefined`
    | .add => do
      plain.set draft (.name "undefined") patch.value
      pure draft
  | some k => do
    let base ← plain.follow draft patch.path.dropLast
    plain.set base k patch.value
    pure draft

/-- `applyPatches`. -/
def applyPatches (draft : Value) : List Patch → StateT Heap Option Value
  | [] => pure draft
  | patch :: patches => do
    let draft ← applyPatch draft patch
    applyPatches draft patches

end HanabiBot.Drafting
