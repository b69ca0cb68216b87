import HanabiBot.Drafting.Objects

/-!
# Comparing objects

`objEquals` of `src/tools/util.js` on trees of objects, arrays and primitive values.  A tree is
what it is made of, so that two trees are equal when they have the same shape, the same keys
at every node and the same leaves.

`objDiff` hands the path to a property on in the place of the list of properties to ignore.  So
below the property `k` it does not look at another property `k`; nor does it tell an array from
an object, or a key apart whose value is `undefined`.

* `objEquals_iff` — when it says that two trees are equal if and only if they are;
* `objEquals_overlooks` — a property below one of the same name.
-/

namespace HanabiBot.Utils

open Drafting (Prim Key inherited)

/-- A tree of objects, arrays and primitive values. -/
inductive ObjTree
  | null
  | prim (p : Prim)
  | array (n : ℕ) (items : Fin n → ObjTree)
  | object (keys : Finset Key) (vals : {k // k ∈ keys} → ObjTree)

/-- The results of `typeof`. -/
inductive JsType
  | undefined | boolean | number | string | object | function
  deriving DecidableEq

/-- The string that a key is. -/
def keyName : Key → String
  | .idx i => toString i
  | .length => "length"
  | .name s => s

namespace ObjTree

/-- `typeof`. -/
def typeof : ObjTree → JsType
  | .prim .undefined => .undefined
  | .prim (.bool _) => .boolean
  | .prim (.num _) | .prim .negZero | .prim .nan => .number
  | .prim (.str _) => .string
  | .prim (.builtin ..) => .function
  | .null | .array .. | .object .. => .object

/-- `===`, for two trees that are not both objects. -/
def strictEq : ObjTree → ObjTree → Bool
  | .null, .null => true
  | .prim p, .prim q => p.strictEq q
  | _, _ => false

/-- The number of keys of an object or array. -/
def keyCount? : ObjTree → Option ℕ
  | .array n _ => some n
  | .object keys _ => some keys.card
  | _ => none

/-- The property of an object or array under a key of its own. -/
def own : ObjTree → Key → Option ObjTree
  | .array n items, .idx i => if h : i < n then some (items ⟨i, h⟩) else none
  | .object keys vals, k => if h : k ∈ keys then some (vals ⟨k, h⟩) else none
  | _, _ => none

/-- The object without properties. -/
def empty : ObjTree := .object ∅ fun k => absurd k.2 (Finset.notMem_empty _)

/-- What an object or array has under a key that is not among its keys; a prototype has no keys
of its own. -/
def unlisted (t : ObjTree) : Key → ObjTree
  | .name "__proto__" => empty
  | .name s =>
    if ["__defineGetter__", "__defineSetter__", "__lookupGetter__", "__lookupSetter__"].contains s
    then .prim (.builtin false s)
    else
      match t with
      | .array .. => .prim (inherited true (.name s))
      | _ => .prim (inherited false (.name s))
  | .length =>
    match t with
    | .array n _ => .prim (.num n)
    | _ => .prim .undefined
  | .idx _ => .prim .undefined

/-- `obj[key]`. -/
def read (t : ObjTree) (k : Key) : ObjTree := (t.own k).getD (t.unlisted k)

end ObjTree

/-- What a round of `objDiff` does with the values under a key, where `recurse` compares the first
value with another. -/
def entryDiff (recurse : ObjTree → List String → List String → Bool) (path : List String) (key : Key)
    (val1 val2 : ObjTree) : Bool :=
  if val1.typeof ≠ val2.typeof then true
  else if val1.typeof = .object then recurse val2 (path ++ [keyName key]) []
  else !val1.strictEq val2

/-- Whether a key is skipped. -/
def ignores (ignore path : List String) (key : Key) : Bool :=
  ignore.contains (".".intercalate (path ++ [keyName key]))

/-- `objDiff`: whether it finds a difference. -/
def objDiff : ObjTree → ObjTree → List String → List String → Bool
  | .null, obj2, _, _ => !ObjTree.strictEq .null obj2
  | .prim p, obj2, _, _ => !ObjTree.strictEq (.prim p) obj2
  | .array n items, obj2, ignore, path =>
    match obj2.keyCount? with
    | none => true
    | some m => n != m || decide (∃ i : Fin n, (!ignores ignore path (.idx i) &&
        entryDiff (objDiff (items i)) path (.idx i) (items i) (obj2.read (.idx i))) = true)
  | .object keys vals, obj2, ignore, path =>
    match obj2.keyCount? with
    | none => true
    | some m => keys.card != m || decide (∃ k : {k // k ∈ keys}, (!ignores ignore path k &&
        entryDiff (objDiff (vals k)) path k (vals k) (obj2.read k)) = true)

/-- `objEquals`. -/
def objEquals (obj1 obj2 : ObjTree) : Bool := !objDiff obj1 obj2 [] []

/-! ## The differences that are seen -/

namespace ObjTree

/-- The value at a path of keys. -/
def atPath : ObjTree → List Key → Option ObjTree
  | t, [] => some t
  | t, k :: p => (t.own k).bind fun v => atPath v p

@[simp] theorem atPath_nil (t : ObjTree) : t.atPath [] = some t := by
  cases t <;> rfl

theorem atPath_cons (t : ObjTree) (k : Key) (p : List Key) :
    t.atPath (k :: p) = (t.own k).bind fun v => v.atPath p := by
  cases t <;> rfl

/-- Two trees that cannot be told apart without looking below: equal leaves, or nodes without
keys. -/
def Alike (u w : ObjTree) : Prop :=
  u.strictEq w = true ∨ u.keyCount? = some 0 ∧ w.keyCount? = some 0

/-- A difference that is seen between two nodes under the key `last`, without looking further:
different leaves, numbers of keys that differ, or a key of the first that the second does not
have, unless it reads the same there. -/
inductive ShownHere (last : Option Key) (u w : ObjTree) : Prop
  | leaf : u.keyCount? = none ∨ w.keyCount? = none → u.strictEq w = false → ShownHere last u w
  | count {m n : ℕ} : u.keyCount? = some m → w.keyCount? = some n → m ≠ n → ShownHere last u w
  | missing {n : ℕ} {k : Key} {v : ObjTree} : w.keyCount? = some n →
      (∀ l, last = some l → keyName l ≠ keyName k) → u.own k = some v → w.own k = none →
      ¬ v.Alike (w.unlisted k) → ShownHere last u w

/-- A path on which no key follows itself, from the key `last` on. -/
def Isolated : Option Key → List Key → Prop
  | _, [] => True
  | last, k :: p => (∀ l, last = some l → keyName l ≠ keyName k) ∧ Isolated (some k) p

/-- The last key of a path, or the one before the path. -/
def lastKey (last : Option Key) (p : List Key) : Option Key := p.getLast?.or last

/-- A difference that is seen at the end of a path of common keys, where no key follows itself. -/
def Shown (last : Option Key) (x y : ObjTree) : Prop :=
  ∃ p u w, Isolated last p ∧ x.atPath p = some u ∧ y.atPath p = some w ∧
    ShownHere (lastKey last p) u w

theorem lastKey_cons (last : Option Key) (k : Key) (p : List Key) :
    lastKey last (k :: p) = lastKey (some k) p := by
  cases p with
  | nil => rfl
  | cons k' p => simp [lastKey, List.getLast?_cons]

/-- A difference is seen here, or below a common key. -/
theorem shown_iff {last : Option Key} {x y : ObjTree} :
    Shown last x y ↔ ShownHere last x y ∨ ∃ k v v', (∀ l, last = some l → keyName l ≠ keyName k) ∧
      x.own k = some v ∧ y.own k = some v' ∧ Shown (some k) v v' := by
  constructor
  · rintro ⟨p, u, w, hp, hu, hw, hshown⟩
    cases p with
    | nil =>
      rw [atPath_nil] at hu hw
      obtain rfl := Option.some.inj hu
      obtain rfl := Option.some.inj hw
      exact .inl hshown
    | cons k p =>
      rw [atPath_cons] at hu hw
      obtain ⟨v, hv, hu⟩ := Option.bind_eq_some_iff.1 hu
      obtain ⟨v', hv', hw⟩ := Option.bind_eq_some_iff.1 hw
      rw [lastKey_cons] at hshown
      exact .inr ⟨k, v, v', hp.1, hv, hv', p, u, w, hp.2, hu, hw, hshown⟩
  · rintro (h | ⟨k, v, v', hk, hv, hv', p, u, w, hp, hu, hw, hshown⟩)
    · exact ⟨[], x, y, trivial, atPath_nil x, atPath_nil y, h⟩
    · refine ⟨k :: p, u, w, ⟨hk, hp⟩, ?_, ?_, ?_⟩
      · rw [atPath_cons, hv, Option.bind_some, hu]
      · rw [atPath_cons, hv', Option.bind_some, hw]
      · rw [lastKey_cons]
        exact hshown

theorem own_eq_none_of_leaf {t : ObjTree} (h : t.keyCount? = none) (k : Key) : t.own k = none := by
  cases t with
  | null | prim => rfl
  | array | object => nomatch h

theorem own_eq_none_of_zero {t : ObjTree} (h : t.keyCount? = some 0) (k : Key) :
    t.own k = none := by
  cases t with
  | null | prim => rfl
  | array n items =>
    obtain rfl := Option.some.inj h
    cases k <;> rfl
  | object keys vals =>
    have hempty := Finset.card_eq_zero.1 (Option.some.inj h)
    exact dif_neg (by simp [hempty])

theorem strictEq_of_node {u w : ObjTree} (h : u.keyCount? ≠ none ∨ w.keyCount? ≠ none) :
    u.strictEq w = false := by
  cases u <;> cases w <;> simp_all [keyCount?, strictEq]

/-- Without keys of its own on the right, all is seen at once. -/
theorem shown_iff_not_alike {last : Option Key} {v w : ObjTree}
    (hw : w.keyCount? = none ∨ w.keyCount? = some 0) : Shown last v w ↔ ¬ v.Alike w := by
  have hown : ∀ k, w.own k = none := fun k =>
    hw.elim (fun h => own_eq_none_of_leaf h k) fun h => own_eq_none_of_zero h k
  have hbelow : ¬ ∃ k v₁ v', (∀ l, last = some l → keyName l ≠ keyName k) ∧
      v.own k = some v₁ ∧ w.own k = some v' ∧ Shown (some k) v₁ v' := by
    rintro ⟨k, v₁, v', -, -, hv', -⟩
    exact nomatch (hown k).symm.trans hv'
  rw [shown_iff, or_iff_left hbelow, Alike, not_or, Bool.not_eq_true]
  cases hv : v.keyCount? with
  | none =>
    simp only [reduceCtorEq, false_and, not_false_eq_true, and_true]
    refine ⟨fun h => ?_, fun h => .leaf (.inl hv) h⟩
    cases h with
    | leaf _ h => exact h
    | count hm => exact nomatch hv.symm.trans hm
    | missing _ _ hk => exact nomatch (own_eq_none_of_leaf hv _).symm.trans hk
  | some m =>
    have hfalse : v.strictEq w = false := strictEq_of_node (.inl (by simp [hv]))
    obtain hw | hw := hw
    · simp only [hw, reduceCtorEq, and_false, not_false_eq_true, and_true]
      exact ⟨fun _ => hfalse, fun h => .leaf (.inr hw) h⟩
    · simp only [hw, hfalse, Option.some.injEq, and_true, true_and]
      refine ⟨fun h hm => ?_, fun hm => .count hv hw hm⟩
      subst hm
      cases h with
      | leaf h _ => simp [hv, hw] at h
      | count hm hn hne => exact hne (by simp_all)
      | missing _ _ hk => exact nomatch (own_eq_none_of_zero hv _).symm.trans hk

theorem shown_iff_of_leaf {last : Option Key} {x y : ObjTree} (hx : x.keyCount? = none) :
    Shown last x y ↔ x.strictEq y = false := by
  rw [shown_iff]
  constructor
  · rintro (h | ⟨k, v, -, -, hv, -⟩)
    · cases h with
      | leaf _ h => exact h
      | count hm => exact nomatch hx.symm.trans hm
      | missing _ _ hk => exact nomatch (own_eq_none_of_leaf hx _).symm.trans hk
    · exact nomatch (own_eq_none_of_leaf hx _).symm.trans hv
  · exact fun h => .inl (.leaf (.inl hx) h)

/-- What is not among the keys of a tree has none. -/
theorem keyCount_unlisted (t : ObjTree) (k : Key) :
    (t.unlisted k).keyCount? = none ∨ (t.unlisted k).keyCount? = some 0 := by
  unfold unlisted
  split
  · exact .inr rfl
  · split
    · exact .inl rfl
    · split <;> exact .inl rfl
  · split <;> exact .inl rfl
  · exact .inl rfl

/-- Between two nodes a difference is seen in the number of keys, or in what they read under a key
of the first. -/
theorem shown_iff_of_nodes {last : Option Key} {x y : ObjTree} {m n : ℕ}
    (hx : x.keyCount? = some m) (hy : y.keyCount? = some n) :
    Shown last x y ↔ m ≠ n ∨ ∃ k v, (∀ l, last = some l → keyName l ≠ keyName k) ∧
      x.own k = some v ∧ Shown (some k) v (y.read k) := by
  rw [shown_iff]
  constructor
  · rintro (h | ⟨k, v, v', hk, hv, hv', hshown⟩)
    · cases h with
      | leaf h => simp [hx, hy] at h
      | count hm hn hne =>
        refine .inl ?_
        rwa [Option.some.inj (hx.symm.trans hm), Option.some.inj (hy.symm.trans hn)]
      | @missing _ k v _ hk hv hnone halike =>
        refine .inr ⟨k, v, hk, hv, ?_⟩
        rw [read, hnone, Option.getD_none]
        exact (shown_iff_not_alike (keyCount_unlisted y k)).2 halike
    · refine .inr ⟨k, v, hk, hv, ?_⟩
      rw [read, hv']
      exact hshown
  · rintro (hne | ⟨k, v, hk, hv, hshown⟩)
    · exact .inl (.count hx hy hne)
    · cases hown : y.own k with
      | none =>
        rw [read, hown, Option.getD_none] at hshown
        exact .inl (.missing hy hk hv hown
          ((shown_iff_not_alike (keyCount_unlisted y k)).1 hshown))
      | some v' =>
        rw [read, hown] at hshown
        exact .inr ⟨k, v, v', hk, hv, hown, hshown⟩

end ObjTree

open ObjTree

/-! ## The comparison -/

/-- The values under a key are compared as trees, with the path in the place of the list to
ignore. -/
theorem entryDiff_eq (path : List String) (k : Key) (v v' : ObjTree) :
    entryDiff (objDiff v) path k v v' = objDiff v v' (path ++ [keyName k]) [] := by
  unfold entryDiff
  split
  · rename_i hne
    cases v with
    | null => cases v' <;> simp_all [objDiff, typeof, strictEq]
    | prim p =>
      cases v' with
      | prim q =>
        cases p <;> cases q <;> simp_all [objDiff, typeof, strictEq, Prim.strictEq]
      | null | array | object => rfl
    | array n items =>
      cases v' with
      | prim q => rfl
      | null | array | object => exact absurd rfl hne
    | object keys vals =>
      cases v' with
      | prim q => rfl
      | null | array | object => exact absurd rfl hne
  · split
    · rfl
    · rename_i hobject
      cases v with
      | prim p => rfl
      | null | array | object => exact absurd rfl hobject

theorem ignores_iff (last : Option Key) (k : Key) :
    ignores (last.map keyName).toList [] k = false ↔
      ∀ l, last = some l → keyName l ≠ keyName k := by
  have hjoin : ".".intercalate ([] ++ [keyName k]) = keyName k := rfl
  unfold ignores
  rw [hjoin]
  cases last with
  | none => simp
  | some l => simp [eq_comm]

/-- `objDiff` finds the differences that are shown. -/
theorem objDiff_iff (x : ObjTree) :
    ∀ (last : Option Key) (y : ObjTree),
      objDiff x y (last.map keyName).toList [] = true ↔ Shown last x y := by
  induction x with
  | null =>
    intro last y
    rw [shown_iff_of_leaf rfl, objDiff, Bool.not_eq_true']
  | prim p =>
    intro last y
    rw [shown_iff_of_leaf rfl, objDiff, Bool.not_eq_true']
  | array n items ih =>
    intro last y
    have hentry : ∀ i, entryDiff (objDiff (items i)) [] (.idx i) (items i) (y.read (.idx i)) = true ↔
        Shown (some (.idx i)) (items i) (y.read (.idx i)) := fun i => by
      rw [entryDiff_eq]
      exact ih i (some (.idx i)) _
    rw [objDiff]
    cases hy : y.keyCount? with
    | none => exact iff_of_true rfl (shown_iff.2 (.inl (.leaf (.inr hy)
        (strictEq_of_node (.inl (by simp [keyCount?]))))))
    | some m =>
      simp only [Bool.or_eq_true, bne_iff_ne, decide_eq_true_eq, Bool.and_eq_true,
        Bool.not_eq_true', hentry, ignores_iff]
      rw [shown_iff_of_nodes rfl hy]
      refine or_congr_right ⟨fun ⟨i, hi, hshown⟩ => ⟨.idx i, items i, hi, dif_pos i.2, hshown⟩, ?_⟩
      rintro ⟨k, v, hk, hv, hshown⟩
      cases k with
      | idx i =>
        simp only [own] at hv
        split at hv
        · rename_i hlt
          obtain rfl := Option.some.inj hv
          exact ⟨⟨i, hlt⟩, hk, hshown⟩
        · nomatch hv
      | length | name => nomatch hv
  | object keys vals ih =>
    intro last y
    have hentry : ∀ k, entryDiff (objDiff (vals k)) [] k (vals k) (y.read k) = true ↔
        Shown (some k) (vals k) (y.read k) := fun k => by
      rw [entryDiff_eq]
      exact ih k (some k) _
    rw [objDiff]
    cases hy : y.keyCount? with
    | none => exact iff_of_true rfl (shown_iff.2 (.inl (.leaf (.inr hy)
        (strictEq_of_node (.inl (by simp [keyCount?]))))))
    | some m =>
      simp only [Bool.or_eq_true, bne_iff_ne, decide_eq_true_eq, Bool.and_eq_true,
        Bool.not_eq_true', hentry, ignores_iff]
      rw [shown_iff_of_nodes rfl hy]
      refine or_congr_right ⟨fun ⟨k, hk, hshown⟩ => ⟨k, vals k, hk, dif_pos k.2, hshown⟩, ?_⟩
      rintro ⟨k, v, hk, hv, hshown⟩
      simp only [own] at hv
      split at hv
      · rename_i hmem
        obtain rfl := Option.some.inj hv
        exact ⟨⟨k, hmem⟩, hk, hshown⟩
      · nomatch hv

theorem objEquals_eq_true_iff (x y : ObjTree) : objEquals x y = true ↔ ¬ Shown none x y := by
  rw [objEquals, Bool.not_eq_true', ← Bool.not_eq_true]
  exact not_congr (objDiff_iff x none y)

/-- Between a tree and itself, only `NaN` shows. -/
theorem shownHere_self_iff {last : Option Key} {u : ObjTree} :
    ShownHere last u u ↔ u = .prim .nan := by
  constructor
  · intro h
    cases h with
    | leaf hu hne =>
      cases u with
      | null => nomatch hne
      | prim p => cases p <;> simp_all [strictEq, Prim.strictEq]
      | array | object => simp [keyCount?] at hu
    | count hm hn hne => exact absurd (Option.some.inj (hm.symm.trans hn)) hne
    | missing _ _ hk hnone => exact nomatch hk.symm.trans hnone
  · rintro rfl
    exact .leaf (.inl rfl) rfl

/-- Trees are found equal if and only if they are, provided that different ones show a difference
at the end of a path of common keys on which no key follows itself, and that equal ones have no
`NaN` there. -/
theorem objEquals_iff (x y : ObjTree) :
    (objEquals x y = true ↔ x = y) ↔
      (x ≠ y → ∃ p u w, Isolated none p ∧ x.atPath p = some u ∧ y.atPath p = some w ∧
        ShownHere p.getLast? u w) ∧
      (x = y → ∀ p, Isolated none p → x.atPath p ≠ some (.prim .nan)) := by
  have hlast : ∀ p, lastKey none p = p.getLast? := fun p => Option.or_none
  have hshown : Shown none x y ↔ ∃ p u w, Isolated none p ∧ x.atPath p = some u ∧
      y.atPath p = some w ∧ ShownHere p.getLast? u w := by
    simp only [Shown, hlast]
  rw [objEquals_eq_true_iff, ← hshown]
  by_cases heq : x = y
  · subst heq
    have hself : Shown none x x ↔ ∃ p, Isolated none p ∧ x.atPath p = some (.prim .nan) := by
      constructor
      · rintro ⟨p, u, w, hp, hu, hw, h⟩
        obtain rfl := Option.some.inj (hu.symm.trans hw)
        obtain rfl := shownHere_self_iff.1 h
        exact ⟨p, hp, hu⟩
      · rintro ⟨p, hp, hu⟩
        exact ⟨p, _, _, hp, hu, hu, shownHere_self_iff.2 rfl⟩
    simp [hself]
  · simp [heq]

/-! ## A property below one of the same name -/

/-- `{ action: { action: n } }`. -/
def nested (n : ℤ) : ObjTree :=
  .object {.name "action"} fun _ => .object {.name "action"} fun _ => .prim (.num n)

/-- Two objects with different numbers below `action.action`. -/
theorem objEquals_overlooks : objEquals (nested 1) (nested 2) = true ∧ nested 1 ≠ nested 2 := by
  refine ⟨by decide +kernel, fun h => ?_⟩
  have hat := congrArg (fun t => atPath t [.name "action", .name "action"]) h
  simp [nested, atPath_cons, own] at hat

end HanabiBot.Utils
