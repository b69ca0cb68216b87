import HanabiBot.Basics.IdentitySet
import HanabiBot.Lib.Number
import HanabiBot.Lib.PopCount

/-!
# Sets of identities in 32 bits

`IdentitySet` as `src/basics/IdentitySet.js` has it: the set is a number, to which the bitwise
operators of the language are applied.  With at most six suits no bit reaches the sign, and the
number is the value of an `IdentitySet` (`Is`), so that what is known of its bits carries over.

* `create_is`, `intersect_is`, `subtract_is`, `union_is` — the sets that the operations make;
* `array_eq`, `length_eq`, `has_eq` — what is read of a set;
* `Is.unique` — there is one number for each set;
* `identitySet32_faithful` — so the class is a finite set.
-/

namespace HanabiBot

/-- An identity as the code has it: what is not known is `-1`. -/
structure RawIdentity where
  suitIndex : ℤ
  rank : ℤ
  deriving DecidableEq

def Identity.raw (id : Identity) : RawIdentity where
  suitIndex := id.suitIndex
  rank := id.rank

/-- `IdentitySet`, with the number that it is. -/
structure IdentitySet32 where
  numSuits : ℕ
  value : ℤ
  deriving DecidableEq

/-- What the operations take: a set, a list or a single identity. -/
inductive Identities
  | set (s : IdentitySet32)
  | list (ids : List RawIdentity)
  | single (id : RawIdentity)

namespace IdentitySet32

open Number

/-- `new IdentitySet(numSuits)`. -/
def full (numSuits : ℕ) : IdentitySet32 := ⟨numSuits, 2 ^ (numSuits * 5) - 1⟩

def toMask (id : RawIdentity) : ℤ := shiftLeft 1 (id.suitIndex * 5 + (id.rank - 1))

def identitiesToMask (ids : List RawIdentity) : ℤ :=
  ids.foldl (fun mask id => bitOr mask (toMask id)) 0

def parse : Identities → ℤ
  | .set s => s.value
  | .list ids => identitiesToMask ids
  | .single id => toMask id

def create (numSuits : ℕ) (identities : Identities) : IdentitySet32 := ⟨numSuits, parse identities⟩

def length (s : IdentitySet32) : ℤ :=
  let copy := s.value
  let copy := copy - bitAnd (shiftRight copy 1) 0x55555555
  let copy := bitAnd copy 0x33333333 + bitAnd (shiftRight copy 2) 0x33333333
  shiftRight (mul (bitAnd (copy + shiftRight copy 4) 0xF0F0F0F) 0x1010101) 24

/-- The loop of `array`, with `#array` and `run`. -/
def arrayLoop (s : IdentitySet32) (n : ℕ) : List RawIdentity × ℤ :=
  (List.range n).foldl (fun acc i =>
    (if bitAnd s.value acc.2 ≠ 0 then acc.1 ++ [⟨(i / 5 : ℕ), (i % 5 : ℕ) + 1⟩] else acc.1,
      shiftLeft acc.2 1)) ([], 1)

def array (s : IdentitySet32) : List RawIdentity := (s.arrayLoop (s.numSuits * 5)).1

def has (s : IdentitySet32) (identity : RawIdentity) : Bool :=
  if identity.suitIndex = -1 ∨ identity.rank = -1 then false
  else bitAnd s.value (toMask identity) != 0

def intersect (s : IdentitySet32) (identities : Identities) : IdentitySet32 :=
  ⟨s.numSuits, bitAnd s.value (parse identities)⟩

def subtract (s : IdentitySet32) (identities : Identities) : IdentitySet32 :=
  ⟨s.numSuits, bitAnd s.value (bitNot (parse identities))⟩

def union (s : IdentitySet32) (identities : Identities) : IdentitySet32 :=
  ⟨s.numSuits, bitOr s.value (parse identities)⟩

def equals (s : IdentitySet32) (identities : Identities) : Bool := s.value == parse identities

end IdentitySet32

/-! ## The number of a set -/

/-- The identities of a number of suits. -/
def Identity.Within (n : ℕ) (id : Identity) : Prop := id.suitIndex < n ∧ IdentitySet.Ranked id

instance (n : ℕ) (id : Identity) : Decidable (id.Within n) := by
  unfold Identity.Within IdentitySet.Ranked
  infer_instance

/-- A number is the mask of a set of identities. -/
structure IsMask (n : ℕ) (value : ℤ) (mask : ℕ) (S : Finset Identity) : Prop where
  eq : value = mask
  lt : mask < 2 ^ (n * 5)
  testBit : ∀ id : Identity, id.Within n → mask.testBit (IdentitySet.bit id) = decide (id ∈ S)

namespace IsMask

variable {n : ℕ} {value value' : ℤ} {mask mask' : ℕ} {S T : Finset Identity}

/-- No bit of at most six suits reaches the sign. -/
theorem lt_sign (h : IsMask n value mask S) (hn : n ≤ 6) : mask < 2 ^ 31 :=
  h.lt.trans_le (Nat.pow_le_pow_right (by omega) (by omega))

theorem testBit_of_le (h : IsMask n value mask S) {i : ℕ} (hi : n * 5 ≤ i) :
    mask.testBit i = false :=
  Nat.testBit_lt_two_pow (h.lt.trans_le (Nat.pow_le_pow_right (by omega) hi))

/-- The identity of a bit. -/
theorem exists_bit {i : ℕ} (hi : i < n * 5) :
    ∃ id : Identity, id.Within n ∧ IdentitySet.bit id = i :=
  ⟨⟨i / 5, i % 5 + 1⟩, ⟨by show i / 5 < n; omega, by show 1 ≤ i % 5 + 1; omega,
    by show i % 5 + 1 ≤ 5; omega⟩, by simp only [IdentitySet.bit]; omega⟩

/-- A set has one mask. -/
theorem unique (h : IsMask n value mask S) (h' : IsMask n value' mask' S) : mask = mask' := by
  apply Nat.eq_of_testBit_eq
  intro i
  by_cases hi : i < n * 5
  · obtain ⟨id, hid, rfl⟩ := exists_bit hi
    rw [h.testBit id hid, h'.testBit id hid]
  · rw [h.testBit_of_le (by omega), h'.testBit_of_le (by omega)]

theorem inter (h : IsMask n value mask S) (h' : IsMask n value' mask' T) (hn : n ≤ 6) :
    IsMask n (Number.bitAnd value value') (mask &&& mask') (S ∩ T) where
  eq := by rw [h.eq, h'.eq, Number.bitAnd_natCast (h.lt_sign hn) (h'.lt_sign hn)]
  lt := Nat.and_le_left.trans_lt h.lt
  testBit id hid := by
    rw [Nat.testBit_and, h.testBit id hid, h'.testBit id hid]
    simp

theorem sdiff (h : IsMask n value mask S) (h' : IsMask n value' mask' T) (hn : n ≤ 6) :
    IsMask n (Number.bitAnd value (Number.bitNot value')) (mask ^^^ (mask &&& mask')) (S \ T) where
  eq := by rw [h.eq, h'.eq, Number.bitAnd_bitNot_natCast (h.lt_sign hn) (h'.lt_sign hn)]
  lt := Nat.xor_lt_two_pow h.lt (Nat.and_le_left.trans_lt h.lt)
  testBit id hid := by
    rw [Nat.testBit_xor, Nat.testBit_and, h.testBit id hid, h'.testBit id hid]
    by_cases hS : id ∈ S <;> by_cases hT : id ∈ T <;> simp [hS, hT]

theorem union (h : IsMask n value mask S) (h' : IsMask n value' mask' T) (hn : n ≤ 6) :
    IsMask n (Number.bitOr value value') (mask ||| mask') (S ∪ T) where
  eq := by rw [h.eq, h'.eq, Number.bitOr_natCast (h.lt_sign hn) (h'.lt_sign hn)]
  lt := Nat.or_lt_two_pow h.lt h'.lt
  testBit id hid := by
    rw [Nat.testBit_or, h.testBit id hid, h'.testBit id hid]
    simp

theorem toMask (hn : n ≤ 6) {id : Identity} (hid : id.Within n) :
    IsMask n (IdentitySet32.toMask id.raw) (2 ^ IdentitySet.bit id) {id} where
  eq := by
    have hbound := hid.1
    obtain ⟨h1, h5⟩ := hid.2
    have hcount : id.raw.suitIndex * 5 + (id.raw.rank - 1) = (IdentitySet.bit id : ℕ) := by
      simp only [Identity.raw, IdentitySet.bit]
      push_cast [Nat.cast_sub h1]
      ring
    have hlt : 0 + IdentitySet.bit id < 31 := by
      simp only [IdentitySet.bit]
      omega
    rw [IdentitySet32.toMask, hcount]
    simpa using Number.shiftLeft_two_pow hlt
  lt := by
    have hbound := hid.1
    obtain ⟨h1, h5⟩ := hid.2
    refine Nat.pow_lt_pow_right (by omega) ?_
    simp only [IdentitySet.bit]
    omega
  testBit id' hid' := by
    rw [Nat.testBit_two_pow]
    refine decide_eq_decide.2 ?_
    rw [IdentitySet.bit_inj hid.2 hid'.2, Finset.mem_singleton]
    exact eq_comm

theorem empty (n : ℕ) : IsMask n 0 0 ∅ where
  eq := rfl
  lt := Nat.two_pow_pos _
  testBit id hid := by simp

/-- The loop of `identitiesToMask`. -/
theorem foldl (hn : n ≤ 6) {ids : List Identity} (hids : ∀ id ∈ ids, id.Within n)
    (h : IsMask n value mask S) :
    ∃ mask', IsMask n ((ids.map Identity.raw).foldl
      (fun mask id => Number.bitOr mask (IdentitySet32.toMask id)) value) mask' (S ∪ ids.toFinset) := by
  induction ids generalizing value mask S with
  | nil => exact ⟨mask, by simpa using h⟩
  | cons id ids ih =>
    have hfirst := h.union (toMask hn (hids id List.mem_cons_self)) hn
    obtain ⟨mask', hrest⟩ := ih (fun id hid => hids id (List.mem_cons_of_mem _ hid)) hfirst
    refine ⟨mask', ?_⟩
    have hset : S ∪ (id :: ids).toFinset = S ∪ {id} ∪ ids.toFinset := by
      ext x
      simp
    rw [hset]
    exact hrest

end IsMask

/-! ## The sets that the operations make -/

namespace IdentitySet32

/-- The set of some identities. -/
def Is (n : ℕ) (s : IdentitySet32) (S : Finset Identity) : Prop :=
  s.numSuits = n ∧ ∃ mask, IsMask n s.value mask S

/-- There is one number for each set. -/
theorem Is.unique {n : ℕ} {s t : IdentitySet32} {S : Finset Identity} (hs : Is n s S)
    (ht : Is n t S) : s = t := by
  obtain ⟨hn, mask, hmask⟩ := hs
  obtain ⟨hn', mask', hmask'⟩ := ht
  obtain ⟨numSuits, value⟩ := s
  obtain ⟨numSuits', value'⟩ := t
  simp only at hn hn'
  subst hn hn'
  have hvalue : value = value' := hmask.eq.trans ((congrArg _ (hmask.unique hmask')).trans hmask'.eq.symm)
  rw [hvalue]

theorem list_is {n : ℕ} (hn : n ≤ 6) {ids : List Identity} (hids : ∀ id ∈ ids, id.Within n) :
    Is n (create n (.list (ids.map Identity.raw))) ids.toFinset := by
  obtain ⟨mask, hmask⟩ := (IsMask.empty n).foldl hn hids
  rw [Finset.empty_union] at hmask
  exact ⟨rfl, mask, hmask⟩

end IdentitySet32

/-- An argument of an operation stands for a set of identities. -/
inductive Identities.Denotes : Identities → Finset Identity → Prop
  | set (m : ℕ) (ids : List Identity) :
    Denotes (.set (IdentitySet32.create m (.list (ids.map Identity.raw)))) ids.toFinset
  | list (ids : List Identity) : Denotes (.list (ids.map Identity.raw)) ids.toFinset
  | single (id : Identity) : Denotes (.single id.raw) {id}

namespace IdentitySet32

variable {n : ℕ} {s : IdentitySet32} {S T : Finset Identity} {arg : Identities}

theorem parse_isMask (hn : n ≤ 6) (hT : ∀ id ∈ T, id.Within n) (harg : arg.Denotes T) :
    ∃ mask, IsMask n (parse arg) mask T := by
  cases harg with
  | set m ids => exact (list_is hn fun id hid => hT id (List.mem_toFinset.2 hid)).2
  | list ids => exact (list_is hn fun id hid => hT id (List.mem_toFinset.2 hid)).2
  | single id => exact ⟨_, IsMask.toMask hn (hT id (Finset.mem_singleton_self id))⟩

theorem create_is (hn : n ≤ 6) (hT : ∀ id ∈ T, id.Within n) (harg : arg.Denotes T) :
    Is n (create n arg) T := ⟨rfl, parse_isMask hn hT harg⟩

theorem intersect_is (hn : n ≤ 6) (hs : Is n s S) (hT : ∀ id ∈ T, id.Within n)
    (harg : arg.Denotes T) : Is n (s.intersect arg) (S ∩ T) := by
  obtain ⟨hnum, mask, hmask⟩ := hs
  obtain ⟨mask', hmask'⟩ := parse_isMask hn hT harg
  exact ⟨hnum, _, hmask.inter hmask' hn⟩

theorem subtract_is (hn : n ≤ 6) (hs : Is n s S) (hT : ∀ id ∈ T, id.Within n)
    (harg : arg.Denotes T) : Is n (s.subtract arg) (S \ T) := by
  obtain ⟨hnum, mask, hmask⟩ := hs
  obtain ⟨mask', hmask'⟩ := parse_isMask hn hT harg
  exact ⟨hnum, _, hmask.sdiff hmask' hn⟩

theorem union_is (hn : n ≤ 6) (hs : Is n s S) (hT : ∀ id ∈ T, id.Within n)
    (harg : arg.Denotes T) : Is n (s.union arg) (S ∪ T) := by
  obtain ⟨hnum, mask, hmask⟩ := hs
  obtain ⟨mask', hmask'⟩ := parse_isMask hn hT harg
  exact ⟨hnum, _, hmask.union hmask' hn⟩

theorem equals_eq (hn : n ≤ 6) (hS : ∀ id ∈ S, id.Within n) (hs : Is n s S)
    (hT : ∀ id ∈ T, id.Within n) (harg : arg.Denotes T) : s.equals arg = decide (S = T) := by
  obtain ⟨-, mask, hmask⟩ := hs
  obtain ⟨mask', hmask'⟩ := parse_isMask hn hT harg
  rw [equals, Bool.eq_iff_iff, beq_iff_eq, decide_eq_true_eq]
  constructor
  · intro heq
    rw [hmask.eq, hmask'.eq, Nat.cast_inj] at heq
    ext id
    by_cases hid : id.Within n
    · have hbit := hmask.testBit id hid
      rw [heq, hmask'.testBit id hid] at hbit
      exact (decide_eq_decide.1 hbit).symm
    · exact ⟨fun h => absurd (hS id h) hid, fun h => absurd (hT id h) hid⟩
  · rintro rfl
    rw [hmask.eq, hmask'.eq, hmask.unique hmask']

/-! ## What is read of a set -/

theorem has_eq (hn : n ≤ 6) (hs : Is n s S) {id : Identity} (hid : id.Within n) :
    s.has id.raw = decide (id ∈ S) := by
  obtain ⟨-, mask, hmask⟩ := hs
  have hone := IsMask.toMask hn hid
  have hknown : ¬ (id.raw.suitIndex = -1 ∨ id.raw.rank = -1) := by
    simp only [Identity.raw]
    omega
  rw [has, if_neg hknown, hmask.eq, hone.eq,
    Number.bitAnd_natCast (hmask.lt_sign hn) (hone.lt_sign hn), ← hmask.testBit id hid,
    Nat.and_two_pow]
  cases mask.testBit (IdentitySet.bit id) <;> simp

theorem has_unknown (s : IdentitySet32) {id : RawIdentity} (hid : id.suitIndex = -1 ∨ id.rank = -1) :
    s.has id = false := if_pos hid

/-- The loop of `array`, as far as it has gone. -/
theorem arrayLoop_eq {mask : ℕ} (hn : n ≤ 6) (hmask : IsMask n s.value mask S) {k : ℕ}
    (hk : k ≤ n * 5) :
    s.arrayLoop k = ((((List.range k).filter mask.testBit).map fun i =>
      (⟨i / 5, i % 5 + 1⟩ : Identity)).map Identity.raw, ((2 ^ k : ℕ) : ℤ)) := by
  induction k with
  | zero => rfl
  | succ k ih =>
    have hrun : Number.shiftLeft (2 ^ k : ℕ) 1 = (2 ^ (k + 1) : ℕ) :=
      Number.shiftLeft_two_pow (b := 1) (by omega)
    have hlt : 2 ^ k < 2 ^ 31 := Nat.pow_lt_pow_right (by omega) (by omega)
    have hbit : Number.bitAnd s.value (2 ^ k : ℕ) ≠ 0 ↔ mask.testBit k = true := by
      rw [hmask.eq, Number.bitAnd_natCast (hmask.lt_sign hn) hlt, Nat.and_two_pow]
      cases mask.testBit k <;> simp
    have hloop := ih (by omega)
    rw [arrayLoop] at hloop ⊢
    rw [List.range_succ, List.foldl_append, hloop, List.foldl_cons, List.foldl_nil, hrun,
      List.filter_append, List.map_append, List.map_append]
    refine Prod.ext ?_ rfl
    show (if Number.bitAnd s.value (2 ^ k : ℕ) ≠ 0 then _ else _) = _
    by_cases hset : mask.testBit k = true
    · rw [if_pos (hbit.2 hset), List.filter_cons_of_pos hset]
      simp [Identity.raw]
    · rw [if_neg (mt hbit.1 hset), List.filter_cons_of_neg hset]
      simp

theorem array_eq {mask : ℕ} (hn : n ≤ 6) (hnum : s.numSuits = n) (hmask : IsMask n s.value mask S) :
    s.array = (IdentitySet.array ⟨n, mask⟩).map Identity.raw := by
  rw [array, hnum, arrayLoop_eq hn hmask le_rfl]
  rfl

/-- The members of a set, by suit and then by rank. -/
theorem sorted_array (s : IdentitySet) : s.array.Pairwise fun a b =>
    a.suitIndex < b.suitIndex ∨ a.suitIndex = b.suitIndex ∧ a.rank < b.rank := by
  rw [IdentitySet.array, List.pairwise_map]
  refine (List.pairwise_lt_range.filter _).imp fun {i j} hij => ?_
  show i / 5 < j / 5 ∨ i / 5 = j / 5 ∧ i % 5 + 1 < j % 5 + 1
  omega

/-- The members of the number's set. -/
theorem toFinset_array {mask : ℕ} {value : ℤ} (hS : ∀ id ∈ S, id.Within n)
    (hmask : IsMask n value mask S) : (IdentitySet.array ⟨n, mask⟩).toFinset = S := by
  ext id
  rw [List.mem_toFinset, IdentitySet.mem_array]
  constructor
  · rintro ⟨hsuit, hrank, hhas⟩
    have hbit := hmask.testBit id ⟨hsuit, hrank⟩
    rw [show mask.testBit (IdentitySet.bit id) = true from hhas] at hbit
    exact of_decide_eq_true hbit.symm
  · intro hid
    obtain ⟨hsuit, hrank⟩ := hS id hid
    refine ⟨hsuit, hrank, (hmask.testBit id ⟨hsuit, hrank⟩).trans ?_⟩
    simpa using hid

/-- The parallel count on the number is the one on its mask. -/
theorem length_sideways {mask : ℕ} (hmask : mask < 2 ^ 31) :
    length ⟨n, mask⟩ = (PopCount.sideways mask : ℕ) := by
  have hpairs : (mask : ℤ) - Number.bitAnd (Number.shiftRight mask 1) 0x55555555 =
      (PopCount.pairs 0x55555555 mask : ℕ) := by
    have hle : (mask >>> 1) &&& 0x55555555 ≤ mask :=
      Nat.and_le_left.trans (Nat.shiftRight_le mask 1)
    have hshift := Number.shiftRight_natCast (b := 1) hmask (by omega)
    have hand := Number.bitAnd_natCast (a := mask >>> 1) (b := 0x55555555)
      ((Nat.shiftRight_le mask 1).trans_lt hmask) (by omega)
    rw [show (1 : ℤ) = (1 : ℕ) from rfl, hshift, show (0x55555555 : ℤ) = (0x55555555 : ℕ) from rfl,
      hand, PopCount.pairs, Nat.cast_sub hle]
  set x := PopCount.pairs 0x55555555 mask with hx
  have hxlt : x < 2 ^ 31 := (Nat.sub_le _ _).trans_lt hmask
  have hnibbles : Number.bitAnd x 0x33333333 + Number.bitAnd (Number.shiftRight x 2) 0x33333333 =
      (PopCount.nibbles 0x33333333 x : ℕ) := by
    have hshift := Number.shiftRight_natCast (b := 2) hxlt (by omega)
    have hand := Number.bitAnd_natCast (b := 0x33333333) hxlt (by omega)
    have hand' := Number.bitAnd_natCast (a := x >>> 2) (b := 0x33333333)
      ((Nat.shiftRight_le x 2).trans_lt hxlt) (by omega)
    rw [show (2 : ℤ) = (2 : ℕ) from rfl, hshift, show (0x33333333 : ℤ) = (0x33333333 : ℕ) from rfl,
      hand, hand', PopCount.nibbles, Nat.cast_add]
  set y := PopCount.nibbles 0x33333333 x with hy
  have hylt : y ≤ 0x66666666 :=
    Nat.add_le_add (Nat.and_le_right (m := 0x33333333)) Nat.and_le_right
  have hbytes : Number.bitAnd ((y : ℤ) + Number.shiftRight y 4) 0xF0F0F0F =
      (PopCount.bytes 0x0F0F0F0F y : ℕ) := by
    have hshift := Number.shiftRight_natCast (a := y) (b := 4) (by omega) (by omega)
    have hle : y >>> 4 ≤ 0x6666666 := by
      rw [Nat.shiftRight_eq_div_pow]
      omega
    have hand := Number.bitAnd_natCast (a := y + y >>> 4) (b := 0xF0F0F0F) (by omega) (by omega)
    rw [show (4 : ℤ) = (4 : ℕ) from rfl, hshift, ← Nat.cast_add,
      show (0xF0F0F0F : ℤ) = (0xF0F0F0F : ℕ) from rfl, hand]
    rfl
  obtain ⟨hexact, hsign⟩ := PopCount.inBytes_bounds (hmask.trans (by omega : 2 ^ 31 < 2 ^ 32))
  have hproduct : Number.mul (PopCount.inBytes mask : ℕ) 0x1010101 =
      (PopCount.inBytes mask * 0x01010101 : ℕ) := Number.mul_of_lt hexact
  have hlast : Number.shiftRight (PopCount.inBytes mask * 0x01010101 : ℕ) 24 =
      (PopCount.sideways mask : ℕ) := by
    -- the product is taken modulo `2 ^ 32`
    have hmod : Number.toInt32 (PopCount.inBytes mask * 0x01010101 : ℕ) =
        Number.toInt32 (PopCount.inBytes mask * 0x01010101 % 2 ^ 32 : ℕ) := by
      rw [Number.toInt32, Number.toInt32, BitVec.ofInt_natCast, BitVec.ofInt_natCast]
      apply BitVec.eq_of_toNat_eq
      rw [BitVec.toNat_ofNat, BitVec.toNat_ofNat, Nat.mod_mod]
    have hshift := Number.shiftRight_natCast (b := 24) hsign (by omega)
    rw [Number.shiftRight, hmod]
    exact hshift
  show Number.shiftRight (Number.mul (Number.bitAnd (_ + Number.shiftRight _ 4) 0xF0F0F0F) 0x1010101)
    24 = _
  rw [hpairs, hnibbles, hbytes]
  show Number.shiftRight (Number.mul (PopCount.inBytes mask : ℕ) 0x1010101) 24 = _
  rw [hproduct, hlast]

theorem length_eq (hn : n ≤ 6) (hS : ∀ id ∈ S, id.Within n) (hs : Is n s S) : s.length = S.card := by
  obtain ⟨hnum, mask, hmask⟩ := hs
  obtain ⟨numSuits, value⟩ := s
  simp only at hnum
  subst hnum
  -- the bits that count are those of the identities
  have hbits : PopCount.count 32 mask = PopCount.count (numSuits * 5) mask := by
    obtain ⟨k, hk⟩ : ∃ k, 32 = numSuits * 5 + k := ⟨32 - numSuits * 5, by omega⟩
    have hrest : ((List.range k).map (numSuits * 5 + ·)).countP mask.testBit = 0 := by
      refine List.countP_eq_zero.2 fun i hi => ?_
      obtain ⟨j, -, rfl⟩ := List.mem_map.1 hi
      simp [hmask.testBit_of_le (Nat.le_add_right _ j)]
    rw [PopCount.count, hk, List.range_add, List.countP_append, hrest]
    rfl
  have hlen : (IdentitySet.array ⟨numSuits, mask⟩).length = PopCount.count (numSuits * 5) mask := by
    rw [IdentitySet.array, List.length_map, PopCount.count, List.countP_eq_length_filter]
  have hcard : S.card = (IdentitySet.array ⟨numSuits, mask⟩).length := by
    rw [← toFinset_array hS hmask, List.toFinset_card_of_nodup (IdentitySet.nodup_array _)]
  have hvalue : value = (mask : ℤ) := hmask.eq
  rw [hvalue, length_sideways (hmask.lt_sign hn), PopCount.sideways_eq (by
    have := hmask.lt_sign hn
    omega), hbits, ← hlen, hcard]

/-- The list of a set's members, and the set of this list. -/
theorem array_spec (hn : n ≤ 6) (hS : ∀ id ∈ S, id.Within n) (hs : Is n s S) :
    ∃ ids : List Identity, s.array = ids.map Identity.raw ∧ ids.toFinset = S ∧
      (ids.Pairwise fun a b =>
        a.suitIndex < b.suitIndex ∨ a.suitIndex = b.suitIndex ∧ a.rank < b.rank) ∧
      create n (.list s.array) = s := by
  obtain ⟨hnum, mask, hmask⟩ := hs
  have harray := array_eq hn hnum hmask
  have hset := toFinset_array hS hmask
  refine ⟨_, harray, hset, sorted_array _, ?_⟩
  rw [harray]
  have hcreate := create_is hn (T := (IdentitySet.array ⟨n, mask⟩).toFinset) (by rwa [hset])
    (.list _)
  rw [hset] at hcreate
  exact hcreate.unique ⟨hnum, mask, hmask⟩

end IdentitySet32

/-- With at most six suits, `IdentitySet` is a finite set of identities. Of a set made of any
list of its members: `array` lists them in order, without duplicates, and makes the set again;
`length` counts them and `has` tests for them. For an argument of any kind, the operations make
the set that they should, i.e. the one that is made of a list of its members. -/
theorem identitySet32_faithful (n : ℕ) (hn : n ≤ 6) (S T : Finset Identity)
    (hS : ∀ id ∈ S, id.Within n) (hT : ∀ id ∈ T, id.Within n) (arg arg' : Identities)
    (harg : arg.Denotes S) (harg' : arg'.Denotes T) :
    let s := IdentitySet32.create n arg
    let made (l : List Identity) := IdentitySet32.create n (.list (l.map Identity.raw))
    (∃ ids : List Identity, s.array = ids.map Identity.raw ∧ ids.toFinset = S ∧
      (ids.Pairwise fun a b =>
        a.suitIndex < b.suitIndex ∨ a.suitIndex = b.suitIndex ∧ a.rank < b.rank) ∧
      IdentitySet32.create n (.list s.array) = s) ∧
    s.length = S.card ∧
    (∀ id : Identity, id.Within n → s.has id.raw = decide (id ∈ S)) ∧
    (∀ id : RawIdentity, id.suitIndex = -1 ∨ id.rank = -1 → s.has id = false) ∧
    (∀ l : List Identity, l.toFinset = S ∩ T → s.intersect arg' = made l) ∧
    (∀ l : List Identity, l.toFinset = S \ T → s.subtract arg' = made l) ∧
    (∀ l : List Identity, l.toFinset = S ∪ T → s.union arg' = made l) ∧
    s.equals arg' = decide (S = T) := by
  intro s made
  have hs : s.Is n S := IdentitySet32.create_is hn hS harg
  have hmade : ∀ {U : Finset Identity} {t : IdentitySet32}, (∀ id ∈ U, id.Within n) → t.Is n U →
      ∀ l : List Identity, l.toFinset = U → t = made l := by
    intro U t hU ht l hl
    have hlist := IdentitySet32.list_is hn fun id hid => hU id (hl ▸ List.mem_toFinset.2 hid)
    rw [hl] at hlist
    exact ht.unique hlist
  refine ⟨IdentitySet32.array_spec hn hS hs, IdentitySet32.length_eq hn hS hs,
    fun id hid => IdentitySet32.has_eq hn hs hid, fun id hid => s.has_unknown hid, ?_, ?_, ?_,
    IdentitySet32.equals_eq hn hS hs hT harg'⟩
  · exact hmade (fun id hid => hS id (Finset.mem_inter.1 hid).1)
      (IdentitySet32.intersect_is hn hs hT harg')
  · exact hmade (fun id hid => hS id (Finset.mem_sdiff.1 hid).1)
      (IdentitySet32.subtract_is hn hs hT harg')
  · refine hmade (fun id hid => ?_) (IdentitySet32.union_is hn hs hT harg')
    exact (Finset.mem_union.1 hid).elim (hS id) (hT id)

/-- All identities of six suits fill the lowest thirty bits. -/
example : (IdentitySet32.full 6).length = 30 := by decide

theorem identitySet32_faithful_sixSuits :
    (IdentitySet32.create 6 (.list [⟨5, 5⟩, ⟨0, 1⟩, ⟨5, 5⟩])).length = 2 ∧
      (IdentitySet32.create 6 (.list [⟨5, 5⟩, ⟨0, 1⟩, ⟨5, 5⟩])).subtract (.single ⟨5, 5⟩) =
        IdentitySet32.create 6 (.list [⟨0, 1⟩]) := by
  have h := identitySet32_faithful 6 le_rfl [⟨5, 5⟩, ⟨0, 1⟩, ⟨5, 5⟩].toFinset {⟨5, 5⟩} (by decide)
    (by decide) _ _ (.list [⟨5, 5⟩, ⟨0, 1⟩, ⟨5, 5⟩]) (.single ⟨5, 5⟩)
  obtain ⟨-, hlength, -, -, -, hsubtract, -⟩ := h
  exact ⟨hlength.trans (by decide), hsubtract [⟨0, 1⟩] (by decide)⟩

end HanabiBot
