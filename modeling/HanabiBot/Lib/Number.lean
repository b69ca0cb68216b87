import Mathlib

/-!
# Integral numbers

The arithmetic of JavaScript on numbers that happen to be integers.  The bitwise operators
convert their operands to 32-bit integers in two's complement; a product is rounded to the
nearest double.

* `bitAnd_natCast`, `bitOr_natCast`, `bitAnd_bitNot_natCast`, `shiftRight_natCast`,
  `shiftLeft_two_pow` — what the operators do to numbers below `2 ^ 31`, where no sign gets in
  the way;
* `mul_of_lt` — a product below `2 ^ 53` is exact.
-/

namespace Number

/-- `ToInt32`. -/
def toInt32 (x : ℤ) : BitVec 32 := BitVec.ofInt 32 x

/-- `x & y`. -/
def bitAnd (x y : ℤ) : ℤ := (toInt32 x &&& toInt32 y).toInt

/-- `x | y`. -/
def bitOr (x y : ℤ) : ℤ := (toInt32 x ||| toInt32 y).toInt

/-- `~x`. -/
def bitNot (x : ℤ) : ℤ := (~~~toInt32 x).toInt

/-- The low five bits of a shift count. -/
def shiftCount (n : ℤ) : ℕ := (toInt32 n).toNat % 32

/-- `x << n`. -/
def shiftLeft (x n : ℤ) : ℤ := (toInt32 x <<< shiftCount n).toInt

/-- `x >> n`. -/
def shiftRight (x n : ℤ) : ℤ := ((toInt32 x).sshiftRight (shiftCount n)).toInt

/-- The double nearest to an integer; half-way, the one with an even significand. -/
def toDouble (x : ℤ) : ℤ :=
  -- the value of the last place
  let unit : ℤ := 2 ^ (x.natAbs.log2 - 52)
  let q := x / unit
  let r := x % unit
  if 2 * r < unit ∨ (2 * r = unit ∧ q % 2 = 0) then q * unit else (q + 1) * unit

/-- `x * y`. -/
def mul (x y : ℤ) : ℤ := toDouble (x * y)

/-! ## Below the sign bit -/

variable {a b : ℕ}

theorem toNat_toInt32 (ha : a < 2 ^ 32) : (toInt32 a).toNat = a := by
  rw [toInt32, BitVec.ofInt_natCast, BitVec.toNat_ofNat, Nat.mod_eq_of_lt ha]

/-- A 32-bit integer without a sign. -/
theorem toInt_of_toNat {x : BitVec 32} (hx : x.toNat = a) (ha : a < 2 ^ 31) : x.toInt = a := by
  rw [BitVec.toInt_eq_toNat_of_lt (by omega), hx]

theorem bitAnd_natCast (ha : a < 2 ^ 31) (hb : b < 2 ^ 31) : bitAnd a b = (a &&& b : ℕ) := by
  refine toInt_of_toNat ?_ (Nat.and_le_left.trans_lt ha)
  rw [BitVec.toNat_and, toNat_toInt32 (by omega), toNat_toInt32 (by omega)]

theorem bitOr_natCast (ha : a < 2 ^ 31) (hb : b < 2 ^ 31) : bitOr a b = (a ||| b : ℕ) := by
  refine toInt_of_toNat ?_ (Nat.or_lt_two_pow ha hb)
  rw [BitVec.toNat_or, toNat_toInt32 (by omega), toNat_toInt32 (by omega)]

/-- The complement has its sign bit set, but not what is left of it under a mask. -/
theorem bitAnd_bitNot_natCast (ha : a < 2 ^ 31) (hb : b < 2 ^ 31) :
    bitAnd a (bitNot b) = (a ^^^ (a &&& b) : ℕ) := by
  have hlt : a ^^^ (a &&& b) < 2 ^ 31 := Nat.xor_lt_two_pow ha (Nat.and_le_left.trans_lt ha)
  refine toInt_of_toNat ?_ hlt
  have hnot : toInt32 (bitNot b) = ~~~toInt32 b := BitVec.ofInt_toInt
  rw [hnot]
  apply Nat.eq_of_testBit_eq
  intro i
  have ha' : (toInt32 a).getLsbD i = a.testBit i := by
    rw [BitVec.getLsbD, toNat_toInt32 (by omega)]
  have hb' : (toInt32 b).getLsbD i = b.testBit i := by
    rw [BitVec.getLsbD, toNat_toInt32 (by omega)]
  rw [BitVec.testBit_toNat, BitVec.getLsbD_and, BitVec.getLsbD_not, ha', hb', Nat.testBit_xor,
    Nat.testBit_and]
  by_cases hi : i < 32
  · simp only [hi, decide_true, Bool.true_and]
    cases a.testBit i <;> cases b.testBit i <;> rfl
  · have hzero : a.testBit i = false :=
      Nat.testBit_lt_two_pow (ha.trans_le (Nat.pow_le_pow_right (by omega) (by omega)))
    simp [hzero]

theorem shiftCount_natCast (ha : a < 32) : shiftCount a = a := by
  rw [shiftCount, toNat_toInt32 (by omega), Nat.mod_eq_of_lt ha]

theorem shiftRight_natCast (ha : a < 2 ^ 31) (hb : b < 32) : shiftRight a b = (a >>> b : ℕ) := by
  have hle : a >>> b ≤ a := Nat.shiftRight_le a b
  refine toInt_of_toNat ?_ (by omega)
  have hmsb : (toInt32 a).msb = false := by
    rw [BitVec.msb_eq_decide, toNat_toInt32 (by omega)]
    exact decide_eq_false (by omega)
  rw [BitVec.sshiftRight_eq_of_msb_false hmsb, BitVec.toNat_ushiftRight,
    toNat_toInt32 (by omega), shiftCount_natCast hb]

/-- A shift of one bit that does not reach the sign. -/
theorem shiftLeft_two_pow (hab : a + b < 31) : shiftLeft (2 ^ a : ℕ) b = (2 ^ (a + b) : ℕ) := by
  have hlt : 2 ^ (a + b) < 2 ^ 31 := Nat.pow_lt_pow_right (by omega) hab
  have ha : 2 ^ a < 2 ^ 31 := Nat.pow_lt_pow_right (by omega) (by omega)
  refine toInt_of_toNat ?_ hlt
  rw [BitVec.toNat_shiftLeft, toNat_toInt32 (by omega), shiftCount_natCast (by omega),
    Nat.shiftLeft_eq, ← pow_add, Nat.mod_eq_of_lt (by omega)]

/-! ## Exact products -/

theorem toDouble_of_lt {x : ℤ} (hx : x.natAbs < 2 ^ 53) : toDouble x = x := by
  have hlog : x.natAbs.log2 - 52 = 0 := by
    by_cases hzero : x.natAbs = 0
    · simp [hzero]
    · have := (Nat.log2_lt hzero).2 hx
      omega
  simp [toDouble, hlog]

theorem mul_of_lt (h : a * b < 2 ^ 53) : mul a b = (a * b : ℕ) := by
  rw [mul, toDouble_of_lt (by rw [← Nat.cast_mul, Int.natAbs_natCast]; exact h), Nat.cast_mul]

end Number
