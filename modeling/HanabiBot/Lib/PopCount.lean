import Mathlib

/-!
# Counting bits in parallel

The population count of a 32-bit word: the bits are added in pairs, the pairs in nibbles, the
nibbles in bytes, and a product adds up the bytes in the highest one.

No step carries from one byte into the next, so that each is the same step on the lowest byte
and on the rest (`pairs_byte`, `nibbles_byte`, `bytes_byte`), and on a byte the count is checked
(`count_byte`).

* `sideways_eq` — the result is the number of bits.
-/

namespace PopCount

/-- A mask with a byte repeated. -/
def repeated (c : ℕ) : ℕ → ℕ
  | 0 => 0
  | n + 1 => c + 2 ^ 8 * repeated c n

/-- The bits added in pairs. -/
def pairs (mask x : ℕ) : ℕ := x - ((x >>> 1) &&& mask)

/-- The pairs added in nibbles. -/
def nibbles (mask x : ℕ) : ℕ := (x &&& mask) + ((x >>> 2) &&& mask)

/-- The nibbles added in bytes. -/
def bytes (mask x : ℕ) : ℕ := (x + x >>> 4) &&& mask

/-- The bits added in bytes. -/
def inBytes (x : ℕ) : ℕ := bytes 0x0F0F0F0F (nibbles 0x33333333 (pairs 0x55555555 x))

/-- The bits added up. -/
def sideways (x : ℕ) : ℕ := (inBytes x * 0x01010101 % 2 ^ 32) >>> 24

/-- The number of bits below a position. -/
def count (n x : ℕ) : ℕ := (List.range n).countP x.testBit

/-! ## One byte and the rest -/

variable {b c y m : ℕ}

theorem and_byte (hb : b < 2 ^ 8) (hc : c < 2 ^ 8) :
    (b + 2 ^ 8 * y) &&& (c + 2 ^ 8 * m) = (b &&& c) + 2 ^ 8 * (y &&& m) := by
  have hmod : ((b + 2 ^ 8 * y) &&& (c + 2 ^ 8 * m)) % 2 ^ 8 = b &&& c := by
    rw [Nat.and_mod_two_pow, Nat.add_mul_mod_self_left, Nat.add_mul_mod_self_left,
      Nat.mod_eq_of_lt hb, Nat.mod_eq_of_lt hc]
  have hdiv : ((b + 2 ^ 8 * y) &&& (c + 2 ^ 8 * m)) / 2 ^ 8 = y &&& m := by
    rw [Nat.and_div_two_pow, Nat.add_mul_div_left _ _ (by omega), Nat.add_mul_div_left _ _ (by omega),
      Nat.div_eq_of_lt hb, Nat.div_eq_of_lt hc, zero_add, zero_add]
  rw [← hmod, ← hdiv, Nat.mod_add_div]

theorem count_add_byte (hb : b < 2 ^ 8) (n : ℕ) :
    count (8 + n) (b + 2 ^ 8 * y) = count 8 b + count n y := by
  have hbit : ∀ i, (b + 2 ^ 8 * y).testBit i = if i < 8 then b.testBit i else y.testBit (i - 8) := by
    intro i
    rw [Nat.add_comm, Nat.testBit_two_pow_mul_add y hb]
  rw [count, List.range_add, List.countP_append, List.countP_map]
  congr 1
  · refine List.countP_congr fun i hi => ?_
    rw [hbit, if_pos (List.mem_range.1 hi)]
  · refine List.countP_congr fun i _ => ?_
    rw [Function.comp_apply, hbit, if_neg (by omega), Nat.add_sub_cancel_left]

/-- The bits that a shift brings in from the rest are masked out. -/
theorem pairs_byte (hb : b < 2 ^ 8) :
    pairs (0x55 + 2 ^ 8 * m) (b + 2 ^ 8 * y) = pairs 0x55 b + 2 ^ 8 * pairs m y := by
  have hshift : (b + 2 ^ 8 * y) >>> 1 = (b / 2 + 128 * (y % 2)) + 2 ^ 8 * (y >>> 1) := by
    simp only [Nat.shiftRight_eq_div_pow]
    omega
  have hmasked : ∀ b < 2 ^ 8, ∀ t < 2, (b / 2 + 128 * t) &&& 0x55 = (b >>> 1) &&& 0x55 := by
    decide +kernel
  have hlow : (b >>> 1) &&& 0x55 ≤ b := Nat.and_le_left.trans (Nat.shiftRight_le b 1)
  have hrest : (y >>> 1) &&& m ≤ y := Nat.and_le_left.trans (Nat.shiftRight_le y 1)
  rw [pairs, hshift, and_byte (by omega) (by omega), hmasked b hb _ (Nat.mod_lt y (by omega)), pairs,
    pairs]
  omega

theorem nibbles_byte (hb : b < 2 ^ 8) :
    nibbles (0x33 + 2 ^ 8 * m) (b + 2 ^ 8 * y) = nibbles 0x33 b + 2 ^ 8 * nibbles m y := by
  have hshift : (b + 2 ^ 8 * y) >>> 2 = (b / 4 + 64 * (y % 4)) + 2 ^ 8 * (y >>> 2) := by
    simp only [Nat.shiftRight_eq_div_pow]
    omega
  have hmasked : ∀ b < 2 ^ 8, ∀ t < 4, (b / 4 + 64 * t) &&& 0x33 = (b >>> 2) &&& 0x33 := by
    decide +kernel
  rw [nibbles, hshift, and_byte hb (by omega), and_byte (by omega) (by omega),
    hmasked b hb _ (Nat.mod_lt y (by omega)), nibbles, nibbles]
  omega

/-- The sums of two nibbles have room in one. -/
theorem bytes_byte (hlow : b % 16 ≤ 4) (hhigh : b / 16 ≤ 4) (hy : y % 16 ≤ 4) :
    bytes (0x0F + 2 ^ 8 * m) (b + 2 ^ 8 * y) = bytes 0x0F b + 2 ^ 8 * bytes m y := by
  have hsum : (b + 2 ^ 8 * y) + (b + 2 ^ 8 * y) >>> 4 =
      (b + b / 16 + 16 * (y % 16)) + 2 ^ 8 * (y + y >>> 4) := by
    simp only [Nat.shiftRight_eq_div_pow]
    omega
  have hmasked : ∀ b < 2 ^ 7, ∀ t < 5, (b + b / 16 + 16 * t) &&& 0x0F = (b + b >>> 4) &&& 0x0F := by
    decide +kernel
  rw [bytes, hsum, and_byte (by omega) (by omega), hmasked b (by omega) _ (by omega), bytes, bytes]

/-! ## One byte -/

/-- What becomes of a byte before the last step: two nibbles, with the count of each. -/
theorem nibbles_pairs_byte :
    ∀ b < 2 ^ 8, pairs 0x55 b < 2 ^ 8 ∧ nibbles 0x33 (pairs 0x55 b) % 16 ≤ 4 ∧
      nibbles 0x33 (pairs 0x55 b) / 16 ≤ 4 := by
  decide +kernel

theorem count_byte :
    ∀ b < 2 ^ 8, bytes 0x0F (nibbles 0x33 (pairs 0x55 b)) = count 8 b := by
  decide +kernel

theorem count_le (n x : ℕ) : count n x ≤ n :=
  List.countP_le_length.trans (List.length_range (n := n)).le

/-! ## The word -/

/-- The steps on some bytes. -/
theorem bytes_nibbles_pairs (n : ℕ) (hb : b < 2 ^ 8) (hy : nibbles (repeated 0x33 n) (pairs
      (repeated 0x55 n) y) % 16 ≤ 4) :
    bytes (repeated 0x0F (n + 1)) (nibbles (repeated 0x33 (n + 1)) (pairs (repeated 0x55 (n + 1))
        (b + 2 ^ 8 * y))) =
      count 8 b + 2 ^ 8 * bytes (repeated 0x0F n) (nibbles (repeated 0x33 n) (pairs
        (repeated 0x55 n) y)) ∧
    nibbles (repeated 0x33 (n + 1)) (pairs (repeated 0x55 (n + 1)) (b + 2 ^ 8 * y)) % 16 ≤ 4 := by
  obtain ⟨hlt, hlow, hhigh⟩ := nibbles_pairs_byte b hb
  rw [repeated, repeated, repeated, pairs_byte hb, nibbles_byte hlt]
  refine ⟨?_, ?_⟩
  · rw [bytes_byte hlow hhigh hy, count_byte b hb]
  · omega

theorem inBytes_eq {b₀ b₁ b₂ b₃ : ℕ} (h₀ : b₀ < 2 ^ 8) (h₁ : b₁ < 2 ^ 8) (h₂ : b₂ < 2 ^ 8)
    (h₃ : b₃ < 2 ^ 8) :
    inBytes (b₀ + 2 ^ 8 * (b₁ + 2 ^ 8 * (b₂ + 2 ^ 8 * (b₃ + 2 ^ 8 * 0)))) =
      count 8 b₀ + 2 ^ 8 * (count 8 b₁ + 2 ^ 8 * (count 8 b₂ + 2 ^ 8 * count 8 b₃)) := by
  have hmask : inBytes = fun x => bytes (repeated 0x0F 4) (nibbles (repeated 0x33 4)
      (pairs (repeated 0x55 4) x)) := rfl
  obtain ⟨heq₃, hle₃⟩ := bytes_nibbles_pairs (y := 0) 0 h₃ (by decide)
  obtain ⟨heq₂, hle₂⟩ := bytes_nibbles_pairs 1 h₂ hle₃
  obtain ⟨heq₁, hle₁⟩ := bytes_nibbles_pairs 2 h₁ hle₂
  obtain ⟨heq₀, -⟩ := bytes_nibbles_pairs 3 h₀ hle₁
  rw [hmask]
  show bytes _ _ = _
  rw [heq₀, heq₁, heq₂, heq₃]
  rfl

/-- The four bytes of a word. -/
theorem exists_bytes {x : ℕ} (hx : x < 2 ^ 32) : ∃ b₀ b₁ b₂ b₃, b₀ < 2 ^ 8 ∧ b₁ < 2 ^ 8 ∧
    b₂ < 2 ^ 8 ∧ b₃ < 2 ^ 8 ∧ x = b₀ + 2 ^ 8 * (b₁ + 2 ^ 8 * (b₂ + 2 ^ 8 * (b₃ + 2 ^ 8 * 0))) :=
  ⟨x % 2 ^ 8, x / 2 ^ 8 % 2 ^ 8, x / 2 ^ 16 % 2 ^ 8, x / 2 ^ 24, by omega, by omega, by omega,
    by omega, by omega⟩

/-- The product adds up the bytes in the highest one. -/
theorem product_mod {c₀ c₁ c₂ c₃ : ℕ} (h₀ : c₀ ≤ 8) (h₁ : c₁ ≤ 8) (h₂ : c₂ ≤ 8) (h₃ : c₃ ≤ 8) :
    (c₀ + 2 ^ 8 * (c₁ + 2 ^ 8 * (c₂ + 2 ^ 8 * c₃))) * 0x01010101 % 2 ^ 32 =
      c₀ + 2 ^ 8 * (c₀ + c₁) + 2 ^ 16 * (c₀ + c₁ + c₂) + 2 ^ 24 * (c₀ + c₁ + c₂ + c₃) := by
  have hproduct : (c₀ + 2 ^ 8 * (c₁ + 2 ^ 8 * (c₂ + 2 ^ 8 * c₃))) * 0x01010101 =
      (c₀ + 2 ^ 8 * (c₀ + c₁) + 2 ^ 16 * (c₀ + c₁ + c₂) + 2 ^ 24 * (c₀ + c₁ + c₂ + c₃)) +
        2 ^ 32 * (c₁ + c₂ + c₃ + 2 ^ 8 * (c₂ + c₃) + 2 ^ 16 * c₃) := by
    ring
  rw [hproduct, Nat.add_mul_mod_self_left, Nat.mod_eq_of_lt (by omega)]

/-- The parallel count is the number of bits. -/
theorem sideways_eq {x : ℕ} (hx : x < 2 ^ 32) : sideways x = count 32 x := by
  obtain ⟨b₀, b₁, b₂, b₃, h₀, h₁, h₂, h₃, rfl⟩ := exists_bytes hx
  have hcount : count 32 (b₀ + 2 ^ 8 * (b₁ + 2 ^ 8 * (b₂ + 2 ^ 8 * (b₃ + 2 ^ 8 * 0)))) =
      count 8 b₀ + (count 8 b₁ + (count 8 b₂ + (count 8 b₃ + count 0 0))) := by
    rw [← count_add_byte h₃ 0, ← count_add_byte h₂ 8, ← count_add_byte h₁ 16,
      ← count_add_byte h₀ 24]
  have hle₀ := count_le 8 b₀
  have hle₁ := count_le 8 b₁
  have hle₂ := count_le 8 b₂
  have hle₃ := count_le 8 b₃
  rw [sideways, inBytes_eq h₀ h₁ h₂ h₃, product_mod hle₀ hle₁ hle₂ hle₃, hcount,
    Nat.shiftRight_eq_div_pow, show count 0 0 = 0 from rfl]
  omega

/-- What is multiplied is small enough for the product to be exact in a double, and for its
highest byte not to reach the sign. -/
theorem inBytes_bounds {x : ℕ} (hx : x < 2 ^ 32) :
    inBytes x * 0x01010101 < 2 ^ 53 ∧ inBytes x * 0x01010101 % 2 ^ 32 < 2 ^ 31 := by
  obtain ⟨b₀, b₁, b₂, b₃, h₀, h₁, h₂, h₃, rfl⟩ := exists_bytes hx
  have hle₀ := count_le 8 b₀
  have hle₁ := count_le 8 b₁
  have hle₂ := count_le 8 b₂
  have hle₃ := count_le 8 b₃
  rw [inBytes_eq h₀ h₁ h₂ h₃, product_mod hle₀ hle₁ hle₂ hle₃]
  refine ⟨?_, ?_⟩ <;> omega

end PopCount
