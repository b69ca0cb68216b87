import HanabiBot.Lib.Fuel

/-!
# Fractions

`Fraction` of `src/tools/fraction.js`, on exact integers.  A fraction is read as
the rational number `value`.  The operations agree with those of the rationals
on fractions whose denominator is positive (`Pos`), and keep that property; so
does division by a fraction whose numerator is positive (`arithmetic_exact`).

The definitions give each loop as much fuel as it can use; with their `Run`s, which
have no result when the fuel runs out, they are what the loops return.
-/

namespace HanabiBot

/-- A numerator and a denominator. -/
structure Fraction where
  numerator : ℤ
  denominator : ℤ
  deriving DecidableEq, Repr

namespace Fraction

/-- `find_gcd`: Euclid's algorithm; `fuel` is more than the second argument. -/
def findGcd : ℕ → ℤ → ℤ → ℤ
  | 0, a, _ => a
  | fuel + 1, a, b => if b = 0 then a else findGcd fuel b (a.tmod b)

/-- `find_lcm`. -/
def findLcm (a b : ℤ) : ℤ := (a * b).tdiv (findGcd (b.natAbs + 1) a b)

/-- The first odd number from `i` on, up to the smaller part of the fraction, that
divides both parts. -/
def oddDivisor (f : Fraction) : ℕ → ℤ → Option ℤ
  | 0, _ => none
  | fuel + 1, i =>
    if i ≤ min f.numerator f.denominator then
      if f.denominator.tmod i = 0 ∧ f.numerator.tmod i = 0 then some i
      else f.oddDivisor fuel (i + 2)
    else none

/-- `reduce`; each round divides the denominator, so `fuel` is a bound on it. -/
def reduceWith : ℕ → Fraction → Fraction
  | 0, f => f
  | fuel + 1, f =>
    if f.numerator > f.denominator ∧ f.numerator.tmod f.denominator = 0 then
      ⟨f.numerator.tdiv f.denominator, 1⟩
    else if f.denominator.tmod 2 = 0 ∧ f.numerator.tmod 2 = 0 then
      reduceWith fuel ⟨f.numerator.tdiv 2, f.denominator.tdiv 2⟩
    else
      match f.oddDivisor f.denominator.natAbs 3 with
      | some i => reduceWith fuel ⟨f.numerator.tdiv i, f.denominator.tdiv i⟩
      | none => f

def reduce (f : Fraction) : Fraction := reduceWith f.denominator.natAbs f

def plus (f other : Fraction) : Fraction :=
  let lcm := findLcm f.denominator other.denominator
  reduce ⟨f.numerator * lcm.tdiv f.denominator + other.numerator * lcm.tdiv other.denominator, lcm⟩

def subtract (f other : Fraction) : Fraction := f.plus ⟨-other.numerator, other.denominator⟩

def multiply (f other : Fraction) : Fraction :=
  reduce ⟨f.numerator * other.numerator, f.denominator * other.denominator⟩

def divide (f other : Fraction) : Fraction := f.multiply ⟨other.denominator, other.numerator⟩

def lessThan (f other : Fraction) : Bool := decide ((f.subtract other).numerator < 0)

def equals (f other : Fraction) : Bool := decide ((f.subtract other).numerator = 0)

/-- `new Fraction(n, 1)`, what a plain number is turned into. -/
def ofInt (n : ℤ) : Fraction := ⟨n, 1⟩

instance : Zero Fraction := ⟨ofInt 0⟩
instance : One Fraction := ⟨ofInt 1⟩

/-! ## As rational numbers -/

/-- The rational number that a fraction stands for. -/
def value (f : Fraction) : ℚ := f.numerator / f.denominator

/-- The denominator is positive. -/
def Pos (f : Fraction) : Prop := 0 < f.denominator

theorem findGcd_eq (fuel : ℕ) (a b : ℤ) (ha : 0 ≤ a) (hb : 0 ≤ b) (hf : b < fuel) :
    findGcd fuel a b = Int.gcd a b := by
  induction fuel generalizing a b with
  | zero => omega
  | succ fuel ih =>
    rw [findGcd]
    split
    · rename_i h0
      rw [h0, Int.gcd_zero_right, Int.natAbs_of_nonneg ha]
    · rename_i h0
      have hpos : 0 < b := by omega
      have hmod : a.tmod b = a % b := Int.tmod_eq_emod_of_nonneg ha
      have hlt := Int.emod_lt_of_pos a hpos
      have hnn := Int.emod_nonneg a h0
      rw [hmod, ih b (a % b) hb hnn (by omega), Int.gcd_comm b, Int.gcd_emod]

theorem findLcm_eq {a b : ℤ} (ha : 0 < a) (hb : 0 < b) : findLcm a b = Int.lcm a b := by
  have hgcd := findGcd_eq (b.natAbs + 1) a b ha.le hb.le (by omega)
  have hpos : (Int.gcd a b : ℤ) ≠ 0 := by
    have := Int.gcd_pos_of_ne_zero_left b ha.ne'
    omega
  have hmul : a * b = Int.gcd a b * Int.lcm a b := by
    have h := Int.gcd_mul_lcm a b
    zify at h
    rw [h, abs_of_pos ha, abs_of_pos hb]
  rw [findLcm, hgcd, hmul, Int.mul_tdiv_cancel_left _ hpos]

theorem findLcm_pos {a b : ℤ} (ha : 0 < a) (hb : 0 < b) : 0 < findLcm a b := by
  rw [findLcm_eq ha hb]
  have := Int.lcm_pos ha.ne' hb.ne'
  omega

/-- Dividing both parts by a common divisor. -/
theorem value_div {f : Fraction} {k : ℤ} (hk : 0 < k) (hn : f.numerator.tmod k = 0)
    (hd : f.denominator.tmod k = 0) (hf : f.Pos) :
    (⟨f.numerator.tdiv k, f.denominator.tdiv k⟩ : Fraction).Pos ∧
      (⟨f.numerator.tdiv k, f.denominator.tdiv k⟩ : Fraction).value = f.value := by
  obtain ⟨n, hn⟩ := Int.dvd_of_tmod_eq_zero hn
  obtain ⟨d, hd⟩ := Int.dvd_of_tmod_eq_zero hd
  rw [Pos, hd] at hf
  have hdpos : 0 < d := pos_of_mul_pos_right hf hk.le
  have hkq : (k : ℚ) ≠ 0 := by exact_mod_cast hk.ne'
  rw [Pos, value, value, hn, hd, Int.mul_tdiv_cancel_left _ hk.ne', Int.mul_tdiv_cancel_left _ hk.ne']
  refine ⟨hdpos, ?_⟩
  push_cast
  rw [mul_div_mul_left _ _ hkq]

theorem oddDivisor_spec {f : Fraction} {fuel : ℕ} {i k : ℤ} (hi : 0 < i)
    (h : f.oddDivisor fuel i = some k) :
    0 < k ∧ f.denominator.tmod k = 0 ∧ f.numerator.tmod k = 0 := by
  induction fuel generalizing i with
  | zero => cases h
  | succ fuel ih =>
    rw [oddDivisor] at h
    split at h
    · split at h
      · rename_i hdiv
        cases h
        exact ⟨hi, hdiv⟩
      · exact ih (by omega) h
    · cases h

theorem reduceWith_spec (fuel : ℕ) {f : Fraction} (hf : f.Pos) :
    (reduceWith fuel f).Pos ∧ (reduceWith fuel f).value = f.value := by
  induction fuel generalizing f with
  | zero => exact ⟨hf, rfl⟩
  | succ fuel ih =>
    rw [reduceWith]
    split
    · rename_i h
      obtain ⟨-, hmod⟩ := h
      have hself : f.denominator.tmod f.denominator = 0 := Int.tmod_self
      have h1 := value_div hf hmod hself hf
      rw [Int.tdiv_self hf.ne'] at h1
      exact h1
    · split
      · rename_i h
        obtain ⟨h1, h2⟩ := value_div two_pos h.2 h.1 hf
        obtain ⟨h3, h4⟩ := ih h1
        exact ⟨h3, h4.trans h2⟩
      · split
        · rename_i i hi
          obtain ⟨hpos, hd, hn⟩ := oddDivisor_spec (by decide) hi
          obtain ⟨h1, h2⟩ := value_div hpos hn hd hf
          obtain ⟨h3, h4⟩ := ih h1
          exact ⟨h3, h4.trans h2⟩
        · exact ⟨hf, rfl⟩

section

variable {f g : Fraction}

theorem Pos.reduce (hf : f.Pos) : f.reduce.Pos := (reduceWith_spec _ hf).1

theorem value_reduce (hf : f.Pos) : f.reduce.value = f.value := (reduceWith_spec _ hf).2

theorem Pos.ne_zero (hf : f.Pos) : (f.denominator : ℚ) ≠ 0 := by exact_mod_cast hf.ne'

theorem Pos.plus (hf : f.Pos) (hg : g.Pos) : (f.plus g).Pos := Pos.reduce (findLcm_pos hf hg)

theorem value_plus (hf : f.Pos) (hg : g.Pos) : (f.plus g).value = f.value + g.value := by
  have hlcm := findLcm_pos hf hg
  obtain ⟨a, ha⟩ : f.denominator ∣ findLcm f.denominator g.denominator := by
    rw [findLcm_eq hf hg]; exact Int.dvd_lcm_left _ _
  obtain ⟨b, hb⟩ : g.denominator ∣ findLcm f.denominator g.denominator := by
    rw [findLcm_eq hf hg]; exact Int.dvd_lcm_right _ _
  have hfa : (findLcm f.denominator g.denominator).tdiv f.denominator = a := by
    rw [ha, Int.mul_tdiv_cancel_left _ hf.ne']
  have hgb : (findLcm f.denominator g.denominator).tdiv g.denominator = b := by
    rw [hb, Int.mul_tdiv_cancel_left _ hg.ne']
  have ha0 : (a : ℚ) ≠ 0 := by
    rintro h
    rw [show a = 0 by exact_mod_cast h, mul_zero] at ha
    omega
  have hb0 : (b : ℚ) ≠ 0 := by
    rintro h
    rw [show b = 0 by exact_mod_cast h, mul_zero] at hb
    omega
  have haq : (findLcm f.denominator g.denominator : ℚ) = f.denominator * a := by exact_mod_cast ha
  have hbq : (findLcm f.denominator g.denominator : ℚ) = g.denominator * b := by exact_mod_cast hb
  have hpos : (⟨f.numerator * a + g.numerator * b,
      findLcm f.denominator g.denominator⟩ : Fraction).Pos := hlcm
  rw [Fraction.plus, hfa, hgb, value_reduce hpos]
  simp only [value]
  push_cast
  rw [add_div]
  congr 1
  · rw [haq, mul_div_mul_right _ _ ha0]
  · rw [hbq, mul_div_mul_right _ _ hb0]

theorem Pos.multiply (hf : f.Pos) (hg : g.Pos) : (f.multiply g).Pos :=
  Pos.reduce (mul_pos hf hg)

theorem value_multiply (hf : f.Pos) (hg : g.Pos) : (f.multiply g).value = f.value * g.value := by
  have hpos : (⟨f.numerator * g.numerator, f.denominator * g.denominator⟩ : Fraction).Pos :=
    mul_pos hf hg
  rw [Fraction.multiply, value_reduce hpos]
  simp only [value]
  push_cast
  rw [div_mul_div_comm]

theorem Pos.subtract (hf : f.Pos) (hg : g.Pos) : (f.subtract g).Pos := hf.plus hg

theorem value_subtract (hf : f.Pos) (hg : g.Pos) :
    (f.subtract g).value = f.value - g.value := by
  have hneg : (⟨-g.numerator, g.denominator⟩ : Fraction).Pos := hg
  rw [Fraction.subtract, value_plus hf hneg]
  simp only [value]
  push_cast
  ring

/-- The numerator of a positive fraction is that of a positive number. -/
theorem numerator_pos_iff (hf : f.Pos) : 0 < f.numerator ↔ 0 < f.value := by
  have h : (0 : ℚ) < f.denominator := by exact_mod_cast hf
  rw [value, div_pos_iff_of_pos_right h]
  exact_mod_cast Iff.rfl

theorem Pos.divide (hf : f.Pos) (hg : 0 < g.numerator) : (f.divide g).Pos :=
  hf.multiply (g := ⟨g.denominator, g.numerator⟩) hg

theorem value_divide (hf : f.Pos) (hg : 0 < g.numerator) :
    (f.divide g).value = f.value / g.value := by
  have hpos : (⟨g.denominator, g.numerator⟩ : Fraction).Pos := hg
  rw [Fraction.divide, value_multiply hf hpos]
  simp only [value]
  rw [div_div_eq_mul_div, mul_div_assoc]

theorem lessThan_iff (hf : f.Pos) (hg : g.Pos) : f.lessThan g = true ↔ f.value < g.value := by
  have hpos := hf.subtract hg
  have h0 : (0 : ℚ) < (f.subtract g).denominator := by exact_mod_cast hpos
  have hval := value_subtract hf hg
  have hiff : f.value < g.value ↔ (f.subtract g).value < 0 := by rw [hval, sub_neg]
  have hnum : (f.subtract g).value < 0 ↔ ((f.subtract g).numerator : ℚ) < 0 := by
    rw [value, div_lt_iff₀ h0, zero_mul]
  rw [lessThan, decide_eq_true_eq, hiff, hnum]
  exact_mod_cast Iff.rfl

theorem equals_iff (hf : f.Pos) (hg : g.Pos) : f.equals g = true ↔ f.value = g.value := by
  have hpos := hf.subtract hg
  have hval := value_subtract hf hg
  have hiff : f.value = g.value ↔ (f.subtract g).value = 0 := by rw [hval, sub_eq_zero]
  rw [equals, decide_eq_true_eq, hiff, value, div_eq_zero_iff, or_iff_left hpos.ne_zero]
  exact_mod_cast Iff.rfl

theorem pos_ofInt (n : ℤ) : (ofInt n).Pos := Int.one_pos

@[simp] theorem value_ofInt (n : ℤ) : (ofInt n).value = n := by simp [ofInt, value]

theorem pos_zero : (0 : Fraction).Pos := pos_ofInt 0

theorem pos_one : (1 : Fraction).Pos := pos_ofInt 1

@[simp] theorem value_zero : (0 : Fraction).value = 0 := value_ofInt 0 |>.trans Int.cast_zero

@[simp] theorem value_one : (1 : Fraction).value = 1 := value_ofInt 1 |>.trans Int.cast_one

end

/-! ## Termination -/

/-- `find_gcd`, for as many calls as there is fuel for. -/
def findGcdRun : ℕ → ℤ → ℤ → Option ℤ
  | 0, _, _ => none
  | fuel + 1, a, b => if b = 0 then some a else findGcdRun fuel b (a.tmod b)

/-- The loop of `reduce` over the odd numbers. -/
def oddDivisorRun (f : Fraction) : ℕ → ℤ → Option (Option ℤ)
  | 0, _ => none
  | fuel + 1, i =>
    if i ≤ min f.numerator f.denominator then
      if f.denominator.tmod i = 0 ∧ f.numerator.tmod i = 0 then some (some i)
      else f.oddDivisorRun fuel (i + 2)
    else some none

/-- `reduce`, for as many calls as there is fuel for. -/
def reduceRun : ℕ → Fraction → Option Fraction
  | 0, _ => none
  | fuel + 1, f =>
    if f.numerator > f.denominator ∧ f.numerator.tmod f.denominator = 0 then
      some ⟨f.numerator.tdiv f.denominator, 1⟩
    else if f.denominator.tmod 2 = 0 ∧ f.numerator.tmod 2 = 0 then
      reduceRun fuel ⟨f.numerator.tdiv 2, f.denominator.tdiv 2⟩
    else
      (f.oddDivisorRun fuel 3).bind fun divisor =>
        match divisor with
        | some i => reduceRun fuel ⟨f.numerator.tdiv i, f.denominator.tdiv i⟩
        | none => some f

/-- `plus`, for as many calls as there is fuel for. -/
def plusRun (f other : Fraction) (fuel : ℕ) : Option Fraction :=
  (findGcdRun fuel f.denominator other.denominator).bind fun gcd =>
    let lcm := (f.denominator * other.denominator).tdiv gcd
    reduceRun fuel
      ⟨f.numerator * lcm.tdiv f.denominator + other.numerator * lcm.tdiv other.denominator, lcm⟩

/-- `multiply`, for as many calls as there is fuel for. -/
def multiplyRun (f other : Fraction) (fuel : ℕ) : Option Fraction :=
  reduceRun fuel ⟨f.numerator * other.numerator, f.denominator * other.denominator⟩

/-- Euclid's algorithm ends within as many calls as its second argument. -/
theorem findGcdRun_eq (fuel : ℕ) (a b : ℤ) (ha : 0 ≤ a) (hb : 0 ≤ b) (hf : b < fuel) :
    findGcdRun fuel a b = some ((Int.gcd a b : ℕ) : ℤ) := by
  induction fuel generalizing a b with
  | zero => omega
  | succ fuel ih =>
    rw [findGcdRun]
    split
    · rename_i h0
      rw [h0, Int.gcd_zero_right, Int.natAbs_of_nonneg ha]
    · rename_i h0
      have hmod : a.tmod b = a % b := Int.tmod_eq_emod_of_nonneg ha
      have hlt := Int.emod_lt_of_pos a (lt_of_le_of_ne hb (Ne.symm h0))
      have hnn := Int.emod_nonneg a h0
      rw [hmod, ih b (a % b) hb hnn (by omega), Int.gcd_comm b, Int.gcd_emod]

/-- The loop over the odd numbers ends before they pass the denominator. -/
theorem oddDivisorRun_eq (f : Fraction) (fuel : ℕ) {i : ℤ} (hi : 0 < i)
    (hfuel : f.denominator < fuel + i) {n : ℕ} (hn : f.denominator < n + i) :
    f.oddDivisorRun (fuel + 1) i = some (f.oddDivisor n i) := by
  induction fuel generalizing i n with
  | zero =>
    have hend : ¬ i ≤ min f.numerator f.denominator := by
      have := min_le_right f.numerator f.denominator
      omega
    rw [oddDivisorRun, if_neg hend]
    cases n with
    | zero => rfl
    | succ n => rw [oddDivisor, if_neg hend]
  | succ fuel ih =>
    rw [oddDivisorRun]
    cases n with
    | zero =>
      have hend : ¬ i ≤ min f.numerator f.denominator := by
        have := min_le_right f.numerator f.denominator
        omega
      rw [if_neg hend]
      rfl
    | succ n =>
      rw [oddDivisor]
      split
      · split
        · rfl
        · exact ih (by omega) (by omega) (by omega)
      · rfl

/-- A divisor greater than one makes the denominator smaller. -/
theorem tdiv_lt_of_pos {d k : ℤ} (hd : 0 < d) (hk : 1 < k) (hmod : d.tmod k = 0) :
    0 < d.tdiv k ∧ d.tdiv k < d := by
  obtain ⟨m, rfl⟩ := Int.dvd_of_tmod_eq_zero hmod
  rw [Int.mul_tdiv_cancel_left _ (by omega)]
  have hm : 0 < m := pos_of_mul_pos_right hd (by omega)
  exact ⟨hm, by nlinarith only [hm, hk]⟩

theorem oddDivisor_gt_one {f : Fraction} {fuel : ℕ} {i k : ℤ} (hi : 1 < i)
    (h : f.oddDivisor fuel i = some k) : 1 < k := by
  induction fuel generalizing i with
  | zero => cases h
  | succ fuel ih =>
    rw [oddDivisor] at h
    split at h
    · split at h
      · exact Option.some.inj h ▸ hi
      · exact ih (by omega) h
    · cases h

/-- Each call of `reduce` is on a smaller denominator. -/
theorem reduceRun_eq {f : Fraction} (hf : f.Pos) {n : ℕ} (hn : f.denominator ≤ n) {fuel : ℕ}
    (hfuel : f.denominator < fuel) : reduceRun fuel f = some (reduceWith n f) := by
  rw [Pos] at hf
  induction fuel generalizing f n with
  | zero => omega
  | succ fuel ih =>
    obtain ⟨m, rfl⟩ : ∃ m, n = m + 1 := ⟨n - 1, by omega⟩
    have hcall : ∀ k : ℤ, 1 < k → f.denominator.tmod k = 0 →
        reduceRun fuel ⟨f.numerator.tdiv k, f.denominator.tdiv k⟩ =
          some (reduceWith m ⟨f.numerator.tdiv k, f.denominator.tdiv k⟩) := by
      intro k hk hmod
      obtain ⟨hpos, hlt⟩ := tdiv_lt_of_pos hf hk hmod
      refine ih hpos ?_ ?_
      · show f.denominator.tdiv k ≤ m
        omega
      · show f.denominator.tdiv k < fuel
        omega
    rw [reduceRun, reduceWith]
    split
    · rfl
    · split
      · rename_i heven
        exact hcall 2 (by decide) heven.1
      · obtain ⟨spare, rfl⟩ : ∃ spare, fuel = spare + 1 := ⟨fuel - 1, by omega⟩
        rw [oddDivisorRun_eq f spare (by decide) (by omega)
          (n := f.denominator.natAbs) (by omega), Option.bind_some]
        cases hodd : f.oddDivisor f.denominator.natAbs 3 with
        | none => rfl
        | some k =>
          exact hcall k (oddDivisor_gt_one (by decide) hodd) (oddDivisor_spec (by decide) hodd).2.1

open Fuel (Returns)

theorem reduceRun_returns {f : Fraction} (hf : f.Pos) :
    Returns (fun fuel => reduceRun fuel f) (· = f.reduce) :=
  ⟨f.reduce, rfl, f.denominator.natAbs + 1, fun fuel hfuel =>
    reduceRun_eq hf (by omega) (by rw [Pos] at hf; omega)⟩

theorem plusRun_returns {f g : Fraction} (hf : f.Pos) (hg : g.Pos) :
    Returns (plusRun f g) (· = f.plus g) := by
  have hgcd : Returns (fun fuel => findGcdRun fuel f.denominator g.denominator)
      (· = findGcd (g.denominator.natAbs + 1) f.denominator g.denominator) := by
    rw [Pos] at hf hg
    refine ⟨_, rfl, g.denominator.natAbs + 1, fun fuel hfuel => ?_⟩
    show findGcdRun fuel f.denominator g.denominator = _
    rw [findGcdRun_eq fuel _ _ hf.le hg.le (by omega), findGcd_eq _ _ _ hf.le hg.le (by omega)]
  refine hgcd.bind fun gcd heq => ?_
  rw [heq]
  exact reduceRun_returns (findLcm_pos hf hg)

theorem multiplyRun_returns {f g : Fraction} (hf : f.Pos) (hg : g.Pos) :
    Returns (multiplyRun f g) (· = f.multiply g) :=
  reduceRun_returns (show (⟨f.numerator * g.numerator, f.denominator * g.denominator⟩ :
    Fraction).Pos from mul_pos hf hg)

/-- The operations end, and are those of the rational numbers. -/
theorem arithmetic_exact (f g : Fraction) (hf : f.Pos) (hg : g.Pos) :
    (Returns (fun fuel => reduceRun fuel f) (· = f.reduce) ∧ f.reduce.Pos ∧
      f.reduce.value = f.value) ∧
    (Returns (plusRun f g) (· = f.plus g) ∧ (f.plus g).Pos ∧
      (f.plus g).value = f.value + g.value) ∧
    (Returns (plusRun f ⟨-g.numerator, g.denominator⟩) (· = f.subtract g) ∧ (f.subtract g).Pos ∧
      (f.subtract g).value = f.value - g.value) ∧
    (Returns (multiplyRun f g) (· = f.multiply g) ∧ (f.multiply g).Pos ∧
      (f.multiply g).value = f.value * g.value) ∧
    (0 < g.numerator →
      Returns (multiplyRun f ⟨g.denominator, g.numerator⟩) (· = f.divide g) ∧ (f.divide g).Pos ∧
        (f.divide g).value = f.value / g.value) ∧
    (f.lessThan g = true ↔ f.value < g.value) ∧
    (f.equals g = true ↔ f.value = g.value) := by
  have hneg : (⟨-g.numerator, g.denominator⟩ : Fraction).Pos := hg
  refine ⟨⟨reduceRun_returns hf, hf.reduce, value_reduce hf⟩,
    ⟨plusRun_returns hf hg, hf.plus hg, value_plus hf hg⟩,
    ⟨plusRun_returns hf hneg, hf.subtract hg, value_subtract hf hg⟩,
    ⟨multiplyRun_returns hf hg, hf.multiply hg, value_multiply hf hg⟩, fun hpos => ?_,
    lessThan_iff hf hg, equals_iff hf hg⟩
  exact ⟨multiplyRun_returns hf hpos, hf.divide hpos, value_divide hf hpos⟩

/-- Minus four halves, and the number 3. -/
theorem arithmetic_exact_minusFourHalves :
    ((⟨-4, 2⟩ : Fraction).plus (ofInt 3)).value = -2 + 3 ∧
      ((⟨-4, 2⟩ : Fraction).lessThan (ofInt 3) = true ↔ (-2 : ℚ) < 3) := by
  have hvalue : (⟨-4, 2⟩ : Fraction).value = -2 := by norm_num [value]
  have hthree : (ofInt 3).value = 3 := by norm_num [ofInt, value]
  have h := arithmetic_exact ⟨-4, 2⟩ (ofInt 3) (by decide : (0 : ℤ) < 2) (by decide : (0 : ℤ) < 1)
  rw [hvalue, hthree] at h
  exact ⟨h.2.1.2.2, h.2.2.2.2.2.1⟩

end Fraction

end HanabiBot
