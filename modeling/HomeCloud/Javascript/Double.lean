import Mathlib.Algebra.Order.Floor.Semiring
import Mathlib.Data.Int.Log
import Mathlib.Data.Rat.Floor
import Mathlib.Tactic.FieldSimp
import Mathlib.Tactic.Linarith
import Mathlib.Tactic.Positivity

/-!
# Numbers of JavaScript with 53 bits

A positive number is rounded to the nearest one with 53 bits, and in the middle between two of them to
the even one. Numbers too large or too small for their exponent do not come up.

* `toDouble`: the number that stands for a quantity.
* `mul`, `ceilDiv`: the products of integers, and `Math.ceil` of their quotients.
* **`ceilDiv_eq`**: below `2 ^ 53` the rounding of a quotient does not change its ceiling.
* **`min_mul`**: up to `2 ^ 53 - 1` a product is exact, and above that it stays above.
-/

namespace Javascript

/-! ## Rounding -/

/-- The nearest integer, the even one of two. -/
def roundEven (x : ℚ) : ℤ :=
  if Int.fract x < 1 / 2 then ⌊x⌋
  else if 1 / 2 < Int.fract x then ⌊x⌋ + 1
  else if ⌊x⌋ % 2 = 0 then ⌊x⌋ else ⌊x⌋ + 1

/-- What the last of the 53 bits of `q` counts for. -/
def ulp (q : ℚ) : ℚ := 2 ^ (Int.log 2 q - 52)

def toDouble (q : ℚ) : ℚ := roundEven (q / ulp q) * ulp q

theorem roundEven_intCast (n : ℤ) : roundEven n = n := by
  unfold roundEven
  rw [Int.fract_intCast, if_pos (by norm_num), Int.floor_intCast]

theorem floor_le_roundEven (x : ℚ) : ⌊x⌋ ≤ roundEven x := by
  unfold roundEven
  split_ifs <;> omega

theorem le_roundEven {x : ℚ} {n : ℤ} (h : n ≤ x) : n ≤ roundEven x :=
  (Int.le_floor.mpr h).trans (floor_le_roundEven x)

theorem roundEven_le {x : ℚ} {n : ℤ} (h : x ≤ n) : roundEven x ≤ n := by
  unfold roundEven
  have hfloor : ⌊x⌋ ≤ n := Int.floor_le_iff.mpr (by linarith)
  -- Where the number goes up, it is no integer.
  have hup : ¬ Int.fract x < 1 / 2 → ⌊x⌋ + 1 ≤ n := by
    intro hfract
    by_contra hlt
    have heq : (n : ℚ) = ⌊x⌋ := by
      have hn : n = ⌊x⌋ := by omega
      rw [hn]
    have hsum := Int.floor_add_fract x
    linarith
  split_ifs with h1 h2 h3
  · exact hfloor
  · exact hup h1
  · exact hfloor
  · exact hup h1

theorem lt_roundEven {x : ℚ} {n : ℤ} (h : n + 1 / 2 < x) : n < roundEven x := by
  have hle : n ≤ ⌊x⌋ := Int.le_floor.mpr (by linarith)
  rcases hle.lt_or_eq with hlt | heq
  · exact hlt.trans_le (floor_le_roundEven x)
  · have hsum := Int.floor_add_fract x
    rw [← heq] at hsum
    have hfract : 1 / 2 < Int.fract x := by linarith
    unfold roundEven
    rw [if_neg hfract.not_gt, if_pos hfract]
    omega

/-! ## Bits -/

section Bits

variable {q : ℚ}

theorem ulp_pos (q : ℚ) : 0 < ulp q := by
  exact zpow_pos two_pos _

/-- A quantity has 53 bits and more above its last bit. -/
theorem ulp_mul_le (hq : 0 < q) : ulp q * 2 ^ 52 ≤ q := by
  have hlog := Int.zpow_log_le_self (b := 2) (by decide) hq
  calc ulp q * 2 ^ 52 = 2 ^ Int.log 2 q := by
        unfold ulp
        rw [← zpow_natCast, ← zpow_add₀ two_ne_zero]
        congr 1
        omega
    _ ≤ q := by exact_mod_cast hlog

/-- Below `2 ^ 53` the last bit divides one. -/
theorem exists_ulp_mul (hpos : 0 < q) (hq : q < 2 ^ 53) : ∃ n : ℕ, ulp q * n = 1 := by
  have hlog : Int.log 2 q < 53 := by
    refine (Int.lt_zpow_iff_log_lt (by decide) hpos).mp ?_
    exact_mod_cast hq
  refine ⟨2 ^ (52 - Int.log 2 q).toNat, ?_⟩
  unfold ulp
  rw [Nat.cast_pow, Nat.cast_ofNat, ← zpow_natCast, ← zpow_add₀ two_ne_zero]
  rw [show Int.log 2 q - 52 + ((52 - Int.log 2 q).toNat : ℤ) = 0 by omega, zpow_zero]

/-- **Natural numbers below `2 ^ 53` are numbers themselves.** -/
theorem toDouble_natCast {n : ℕ} (h : n < 2 ^ 53) : toDouble n = n := by
  rcases Nat.eq_zero_or_pos n with rfl | hpos
  · simp [toDouble, roundEven]
  obtain ⟨k, hk⟩ := exists_ulp_mul (q := n) (by exact_mod_cast hpos) (by exact_mod_cast h)
  have hu := (ulp_pos (n : ℚ)).ne'
  have hdiv : (n : ℚ) / ulp n = ((n * k : ℕ) : ℤ) := by
    rw [div_eq_iff hu]
    push_cast
    rw [mul_assoc, mul_comm (k : ℚ), hk, mul_one]
  unfold toDouble
  rw [hdiv, roundEven_intCast]
  push_cast
  rw [mul_assoc, mul_comm (k : ℚ), hk, mul_one]

/-- A natural number above `q` stays above it. -/
theorem toDouble_le (hpos : 0 < q) (hq : q < 2 ^ 53) {n : ℕ} (h : q ≤ n) : toDouble q ≤ n := by
  obtain ⟨k, hk⟩ := exists_ulp_mul hpos hq
  have hu := ulp_pos q
  have hbits : ((n * k : ℕ) : ℤ) * ulp q = (n : ℚ) := by
    push_cast
    rw [mul_assoc, mul_comm (k : ℚ), hk, mul_one]
  have hround : roundEven (q / ulp q) ≤ ((n * k : ℕ) : ℤ) := by
    refine roundEven_le ((div_le_iff₀ hu).mpr ?_)
    rw [hbits]
    exact h
  calc toDouble q ≤ ((n * k : ℕ) : ℤ) * ulp q :=
        mul_le_mul_of_nonneg_right (by exact_mod_cast hround) hu.le
    _ = n := hbits

/-- A natural number that is more than half a bit below `q` stays below it. -/
theorem lt_toDouble (hpos : 0 < q) (hq : q < 2 ^ 53) {n : ℕ} (h : n + ulp q / 2 < q) : n < toDouble q := by
  obtain ⟨k, hk⟩ := exists_ulp_mul hpos hq
  have hu := ulp_pos q
  have hbits : ((n * k : ℕ) : ℤ) * ulp q = (n : ℚ) := by
    push_cast
    rw [mul_assoc, mul_comm (k : ℚ), hk, mul_one]
  have hround : ((n * k : ℕ) : ℤ) < roundEven (q / ulp q) := by
    refine lt_roundEven ((lt_div_iff₀ hu).mpr ?_)
    rw [add_mul, hbits]
    linarith
  calc (n : ℚ) = ((n * k : ℕ) : ℤ) * ulp q := hbits.symm
    _ < toDouble q := mul_lt_mul_of_pos_right (by exact_mod_cast hround) hu

/-- What is not below `2 ^ 53` does not get below it. -/
theorem le_toDouble (h : 2 ^ 53 ≤ q) : 2 ^ 53 ≤ toDouble q := by
  have hpos : 0 < q := by linarith [show (0 : ℚ) < 2 ^ 53 by norm_num]
  have hround : (2 : ℤ) ^ 52 ≤ roundEven (q / ulp q) := by
    refine le_roundEven ((le_div_iff₀ (ulp_pos q)).mpr ?_)
    push_cast
    rw [mul_comm]
    exact ulp_mul_le hpos
  have hulp : 2 ≤ ulp q := by
    have hlog : (53 : ℤ) ≤ Int.log 2 q := by
      refine (Int.zpow_le_iff_le_log (by decide) hpos).mp ?_
      exact_mod_cast h
    calc (2 : ℚ) = 2 ^ (1 : ℤ) := by norm_num
      _ ≤ ulp q := zpow_le_zpow_right₀ (by norm_num) (by omega)
  have hcast : (2 : ℚ) ^ 52 ≤ roundEven (q / ulp q) := by exact_mod_cast hround
  calc (2 : ℚ) ^ 53 = 2 ^ 52 * 2 := by norm_num
    _ ≤ roundEven (q / ulp q) * ulp q := mul_le_mul hcast hulp (by norm_num) (le_trans (by norm_num) hcast)

end Bits

/-! ## Operations -/

/-- `a * b`. -/
def mul (a b : ℕ) : ℕ := ⌊toDouble (a * b)⌋₊

/-- `Math.ceil(a / b)`. -/
def ceilDiv (a b : ℕ) : ℕ := ⌈toDouble (a / b)⌉₊

/-- **A product of natural numbers is exact up to `2 ^ 53 - 1`**, and above that it stays above. -/
theorem min_mul (a b : ℕ) : min (mul a b) (2 ^ 53 - 1) = min (a * b) (2 ^ 53 - 1) := by
  unfold mul
  rw [← Nat.cast_mul]
  by_cases h : a * b < 2 ^ 53
  · rw [toDouble_natCast h, Nat.floor_natCast]
  · rw [not_lt] at h
    have hle : (2 ^ 53 : ℕ) ≤ ⌊toDouble ((a * b : ℕ) : ℚ)⌋₊ := by
      refine Nat.le_floor ?_
      push_cast
      exact le_toDouble (by exact_mod_cast h)
    omega

/-- Half of the last bit of a quotient is less than one part in `b`. -/
theorem half_ulp_lt {a b : ℕ} (hpos : 0 < a) (ha : a < 2 ^ 53) (hb : 0 < b) :
    ulp (a / b : ℚ) / 2 < 1 / b := by
  have hb' : (0 : ℚ) < b := Nat.cast_pos.mpr hb
  have ha' : (a : ℚ) < 2 ^ 53 := by exact_mod_cast ha
  have hbits := ulp_mul_le (div_pos (Nat.cast_pos.mpr hpos) hb' : (0 : ℚ) < a / b)
  rw [le_div_iff₀ hb'] at hbits
  rw [div_lt_div_iff₀ two_pos hb']
  linarith

/-- **The rounding of a quotient does not change its ceiling.** -/
theorem ceilDiv_eq {a b : ℕ} (ha : a < 2 ^ 53) (hb : 0 < b) : ceilDiv a b = (a + b - 1) / b := by
  rcases Nat.eq_zero_or_pos a with rfl | hpos
  · simp [ceilDiv, toDouble, roundEven, Nat.div_eq_of_lt (show b - 1 < b by omega)]
  have hb' : (0 : ℚ) < b := Nat.cast_pos.mpr hb
  have hq : (0 : ℚ) < a / b := div_pos (Nat.cast_pos.mpr hpos) hb'
  have hlt : (a : ℚ) / b < 2 ^ 53 := by
    have hone : (1 : ℚ) ≤ b := by exact_mod_cast hb
    have ha' : (a : ℚ) < 2 ^ 53 := by exact_mod_cast ha
    rw [div_lt_iff₀ hb']
    nlinarith
  -- `a = n * b + r + 1` with `r < b`, and `n + 1` is the ceiling.
  obtain ⟨n, r, hr, hsum⟩ : ∃ n r, r < b ∧ a = n * b + r + 1 := by
    refine ⟨(a - 1) / b, (a - 1) % b, Nat.mod_lt _ hb, ?_⟩
    have hdiv := Nat.div_add_mod' (a - 1) b
    omega
  have hceil : (a + b - 1) / b = n + 1 := by
    rw [hsum, show n * b + r + 1 + b - 1 = r + (n + 1) * b by rw [Nat.succ_mul]; omega,
      Nat.add_mul_div_right _ _ hb, Nat.div_eq_of_lt hr, Nat.zero_add]
  have hexact : (a : ℚ) / b = n + (r + 1) / b := by
    have hcast : (a : ℚ) = n * b + r + 1 := by exact_mod_cast hsum
    rw [hcast]
    field_simp
    ring
  have hlow : 1 / (b : ℚ) ≤ (r + 1) / b :=
    div_le_div_of_nonneg_right (by linarith [show (0 : ℚ) ≤ r from Nat.cast_nonneg r]) hb'.le
  have hhigh : ((r : ℚ) + 1) / b ≤ 1 := (div_le_one hb').mpr (by exact_mod_cast hr)
  have hhalf := half_ulp_lt hpos ha hb
  rw [hceil]
  unfold ceilDiv
  rw [Nat.ceil_eq_iff (Nat.succ_ne_zero n), Nat.succ_eq_add_one, Nat.add_sub_cancel]
  constructor
  · exact lt_toDouble hq hlt (by linarith)
  · refine toDouble_le hq hlt ?_
    push_cast
    linarith

end Javascript
